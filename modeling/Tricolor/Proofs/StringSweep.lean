import Tricolor.Proofs.Handouts
import Tricolor.Proofs.ResumedSweep

/-!
# The collector's sweep of the strings

While the collector sweeps the strings, a program interns, frees and resizes objects between
its steps. What becomes of the intern table meanwhile is a resumed sweep, because interning
keeps the table from growing in this phase. So no dead string is linked when the phase is
over, and what is linked then outlives the sweeps that follow.
-/

namespace Tricolor

namespace Heap

variable {h h' : Heap} {supply : Supply} {r : Ref} {s' : Space}

/-! ## What a program does to the table -/

/-- What an operation does while the strings are swept: the sweep goes on where it was, and at most one object
was linked or removed. -/
structure Tends (h h' : Heap) : Prop where
  phase : h'.phase = h.phase
  cursor : h'.cycle.stringsCursor = h.cycle.stringsCursor
  strings : h.strings.Tended h'.strings

theorem Tends.space (h : Heap) (s' : Space) : h.Tends { h with space := s' } := ⟨rfl, rfl, .kept⟩

theorem release_tends (hrun : h.release r = .ok h') : h.Tends h' := by
  rw [release] at hrun
  obtain ⟨header, -, hrun⟩ := bind_eq_ok_iff.1 hrun
  split at hrun
  · obtain ⟨bytes, -, hrun⟩ := bind_eq_ok_iff.1 hrun
    obtain ⟨strings, hstrings, hrun⟩ := bind_eq_ok_iff.1 hrun
    obtain ⟨_, -, hret⟩ := bind_eq_ok_iff.1 hrun
    cases hstrings
    cases hret
    exact ⟨rfl, rfl, .removed _ r⟩
  · obtain ⟨strings, hstrings, hrun⟩ := bind_eq_ok_iff.1 hrun
    obtain ⟨_, -, hret⟩ := bind_eq_ok_iff.1 hrun
    cases hstrings
    cases hret
    exact ⟨rfl, rfl, .kept⟩

theorem free_tends {size : Nat} (hrun : h.free r size = .ok h') : h.Tends h' := by
  rw [free] at hrun
  obtain ⟨_, -, hrun⟩ := bind_eq_ok_iff.1 hrun
  obtain ⟨_, -, hrun⟩ := bind_eq_ok_iff.1 hrun
  obtain ⟨_, -, hrun⟩ := bind_eq_ok_iff.1 hrun
  obtain ⟨_, -, hrelease⟩ := bind_eq_ok_iff.1 hrun
  exact release_tends hrelease

theorem place_others {total : Nat} {result : Except AllocError Ref} (hrun : h.place supply total = .ok (result, h')) :
    ∃ s', h' = { h with space := s' } := by
  rw [place] at hrun
  split at hrun
  · obtain ⟨⟨r?, s₁⟩, -, hret⟩ := bind_eq_ok_iff.1 hrun
    cases hret
    exact ⟨s₁, rfl⟩
  · obtain ⟨⟨r?, s₁⟩, -, hrun⟩ := bind_eq_ok_iff.1 hrun
    cases r? with
    | error =>
      cases hrun
      exact ⟨s₁, rfl⟩
    | ok r =>
      obtain ⟨s₂, -, hret⟩ := bind_eq_ok_iff.1 hrun
      cases hret
      exact ⟨s₂, rfl⟩

/-- Making an object leaves everything but the space alone. -/
theorem alloc_others {kind : Kind} {size : Nat} {result : Except AllocError Ref}
    (hrun : h.alloc supply kind size = .ok (result, h')) : ∃ s', h' = { h with space := s' } := by
  rw [alloc] at hrun
  split at hrun
  · cases hrun
    exact ⟨_, rfl⟩
  · obtain ⟨total, -, hrun⟩ := bind_eq_ok_iff.1 hrun
    obtain ⟨⟨r?, h₁⟩, hplace, hrun⟩ := bind_eq_ok_iff.1 hrun
    obtain ⟨s₁, rfl⟩ := place_others hplace
    cases r? with
    | error =>
      cases hrun
      exact ⟨s₁, rfl⟩
    | ok r =>
      obtain ⟨s₂, -, hret⟩ := bind_eq_ok_iff.1 hrun
      cases hret
      exact ⟨s₂, rfl⟩

theorem finishResize_others {header : Header} {size : Nat} (hrun : h.finishResize r header size = .ok h') :
    ∃ s', h' = { h with space := s' } := by
  rw [finishResize] at hrun
  obtain ⟨s₁, -, hrun⟩ := ite_bind_eq_ok_iff.1 hrun
  obtain ⟨s₂, -, hret⟩ := bind_eq_ok_iff.1 hrun
  cases hret
  exact ⟨s₂, rfl⟩

/-- Moving an object removes at most the object. -/
theorem moveObject_tends {header : Header} {size : Nat} {result : Except AllocError Ref}
    (hrun : h.moveObject supply r header size = .ok (result, h')) : h.Tends h' := by
  rw [moveObject] at hrun
  obtain ⟨⟨moved?, h₁⟩, halloc, hrun⟩ := bind_eq_ok_iff.1 hrun
  obtain ⟨s₁, rfl⟩ := alloc_others halloc
  cases moved? with
  | error =>
    cases hrun
    exact .space h s₁
  | ok moved =>
    obtain ⟨bytes, -, hrun⟩ := bind_eq_ok_iff.1 hrun
    obtain ⟨s₂, -, hrun⟩ := bind_eq_ok_iff.1 hrun
    obtain ⟨s₃, -, hrun⟩ := ite_bind_eq_ok_iff.1 hrun
    obtain ⟨s₄, -, hrun⟩ := ite_bind_eq_ok_iff.1 hrun
    obtain ⟨marked, -, hrun⟩ := ite_bind_eq_ok_iff.1 hrun
    obtain ⟨s₅, -, hrun⟩ := ite_bind_eq_ok_iff.1 hrun
    obtain ⟨h₂, hrelease, hret⟩ := bind_eq_ok_iff.1 hrun
    cases hret
    obtain ⟨hphase, hcursor, hstrings⟩ := release_tends hrelease
    exact ⟨hphase, hcursor, hstrings⟩

theorem realloc_tends {old size : Nat} {result : Except AllocError Ref}
    (hrun : h.realloc supply r old size = .ok (result, h')) : h.Tends h' := by
  rw [realloc] at hrun
  obtain ⟨_, -, hrun⟩ := bind_eq_ok_iff.1 hrun
  split at hrun
  · cases hrun
    exact ⟨rfl, rfl, .kept⟩
  · obtain ⟨total, -, hrun⟩ := bind_eq_ok_iff.1 hrun
    obtain ⟨header, -, hrun⟩ := bind_eq_ok_iff.1 hrun
    obtain ⟨_, -, hrun⟩ := bind_eq_ok_iff.1 hrun
    obtain ⟨_, -, hrun⟩ := bind_eq_ok_iff.1 hrun
    split at hrun
    · obtain ⟨⟨moved?, s₁⟩, -, hrun⟩ := bind_eq_ok_iff.1 hrun
      cases moved? with
      | error =>
        cases hrun
        exact .space h s₁
      | ok moved =>
        obtain ⟨h₁, hfinish, hret⟩ := bind_eq_ok_iff.1 hrun
        cases hret
        obtain ⟨s₂, rfl⟩ := finishResize_others hfinish
        exact .space h s₂
    · obtain ⟨n, -, hrun⟩ := bind_eq_ok_iff.1 hrun
      split at hrun
      · obtain ⟨h₁, hfinish, hret⟩ := bind_eq_ok_iff.1 hrun
        cases hret
        obtain ⟨s₁, rfl⟩ := finishResize_others hfinish
        exact .space h s₁
      · exact moveObject_tends hrun

/-- Interning links at most one object, and while the strings are swept it does not let the table grow. -/
theorem intern_tends (hs : h.Sound) (hfresh : supply.Fresh h.space 0) (hp : h.phase = .sweepStrings)
    {bytes : List UInt8} {result : Except AllocError Ref} (hrun : h.intern supply bytes = .ok (result, h')) :
    h.Tends h' := by
  obtain ⟨herror, hok⟩ := intern_eq_ok hs hfresh hrun
  cases result with
  | error error =>
    obtain ⟨s', rfl, -⟩ := herror error rfl
    exact .space h s'
  | ok r =>
    cases hok r rfl with
    | found => exact ⟨rfl, rfl, .kept⟩
    | revived => exact .space h _
    | linked =>
      have hfixed : decide (h.cycle.phase ≠ .sweepStrings) = false := decide_eq_false (not_not_intro hp)
      refine ⟨rfl, rfl, ?_⟩
      show h.strings.Tended (h.strings.insert _ r (decide (h.cycle.phase ≠ .sweepStrings)))
      rw [hfixed]
      exact .inserted _ r

/-- A barrier that finds the strings being swept changes the space only. -/
theorem Forwards.tends {recorded : Heap → Prop} {e x : Entity} (hp : h.phase = .sweepStrings)
    (hf : h.Forwards e x r recorded h') : h.Tends h' := by
  cases hf with
  | idle => exact ⟨rfl, rfl, .kept⟩
  | marking hmarking =>
    rw [hp] at hmarking
    exact absurd hmarking (by decide)
  | sweeping => exact .space h _

/-- Every operation leaves the sweep of the strings where it was. -/
theorem Operation.tends {allowed : Resizings} (hs : h.Sound) (hp : h.phase = .sweepStrings)
    (hop : Operation allowed h h') : h.Tends h' := by
  cases hop with
  | alloc _ hrun =>
    obtain ⟨s', rfl⟩ := alloc_others hrun
    exact .space h s'
  | intern hfresh hrun => exact intern_tends hs hfresh hp hrun
  | free _ hrun => exact free_tends hrun
  | realloc _ _ hrun => exact realloc_tends hrun
  | writePayload _ hfits hrun =>
    obtain ⟨_, _, s', -, -, rfl, -⟩ := writePayload_eq_ok hs hfits hrun
    exact .space h s'
  | fix _ hrun =>
    obtain ⟨_, s', -, rfl, -⟩ := fix_eq_ok hs hrun
    exact .space h s'
  | registerFinalizer _ hrun =>
    obtain ⟨_, s', -, rfl, -⟩ := registerFinalizer_eq_ok hs hrun
    exact .space h s'
  | barrierForward hwriter hreferent hrun =>
    obtain ⟨e, he, -⟩ := hs.live_iff.1 hwriter
    obtain ⟨x, hx, -⟩ := hs.live_iff.1 hreferent
    exact (barrierForward_eq_ok hs he hx hrun).2.tends hp
  | barrierBack hcontainer hrun =>
    obtain ⟨e, he, -⟩ := hs.live_iff.1 hcontainer
    cases (barrierBack_eq_ok hs he hrun).2 with
    | idle => exact ⟨rfl, rfl, .kept⟩
    | greyed hmarking =>
      rw [hp] at hmarking
      exact absurd hmarking (by decide)
  | barrierSlot hwriter hreferent hrun =>
    obtain ⟨e, he, -⟩ := hs.live_iff.1 hwriter
    obtain ⟨x, hx, -⟩ := hs.live_iff.1 hreferent
    exact (barrierSlot_eq_ok hs he hx hrun).2.tends hp
  | setTraceActive | setPause | setStepMultiplier => exact ⟨rfl, rfl, .kept⟩

end Heap

namespace Machine

open InternTable

variable {σ : Type} {mu : Mutator σ} {m m' before : Machine σ} {r : Ref} {config : Config}
  {hashOf : List UInt8 → Hash}

/-! ## The sweep as the collector runs it -/

/-- While the strings are swept, an event is the next call of the sweep or leaves the sweep where it was. -/
theorem Event.tends {x : Option Exchange} (hs : m.heap.Sound) (hp : m.heap.phase = .sweepStrings)
    (h : Event mu m x m') : m.heap.Tends m'.heap ∨ m'.heap = m.heap.sweptStrings := by
  have hkept : m.heap.Tends m.heap := ⟨rfl, rfl, .kept⟩
  cases h with
  | request hdone =>
    rcases hdone.cases with hop | ⟨t, size, -, hrun⟩
    · exact .inl (hop.tends hs hp)
    · exact .inl (Heap.free_tends hrun)
  | operate hop => exact .inl (hop.tends hs hp)
  | compute => exact .inl hkept
  | setThreshold => exact .inl ⟨rfl, rfl, .kept⟩
  | collect _ hrun =>
    cases singleStep_eq_ok hrun with
    | blocked => exact .inl hkept
    | sweptStrings _ hstep => exact .inr (Heap.sweepStringsStep_eq_ok hstep)
    | started hq | propagated hq | finished hq | swept hq | finalized hq =>
      rw [hp] at hq
      cases hq
  | finalize hq | complete hq =>
    rw [hp] at hq
    cases hq

/-- Something happens while the strings are being swept. -/
def SweepsStrings (mu : Mutator σ) (m m' : Machine σ) : Prop := m.heap.phase = .sweepStrings ∧ Happens mu m m'

/-- The log is of the sweep that the collector is at, or has ended. -/
def IsAt (start : InternTable Ref) (m : Machine σ) (s : SweepLog Ref) : Prop :=
  s.table = m.heap.strings ∧
    (m.heap.phase = .sweepStrings ∧ s.cursor = m.heap.cycle.stringsCursor ∧ s.cursor < start.bucketCount ∨
      m.heap.phase = .sweep ∧ s.cursor = start.bucketCount)

/-- The next call of the sweep. -/
theorem IsAt.sweep {start : InternTable Ref} {s : SweepLog Ref} (hs : m.heap.Sound) (h : IsAt start m s)
    (hp : m.heap.phase = .sweepStrings) (hlog : Resumed start s) (hstart : start.Wf)
    (hswept : m'.heap = m.heap.sweptStrings) : ∃ s', Resumed start s' ∧ IsAt start m' s' := by
  obtain ⟨htable, ⟨-, hcursor, hlt⟩ | ⟨hq, -⟩⟩ := h
  · have hbuckets := (hlog.accounts hstart).buckets
    obtain ⟨isLive, hstrings⟩ : ∃ isLive, m.heap.sweptStrings.strings =
        (m.heap.strings.sweep m.heap.cycle.stringsCursor m.heap.config.stringsPerStep isLive).2.2 := ⟨_, rfl⟩
    have hlog' := hlog.sweep isLive hs.config.stringsPerStep (by rw [hbuckets]; exact hlt)
    have hsweep : s.table.sweep s.cursor m.heap.config.stringsPerStep isLive =
        m.heap.strings.sweep m.heap.cycle.stringsCursor m.heap.config.stringsPerStep isLive := by
      rw [htable, hcursor]
    have htable' : (s.sweep m.heap.config.stringsPerStep isLive).table = m.heap.sweptStrings.strings :=
      (congrArg (·.2.2) hsweep).trans hstrings.symm
    have hcursor' : (s.sweep m.heap.config.stringsPerStep isLive).cursor = m.heap.nextBucket :=
      congrArg (·.1) hsweep
    rw [htable] at hbuckets
    have hle : m.heap.nextBucket ≤ m.heap.strings.bucketCount := Nat.min_le_right _ _
    have hcycle := hs.cycle_sweptStrings
    refine ⟨_, hlog', htable'.trans (congrArg Heap.strings hswept.symm), ?_⟩
    rw [hcursor', Heap.phase, hswept, hcycle]
    split
    · exact .inr ⟨rfl, by omega⟩
    · exact .inl ⟨hp, rfl, by omega⟩
  · rw [hp] at hq
    cases hq

/-- Between two calls the log grows as the table does. -/
theorem IsAt.tends {start : InternTable Ref} {s : SweepLog Ref} (h : IsAt start m s)
    (hp : m.heap.phase = .sweepStrings) (hlog : Resumed start s) (htends : m.heap.Tends m'.heap) :
    ∃ s', Resumed start s' ∧ IsAt start m' s' := by
  obtain ⟨htable, ⟨-, hcursor, hlt⟩ | ⟨hq, -⟩⟩ := h
  · obtain ⟨s', hlog', htable', hcursor'⟩ := hlog.tended (htable ▸ htends.strings)
    exact ⟨s', hlog', htable', .inl ⟨htends.phase.trans hp, hcursor'.trans (hcursor.trans htends.cursor.symm),
      hcursor' ▸ hlt⟩⟩
  · rw [hp] at hq
    cases hq

/-- What becomes of the intern table while the strings are swept is a resumed sweep. -/
theorem resumed_of_sweepsStrings (hs : m.heap.Sound) (hp : m.heap.phase = .sweepStrings)
    (hzero : m.heap.cycle.stringsCursor = 0) (hrun : Relation.ReflTransGen (SweepsStrings mu) m m') :
    m'.heap.Sound ∧ ∃ s, Resumed m.heap.strings s ∧ IsAt m.heap.strings m' s := by
  induction hrun with
  | refl =>
    exact ⟨hs, .begin m.heap.strings, .begin, rfl, .inl ⟨hp, hzero.symm, hs.strings.buckets_pos⟩⟩
  | tail _ hlast ih =>
    obtain ⟨hs', s, hlog, hat⟩ := ih
    obtain ⟨hp', x, hevent⟩ := hlast
    refine ⟨hevent.sound hs', ?_⟩
    rcases hevent.tends hs' hp' with htends | hswept
    · exact hat.tends hp' hlog htends
    · exact hat.sweep hs' hp' hlog hs.strings hswept

/-- The end of marking is the beginning of a sweep of the strings. -/
theorem cursor_of_finished {result : Except CollectError Nat} (hp : before.heap.phase = .atomic)
    (hrun : before.singleStep mu = .ok (result, m)) (hswept : m.heap.phase = .sweepStrings) :
    m.heap.cycle.stringsCursor = 0 := by
  cases singleStep_eq_ok hrun with
  | blocked =>
    rw [hp] at hswept
    cases hswept
  | finished _ hstep =>
    rw [atomicStep] at hstep
    obtain ⟨_, -, hstep⟩ := bind_eq_ok_iff.1 hstep
    obtain ⟨_, -, hstep⟩ := bind_eq_ok_iff.1 hstep
    obtain ⟨_, -, hstep⟩ := bind_eq_ok_iff.1 hstep
    obtain ⟨_, -, hstep⟩ := bind_eq_ok_iff.1 hstep
    obtain ⟨_, -, hstep⟩ := bind_eq_ok_iff.1 hstep
    cases hstep
    rfl
  | started hq | propagated hq | sweptStrings hq | swept hq | finalized hq =>
    rw [hp] at hq
    cases hq

/-- When the strings have been swept, what is still linked outlives the pending sweep. -/
theorem linked_survives (hs : m.heap.Sound) (hp : m.heap.phase = .sweep) (hlinked : m.heap.Linked r) :
    m.heap.space.survives r = .ok true ∧ ∀ m', Relation.ReflTransGen (Spares mu r) m m' →
      m'.heap.isLive r = true ∧ m'.heap.Linked r := by
  obtain ⟨bytes, hnames⟩ := hs.linked_iff.1 hlinked
  obtain ⟨e, he, -, -, hor⟩ := hs.of_names hnames
  have hsurvives : e.survives = true := hor.resolve_right fun hsweeping => by
    rw [hp] at hsweeping
    cases hsweeping.1
  refine ⟨(Space.survives_eq hs.wf he).trans (congrArg _ hsurvives), fun m' hrun => ?_⟩
  obtain ⟨hs', hr, -, hkept⟩ := Spares.keeps hs (.inr (.inl hp)) ⟨e, he, hsurvives⟩ hrun
  exact ⟨hs'.isLive_iff.2 hr.holds, hs'.linked_iff.2 ⟨bytes, hkept hnames⟩⟩

/-- A sweep of the intern table in instalments is a whole sweep. At any time the calls number no more than the
buckets, whatever was linked at the beginning or since is linked or was swept or removed, each link once, the
answers add up to what was swept, and what all calls took for live is linked and found unless it was removed.
At the end nothing is left that all calls took for dead, except what was linked since; and if nothing else was
done, the calls did what one call for all buckets does.

The collector's sweep of the strings is such a sweep, from the end of marking on. When it is over, what is still
linked outlives the sweeps that follow and stays linked, unless a request drops it. -/
theorem resumed_sweep_is_whole (mu : Mutator σ) (config : Config) (hashOf : List UInt8 → Hash) :
    (∀ {α : Type} [DecidableEq α] {start : InternTable α} {s : SweepLog α}, start.Wf → Resumed start s →
      start.Accounts s ∧
        (∀ x ∈ start.links ++ s.inserted, (∀ isLive ∈ s.judges, isLive x.2 = true) → x ∉ s.removed →
          x ∈ s.table.links ∧ s.table.find x.1 (· == x.2) = some x.2) ∧
        (s.cursor = start.bucketCount →
          (∀ x, (∀ isLive ∈ s.judges, isLive x.2 = false) →
            s.table.links.count x ≤ s.inserted.count x ∧
              (x ∉ s.inserted → x ∉ s.table.links ∧ (s.swept ++ s.removed).count x = start.links.count x)) ∧
          ∀ isLive, (∀ judge ∈ s.judges, judge = isLive) → s.inserted = [] → s.removed = [] →
            s.table.links.Perm (start.sweep 0 start.bucketCount isLive).2.2.links ∧
              s.counted = (start.sweep 0 start.bucketCount isLive).2.1)) ∧
    ∀ {before m m' : Machine σ} {result : Except CollectError Nat}, Arises mu config hashOf before →
      before.heap.phase = .atomic → before.singleStep mu = .ok (result, m) → m.heap.phase = .sweepStrings →
      Relation.ReflTransGen (SweepsStrings mu) m m' → m'.heap.phase = .sweep →
        (∃ s, Resumed m.heap.strings s ∧ s.table = m'.heap.strings ∧ s.cursor = m.heap.strings.bucketCount) ∧
          ∀ r, m'.heap.Linked r → m'.heap.space.survives r = .ok true ∧
            ∀ m'', Relation.ReflTransGen (Spares mu r) m' m'' → m''.heap.isLive r = true ∧ m''.heap.Linked r := by
  refine ⟨fun {α} _ {start s} hstart hlog => ?_, fun {before m m' result} hm hp hstep hswept hrun hdone => ?_⟩
  · have ha := hlog.accounts hstart
    refine ⟨ha, fun x hx hlive hkept => ?_, fun hend => ⟨fun x hdead => ?_, fun isLive hsame hi hr => ?_⟩⟩
    · have hmem := ha.live hx hlive hkept
      exact ⟨hmem, ha.wf.find_of_mem hmem⟩
    · have hle := ha.dead_at_end hend hdead
      refine ⟨hle, fun hnew => ?_⟩
      have hcount := ha.count_unlinked x
      rw [List.count_eq_zero_of_not_mem hnew] at hle hcount
      exact ⟨List.count_eq_zero.1 (by omega), by omega⟩
    · exact ha.whole hstart hend hsame hi hr
  · have hs : m.heap.Sound := (Event.collect (by rw [hp]; decide) hstep).sound hm.sound
    obtain ⟨hs', s, hlog, htable, ⟨hq, -⟩ | ⟨-, hend⟩⟩ :=
      resumed_of_sweepsStrings hs hswept (cursor_of_finished hp hstep hswept) hrun
    · rw [hdone] at hq
      cases hq
    · exact ⟨⟨s, hlog, htable, hend⟩, fun r hr => linked_survives hs' hdone hr⟩

/-- A single step that succeeds happens. -/
theorem happens_singleStep {step : Except CollectError Nat × Machine σ} (hp : m.heap.phase ≠ .finalize)
    (hstep : m.singleStep mu = .ok step) : Happens mu m step.2 :=
  ⟨none, .collect hp hstep⟩

/-- A machine that interns a string between the two steps that sweep its strings. -/
theorem interned_while_sweeping : ∃ (before : Machine Ledger) (first : Except CollectError Nat × Machine Ledger)
    (last : Machine Ledger), Arises Ledger.mutator Ledger.blocksOnly (fun _ => 0) before ∧
      before.heap.phase = .atomic ∧ before.singleStep Ledger.mutator = .ok first ∧
      first.2.heap.phase = .sweepStrings ∧ Relation.ReflTransGen (SweepsStrings Ledger.mutator) first.2 last ∧
      last.heap.phase = .sweep ∧ last.heap.Linked (.huge 9) := by
  let idle : Machine Ledger := ⟨{}, Ledger.emptyHeap⟩
  let begun := answerOf (idle.singleStep Ledger.mutator) (by decide +kernel)
  let before := answerOf (begun.2.singleStep Ledger.mutator) (by decide +kernel)
  let first := answerOf (before.2.singleStep Ledger.mutator) (by decide +kernel)
  let second := answerOf (first.2.singleStep Ledger.mutator) (by decide +kernel)
  let interned := answerOf (second.2.heap.intern (.page 9) [97]) (by decide +kernel)
  let next : Machine Ledger := { second.2 with heap := interned.2 }
  obtain ⟨last, hlast, hphase, hlinked⟩ : ∃ last, next.singleStep Ledger.mutator = .ok last ∧
      last.2.heap.phase = .sweep ∧ last.2.heap.Linked (.huge 9) :=
    ⟨_, eq_answerOf (by decide +kernel), by decide +kernel, 0, by decide +kernel, by decide +kernel⟩
  have hbegun : idle.singleStep Ledger.mutator = .ok begun := eq_answerOf _
  have hbefore : begun.2.singleStep Ledger.mutator = .ok before := eq_answerOf _
  have hfirst : before.2.singleStep Ledger.mutator = .ok first := eq_answerOf _
  have hsecond : first.2.singleStep Ledger.mutator = .ok second := eq_answerOf _
  have hm : Arises Ledger.mutator Ledger.blocksOnly (fun _ => 0) before.2 :=
    ⟨{}, Ledger.emptyHeap, rfl, (Relation.ReflTransGen.single (happens_singleStep (by decide +kernel) hbegun)).tail
      (happens_singleStep (by decide +kernel) hbefore)⟩
  have hinterned : Happens Ledger.mutator second.2 next := by
    have hrun : second.2.heap.intern (.page 9) [97] = .ok (.ok (.huge 9), interned.2) :=
      eq_answerOf_of_fst (by decide +kernel) (by decide +kernel)
    exact ⟨_, .request (.intern (Supply.page_fresh (by decide) (by decide +kernel) (by decide +kernel) 0) hrun)⟩
  have hrun : Relation.ReflTransGen (SweepsStrings Ledger.mutator) first.2 last.2 :=
    ((Relation.ReflTransGen.single ⟨by decide +kernel, happens_singleStep (by decide +kernel) hsecond⟩).tail
      ⟨by decide +kernel, hinterned⟩).tail ⟨by decide +kernel, happens_singleStep (by decide +kernel) hlast⟩
  exact ⟨before.2, first, last.2, hm, by decide +kernel, hfirst, by decide +kernel, hrun, hphase, hlinked⟩

/-- A sweep in two calls unlinks the dead one of two objects in one bucket, and an object that is linked between
the calls, behind the cursor, stays. So does a string that is interned while the collector sweeps the strings. -/
theorem linked_behind_cursor_stays :
    (∃ (start : InternTable Nat) (s : SweepLog Nat), start.Wf ∧ start.links.Perm [(69, 2), (5, 1)] ∧
      Resumed start s ∧ s.calls = 2 ∧ (69, 2) ∉ s.table.links ∧ s.table.find 5 (· == 1) = some 1 ∧
        s.table.find 3 (· == 7) = some 7) ∧
    ∃ m m' : Machine Ledger, m.heap.phase = .sweepStrings ∧
      Relation.ReflTransGen (SweepsStrings Ledger.mutator) m m' ∧ m'.heap.phase = .sweep ∧
        m'.heap.Linked (.huge 9) ∧ m'.heap.space.survives (.huge 9) = .ok true := by
  obtain ⟨htable, hheap⟩ := resumed_sweep_is_whole Ledger.mutator Ledger.blocksOnly fun _ => 0
  constructor
  · obtain ⟨hone, hone', -⟩ := insert_spec (wf_empty : (InternTable.empty : InternTable Nat).Wf) 5 1 true
    obtain ⟨hstart, htwo, -⟩ := insert_spec hone 69 2 true
    have hlinks := htwo.trans (hone'.cons (69, 2))
    have hcount : ((InternTable.empty.insert 5 1 true).insert 69 2 true : InternTable Nat).bucketCount = 64 := rfl
    generalize (InternTable.empty.insert 5 1 true).insert 69 2 true = start at hstart hlinks hcount
    let isLive : Nat → Bool := (· != 2)
    let half := ((SweepLog.begin start).sweep 32 isLive).insert 3 7
    have hquarter := Resumed.begin.sweep isLive (by decide : 0 < 32) (show 0 < start.bucketCount by omega)
    have hhalf : Resumed start half := hquarter.insert 3 7
    have hbuckets : half.table.bucketCount = 64 := (hhalf.accounts hstart).buckets.trans hcount
    have hhalfway : half.cursor = 32 := congrArg (min 32) hcount
    have hlog := hhalf.sweep isLive (by decide : 0 < 32) (by rw [hhalfway, hbuckets]; decide)
    have hcursor : (half.sweep 32 isLive).cursor = start.bucketCount := by
      rw [SweepLog.cursor_sweep, hhalfway, hbuckets, hcount]
      rfl
    obtain ⟨-, hlive, hend⟩ := htable hstart hlog
    obtain ⟨hdead, -⟩ := hend hcursor
    have hjudges : ∀ judge ∈ (half.sweep 32 isLive).judges, judge = isLive := by
      rintro judge hjudge
      exact (List.mem_pair.1 hjudge).elim id id
    refine ⟨start, half.sweep 32 isLive, hstart, hlinks, hlog, rfl, ?_, ?_, ?_⟩
    · exact ((hdead (69, 2) fun judge hjudge => by rw [hjudges judge hjudge]; rfl).2
        (show ((69, 2) : Hash × Nat) ∉ [(3, 7)] by decide)).1
    · exact (hlive (5, 1) (List.mem_append_left _ (hlinks.symm.subset (by decide)))
        (fun judge hjudge => by rw [hjudges judge hjudge]; rfl) List.not_mem_nil).2
    · exact (hlive (3, 7) (List.mem_append_right _ List.mem_cons_self)
        (fun judge hjudge => by rw [hjudges judge hjudge]; rfl) List.not_mem_nil).2
  · obtain ⟨before, ⟨result, m⟩, m', hm, hp, hstep, hswept, hrun, hdone, hlinked⟩ := interned_while_sweeping
    obtain ⟨-, hsurvives⟩ := hheap hm hp hstep hswept hrun hdone
    exact ⟨m, m', hswept, hrun, hdone, hlinked, (hsurvives _ hlinked).1⟩

end Machine

end Tricolor
