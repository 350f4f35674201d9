import Tricolor.Proofs.Ledger
import Tricolor.Proofs.Program.Stage

/-!
# Runs of ledgers

Ledgers are orderly programs. `Ledger.follows` and `Ledger.follows_empty` say when one ledger may
come after another, and `Passes.trail` turns single steps that were carried out into a run.

`Ledger.cache` is a machine to try collections on: a weak table, which is a root, caches an object,
and besides refers strongly to another one.
-/

namespace Tricolor

namespace Machine

variable {σ : Type} {mu : Mutator σ} {m m' : Machine σ} {l : List (Machine σ)} {n : Nat}

/-- Performs `n` single steps, but none once finalizers are due. Answers the machines after each,
the last one first. -/
def trail (mu : Mutator σ) (m : Machine σ) : Nat → Except Fault (List (Machine σ))
  | 0 => return []
  | n + 1 => do
    let l ← m.trail mu n
    let last := l.headD m
    if last.heap.phase = .finalize then return l
    else
      let (_, next) ← last.singleStep mu
      return next :: l

/-- The cycle ends. -/
def ended (m : Machine σ) (s : Space) : Machine σ :=
  { m with heap := Heap.enterPause { m.heap with space := s } }

end Machine

namespace Stage

variable {σ : Type} {mu : Mutator σ} {m : Machine σ} {l : List (Machine σ)} {n : Nat}

/-- Single steps are a run in which nothing is at hand. -/
theorem Passes.trail (h : m.trail mu n = .ok l) :
    Passes mu ⟨m, nothing⟩ (l.map fun m => ⟨m, nothing⟩) ⟨l.headD m, nothing⟩ := by
  induction n generalizing l with
  | zero =>
    cases h
    exact .refl
  | succ n ih =>
    rw [Machine.trail] at h
    obtain ⟨l', hl', h⟩ := bind_eq_ok_iff.1 h
    dsimp only at h
    split at h
    · cases h
      exact ih hl'
    · next hp =>
      obtain ⟨⟨result, next⟩, hrun, h⟩ := bind_eq_ok_iff.1 h
      cases h
      exact .step (ih hl') (.collect hp hrun)

/-- Single steps until finalizers would be due, of which there are none, are a run that ends a cycle. -/
theorem Passes.cycle {s : Space} (h : m.trail mu n = .ok l) (hp : (l.headD m).heap.phase = .finalize)
    (htake : (l.headD m).heap.space.takePendingFinalizer = .ok (none, s)) :
    Passes mu ⟨m, nothing⟩ (((l.headD m).ended s :: l).map fun m => ⟨m, nothing⟩)
      ⟨(l.headD m).ended s, nothing⟩ :=
  .step (.trail h) (.complete hp htake)

end Stage

namespace Ledger

variable {l l' : Ledger} {s s' : Space} {hands : Ref → Prop} {stored : Ref → Ref → Prop} {r t k w : Ref}

/-- The finalizers of a ledger do nothing, so they are runs. -/
theorem orderly (config : Config) (hashOf : List UInt8 → Hash) : Stage.Orderly mutator config hashOf :=
  { faithful with
    finalizers := fun _ hrun => by
      cases hrun
      exact ⟨[], _, .refl⟩ }

/-- References were dropped from a ledger, what is at hand became a root, and what may be stored was
written down. -/
theorem follows (hroots : ∀ r ∈ l'.roots, r ∈ l.roots ∨ hands r)
    (hslots : ∀ e ∈ l'.slots, e ∈ l.slots ∨ stored e.1 e.2)
    (hentries : ∀ e ∈ l'.entries, e ∈ l.entries ∨ stored e.1 e.2.1 ∧ stored e.1 e.2.2)
    (hmodes : ∀ r, (∀ t, ¬ stored r t) → l'.mode r = l.mode r) :
    (mutator.graph l).Follows s (mutator.graph l') s hands stored where
  root hr := hroots _ hr
  edge {r v} hv := by
    obtain ⟨e, he, hv⟩ := hv
    obtain ⟨hleaf, ⟨x, hx, rfl⟩ | ⟨hkind, hv⟩⟩ := refers_iff.1 hv
    · exact (hslots _ hx).imp_left fun hx => ⟨e, he, refers_iff.2 ⟨hleaf, .inl ⟨x, hx, rfl⟩⟩⟩
    · obtain ⟨k, w, hmem, hv⟩ := mem_entryVisits.1 hv
      refine (hentries _ hmem).imp (fun hmem => ?_) fun hstored => ?_
      · exact ⟨e, he, refers_iff.2 ⟨hleaf, .inr ⟨hkind, mem_entryVisits.2 ⟨k, w, hmem, hv⟩⟩⟩⟩
      · rcases hv with rfl | rfl
        · exact hstored.1
        · exact hstored.2
  mode {r e} _ _ hstored := by
    rw [Graph.mode, Graph.mode, show (mutator.graph l').weakMode r = l.mode r from hmodes r hstored]
    rfl

/-- A ledger without references stays one, whatever happens to the heap. -/
theorem follows_empty : (mutator.graph {}).Follows s (mutator.graph {}) s' hands stored where
  root hr := .inl hr
  edge hv := by
    obtain ⟨e, -, hv⟩ := hv
    obtain ⟨-, ⟨x, hx, -⟩ | ⟨-, hv⟩⟩ := refers_iff.1 hv
    · exact absurd hx List.not_mem_nil
    · obtain ⟨k, w, hmem, -⟩ := mem_entryVisits.1 hv
      exact absurd hmem List.not_mem_nil
  mode _ _ _ := rfl

end Ledger

/-! ## A cache -/

/-- The heap after an object was placed on a page of its own. -/
def Heap.withBlock (h : Heap) (p : Page) (kind : Kind) : Heap :=
  match h.alloc (.page p) kind cellBytes with
  | .ok (_, h) => h
  | .error _ => h

/-- Placing an object is an allocation that succeeds. -/
theorem Heap.alloc_withBlock {h : Heap} {p : Page} {kind : Kind}
    (hok : (h.alloc (.page p) kind cellBytes).isOk = true)
    (hfst : (answerOf _ hok).1 = .ok (.huge p)) :
    h.alloc (.page p) kind cellBytes = .ok (.ok (.huge p), h.withBlock p kind) := by
  have hrun := eq_answerOf_of_fst hok hfst
  rw [Heap.withBlock, hrun]

/-- Outside marking, nothing is to be done for a container that was written to. -/
theorem Heap.barrierBack_idle {h : Heap} {r : Ref} (hp : h.isMarking = false) : h.barrierBack r = .ok h := by
  rw [Heap.barrierBack, hp]
  rfl

namespace Ledger

/-- A configuration that makes every object a block of its own. -/
def blocksOnly : Config := { hugeThreshold := 1 }

/-- A heap without objects. -/
def emptyHeap : Heap := answerOf (Heap.build blocksOnly fun _ => 0) (by decide +kernel)

/-- Table 5 refers to the function 8, and caches the thread 6, which refers to the object 7. -/
def cacheRefs : Ledger where
  slots := [(.huge 5, .huge 8), (.huge 6, .huge 7)]
  entries := [(.huge 5, .huge 5, .huge 6)]
  modes := [(.huge 5, .values)]

/-- A machine with a cache that is a root. -/
def cache : Machine Ledger where
  program := { cacheRefs with roots := [.huge 5] }
  heap := (((emptyHeap.withBlock 5 .table).withBlock 6 .thread).withBlock 7 .udata).withBlock 8 .func

/-- Placing an object for a program without references, whose finalizers may be anything. -/
theorem passes_withBlock {mu : Mutator Ledger} (hmu : mu.graph = mutator.graph) {h : Heap} {hands : Ref → Prop}
    (p : Page) (kind : Kind) (hfresh : (Supply.page p).Fresh h.space 0)
    (hok : (h.alloc (.page p) kind cellBytes).isOk = true) (hfst : (answerOf _ hok).1 = .ok (.huge p)) :
    ∃ l, Stage.Passes mu ⟨⟨{}, h⟩, hands⟩ l ⟨⟨{}, h.withBlock p kind⟩, fun t => hands t ∨ t = .huge p⟩ := by
  have hfollows : (mu.graph {}).Follows h.space (mu.graph {}) (h.withBlock p kind).space hands Graph.storeless := by
    rw [hmu]
    exact follows_empty
  have hplaced : Stage.Act mu ⟨⟨{}, h⟩, hands⟩
      ⟨⟨{}, h.withBlock p kind⟩, fun t => hands t ∨ (.ok (.huge p) : Except AllocError Ref) = .ok t⟩ :=
    .alloc hfresh (Heap.alloc_withBlock hok hfst) hfollows
  refine ⟨_, (Stage.Passes.single (.act hplaced)).step (.act (.forget fun t ht => ht.imp_right fun h => ?_))⟩
  rw [h]

/-- The same of a ledger that was reached. -/
theorem reachable_withBlock {h : Heap} {hands : Ref → Prop} (p : Page) (kind : Kind)
    (hc : Stage.Reachable mutator blocksOnly (fun _ => 0) ⟨⟨{}, h⟩, hands⟩)
    (hfresh : (Supply.page p).Fresh h.space 0) (hok : (h.alloc (.page p) kind cellBytes).isOk = true)
    (hfst : (answerOf _ hok).1 = .ok (.huge p)) :
    Stage.Reachable mutator blocksOnly (fun _ => 0) ⟨⟨{}, h.withBlock p kind⟩, fun t => hands t ∨ t = .huge p⟩ := by
  obtain ⟨l, hrun⟩ := passes_withBlock rfl p kind hfresh hok hfst
  exact hc.passes hrun

/-- Writing references to what is at hand into a table or a thread, while nothing is being marked. -/
theorem reachable_written {h : Heap} {hands : Ref → Prop} (l' : Ledger) (container : Ref) (kind : Kind)
    (hc : Stage.Reachable mutator blocksOnly (fun _ => 0) ⟨⟨l, h⟩, hands⟩) (hcontainer : hands container)
    (hkind : h.kind container = .ok kind) (haggregate : kind.isAggregate = true) (hp : h.isMarking = false)
    (hroots : ∀ r ∈ l'.roots, r ∈ l.roots ∨ hands r)
    (hslots : ∀ e ∈ l'.slots, e ∈ l.slots ∨ e.1 = container ∧ hands e.2)
    (hentries : ∀ e ∈ l'.entries, e ∈ l.entries ∨ (e.1 = container ∧ hands e.2.1) ∧ e.1 = container ∧ hands e.2.2)
    (hmodes : ∀ r, r ≠ container → l'.mode r = l.mode r) :
    Stage.Reachable mutator blocksOnly (fun _ => 0) ⟨⟨l', h⟩, hands⟩ := by
  have hfollows : (mutator.graph l).Follows h.space (mutator.graph l') h.space hands
      (fun r t => r = container ∧ hands t) :=
    follows hroots hslots hentries fun r hr => hmodes r fun heq => hr container ⟨heq, hcontainer⟩
  have hc := hc.step (.act (.storeBack hcontainer hkind haggregate hfollows (Heap.barrierBack_idle hp)))
  exact hc.step (.act (.forget fun t ht => .inl ht))

/-- The cache comes about by allocations and stores. -/
theorem cache_reachable : Stage.Reachable mutator blocksOnly (fun _ => 0) ⟨cache, Stage.nothing⟩ := by
  have hstart : Stage.Initial mutator blocksOnly (fun _ => 0) ⟨⟨{}, emptyHeap⟩, Stage.nothing⟩ :=
    .intro rfl fun r hr => absurd hr List.not_mem_nil
  have h₅ := reachable_withBlock 5 .table (.initial hstart)
    (Supply.page_fresh (by decide) rfl (by decide +kernel) 0) (by decide +kernel) (by decide +kernel)
  have h₆ := reachable_withBlock 6 .thread h₅
    (Supply.page_fresh (by decide) (by decide +kernel) (by decide +kernel) 0) (by decide +kernel) (by decide +kernel)
  have h₇ := reachable_withBlock 7 .udata h₆
    (Supply.page_fresh (by decide) (by decide +kernel) (by decide +kernel) 0) (by decide +kernel) (by decide +kernel)
  have h₈ := reachable_withBlock 8 .func h₇
    (Supply.page_fresh (by decide) (by decide +kernel) (by decide +kernel) 0) (by decide +kernel) (by decide +kernel)
  have h₈ : Stage.Reachable mutator blocksOnly (fun _ => 0) ⟨⟨{}, cache.heap⟩, _⟩ := h₈
  have hthread := reachable_written { slots := [(.huge 6, .huge 7)] } (.huge 6) .thread h₈
    (by simp) (by decide +kernel) rfl (by decide +kernel) (by simp) (by simp) (by simp) (fun _ _ => rfl)
  have htable := reachable_written cacheRefs (.huge 5) .table hthread
    (by simp) (by decide +kernel) rfl (by decide +kernel) (by decide) (by simp [cacheRefs]) (by simp [cacheRefs])
    (fun r hr => by
      have hne : (r == Ref.huge 5) = false := beq_eq_false_iff_ne.2 hr
      rw [mode, mode, cacheRefs, List.lookup_cons, hne])
  have hroot := htable.step (.act (@Stage.Act.compute _ _ _ cache.program
    (follows (by simp [cache]) (fun _ => .inl) (fun _ => .inl) fun _ _ => rfl)))
  exact hroot.step (.act (.forget fun _ => False.elim))

/-- Nothing is listed in a space without arenas whose lists are empty. -/
theorem unlisted {s : Space} {r : Ref} (harenas : s.arenas.size = 0) (hfixed : s.hugeFixed = #[])
    (hidle : s.hugeFinalizers = #[]) (hpending : s.hugePending = #[]) :
    ¬ ((s.slot r).fixed ∨ (s.slot r).idle ∨ (s.slot r).pending) := by
  rw [Space.slot]
  split
  · simp [Space.hugeSlot, hfixed, hidle, hpending]
  · have hnone : s.arena? r.page = none := by
      rw [Space.arena?, Option.bind_eq_none_iff]
      exact fun i _ => Array.getElem?_eq_none (by omega)
    rw [hnone]
    exact fun h => h.elim id (Or.elim · id id)

/-- An object refers strongly to what its slots have. -/
theorem strong_slot {l : Ledger} {s : Space} {r t : Ref} {e : Entity} (hslot : (r, t) ∈ l.slots)
    (he : (s.slot r).entity? = some e) (hleaf : e.header.kind.isLeaf = false) :
    (mutator.graph l).Strong s r (.strong t) :=
  ⟨e, he, refers_iff.2 ⟨hleaf, .inl ⟨t, hslot, rfl⟩⟩, .inl rfl⟩

/-- A table refers to the values of its entries. -/
theorem edge_value {l : Ledger} {s : Space} {r k w : Ref} {e : Entity} (hentry : (r, k, w) ∈ l.entries)
    (he : (s.slot r).entity? = some e) (hkind : e.header.kind = .table) :
    (mutator.graph l).Edge s r (.value w) :=
  ⟨e, he, refers_iff.2 ⟨by rw [hkind]; rfl, .inr ⟨hkind, mem_entryVisits.2 ⟨k, w, hentry, .inr rfl⟩⟩⟩⟩

/-- A cycle of the cache: the table is still a root, and refers to the function. -/
theorem cache_cycle : ∃ (result : Except CollectError Nat) (m m' : Machine Ledger) (l : List (Machine Ledger)),
    cache.singleStep mutator = .ok (result, m) ∧ m.heap.phase = .propagate ∧
      Stage.Passes mutator ⟨m, Stage.nothing⟩ (l.map fun m => ⟨m, Stage.nothing⟩) ⟨m', Stage.nothing⟩ ∧
      m'.heap.phase = .pause ∧ .huge 5 ∈ m'.program.roots ∧ (.huge 5, .huge 8) ∈ m'.program.slots ∧
      (m'.heap.space.slot (.huge 5)).entity?.any (fun e => e.header.kind = .table) = true := by
  let first := answerOf (cache.singleStep mutator) (by decide +kernel)
  let trail := answerOf (first.2.trail mutator 8) (by decide +kernel)
  let taken := answerOf (trail.headD first.2).heap.space.takePendingFinalizer (by decide +kernel)
  exact ⟨first.1, first.2, (trail.headD first.2).ended taken.2, _, eq_answerOf (by decide +kernel),
    by decide +kernel, .cycle (eq_answerOf (by decide +kernel)) (by decide +kernel)
      (eq_answerOf_of_fst (by decide +kernel) (by decide +kernel)), by decide +kernel, by decide +kernel,
    by decide +kernel, by decide +kernel⟩

/-- The program writes a reference down. -/
def withSlot (m : Machine Ledger) (r t : Ref) : Ledger :=
  { m.program with slots := (r, t) :: m.program.slots }

/-- In the midst of marking, the table and the function have been traversed, and the thread has not been
found. A store of it into the function records it. -/
theorem cache_stored : ∃ (l : List (Machine Ledger)) (m : Machine Ledger) (h : Heap),
    Stage.Passes mutator ⟨cache, Stage.nothing⟩ (l.map fun m => ⟨m, Stage.nothing⟩) ⟨m, Stage.nothing⟩ ∧
      m.heap.phase = .propagate ∧ .huge 5 ∈ m.program.roots ∧ (.huge 5, .huge 8) ∈ m.program.slots ∧
      (.huge 5, .huge 5, .huge 6) ∈ m.program.entries ∧
      (m.heap.space.slot (.huge 5)).entity?.any (fun e => e.header.kind = .table) = true ∧
      m.heap.kind (.huge 8) = .ok .func ∧ m.heap.barrierForward (.huge 8) (.huge 6) = .ok h ∧
      h.phase = .propagate ∧ (h.space.slot (.huge 8)).entity?.any (fun e => !e.header.kind.isLeaf) = true ∧
      h.isLive (.huge 8) = true ∧ h.space.isMarked (.huge 8) = .ok true ∧ 8 ∉ h.space.hugeGrey ∧
      h.space.isMarked (.huge 6) = .ok false := by
  let trail := answerOf (cache.trail mutator 2) (by decide +kernel)
  let m := trail.headD cache
  let h := answerOf (m.heap.barrierForward (.huge 8) (.huge 6)) (by decide +kernel)
  exact ⟨trail, m, h, .trail (eq_answerOf (by decide +kernel)), by decide +kernel, by decide +kernel,
    by decide +kernel, by decide +kernel, by decide +kernel, by decide +kernel, eq_answerOf (by decide +kernel),
    by decide +kernel, by decide +kernel, by decide +kernel, by decide +kernel, by decide +kernel,
    by decide +kernel⟩

/-- When all but the atomic step of the marking is done, what is cached has not been reached. -/
theorem cache_atomic : ∃ (l : List (Machine Ledger)) (m : Machine Ledger)
    (next : Except CollectError Nat × Machine Ledger),
    Stage.Passes mutator ⟨cache, Stage.nothing⟩ (l.map fun m => ⟨m, Stage.nothing⟩) ⟨m, Stage.nothing⟩ ∧
      m.heap.phase = .atomic ∧ (.huge 5, .huge 5, .huge 6) ∈ m.program.entries ∧
      m.singleStep mutator = .ok next ∧ next.2.heap.phase = .sweepStrings ∧
      next.2.heap.kind (.huge 5) = .ok .table ∧ next.2.heap.space.isMarked (.huge 5) = .ok true ∧
      mutator.weakMode next.2.program (.huge 5) = .values ∧ next.2.heap.kind (.huge 6) = .ok .thread ∧
      next.2.heap.space.isMarked (.huge 6) = .ok false := by
  let trail := answerOf (cache.trail mutator 3) (by decide +kernel)
  let m := trail.headD cache
  let next := answerOf (m.singleStep mutator) (by decide +kernel)
  exact ⟨trail, m, next, .trail (eq_answerOf (by decide +kernel)), by decide +kernel, by decide +kernel,
    eq_answerOf _, by decide +kernel, by decide +kernel, by decide +kernel, by decide +kernel, by decide +kernel,
    by decide +kernel⟩

end Ledger

end Tricolor
