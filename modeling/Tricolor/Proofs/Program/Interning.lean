import Tricolor.Proofs.Heap.Strings
import Tricolor.Proofs.Program.Soundness

/-!
# Interning over runs

At every stage of every run, what the intern table links are allocated strings, each in the chain
for its contents, and no two have the same contents. Every step of a run, of the program or of the
collector, relinks strings as `Heap.Relinks` says. So a string that stays in use stays the answer for
its contents, and a string is only reclaimed after it has been unlinked.
-/

namespace Tricolor

namespace Machine

variable {σ : Type} {mu : Mutator σ} {m m' : Machine σ}

/-- Finishing the marking changes no payload. -/
theorem Finishing.recalls (f : Finishing mu m m') (hp : m.heap.phase.IsMarking) : m.heap.Recalls m'.heap := by
  have hselected : m.heap.Recalls f.selected.heap := by
    refine ⟨by rw [f.heap_selected], by rw [f.heap_selected], fun t x hx => ?_⟩
    obtain ⟨e, he⟩ : ∃ e, (m.heap.space.slot t).entity? = some e := by
      obtain ⟨e, he, -⟩ := (f.selects t).entity_inv hx
      exact ⟨e, he⟩
    obtain ⟨header, hy, hkind, hsize, -⟩ := (f.selects t).entity.1 e he
    rw [hx] at hy
    cases hy
    exact ⟨e, he, hkind, by rw [Entity.payload, Entity.payload, hsize]⟩
  obtain ⟨weakTables, hheap⟩ := f.heap_eq
  exact (hselected.trans (f.marks hp).recalls).trans
    ⟨by rw [hheap], by rw [hheap], .of_slot (by rw [hheap])⟩

/-- The atomic step changes no payload. -/
theorem Finish.recalls (f : Finish mu m m') (hs : m.heap.Sound) (hp : m.heap.phase.IsMarking) :
    m.heap.Recalls m'.heap := by
  have hfinished := (f.marks hs hp).recalls.trans (f.finishing.recalls (f.phase_marked hs hp))
  refine ⟨(congrArg (fun m : Machine σ => m.heap.strings) f.eq).trans hfinished.strings,
    (congrArg (fun m : Machine σ => m.heap.hashOf) f.eq).trans hfinished.hashOf, ?_⟩
  have hmarks := ((f.marks hs hp).recalls.space.trans (f.finishing.recalls (f.phase_marked hs hp)).space)
  obtain ⟨weakTables, hheap⟩ := f.finishing.heap_eq
  rw [hheap] at hmarks
  refine hmarks.trans fun t x hx => ?_
  rw [f.slot hs hp, Slot.mapEntity_entity?] at hx
  obtain ⟨e, he, rfl⟩ := Option.map_eq_some_iff.1 hx
  exact ⟨e, he, rfl, rfl⟩

/-- The atomic step reclaims nothing. -/
theorem Finish.holds (f : Finish mu m m') (hs : m.heap.Sound) (hp : m.heap.phase.IsMarking) {r : Ref}
    (hr : m.heap.space.Holds r) : m'.heap.space.Holds r := by
  obtain ⟨e, he⟩ := (f.marks hs hp).advances.holds.2 hr
  obtain ⟨header, hx, -⟩ := (f.finishing.selects r).entity.1 e he
  obtain ⟨x, hx⟩ := (f.finishing.marks (f.phase_marked hs hp)).advances.holds.2 ⟨_, hx⟩
  rw [Space.Holds, f.slot hs hp, Slot.mapEntity_entity?, hx]
  exact ⟨_, rfl⟩

/-- Only the sweep of the space reclaims objects, and only such as do not outlive it. -/
theorem Collects.holds (hs : m.heap.Sound) (h : Collects mu m m') {r : Ref} (hr : m.heap.space.Holds r)
    (hsweep : m.heap.phase = .sweep → m.heap.space.Survives r) : m'.heap.space.Holds r := by
  cases h with
  | blocked => exact hr
  | began hpause _ htraces _ => exact (htraces.marks (hs.begins hpause) (.inl rfl)).advances.holds.2 hr
  | propagated hp _ htracing => exact (htracing.marks hs (.inl hp)).advances.holds.2 hr
  | ready hp htracing => exact (htracing.marks hs (.inl hp)).advances.holds.2 hr
  | finished hp hfinish => exact hfinish.holds hs (.inr hp) hr
  | sweptStrings => exact hr
  | swept hp hsweeps =>
    cases hsweeps with
    | swept hsweeps _ => exact (hsweeps.survives.2 (hsweep hp)).holds
    | finished => exact hr

/-- Only the sweep of the strings changes the table, and no step of the collector changes a payload. -/
theorem Collects.recalls (hs : m.heap.Sound) (h : Collects mu m m') :
    m.heap.Recalls m'.heap ∨ m'.heap = m.heap.sweptStrings := by
  cases h with
  | blocked => exact .inl (.refl _)
  | began hpause _ htraces _ =>
    have hrecalls := (htraces.marks (hs.begins hpause) (.inl rfl)).recalls
    exact .inl ⟨hrecalls.strings, hrecalls.hashOf, hrecalls.space⟩
  | propagated hp _ htracing => exact .inl (htracing.marks hs (.inl hp)).recalls
  | ready hp htracing =>
    have hrecalls := (htracing.marks hs (.inl hp)).recalls
    exact .inl ⟨hrecalls.strings, hrecalls.hashOf, hrecalls.space⟩
  | finished hp hfinish => exact .inl (hfinish.recalls hs (.inr hp))
  | sweptStrings => exact .inr rfl
  | swept _ hsweeps => exact .inl hsweeps.recalls

/-- A step of the collector unlinks strings at most. -/
theorem Collects.relinks (hs : m.heap.Sound) (h : Collects mu m m') : m.heap.Relinks m'.heap := by
  rcases h.recalls hs with hrecalls | heq
  · exact hrecalls.relinks hs
  · exact heq ▸ hs.relinks_sweptStrings

/-- It links nothing. -/
theorem Collects.names_inv (hs : m.heap.Sound) (h : Collects mu m m') {bytes : List UInt8} {r : Ref}
    (hr : m'.heap.Names bytes r) : m.heap.Names bytes r := by
  rcases h.recalls hs with hrecalls | heq
  · exact hrecalls.names_inv hr
  · rw [heq] at hr
    exact ⟨(hs.links_sweptStrings.1 hr.1).1, hr.2⟩

end Machine

namespace Heap

variable {h : Heap} {config : Config} {hashOf : List UInt8 → Hash}

/-- A heap hashes strings as it was told to. -/
theorem hashOf_of_withConfig (hh : Heap.withConfig config hashOf = .ok (.ok h)) : h.hashOf = hashOf := by
  obtain ⟨-, rfl⟩ := eq_of_withConfig hh
  rfl

end Heap

namespace Stage

variable {σ : Type} {mu : Mutator σ} {config : Config} {hashOf : List UInt8 → Hash} {c d : Stage σ}
  {l : List (Stage σ)} {r t : Ref} {bytes : List UInt8}

/-- One step of the collector by itself: a step of the cycle, the choice of the next finalizer to run,
or the end of the cycle. -/
inductive Turn (mu : Mutator σ) (c : Stage σ) : Stage σ → Prop where
  | collect {result : Except CollectError Nat} {m : Machine σ} : c.heap.phase ≠ .finalize →
      c.machine.singleStep mu = .ok (result, m) → Turn mu c ⟨m, nothing⟩
  | finalize {r : Ref} {s : Space} : c.heap.phase = .finalize →
      c.space.takePendingFinalizer = .ok (some r, s) →
      Turn mu c ⟨⟨c.machine.program, { c.heap with space := s }⟩, (· = r)⟩
  | complete {s : Space} : c.heap.phase = .finalize → c.space.takePendingFinalizer = .ok (none, s) →
      Turn mu c ⟨⟨c.machine.program, Heap.enterPause { c.heap with space := s }⟩, nothing⟩

/-- The program can reach an object, or it is at hand. -/
def InUse (mu : Mutator σ) (c : Stage σ) (r : Ref) : Prop := c.Reached mu r ∨ c.hands r

/-- What a program does is at most one operation. -/
theorem Act.operation (hs : c.heap.Sound) (hhands : ∀ t, c.hands t → c.space.Survives t) (hact : Act mu c d) :
    d.heap = c.heap ∨ Heap.Operation Heap.unstranded c.heap d.heap := by
  have hlive : ∀ {t}, c.hands t → c.heap.Live t := fun ht => hs.live_iff.2 (hhands _ ht)
  cases hact with
  | compute | take | forget => exact .inl rfl
  | alloc hfresh hrun => exact .inr (.alloc hfresh hrun)
  | intern hfresh hrun => exact .inr (.intern hfresh hrun)
  | free hr _ _ hrun => exact .inr (.free (hlive hr) hrun)
  | storeBack hcontainer _ _ _ hrun => exact .inr (.barrierBack (hlive hcontainer) hrun)
  | storeSlot hwriter hreferent _ _ hrun => exact .inr (.barrierSlot (hlive hwriter) (hlive hreferent) hrun)
  | storeForward hwriter hreferent _ _ _ _ hrun =>
    exact .inr (.barrierForward (hlive hwriter) (hlive hreferent) hrun)
  | fix hr hrun => exact .inr (.fix (hlive hr) hrun)
  | registerFinalizer hr hrun => exact .inr (.registerFinalizer (hlive hr) hrun)
  | writePayload hr hfits hrun => exact .inr (.writePayload (hlive hr) hfits hrun)
  | setTraceActive active => exact .inr (.setTraceActive active)
  | setPause percent => exact .inr (.setPause percent)
  | setStepMultiplier percent => exact .inr (.setStepMultiplier percent)

/-- Every step of a run relinks strings as it should. -/
theorem Valid.relinks (hmu : mu.Faithful) (hc : Valid mu config hashOf c) (hstep : Step mu c d) :
    c.heap.Relinks d.heap := by
  cases hstep with
  | act hact =>
    rcases hact.operation hc.sound hc.hands with heq | hop
    · rw [heq]
      exact (Heap.Recalls.refl _).relinks hc.sound
    · exact hop.relinks hc.sound
  | setThreshold => exact Heap.Recalls.relinks hc.sound ⟨rfl, rfl, .of_slot rfl⟩
  | collect hp hrun => exact (Machine.collects_singleStep hmu hc.sound hp hc.closed hrun).relinks hc.sound
  | finalize _ htake => exact Heap.Recalls.relinks hc.sound ⟨rfl, rfl, .taken (hc.taken htake).2⟩
  | complete hp htake => exact Heap.Recalls.relinks hc.sound ⟨rfl, rfl, .of_slot (hc.completed hp htake).2.1⟩

/-- The intern table is canonical at every stage that runs lead to. -/
theorem Reachable.canonical (hmu : mu.Faithful) (hc : Reachable mu config hashOf c) :
    c.heap.hashOf = hashOf ∧ c.heap.Canonical := by
  refine hc.induction (P := fun c => c.heap.hashOf = hashOf ∧ c.heap.Canonical) (fun c hinit => ?_)
    fun c d hc ih hstep => ?_
  · obtain @⟨program, h, hh, -⟩ := hinit
    refine ⟨Heap.hashOf_of_withConfig hh, fun {bytes r t} hr _ => ?_⟩
    obtain ⟨-, e, he, -⟩ := hr
    have he : (h.space.slot r).entity? = some e := he
    rw [(Heap.sound_of_withConfig hh).2.2.2.2 r] at he
    cases he
  · have hrelinks := (hc.valid hmu).relinks hmu hstep
    exact ⟨hrelinks.hashOf.trans ih.1, hrelinks.canonical ih.2⟩

/-- What is in use outlives the pending sweep. -/
theorem Valid.survives (hc : Valid mu config hashOf c) (hr : c.InUse mu r) : c.space.Survives r :=
  hr.elim (fun hr => hc.sound.live_iff.1 (hc.live hr)) (hc.hands r)

/-- A linked string stays linked, with the contents that it has, while it is in use. -/
theorem Valid.names (hmu : mu.Faithful) (hc : Valid mu config hashOf c) (hrun : Passes mu c l d)
    (hr : c.heap.Names bytes r) (huse : ∀ e ∈ l, e.InUse mu r) : d.heap.Names bytes r := by
  induction hrun with
  | refl => exact hr
  | @step l d e hrun hlast ih =>
    have hd := hc.passes hmu hrun
    have hnames := ih fun x hx => huse x (List.mem_cons_of_mem _ hx)
    exact (hd.relinks hmu hlast).kept hnames ((hd.step hmu hlast).survives (huse e List.mem_cons_self))

/-- A linked string outlives the sweep of the space. -/
theorem survives_of_names (hs : c.heap.Sound) (hr : c.heap.Names bytes r) (hp : c.heap.phase ≠ .sweepStrings) :
    c.space.Survives r := by
  obtain ⟨e, he, -, -, hor⟩ := hs.of_names hr
  exact ⟨e, he, hor.resolve_right fun hand => hp hand.1⟩

/-- A step of the collector reclaims no linked string. -/
theorem Valid.holds_of_names (hmu : mu.Faithful) (hc : Valid mu config hashOf c) (hturn : Turn mu c d)
    (hr : c.heap.Names bytes r) : d.space.Holds r := by
  obtain ⟨e, he, -⟩ := hc.sound.of_names hr
  cases hturn with
  | collect hp hrun =>
    refine (Machine.collects_singleStep hmu hc.sound hp hc.closed hrun).holds hc.sound ⟨e, he⟩ fun hsweep => ?_
    exact survives_of_names hc.sound hr (by rw [show c.heap.phase = .sweep from hsweep]; exact Phase.noConfusion)
  | finalize hp htake =>
    have hsurvives := survives_of_names hc.sound hr (by rw [hp]; exact Phase.noConfusion)
    exact (((hc.taken htake).2.survives_taken r).2 hsurvives).holds
  | complete hp htake =>
    exact ⟨e, (congrFun (hc.completed hp htake).2.1 r).symm ▸ he⟩

/-- Interning is canonical. -/
theorem interning_is_canonical (hmu : Orderly mu config hashOf) (hc : Reachable mu config hashOf c) :
    -- what is linked is an allocated string, in the chain for its contents
    (∀ bucket r, bucket < c.heap.strings.bucketCount → r ∈ c.heap.strings.chainObjects bucket →
      c.heap.isLive r = true ∧ ∃ bytes, c.heap.text r = .ok bytes ∧
        bucket = InternTable.bucketOf c.heap.strings.bucketCount (hashOf bytes)) ∧
    -- no two linked strings have the same contents
    (∀ r t bytes, c.heap.Linked r → c.heap.Linked t → c.heap.text r = .ok bytes → c.heap.text t = .ok bytes →
      r = t) ∧
    -- interning answers a linked string with the contents asked for
    (∀ supply bytes, supply.Fresh c.space 0 →
      (∀ r h, c.heap.intern supply bytes = .ok (.ok r, h) → h.text r = .ok bytes ∧ h.Linked r) ∧
      ((∃ t h, c.heap.alloc supply .str bytes.length = .ok (.ok t, h)) →
        ∃ r h, c.heap.intern supply bytes = .ok (.ok r, h))) ∧
    -- and it answers the same one as long as that is in use
    (∀ supply bytes r program h l d, supply.Fresh c.space 0 → c.heap.intern supply bytes = .ok (.ok r, h) →
      (c.graph mu).Follows c.space (mu.graph program) h.space c.hands Graph.storeless →
      Passes mu ⟨⟨program, h⟩, fun t => c.hands t ∨ t = r⟩ l d → (∀ e ∈ l, e.InUse mu r) →
      ∀ supply', d.heap.intern supply' bytes = .ok (.ok r, d.heap)) ∧
    -- the collector reclaims no linked string
    ∀ d r, Turn mu c d → c.heap.Linked r → d.heap.isLive r = true := by
  have hvalid := hc.valid hmu.toFaithful
  have hs := hvalid.sound
  obtain ⟨hhash, hcanonical⟩ := hc.canonical hmu.toFaithful
  refine ⟨fun bucket r hbucket hr => ?_, fun r t bytes hr ht htext htext' => ?_, fun supply bytes hfresh => ?_,
    fun supply bytes r program h l d hfresh hrun hfollows hpass huse supply' => ?_, fun d r hturn hr => ?_⟩
  · obtain ⟨bytes, hnames, rfl⟩ := (hs.mem_chainObjects hbucket).1 hr
    obtain ⟨e, he, -⟩ := hs.of_names hnames
    exact ⟨hs.isLive_iff.2 ⟨e, he⟩, bytes, hs.text_of_names hnames, by rw [hhash]⟩
  · obtain ⟨bytes₁, hr⟩ := hs.linked_iff.1 hr
    obtain ⟨bytes₂, ht⟩ := hs.linked_iff.1 ht
    obtain rfl := Except.ok.inj ((hs.text_of_names hr).symm.trans htext)
    obtain rfl := Except.ok.inj ((hs.text_of_names ht).symm.trans htext')
    exact hcanonical hr ht
  · refine ⟨fun r h hrun => ?_, fun halloc => hs.intern_spec hfresh (.inr halloc)⟩
    have hinterns := (Heap.intern_eq_ok hs hfresh hrun).2 r rfl
    have hnames := (hinterns.relinks hs).2
    exact ⟨(hs.interns hinterns).text_of_names hnames, (hs.interns hinterns).linked_iff.2 ⟨bytes, hnames⟩⟩
  · have hstep : Step mu c ⟨⟨program, h⟩, fun t => c.hands t ∨ t = r⟩ := by
      have hact := Act.intern hfresh hrun hfollows
      rw [show (fun t => c.hands t ∨ (.ok r : Except AllocError Ref) = .ok t) = fun t => c.hands t ∨ t = r from
        funext fun t => by rw [Except.ok.injEq, @eq_comm _ r t]] at hact
      exact .act hact
    have hc' := hc.step hstep
    have hnames := (((Heap.intern_eq_ok hs hfresh hrun).2 r rfl).relinks hs).2
    have hvalid' := hc'.valid hmu.toFaithful
    have hd := hc'.passes hpass
    -- the string is in use at the last stage of the run, too
    have hlast : d.InUse mu r := by
      cases hpass with
      | refl => exact .inr (.inr rfl)
      | step => exact huse _ List.mem_cons_self
    have hvalid_d := hd.valid hmu.toFaithful
    exact hvalid_d.sound.intern_of_names (hd.canonical hmu.toFaithful).2
      (hvalid'.names hmu.toFaithful hpass hnames huse) (hvalid_d.survives hlast) supply'
  · obtain ⟨bytes, hnames⟩ := hs.linked_iff.1 hr
    have hd : Reachable mu config hashOf d := hc.step (by
      cases hturn with
      | collect hp hrun => exact .collect hp hrun
      | finalize hp htake => exact .finalize hp htake
      | complete hp htake => exact .complete hp htake)
    exact (hd.valid hmu.toFaithful).sound.isLive_iff.2 (hvalid.holds_of_names hmu.toFaithful hturn hnames)

/-- What is a root is in use. -/
theorem InUse.of_root (h : (c.graph mu).root r) : c.InUse mu r := .inl (.start (.inl h))

/-- A string that is a root is found again after a cycle. -/
theorem rooted_string_is_found : ∃ (c d : Stage Ledger) (h : Heap) (l : List (Stage Ledger)),
    Initial Ledger.mutator Ledger.blocksOnly (fun _ => 0) c ∧
      c.heap.intern (.page 5) [97] = .ok (.ok (.huge 5), h) ∧
      Passes Ledger.mutator ⟨⟨{}, h⟩, fun t => c.hands t ∨ t = .huge 5⟩ l d ∧ d.heap.cycle.completed = 1 ∧
      d.heap.phase = .pause ∧ ∀ supply, d.heap.intern supply [97] = .ok (.ok (.huge 5), d.heap) := by
  let rooted : Ledger := { roots := [.huge 5] }
  let c : Stage Ledger := ⟨⟨{}, Ledger.emptyHeap⟩, nothing⟩
  have hinit : Initial Ledger.mutator Ledger.blocksOnly (fun _ => 0) c := .intro rfl fun r hr =>
    absurd hr List.not_mem_nil
  have hfresh : (Supply.page 5).Fresh c.space 0 := Supply.page_fresh (by decide) rfl (by decide +kernel) 0
  let interned := answerOf (c.heap.intern (.page 5) [97]) (by decide +kernel)
  have hintern : c.heap.intern (.page 5) [97] = .ok (.ok (.huge 5), interned.2) :=
    eq_answerOf_of_fst (by decide +kernel) (by decide +kernel)
  let m : Machine Ledger := ⟨rooted, interned.2⟩
  let trail := answerOf (m.trail Ledger.mutator 8) (by decide +kernel)
  let taken := answerOf (trail.headD m).heap.space.takePendingFinalizer (by decide +kernel)
  have hcycle : Passes Ledger.mutator ⟨m, nothing⟩ _ ⟨(trail.headD m).ended taken.2, nothing⟩ :=
    .cycle (eq_answerOf (by decide +kernel)) (by decide +kernel)
      (eq_answerOf_of_fst (by decide +kernel) (by decide +kernel))
  -- the string is made a root, and then nothing is at hand
  have hroot : Passes Ledger.mutator ⟨⟨{}, interned.2⟩, fun t => c.hands t ∨ t = .huge 5⟩
      [⟨m, fun t => c.hands t ∨ t = .huge 5⟩] ⟨m, fun t => c.hands t ∨ t = .huge 5⟩ :=
    .single (.act (.compute (Ledger.follows (by simp [rooted]) (by simp [rooted]) (by simp [rooted])
      fun _ _ => rfl)))
  have hrun := (hroot.step (.act (@Act.forget _ _ _ nothing fun _ => False.elim))).trans hcycle
  refine ⟨c, _, _, _, hinit, hintern, hrun, by decide +kernel, by decide +kernel, ?_⟩
  have hroots : ∀ x ∈ (trail.headD m).ended taken.2 :: trail, .huge 5 ∈ x.program.roots := by decide +kernel
  refine (interning_is_canonical (Ledger.orderly _ _) (.initial hinit)).2.2.2.1 _ _ _ _ _ _ _ hfresh hintern
    Ledger.follows_empty hrun fun e he => ?_
  rcases List.mem_append.1 he with he | he
  · obtain ⟨x, hx, rfl⟩ := List.mem_map.1 he
    exact .of_root (hroots x hx)
  · have hprogram : e.machine = m := by
      rcases List.mem_cons.1 he with rfl | he
      · rfl
      · rw [List.mem_singleton.1 he]
    refine .of_root ?_
    show .huge 5 ∈ e.machine.program.roots
    rw [hprogram]
    exact List.mem_cons_self

end Stage

end Tricolor
