import Tricolor.Proofs.Program.Finishing

/-!
# What the collector keeps

`Machine.Collects` says what each step of the collector does, phase by phase. `Stage.Valid` is the
invariant of a run: the machine is reachable, the graph is closed, what is at hand outlives the
pending sweep, and while objects are being marked their references are treated as promised.
-/

namespace Tricolor

namespace Space

variable {s s' : Space} {r : Ref}

theorem Sweeps.inherits (h : s.Sweeps s') : s.Inherits s' := fun t x hx => by
  obtain ⟨e, he, hheader, -⟩ := h.entity_inv hx
  exact ⟨e, he, by rw [hheader], by rw [hheader]⟩

theorem Revises.inherits_taken (h : s.Revises s' r (s.slot r).taken) : s.Inherits s' := by
  intro t x hx
  by_cases ht : t = r
  · subst ht
    rw [h.slot_self, Slot.taken, Slot.mapEntity_entity?] at hx
    obtain ⟨e, he, rfl⟩ := Option.map_eq_some_iff.1 hx
    exact ⟨e, he, rfl, rfl⟩
  · rw [h.slot_ne ht] at hx
    exact ⟨x, hx, rfl, rfl⟩

end Space

namespace Graph

variable {g : Graph} {s s' : Space} {h h' : Heap} {r : Ref}

/-- Sweeping keeps a graph closed. -/
theorem Closed.sweeps (hclosed : g.Closed s) (h : s.Sweeps s') : g.Closed s' :=
  hclosed.congr (fun _ => h.survives) h.inherits

/-- What does not change slots keeps a graph closed. -/
theorem Closed.of_slot (hclosed : g.Closed s) (h : s'.slot = s.slot) : g.Closed s' :=
  hclosed.congr (fun r => by rw [Space.Survives, Space.Survives, h]) (Space.Inherits.of_slot h)

end Graph

namespace Machine

variable {σ : Type} {mu : Mutator σ} {m m' : Machine σ} {result : Except CollectError Nat} {cost : Nat}

/-- What a step of the collector does, phase by phase. -/
inductive Collects (mu : Mutator σ) (m : Machine σ) : Machine σ → Prop where
  | blocked : Collects mu m m
  | began {m' : Machine σ} : m.heap.phase = .pause → mu.Asks m.program m'.program →
      (m.heap.clearCycle.enter .propagate).Traces (mu.graph m.program) (Due mu m) m'.heap →
      (∀ r, Due mu m r → m'.heap.space.Black r) → Collects mu m m'
  | propagated {m' : Machine σ} : m.heap.phase = .propagate → mu.Asks m.program m'.program →
      m.heap.Tracing (mu.graph m.program) (fun _ => False) m'.heap → Collects mu m m'
  | ready {h : Heap} : m.heap.phase = .propagate →
      m.heap.Tracing (mu.graph m.program) (fun _ => False) h → Collects mu m { m with heap := h.enter .atomic }
  | finished {m' : Machine σ} : m.heap.phase = .atomic → Finish mu m m' → Collects mu m m'
  | sweptStrings : m.heap.phase = .sweepStrings → Collects mu m { m with heap := m.heap.sweptStrings }
  | swept {h : Heap} : m.heap.phase = .sweep → m.heap.SweepsOn h → Collects mu m { m with heap := h }

/-- The steps of the collector do what they should, as long as the graph is closed. -/
theorem collects_singleStep (hmu : mu.Faithful) (hs : m.heap.Sound) (hp : m.heap.phase ≠ .finalize)
    (hclosed : (mu.graph m.program).Closed m.heap.space) (hrun : m.singleStep mu = .ok (result, m')) :
    Collects mu m m' := by
  cases singleStep_eq_ok hrun with
  | blocked => exact .blocked
  | started hpause hstart =>
    obtain ⟨s', rfl, -, hshades, hroots⟩ := startCycle_eq_ok hs hpause hstart
    have hmem : ∀ r, r ∈ (mu.roots m.program).1 ++ m.heap.space.fixedRoots ↔ Due mu m r := by
      intro r
      rw [List.mem_append, Space.mem_fixedRoots hs.wf]
      exact Iff.rfl
    refine .began hpause (.roots .refl) (.marked hshades fun r hr => (hmem r).1 hr) fun r hr =>
      hshades.black ((hmem r).2 hr) ?_
    rcases hr with hroot | hlisted
    · exact hroots r hroot
    · exact hs.listed r (hlisted.imp_right .inr)
  | propagated hpropagate hstep =>
    have hmarking : m.heap.phase.IsMarking := .inl hpropagate
    cases propagateStep_eq_ok hstep with
    | ready hdrain _ => exact .ready hpropagate (Heap.Traces.drainIfAny hs hdrain)
    | @batch h _ _ _ hdrain _ hbatch =>
      obtain ⟨hasks, htracing⟩ := (stable_tracing hmu hs hmarking hclosed).traverseBatch
        (m := ⟨m.program, h⟩) ⟨.refl, Heap.Traces.drainIfAny hs hdrain⟩ hbatch
      exact .propagated hpropagate hasks htracing
  | finished hatomic hstep =>
    obtain ⟨hfinish, -⟩ := finish_atomicStep hmu hs hatomic hclosed hstep
    exact .finished hatomic hfinish
  | sweptStrings hstrings hstep =>
    rw [Heap.sweepStringsStep_eq_ok hstep]
    exact .sweptStrings hstrings
  | swept hsweep hstep =>
    obtain ⟨_, _, hstep', hsweeps⟩ := Heap.sweepStep_spec hs hsweep
    rw [hstep] at hstep'
    cases hstep'
    exact .swept hsweep hsweeps
  | finalized hfinalize => exact absurd hfinalize hp

namespace Finishing

variable (f : Finishing mu m m')

include f

theorem phase_selected : f.selected.heap.phase = m.heap.phase := by
  rw [f.heap_selected]
  rfl

theorem marks (hp : m.heap.phase.IsMarking) : f.selected.heap.Marks f.traced.heap :=
  f.tracing.marks f.sound_selected (f.phase_selected ▸ hp)

theorem phase_traced (hp : m.heap.phase.IsMarking) : f.traced.heap.phase = m.heap.phase :=
  (f.marks hp).phase.trans f.phase_selected

theorem doomed_traced (hp : m.heap.phase.IsMarking) : f.traced.heap.cycle.doomed = f.doomed := by
  rw [(f.marks hp).doomed, f.heap_selected]

/-- Clearing weak tables after the selection drops references of remembered tables at most. -/
theorem purged_selected (hmu : mu.Faithful) : ∃ tables isDead, (∀ t, tables t → t ∈ m.heap.cycle.weakTables) ∧
    (mu.graph m.program).Purged tables isDead (mu.graph f.selected.program) := by
  rcases f.program_selected with ⟨heq, -⟩ | hclears
  · rw [heq]
    exact ⟨fun _ => False, fun _ => .ok false, fun _ => False.elim, rfl, rfl, fun _ _ => rfl, id, False.elim⟩
  · exact ⟨_, _, fun t => (f.weakTables_selected t).1, hclears.purged hmu⟩

/-- When what the doomed objects need has been marked, the promise of the marks holds for what is left of
the graph. -/
theorem treated_traced (hmu : mu.Faithful) (hp : m.heap.phase.IsMarking)
    (hclosed : (mu.graph m.program).Closed m.heap.space) (htreated : (mu.graph m.program).Treated m.heap) :
    (mu.graph f.selected.program).Treated f.traced.heap := by
  obtain ⟨tables, isDead, -, hpurged⟩ := f.purged_selected hmu
  have hselected : (mu.graph m.program).Treated f.selected.heap :=
    { noted := fun {r v} hblack hq hstrong => by
        rw [f.selects.queued] at hq
        have hnoted := htreated.noted (f.selects.black.1 hblack) hq (f.selects.strong.1 hstrong)
        rw [f.heap_selected]
        exact hnoted.imp_left f.selects.black.2
      weak := fun {r x} hx hm hq hmode => by
        rw [f.selects.queued] at hq
        obtain ⟨e, he, ⟨hkind, -⟩, hmarked, -⟩ := (f.selects r).entity_inv hx
        rw [hkind] at hmode
        exact (f.weakTables_selected r).2 (htreated.weak he (hmarked ▸ hm) hq hmode) }
  exact (hselected.purged hpurged).tracing f.sound_selected (f.phase_selected ▸ hp)
    ((hclosed.selects f.selects).purged hpurged) (fun hv => hmu.leaf hv) f.tracing

/-- When marking has been finished, the promise of the marks still holds. -/
theorem treated (hmu : mu.Faithful) (hp : m.heap.phase.IsMarking)
    (hclosed : (mu.graph m.program).Closed m.heap.space) (htreated : (mu.graph m.program).Treated m.heap) :
    (mu.graph m'.program).Treated f.traced.heap :=
  (f.treated_traced hmu hp hclosed htreated).purged (f.graph_traced ▸ f.clears.purged hmu)

theorem closed (hmu : mu.Faithful) (hp : m.heap.phase.IsMarking)
    (hclosed : (mu.graph m.program).Closed m.heap.space) :
    (mu.graph m'.program).Closed f.traced.heap.space := by
  obtain ⟨tables, isDead, -, hpurged⟩ := f.purged_selected hmu
  have hselected := (hclosed.selects f.selects).purged hpurged
  have htraced := hselected.marks f.sound_selected (f.phase_selected ▸ hp) (f.marks hp)
  exact htraced.purged (f.graph_traced ▸ f.clears.purged hmu)

/-- Whatever a marked object refers to is marked in the end; and what stands on a weak side of it is
a string, or is not kept for its finalizer only. -/
theorem settled (hmu : mu.Faithful) (hp : m.heap.phase.IsMarking)
    (hclosed : (mu.graph m.program).Closed m.heap.space) (htreated : (mu.graph m.program).Treated m.heap)
    {r : Ref} {v : Visit} (hblack : f.traced.heap.space.Black r)
    (hv : (mu.graph m'.program).Edge f.traced.heap.space r v) :
    f.traced.heap.space.Black v.target ∧ ((mu.graph m'.program).Strong f.traced.heap.space r v ∨
      v.target ∉ f.doomed) := by
  have ht := f.treated hmu hp hclosed htreated
  by_cases hstrong : (mu.graph m'.program).Strong f.traced.heap.space r v
  · have hnoted := ht.noted hblack (f.quiet r) hstrong
    rw [Heap.Noted, f.stores] at hnoted
    exact ⟨hnoted.resolve_right (Array.not_mem_empty _), .inl hstrong⟩
  · -- the entry was left in a weak table, so it is alive
    have hsound := (f.marks hp).sound
    have hclosed' := f.closed hmu hp hclosed
    have hsurvives : ∀ {t}, f.traced.heap.space.Holds t → f.traced.heap.space.Survives t := fun ht =>
      hsound.survives_of_holds (Heap.Phase.not_isSweeping (f.phase_traced hp ▸ hp)) ht
    obtain ⟨x, hx⟩ := (hclosed'.edge (hsurvives (hblack.imp fun _ => And.left)) hv).holds
    obtain ⟨e, he, hrefers⟩ := hv
    have hnot : ¬ (mu.graph m'.program).Holds f.traced.heap.space r e.header.kind v := fun hholds =>
      hstrong ⟨e, he, hrefers, hholds⟩
    rw [Graph.Holds, not_or, Bool.not_eq_false, Space.isString, hx, Option.any_some, decide_eq_true_iff] at hnot
    obtain ⟨hweak, hstring⟩ := hnot
    have htable : e.header.kind = .table := by
      by_contra hne
      rw [Graph.isWeak_of_ne_table hne] at hweak
      cases hweak
    have hmode : (mu.graph m'.program).mode r e.header.kind ≠ .none := by
      intro hnone
      rw [hnone] at hweak
      cases v <;> cases hweak
    have hmem : r ∈ f.traced.heap.cycle.weakTables := by
      obtain ⟨y, hy, hm⟩ := hblack
      rw [he] at hy
      cases hy
      exact ht.weak he hm (f.quiet r) hmode
    have hpurged := f.clears.purged hmu
    have halive := hpurged.alive hmem (htable ▸ hrefers) (by
      rw [Graph.mode, if_pos htable, hpurged.weakMode] at hweak
      exact hweak)
    rw [Heap.isDead_eq hsound.wf hx, decide_eq_true hstring, Bool.true_and] at halive
    have halive := Except.ok.inj halive
    rw [Bool.or_eq_false_iff, Bool.not_eq_false'] at halive
    rw [f.doomed_traced hp] at halive
    exact ⟨⟨x, hx, halive.1⟩, .inr fun hmem => Bool.false_ne_true
      (halive.2.symm.trans (List.contains_iff_mem.2 hmem))⟩

/-- The roots are those of the program when marking is finished. -/
theorem root (hmu : mu.Faithful) : (mu.graph m'.program).root = (mu.graph m.program).root := by
  obtain ⟨tables, isDead, -, hpurged⟩ := f.purged_selected hmu
  rw [(f.clears.purged hmu).root, f.graph_traced, hpurged.root]

theorem black (hp : m.heap.phase.IsMarking) {r : Ref} (hr : m.heap.space.Black r) :
    f.traced.heap.space.Black r :=
  (f.marks hp).advances.black (f.selects.black.2 hr)

end Finishing

namespace Finish

variable (f : Finish mu m m')

include f

theorem marks (hs : m.heap.Sound) (hp : m.heap.phase.IsMarking) : m.heap.Marks f.marked.heap :=
  f.tracing.marks hs hp

theorem phase_marked (hs : m.heap.Sound) (hp : m.heap.phase.IsMarking) : f.marked.heap.phase.IsMarking :=
  (f.marks hs hp).phase ▸ hp

theorem closed_marked (hmu : mu.Faithful) (hs : m.heap.Sound) (hp : m.heap.phase.IsMarking)
    (hclosed : (mu.graph m.program).Closed m.heap.space) :
    (mu.graph f.marked.program).Closed f.marked.heap.space := by
  rw [f.asks.graph hmu]
  exact hclosed.marks hs hp (f.marks hs hp)

theorem treated_marked (hmu : mu.Faithful) (hs : m.heap.Sound) (hp : m.heap.phase.IsMarking)
    (hclosed : (mu.graph m.program).Closed m.heap.space) (htreated : (mu.graph m.program).Treated m.heap) :
    (mu.graph f.marked.program).Treated f.marked.heap := by
  rw [f.asks.graph hmu]
  exact htreated.tracing hs hp hclosed (fun hv => hmu.leaf hv) f.tracing

theorem program : m'.program = f.finished.program := (congrArg Machine.program f.eq).trans rfl

theorem space : m'.heap.space = f.finishing.traced.heap.space.beginSweep := by
  obtain ⟨weakTables, hheap⟩ := f.finishing.heap_eq
  exact (congrArg (fun m : Machine σ => m.heap.space) f.eq).trans
    ((congrArg (fun h : Heap => h.space.beginSweep) hheap).trans rfl)

theorem doomed : m'.heap.cycle.doomed = f.finishing.traced.heap.cycle.doomed := by
  obtain ⟨weakTables, hheap⟩ := f.finishing.heap_eq
  have hfinished : m'.heap.cycle.doomed = f.finished.heap.cycle.doomed :=
    (congrArg (fun m : Machine σ => m.heap.cycle.doomed) f.eq).trans rfl
  exact hfinished.trans ((congrArg (fun h : Heap => h.cycle.doomed) hheap).trans rfl)

/-- Beginning the sweep lets every object await it. -/
theorem slot (hs : m.heap.Sound) (hp : m.heap.phase.IsMarking) (t : Ref) :
    m'.heap.space.slot t =
      (f.finishing.traced.heap.space.slot t).mapEntity fun e => { e with awaits := true } := by
  rw [f.space, (Space.beginSweep_spec (f.finishing.marks (f.phase_marked hs hp)).sound.wf).2.2]

/-- What is listed after the atomic step was listed before it. -/
theorem listed_inv (hs : m.heap.Sound) (hp : m.heap.phase.IsMarking) {t : Ref}
    (hor : (m'.heap.space.slot t).fixed ∨ (m'.heap.space.slot t).idle ∨ (m'.heap.space.slot t).pending) :
    (m.heap.space.slot t).fixed ∨ (m.heap.space.slot t).idle ∨ (m.heap.space.slot t).pending := by
  have hmarked := (f.marks hs hp).advances
  have htraced := (f.finishing.marks (f.phase_marked hs hp)).advances
  rw [f.slot hs hp, Slot.mapEntity_fixed, Slot.mapEntity_idle, Slot.mapEntity_pending, htraced.fixed,
    htraced.idle, htraced.pending] at hor
  have hor := (f.finishing.selects t).listed_inv hor
  rwa [hmarked.fixed, hmarked.idle, hmarked.pending] at hor

/-- The sweep that begins spares what is marked. -/
theorem survives (hs : m.heap.Sound) (hp : m.heap.phase.IsMarking) {r : Ref} :
    m'.heap.space.Survives r ↔ f.finishing.traced.heap.space.Black r := by
  rw [Space.Survives, f.slot hs hp, Slot.mapEntity_entity?]
  constructor
  · rintro ⟨x, hx, hsurvives⟩
    obtain ⟨e, he, rfl⟩ := Option.map_eq_some_iff.1 hx
    rw [Entity.survives, Bool.not_true, Bool.or_false] at hsurvives
    exact ⟨e, he, hsurvives⟩
  · rintro ⟨e, he, hm⟩
    exact ⟨_, Option.map_eq_some_iff.2 ⟨e, he, rfl⟩, by rw [Entity.survives, hm, Bool.true_or]⟩

/-- What the sweep finds of an object was there when it began. -/
theorem inherits (hs : m.heap.Sound) (hp : m.heap.phase.IsMarking) :
    f.finishing.traced.heap.space.Inherits m'.heap.space := by
  intro t x hx
  rw [f.slot hs hp, Slot.mapEntity_entity?] at hx
  obtain ⟨e, he, rfl⟩ := Option.map_eq_some_iff.1 hx
  exact ⟨e, he, rfl, rfl⟩

/-- The atomic step makes no object. -/
theorem inherits_start (hs : m.heap.Sound) (hp : m.heap.phase.IsMarking) : m.heap.space.Inherits m'.heap.space := by
  have hselected := (f.marks hs hp).advances.inherits.trans f.finishing.selects.inherits
  exact (hselected.trans (f.finishing.marks (f.phase_marked hs hp)).advances.inherits).trans (f.inherits hs hp)

/-- The atomic step leaves a closed graph: what is marked refers to nothing that is not. -/
theorem closed (hmu : mu.Faithful) (hs : m.heap.Sound) (hp : m.heap.phase.IsMarking)
    (hclosed : (mu.graph m.program).Closed m.heap.space) (htreated : (mu.graph m.program).Treated m.heap) :
    (mu.graph m'.program).Closed m'.heap.space where
  root {r} hroot := by
    rw [f.program, f.finishing.root hmu, f.asks.graph hmu] at hroot
    exact (f.survives hs hp).2 (f.finishing.black (f.phase_marked hs hp) (f.black_due r (.inl hroot)))
  edge {r v} hr hv := by
    have hsettled := f.finishing.settled hmu (f.phase_marked hs hp) (f.closed_marked hmu hs hp hclosed)
      (f.treated_marked hmu hs hp hclosed htreated) ((f.survives hs hp).1 hr)
      (f.program ▸ hv.inherited (f.inherits hs hp))
    exact (f.survives hs hp).2 hsettled.1

end Finish

end Machine

end Tricolor
