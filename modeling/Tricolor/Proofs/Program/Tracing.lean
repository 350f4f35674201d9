import Tricolor.Proofs.Program.Marks

/-!
# Tracing

All that happens while a collector marks is that objects are marked, recorded objects are marked,
queues are popped, and popped objects are traversed. `Heap.Traces` is one such event, for a graph
that does not change meanwhile, and the loops of the marking are sequences of events. What holds
at both ends of each event holds of any marking.
-/

namespace Tricolor

namespace Space.Advances

variable {s s' : Space} {g : Graph} {r : Ref} {v : Visit} {x : Entity}

theorem entity_inv (h : s.Advances s') (hx : (s'.slot r).entity? = some x) :
    ∃ e, (s.slot r).entity? = some e ∧ x.header = e.header ∧ (e.marked = true → x.marked = true) := by
  cases he : (s.slot r).entity? with
  | none =>
    rw [h.none he] at hx
    cases hx
  | some e =>
    obtain ⟨marked, hy, hm⟩ := h.entity he
    rw [hx] at hy
    cases hy
    exact ⟨e, rfl, rfl, hm⟩

theorem inherits (h : s.Advances s') : s.Inherits s' := fun t x hx => by
  obtain ⟨e, he, hheader, -⟩ := h.entity_inv hx
  exact ⟨e, he, by rw [hheader], by rw [hheader]⟩

theorem isString (h : s.Advances s') (r : Ref) : s'.isString r = s.isString r := by
  rw [Space.isString, Space.isString]
  cases he : (s.slot r).entity? with
  | none => rw [h.none he]
  | some e =>
    obtain ⟨marked, hx, -⟩ := h.entity he
    rw [hx]
    rfl

theorem strong (h : s.Advances s') : g.Strong s' r v ↔ g.Strong s r v := by
  constructor
  · rintro ⟨x, hx, hv, hholds⟩
    obtain ⟨e, he, hheader, -⟩ := h.entity_inv hx
    rw [Graph.Holds, h.isString, hheader] at hholds
    exact ⟨e, he, hheader ▸ hv, hholds⟩
  · rintro ⟨e, he, hv, hholds⟩
    obtain ⟨marked, hx, -⟩ := h.entity he
    refine ⟨_, hx, hv, ?_⟩
    rw [Graph.Holds, h.isString]
    exact hholds

end Space.Advances

/-- What a visit of an object marks is what the object strongly refers to. -/
theorem Space.mem_targets {s : Space} {g : Graph} {r t : Ref} {e : Entity} {visits : List Visit}
    (he : (s.slot r).entity? = some e) (hvisits : ∀ v, v ∈ visits ↔ g.refers r e.header.kind v) :
    t ∈ visits.flatMap (Space.targets (g.mode r e.header.kind) s) ↔ ∃ v, g.Strong s r v ∧ v.target = t := by
  rw [List.mem_flatMap]
  constructor
  · rintro ⟨v, hv, ht⟩
    rw [Space.targets] at ht
    split at ht
    · exact absurd ht List.not_mem_nil
    · next hnot =>
      refine ⟨v, ⟨e, he, (hvisits v).1 hv, ?_⟩, (List.mem_singleton.1 ht).symm⟩
      rw [Graph.Holds]
      cases hweak : v.isWeak (g.mode r e.header.kind) with
      | false => exact .inl rfl
      | true =>
        right
        rw [hweak, Bool.true_and, Bool.not_eq_true', Bool.not_eq_false] at hnot
        exact hnot
  · rintro ⟨v, ⟨e', he', hv, hholds⟩, rfl⟩
    rw [he] at he'
    cases he'
    refine ⟨v, (hvisits v).2 hv, ?_⟩
    rw [Space.targets, if_neg]
    · exact List.mem_singleton_self _
    · rcases hholds with hweak | hstring
      · rw [hweak, Bool.false_and]
        exact Bool.false_ne_true
      · rw [hstring, Bool.not_true, Bool.and_false]
        exact Bool.false_ne_true

/-- What is marked and does not wait after a queue was popped did so before, or was popped. -/
theorem Space.Popped.traversed {s s' : Space} {r? : Option Ref} {t : Ref} {x : Entity}
    (hpopped : s.Popped r? s') (hx : (s'.slot t).entity? = some x) (hm : x.marked = true)
    (hq : ¬ (s'.slot t).queued) : r? = some t ∨ s.Black t ∧ ¬ (s.slot t).queued := by
  rw [hpopped.slot] at hx
  by_cases hr : r? = some t
  · exact .inl hr
  · exact .inr ⟨⟨x, hx, hm⟩, fun hqueued => (hpopped.kept t ⟨x, hx⟩ hqueued).elim hq hr⟩

namespace Heap

variable {g : Graph} {due : Ref → Prop} {h h' : Heap} {r : Ref}

/-- One event of the marking: some objects that are due are marked, or those that are recorded, a
queue turns out to be exhausted, or an object is popped and traversed. -/
inductive Traces (g : Graph) (due : Ref → Prop) (h : Heap) : Heap → Prop where
  | marked {rs : List Ref} {s' : Space} : h.space.Shades rs s' → (∀ r ∈ rs, due r) →
      Traces g due h { h with space := s' }
  | drained {s' : Space} : (∀ r ∈ h.stores.entries, h.space.Holds r) →
      h.space.Shades h.stores.entries.toList s' →
      Traces g due h { h with space := s', stores := h.stores.clear }
  | exhausted {s' : Space} : h.space.Popped none s' → Traces g due h { h with space := s' }
  | traversed {r : Ref} {e : Entity} {rs : List Ref} {s s' : Space} {cycle : Cycle} :
      h.space.Popped (some r) s → (h.space.slot r).entity? = some e → s.Shades rs s' →
      (∀ t, t ∈ rs ↔ ∃ v, g.Strong h.space r v ∧ v.target = t) →
      cycle = (if g.mode r e.header.kind = .none then h.cycle
        else { h.cycle with weakTables := r :: h.cycle.weakTables }) →
      Traces g due h { h with space := s', cycle }

/-- Marking goes on for some events. -/
abbrev Tracing (g : Graph) (due : Ref → Prop) : Heap → Heap → Prop := Relation.ReflTransGen (Traces g due)

/-- The store buffer is empty when it was drained. -/
theorem Traces.drainIfAny (hs : h.Sound) (hrun : h.drainIfAny = .ok h') : Tracing g due h h' := by
  rw [Heap.drainIfAny] at hrun
  split at hrun
  · cases hrun
    exact .refl
  · obtain ⟨hall, s', hshades, rfl⟩ := drainStores_eq_ok hs hrun
    exact .single (.drained hall hshades)

theorem Traces.marks (hs : h.Sound) (hp : h.phase.IsMarking) (ht : Traces g due h h') : h.Marks h' := by
  cases ht with
  | marked hshades _ => exact .shades hs hp hshades
  | drained _ hshades =>
    have hm := Marks.shades hs hp hshades
    refine ⟨⟨⟨hs.drained hp hshades, rfl, hm.pending⟩, fun hr => ?_⟩, hm.advances, rfl, rfl, rfl, rfl, rfl⟩
    exact ⟨fun t ht => absurd ht (Array.not_mem_empty t), (hm.recorded hr).2⟩
  | exhausted hpopped => exact .popped hs hpopped
  | @traversed r e rs s s' cycle hpopped he hshades _ hcycle =>
    have hm := Marks.popped hs hpopped
    have hm' := hm.trans (.shades hm.sound hp hshades)
    subst hcycle
    split
    · exact hm'
    · refine hm'.trans (.setWeakTables hm'.sound fun t ht => ?_)
      rcases List.mem_cons.1 ht with rfl | ht
      · exact .inr (hm'.advances.holds.2 ⟨e, he⟩)
      · exact .inl ht

theorem Tracing.marks (hs : h.Sound) (hp : h.phase.IsMarking) (ht : Tracing g due h h') : h.Marks h' := by
  induction ht with
  | refl => exact .refl hs
  | tail _ hlast ih => exact ih.trans (hlast.marks ih.sound (ih.phase ▸ hp))

/-- What every event keeps is kept by all the marking. -/
theorem Tracing.induction {P : Heap → Prop} (hs : h.Sound) (hp : h.phase.IsMarking)
    (ht : Tracing g due h h') (hstart : P h)
    (hstep : ∀ h₁ h₂, h.Marks h₁ → h₁.phase.IsMarking → P h₁ → Traces g due h₁ h₂ → P h₂) : P h' := by
  induction ht with
  | refl => exact hstart
  | tail hbefore hlast ih =>
    have hm := Tracing.marks hs hp hbefore
    exact hstep _ _ hm (hm.phase ▸ hp) ih hlast

end Heap

namespace Graph

variable {g : Graph} {due : Ref → Prop} {h h' : Heap}

/-- While objects are marked, the graph stays closed. -/
theorem Closed.marks (hclosed : g.Closed h.space) (hs : h.Sound) (hp : h.phase.IsMarking)
    (hm : h.Marks h') : g.Closed h'.space := by
  have hp' : h'.phase.IsMarking := hm.phase ▸ hp
  refine hclosed.congr (fun r => ⟨fun hr => ?_, fun hr => ?_⟩) hm.advances.inherits
  · exact hs.survives_of_holds (Heap.Phase.not_isSweeping hp) (hm.advances.holds.1 hr.holds)
  · exact hm.sound.survives_of_holds (Heap.Phase.not_isSweeping hp') (hm.advances.holds.2 hr.holds)

/-- Marking keeps its promise if what it has traversed now is treated as promised. -/
theorem Treated.advances (ht : g.Treated h) (hadv : h.space.Advances h'.space)
    (hnoted : ∀ t, h.Noted t → h'.Noted t) (hweak : ∀ t ∈ h.cycle.weakTables, t ∈ h'.cycle.weakTables)
    (htraversed : ∀ {r x}, (h'.space.slot r).entity? = some x → x.marked = true →
      ¬ (h'.space.slot r).queued → (x.header.kind.isLeaf = true ∨ h.space.Black r ∧ ¬ (h.space.slot r).queued) ∨
        (∀ v, g.Strong h.space r v → h'.Noted v.target) ∧
          (g.mode r x.header.kind ≠ .none → r ∈ h'.cycle.weakTables))
    (hleaf : ∀ {r kind v}, g.refers r kind v → kind.isLeaf = false) : g.Treated h' where
  noted {r v} hblack hq hstrong := by
    obtain ⟨x, hx, hm⟩ := hblack
    rcases htraversed hx hm hq with (hor | ⟨hblack, hqueued⟩) | ⟨htargets, -⟩
    · obtain ⟨y, hy, hv, -⟩ := hstrong
      rw [hx] at hy
      cases hy
      rw [hleaf hv] at hor
      cases hor
    · exact hnoted _ (ht.noted hblack hqueued (hadv.strong.1 hstrong))
    · exact htargets v (hadv.strong.1 hstrong)
  weak {r x} hx hm hq hmode := by
    rcases htraversed hx hm hq with (hor | ⟨⟨e, he, hmarked⟩, hqueued⟩) | ⟨-, hmem⟩
    · have htable : x.header.kind = .table := by
        by_contra hne
        exact hmode (mode_of_ne_table hne)
      rw [htable] at hor
      cases hor
    · obtain ⟨e', he', hheader, -⟩ := hadv.entity_inv hx
      rw [he] at he'
      cases he'
      exact hweak r (ht.weak he hmarked hqueued (hheader ▸ hmode))
    · exact hmem hmode

/-- What is marked and does not wait after some objects were marked did so before, or is a leaf. -/
theorem traversed_of_shades {s s' : Space} {rs : List Ref} {r : Ref} {x : Entity} (hshades : s.Shades rs s')
    (hx : (s'.slot r).entity? = some x) (hm : x.marked = true) (hq : ¬ (s'.slot r).queued) :
    x.header.kind.isLeaf = true ∨ s.Black r ∧ ¬ (s.slot r).queued := by
  rw [hshades.slot] at hx hq
  split at hx
  · next hmem =>
    rw [if_pos hmem] at hq
    refine ((Slot.Stays.shade trivial).traversed (.inl rfl) hx hm hq).imp_right ?_
    rintro ⟨e, he, hm, hq⟩
    exact ⟨⟨e, he, hm⟩, hq⟩
  · next hmem =>
    rw [if_neg hmem] at hq
    exact .inr ⟨⟨x, hx, hm⟩, hq⟩

/-- Every event of the marking keeps its promise. -/
theorem Treated.traces (ht : g.Treated h) (hs : h.Sound) (hp : h.phase.IsMarking) (hclosed : g.Closed h.space)
    (hleaf : ∀ {r kind v}, g.refers r kind v → kind.isLeaf = false) (htraces : h.Traces g due h') :
    g.Treated h' := by
  have hadv := (htraces.marks hs hp).advances
  cases htraces with
  | marked hshades _ =>
    exact ht.advances hadv (fun t hn => hn.imp_left hshades.advances.black) (fun _ => id)
      (fun hx hm hq => .inl (traversed_of_shades hshades hx hm hq)) hleaf
  | @drained s' hall hshades =>
    refine ht.advances hadv (fun t hn => ?_) (fun _ => id)
      (fun hx hm hq => .inl (traversed_of_shades hshades hx hm hq)) hleaf
    rcases hn with hblack | hmem
    · exact .inl (hshades.advances.black hblack)
    · exact .inl (hshades.black (Array.mem_toList_iff.2 hmem) (hall t hmem))
  | exhausted hpopped =>
    refine ht.advances hadv (fun t hn => hn.imp_left hpopped.advances.black) (fun _ => id)
      (fun {r x} hx hm hq => .inl (.inr ?_)) hleaf
    refine (hpopped.traversed hx hm hq).resolve_left fun h => ?_
    cases h
  | @traversed r e rs s s' cycle hpopped he hshades hrs hcycle =>
    have hremembered : ∀ t, t ∈ h.cycle.weakTables → t ∈ cycle.weakTables := by
      intro t ht
      subst hcycle
      split
      · exact ht
      · exact List.mem_cons_of_mem _ ht
    refine ht.advances hadv (fun t hn => hn.imp_left hadv.black) hremembered (fun {t x} hx hm hq => ?_) hleaf
    rcases traversed_of_shades hshades hx hm hq with hor | ⟨⟨y, hy, hm⟩, hq⟩
    · exact .inl (.inl hor)
    · rcases hpopped.traversed hy hm hq with heq | hbefore
      · -- the object that was traversed: what it refers to has been marked
        cases heq
        obtain ⟨z, hz, hheader, -⟩ := hadv.entity_inv hx
        rw [he] at hz
        cases hz
        have hsurvives := hs.survives_of_holds (Heap.Phase.not_isSweeping hp) ⟨e, he⟩
        refine .inr ⟨fun v hv => .inl (hshades.black ((hrs _).2 ⟨v, hv, rfl⟩)
          (hpopped.advances.holds.2 (hclosed.edge hsurvives hv.edge).holds)), fun hmode => ?_⟩
        rw [hheader] at hmode
        subst hcycle
        rw [if_neg hmode]
        exact List.mem_cons_self
      · exact .inl (.inr hbefore)

/-- The promise of the marks is kept by any marking. -/
theorem Treated.tracing (ht : g.Treated h) (hs : h.Sound) (hp : h.phase.IsMarking) (hclosed : g.Closed h.space)
    (hleaf : ∀ {r kind v}, g.refers r kind v → kind.isLeaf = false) (htracing : h.Tracing g due h') :
    g.Treated h' :=
  htracing.induction hs hp ht fun _ _ hm hp' ht' hlast =>
    ht'.traces hm.sound hp' (hclosed.marks hs hp hm) hleaf hlast

end Graph

namespace Machine

variable {σ : Type} {mu : Mutator σ} {m m' : Machine σ} {due : Ref → Prop} {h₀ : Heap} {cost : Nat}

/-- Popping an object and traversing it is one event of the marking. -/
theorem traces_traverse (hs : m.heap.Sound) (hp : m.heap.phase.IsMarking)
    (hclosed : (mu.graph m.program).Closed m.heap.space) {r : Ref} {s : Space}
    (hpopped : m.heap.space.Popped (some r) s)
    (hrun : Machine.traverse mu { m with heap := { m.heap with space := s } } r = .ok (cost, m')) :
    mu.Asks m.program m'.program ∧ Heap.Traces (mu.graph m.program) due m.heap m'.heap := by
  obtain ⟨e, he⟩ := (hpopped.found r rfl).1
  have hadv := hpopped.advances
  obtain ⟨marked, hx, -⟩ := hadv.entity he
  rw [traverse] at hrun
  obtain ⟨header, hheader, hrun⟩ := bind_eq_ok_iff.1 hrun
  rw [Space.header_eq hpopped.wf hx] at hheader
  cases hheader
  obtain ⟨s', hvisit, hret⟩ := bind_eq_ok_iff.1 hrun
  cases hret
  have hsurvives := hs.survives_of_holds (Heap.Phase.not_isSweeping hp) ⟨e, he⟩
  obtain ⟨_, hvisit', hshades⟩ := Space.foldlM_visit_spec ((mu.graph m.program).mode r e.header.kind) hpopped.wf
    (mu.visits m.program r e.header.kind ((mu.graph m.program).mode r e.header.kind)).1
    fun v hv => hadv.holds.2 (hclosed.edge hsurvives ⟨e, he, hv⟩).holds
  obtain rfl := Except.ok.inj (hvisit.symm.trans hvisit')
  refine ⟨.visits _ _ _ .refl, .traversed hpopped he hshades (fun t => ?_) rfl⟩
  refine (Space.mem_targets (g := mu.graph m.program) hx fun v => Iff.rfl).trans ?_
  exact exists_congr fun v => and_congr_left' hadv.strong

/-- The loops of the marking are sequences of events. -/
theorem stable_tracing {program : σ} (hmu : mu.Faithful) (hs : h₀.Sound) (hp : h₀.phase.IsMarking)
    (hclosed : (mu.graph program).Closed h₀.space) :
    Stable mu fun m => mu.Asks program m.program ∧ h₀.Tracing (mu.graph program) due m.heap where
  drain {m h} hm hrun := by
    have hsound := (hm.2.marks hs hp).sound
    exact ⟨hm.1, hm.2.trans (Heap.Traces.drainIfAny hsound hrun)⟩
  exhaust {m source s} hm hpop := by
    have hsound := (hm.2.marks hs hp).sound
    exact ⟨hm.1, hm.2.tail (.exhausted (Space.popGrey_eq_ok hsound.wf hpop))⟩
  traverse {m m' source r s cost} hm hpop hrun := by
    have hmarks := hm.2.marks hs hp
    have hgraph := hm.1.graph hmu
    obtain ⟨hasks, hlast⟩ := traces_traverse hmarks.sound (hmarks.phase ▸ hp)
      (hgraph ▸ hclosed.marks hs hp hmarks) (Space.popGrey_eq_ok hmarks.sound.wf hpop) hrun
    exact ⟨hm.1.trans hasks, hm.2.tail (hgraph ▸ hlast)⟩

/-- Propagation is a sequence of events after which nothing waits and nothing is recorded. -/
theorem tracing_propagateAll (due : Ref → Prop) (hmu : mu.Faithful) (hs : m.heap.Sound) (hp : m.heap.phase.IsMarking)
    (hclosed : (mu.graph m.program).Closed m.heap.space) (hrun : m.propagateAll mu = .ok (cost, m')) :
    mu.Asks m.program m'.program ∧ m.heap.Tracing (mu.graph m.program) due m'.heap ∧
      (∀ t, ¬ (m'.heap.space.slot t).queued) ∧ m'.heap.stores.entries = #[] := by
  obtain ⟨⟨hasks, htracing⟩, hwaiting, hstores⟩ :=
    (stable_tracing hmu hs hp hclosed).propagateAll ⟨.refl, .refl⟩ hrun
  exact ⟨hasks, htracing, Space.not_queued_of_waiting hwaiting, Array.isEmpty_iff.1 hstores⟩

/-- What the roots of a marking are: those of the program, the fixed objects, and the objects whose
finalizers are due. -/
def Due (mu : Mutator σ) (m : Machine σ) (r : Ref) : Prop :=
  (mu.graph m.program).root r ∨ (m.heap.space.slot r).fixed ∨ (m.heap.space.slot r).pending

/-- Marking the roots is one event, after which they are marked. -/
theorem traces_markRoots (hs : m.heap.Sound) (hrun : m.markRoots mu = .ok m') :
    mu.Asks m.program m'.program ∧ Heap.Traces (mu.graph m.program) (Due mu m) m.heap m'.heap ∧
      ∀ r, Due mu m r → m'.heap.space.Black r := by
  obtain ⟨s', rfl, hshades, hroots⟩ :=
    markRoots_eq_ok hs.wf (fun t ht => hs.listed t (ht.imp_right .inr)) hrun
  have hmem : ∀ r, r ∈ (mu.roots m.program).1 ++ m.heap.space.fixedRoots ↔ Due mu m r := by
    intro r
    rw [List.mem_append, Space.mem_fixedRoots hs.wf]
    exact Iff.rfl
  refine ⟨.roots .refl, .marked hshades fun r hr => (hmem r).1 hr, fun r hr => hshades.black ((hmem r).2 hr) ?_⟩
  rcases hr with hroot | hlisted
  · exact hroots r hroot
  · exact hs.listed r (hlisted.imp_right .inr)

end Machine

end Tricolor
