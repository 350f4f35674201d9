import Tricolor.Proofs.Heap.Updates

/-!
# Write barriers

What each barrier does to the two objects that it is given. While objects are being marked it
marks or records one of them; while a sweep is pending it saves the referent; in the other
phases it does nothing.
-/

namespace Tricolor

namespace Heap

variable {h h' : Heap} {r t : Ref} {e : Entity} {s' : Space} {rs : List Ref}

/-- Marking objects keeps a heap sound while objects are being marked. -/
theorem Sound.shades (hs : h.Sound) (hp : h.phase.IsMarking) (hshades : h.space.Shades rs s') :
    Sound { h with space := s' } := by
  have hadmits : ∀ v : Slot, h.phase.Admits v → h.phase.Admits v.shade := by
    intro v hv
    have hentity : ∀ {x : Entity}, v.shade.entity? = some x → ∃ y, v.entity? = some y ∧ x.header = y.header ∧
        x.size = y.size := by
      intro x hx
      rw [Slot.shade_entity?] at hx
      obtain ⟨y, hy, rfl⟩ := Option.map_eq_some_iff.1 hx
      exact ⟨y, hy, rfl, rfl⟩
    exact
      { size := fun {x} hx => by
          obtain ⟨y, hy, hheader, hsize⟩ := hentity hx
          rw [hheader, hsize]
          exact hv.size hy
        fixed := fun {x} hx => by
          obtain ⟨y, hy, hheader, -⟩ := hentity hx
          rw [hheader, Slot.shade_fixed]
          exact hv.fixed hy
        registered := fun {x} hx => by
          obtain ⟨y, hy, hheader, -⟩ := hentity hx
          rw [hheader, Slot.shade_idle, Slot.shade_pending]
          exact hv.registered hy
        listed := fun hor => by
          rw [Slot.shade_fixed, Slot.shade_idle, Slot.shade_pending] at hor
          obtain ⟨y, hy, -⟩ := hv.listed hor
          exact ⟨_, by rw [Slot.shade_entity?, hy]; rfl, rfl⟩
        queued := fun _ => hp
        marked := fun _ _ => .inr hp }
  refine hs.replace hshades.wf hshades.unswept hshades.hugeNeedsSweep (fun t => ?_) fun hash t hmem => ?_
  · rw [hshades.slot]
    split
    · exact hadmits _ (hs.admits t)
    · exact hs.admits t
  · have hlinks := hs.linked hmem
    rw [hshades.slot]
    split
    · obtain ⟨e, he, -⟩ := hlinks
      exact (hs.linked hmem).of_entity he (x := { e with marked := true })
        (by rw [Slot.shade_entity?, he]; rfl) rfl rfl fun _ => rfl
    · exact hlinks

/-- Draining the store buffer marks the recorded objects. -/
theorem drainStores_eq_ok (hs : h.Sound) (hrun : h.drainStores = .ok h') :
    (∀ r ∈ h.stores.entries, h.space.Holds r) ∧ ∃ s', h.space.Shades h.stores.entries.toList s' ∧
      h' = { h with space := s', stores := h.stores.clear } := by
  rw [drainStores] at hrun
  obtain ⟨s₁, hfold, hret⟩ := bind_eq_ok_iff.1 hrun
  cases hret
  rw [← Array.foldlM_toList] at hfold
  obtain ⟨hall, hshades⟩ := Space.foldlM_markRecorded_eq_ok hs.wf hfold
  exact ⟨fun r hr => hall r (Array.mem_toList_iff.2 hr), _, hshades, rfl⟩

/-- The store buffer can be drained when the recorded objects are allocated. -/
theorem drainStores_spec (hs : h.Sound) (hall : ∀ r ∈ h.stores.entries, h.space.Holds r) :
    ∃ s', h.drainStores = .ok { h with space := s', stores := h.stores.clear } ∧
      h.space.Shades h.stores.entries.toList s' := by
  obtain ⟨s', hfold, hshades⟩ := Space.foldlM_markRecorded_spec hs.wf h.stores.entries.toList
    fun r hr => hall r (Array.mem_toList_iff.1 hr)
  refine ⟨s', ?_, hshades⟩
  rw [drainStores]
  refine bind_eq_ok_iff.2 ⟨s', ?_, rfl⟩
  rw [← Array.foldlM_toList]
  exact hfold

theorem Sound.drained (hs : h.Sound) (hp : h.phase.IsMarking) (hshades : h.space.Shades rs s') :
    Sound { h with space := s', stores := h.stores.clear } :=
  let hshaded := hs.shades hp hshades
  { wf := hshaded.wf
    admits := hshaded.admits
    strings := hshaded.strings
    linked := hshaded.linked
    flags := hshaded.flags
    stores := fun _ => rfl
    config := hshaded.config }

/-- How an object is recorded while objects are being marked: it is the latest entry of the
store buffer, unless that filled the buffer and all its entries were marked. -/
inductive Records (h : Heap) (r : Ref) : Heap → Prop where
  | pushed : Records h r { h with stores := h.stores.push r }
  | drained {s' : Space} : (∀ t ∈ (h.stores.push r).entries, h.space.Holds t) →
      h.space.Shades (h.stores.push r).entries.toList s' →
      Records h r { h with space := s', stores := (h.stores.push r).clear }

theorem record_eq_ok (hs : h.Sound) (hp : h.phase.IsMarking) (hrun : h.record r = .ok h') :
    h.Records r h' ∧ h'.Sound := by
  have hpushed : Sound { h with stores := h.stores.push r } :=
    { wf := hs.wf
      admits := hs.admits
      strings := hs.strings
      linked := hs.linked
      flags := hs.flags
      stores := fun hnot => absurd hp hnot
      config := hs.config }
  rw [record] at hrun
  simp only at hrun
  split at hrun
  · obtain ⟨hall, s', hshades, rfl⟩ := drainStores_eq_ok hpushed hrun
    exact ⟨.drained hall hshades, hpushed.drained hp hshades⟩
  · cases hrun
    exact ⟨.pushed, hpushed⟩

theorem hidesReferent_eq_ok (hs : h.Sound) {writer referent : Ref} {b : Bool} {e x : Entity}
    (he : (h.space.slot writer).entity? = some e) (hx : (h.space.slot referent).entity? = some x)
    (hrun : h.hidesReferent writer referent = .ok b) : b = (e.marked && !x.marked) := by
  rw [hidesReferent] at hrun
  obtain ⟨marked, hmarked, hrun⟩ := bind_eq_ok_iff.1 hrun
  rw [Space.isMarked_eq hs.wf he] at hmarked
  cases hmarked
  cases hm : e.marked with
  | false =>
    rw [hm, if_neg Bool.false_ne_true] at hrun
    cases hrun
    rfl
  | true =>
    rw [hm, if_pos rfl] at hrun
    obtain ⟨marked, hmarked, hret⟩ := bind_eq_ok_iff.1 hrun
    rw [Space.isMarked_eq hs.wf hx] at hmarked
    cases hmarked
    cases hret
    rfl

/-- Saving an object from the pending sweep sets its mark. -/
theorem Sound.saveFromSweep (hs : h.Sound) (hx : (h.space.slot r).entity? = some e)
    (hrun : h.saveFromSweep r = .ok h') :
    h'.Sound ∧ (h' = h ∨ e.awaits = true ∧ ∃ s', h' = { h with space := s' } ∧
      h.space.Revises s' r { h.space.slot r with entity? := some { e with marked := true } }) := by
  rw [Heap.saveFromSweep] at hrun
  split at hrun
  · obtain ⟨needs, hneeds, hrun⟩ := bind_eq_ok_iff.1 hrun
    rw [Space.needsSweep_eq hs.wf hx] at hneeds
    cases hneeds
    split at hrun
    · next haw =>
      obtain ⟨s₁, hmark, hret⟩ := bind_eq_ok_iff.1 hrun
      cases hret
      obtain ⟨s', hmark', hrev⟩ := Space.setMark_spec hs.wf hx
      rw [hmark'] at hmark
      cases hmark
      rw [Slot.mapEntity_of_some hx] at hrev
      have hsize := (hs.admits r).size hx
      refine ⟨?_, .inr ⟨haw, _, rfl, hrev⟩⟩
      refine hs.revise hrev ((hs.admits r).of_entity hx hsize rfl rfl (fun _ => rfl) fun _ => .inl haw) ?_
      exact fun hash hlinked => (hs.linked hlinked).of_entity hx rfl rfl rfl fun _ => rfl
    · cases hrun
      exact ⟨hs, .inl rfl⟩
  · cases hrun
    exact ⟨hs, .inl rfl⟩

/-- How a barrier that is told of one referent treats it. -/
inductive Forwards (h : Heap) (e x : Entity) (referent : Ref) (recorded : Heap → Prop) : Heap → Prop where
  /-- nothing is hidden -/
  | idle : ¬ (e.marked = true ∧ x.marked = false) ∨ ¬ h.phase.IsMarking →
      Forwards h e x referent recorded h
  | marking {h' : Heap} : h.phase.IsMarking → recorded h' → Forwards h e x referent recorded h'
  | sweeping {s' : Space} : ¬ h.phase.IsMarking → x.awaits = true →
      h.space.Revises s' referent { h.space.slot referent with entity? := some { x with marked := true } } →
      Forwards h e x referent recorded { h with space := s' }

theorem barrierForward_eq_ok (hs : h.Sound) {writer referent : Ref} {e x : Entity}
    (he : (h.space.slot writer).entity? = some e) (hx : (h.space.slot referent).entity? = some x)
    (hrun : h.barrierForward writer referent = .ok h') :
    h'.Sound ∧ Forwards h e x referent (h.Records referent) h' := by
  rw [barrierForward] at hrun
  obtain ⟨hides, hhides, hrun⟩ := bind_eq_ok_iff.1 hrun
  have hb := hidesReferent_eq_ok hs he hx hhides
  split at hrun
  · split at hrun
    · next hp =>
      have hp := isMarking_iff.1 hp
      obtain ⟨hrec, hsound⟩ := record_eq_ok hs hp hrun
      exact ⟨hsound, .marking hp hrec⟩
    · next hp =>
      have hp := fun hmarking => hp (isMarking_iff.2 hmarking)
      obtain ⟨hsound, rfl | ⟨haw, s', rfl, hrev⟩⟩ := hs.saveFromSweep hx hrun
      · exact ⟨hsound, .idle (.inr hp)⟩
      · exact ⟨hsound, .sweeping hp haw hrev⟩
  · next hnot =>
    cases hrun
    rw [hb, Bool.and_eq_true, Bool.not_eq_true'] at hnot
    exact ⟨hs, .idle (.inl hnot)⟩

theorem barrierSlot_eq_ok (hs : h.Sound) {writer referent : Ref} {e x : Entity}
    (he : (h.space.slot writer).entity? = some e) (hx : (h.space.slot referent).entity? = some x)
    (hrun : h.barrierSlot writer referent = .ok h') :
    h'.Sound ∧ Forwards h e x referent
      (fun h' => ∃ s', h' = { h with space := s' } ∧ h.space.Shades [referent] s') h' := by
  rw [barrierSlot] at hrun
  obtain ⟨hides, hhides, hrun⟩ := bind_eq_ok_iff.1 hrun
  have hb := hidesReferent_eq_ok hs he hx hhides
  split at hrun
  · split at hrun
    · next hp =>
      have hp := isMarking_iff.1 hp
      obtain ⟨s₁, hmark, hret⟩ := bind_eq_ok_iff.1 hrun
      cases hret
      obtain ⟨-, hshades⟩ := Space.mark_eq_ok hs.wf hmark
      exact ⟨hs.shades hp hshades, .marking hp ⟨_, rfl, hshades⟩⟩
    · next hp =>
      have hp := fun hmarking => hp (isMarking_iff.2 hmarking)
      obtain ⟨hsound, rfl | ⟨haw, s', rfl, hrev⟩⟩ := hs.saveFromSweep hx hrun
      · exact ⟨hsound, .idle (.inr hp)⟩
      · exact ⟨hsound, .sweeping hp haw hrev⟩
  · next hnot =>
    cases hrun
    rw [hb, Bool.and_eq_true, Bool.not_eq_true'] at hnot
    exact ⟨hs, .idle (.inl hnot)⟩

/-- How a barrier treats the container that was written to: a black one is unmarked and
recorded. -/
inductive Regreys (h : Heap) (e : Entity) (container : Ref) : Heap → Prop where
  | idle : e.marked = false ∨ ¬ h.phase.IsMarking → Regreys h e container h
  | greyed {s' : Space} {h' : Heap} : h.phase.IsMarking →
      h.space.Revises s' container { h.space.slot container with entity? := some { e with marked := false } } →
      Sound { h with space := s' } → Records { h with space := s' } container h' →
      Regreys h e container h'

theorem barrierBack_eq_ok (hs : h.Sound) {container : Ref} (he : (h.space.slot container).entity? = some e)
    (hrun : h.barrierBack container = .ok h') : h'.Sound ∧ Regreys h e container h' := by
  rw [barrierBack] at hrun
  split at hrun
  · next hp =>
    have hp := isMarking_iff.1 hp
    obtain ⟨marked, hmarked, hrun⟩ := bind_eq_ok_iff.1 hrun
    rw [Space.isMarked_eq hs.wf he] at hmarked
    cases hmarked
    split at hrun
    · obtain ⟨s₁, hclear, hrun⟩ := bind_eq_ok_iff.1 hrun
      obtain ⟨s', hclear', hrev⟩ := Space.clearMark_spec hs.wf he
      rw [hclear'] at hclear
      cases hclear
      rw [Slot.mapEntity_of_some he] at hrev
      have hsize := (hs.admits container).size he
      have hsurvives : Entity.survives { e with marked := false } = true := by
        rw [Entity.survives, hs.awaits (Phase.not_isSweeping hp) he]
        rfl
      have hunmarked := hs.revise hrev
        ((hs.admits container).of_entity (x := { e with marked := false }) he hsize rfl rfl
          (fun _ => hsurvives) fun hm => absurd hm Bool.false_ne_true)
        fun hash hlinked => (hs.linked hlinked).of_entity he rfl rfl rfl fun _ => hsurvives
      obtain ⟨hrec, hsound⟩ := record_eq_ok hunmarked hp hrun
      exact ⟨hsound, .greyed hp hrev hunmarked hrec⟩
    · next hm =>
      cases hrun
      exact ⟨hs, .idle (.inl (Bool.not_eq_true _ ▸ hm))⟩
  · next hp =>
    cases hrun
    exact ⟨hs, .idle (.inr fun hmarking => hp (isMarking_iff.2 hmarking))⟩

end Heap

end Tricolor
