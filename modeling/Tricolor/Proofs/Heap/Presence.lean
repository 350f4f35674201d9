import Tricolor.Proofs.Heap.Operation

/-!
# Which objects there are

An operation of a program adds the object that it answers, and removes the object that it frees or
moves. All other objects stay where they are.
-/

namespace Tricolor

/-- Changing an object neither adds nor removes it. -/
theorem Slot.exists_mapEntity {v : Slot} {f : Entity → Entity} :
    (∃ x, (v.mapEntity f).entity? = some x) ↔ ∃ e, v.entity? = some e := by
  rw [← Option.isSome_iff_exists, ← Option.isSome_iff_exists, mapEntity_entity?, Option.isSome_map]

namespace Space

variable {others : Ref → Prop} {s s' s'' : Space} {r t : Ref} {v : Slot}

/-- The same objects are there, except for `others`. -/
def KeepsObjects (others : Ref → Prop) (s s' : Space) : Prop := ∀ t, ¬ others t → (s'.Holds t ↔ s.Holds t)

namespace KeepsObjects

theorem of_slot (h : s'.slot = s.slot) : KeepsObjects others s s' := fun t _ => by
  rw [Holds, Holds, h]

theorem refl (s : Space) : KeepsObjects others s s := .of_slot rfl

theorem trans (h : KeepsObjects others s s') (h' : KeepsObjects others s' s'') : KeepsObjects others s s'' :=
  fun t ht => (h' t ht).trans (h t ht)

theorem mono {more : Ref → Prop} (h : KeepsObjects others s s') (hmore : ∀ t, others t → more t) :
    KeepsObjects more s s' := fun t ht => h t fun hother => ht (hmore t hother)

theorem shades {rs : List Ref} (h : s.Shades rs s') : KeepsObjects others s s' := fun _ _ => h.holds

theorem advances (h : s.Advances s') : KeepsObjects others s s' := fun _ _ => h.holds

/-- Whatever happens at a place, the objects elsewhere stay. -/
theorem elsewhere (h : s.Revises s' r v) (hr : others r) : KeepsObjects others s s' := fun t ht => by
  have htr : t ≠ r := fun heq => ht (heq ▸ hr)
  rw [Holds, Holds, h.slot_ne htr]

/-- A change of an object that stays. -/
theorem revises (h : s.Revises s' r v) (hr : s.Holds r) (hv : ∃ e, v.entity? = some e) :
    KeepsObjects others s s' := fun t ht => by
  by_cases htr : t = r
  · subst htr
    exact iff_of_true (by rw [Holds, h.slot_self]; exact hv) hr
  · rw [Holds, Holds, h.slot_ne htr]

end KeepsObjects

end Space

namespace Heap

variable {others : Ref → Prop} {h h' : Heap} {r t : Ref} {e : Entity} {supply : Supply}
  {result : Except AllocError Ref} {size : Nat}

/-- The same objects are allocated. -/
theorem isLive_eq (hwf : h.space.Wf) (hwf' : h'.space.Wf) (hkeeps : Space.KeepsObjects others h.space h'.space)
    (ht : ¬ others t) : h'.isLive t = h.isLive t :=
  Bool.eq_iff_iff.2 ((Space.holds_iff hwf').trans ((hkeeps t ht).trans (Space.holds_iff hwf).symm))

theorem Releases.keepsObjects (hr : h.Releases r h') : Space.KeepsObjects (· = r) h.space h'.space :=
  .elsewhere hr.revises rfl

/-- An object that is resized may be found at another place, where there was none before. -/
theorem Reallocates.keepsObjects (hr : h.Reallocates r e size result h') :
    Space.KeepsObjects (fun t => result = .ok t ∨ t = r) h.space h'.space := by
  cases hr with
  | refused halike => exact .of_slot halike.slot
  | @resized moved x s' _ hslot =>
    refine fun t ht => ?_
    have htr : t ≠ r := fun heq => ht (.inr heq)
    have htm : t ≠ moved := fun heq => ht (.inl (heq ▸ rfl))
    rw [Space.Holds, hslot, Function.update_of_ne htm, Function.update_of_ne htr]
    exact Iff.rfl
  | @moved moved h₁ h' _ _ hcopies hrel =>
    refine Space.KeepsObjects.trans (fun t ht => ?_) (hrel.keepsObjects.mono fun _ => .inr)
    have htm : t ≠ moved := fun heq => ht (.inl (heq ▸ rfl))
    rw [Space.Holds, Space.Holds, hcopies.slot t htm]

theorem Reallocates.vacant {moved : Ref} (hr : h.Reallocates r e size (.ok moved) h') :
    moved = r ∨ ¬ h.space.Holds moved := by
  cases hr with
  | resized _ _ hmoved => exact hmoved.imp_right fun hnone => Space.not_holds.2 hnone.2
  | moved _ _ hcopies _ => exact .inr (Space.not_holds.2 hcopies.vacant)

/-! ## Barriers -/

theorem Records.keepsObjects (hr : h.Records r h') : Space.KeepsObjects others h.space h'.space := by
  cases hr with
  | pushed => exact .refl _
  | drained _ hshades => exact .shades hshades

theorem Regreys.keepsObjects (he : (h.space.slot r).entity? = some e) (hg : Regreys h e r h') :
    Space.KeepsObjects others h.space h'.space := by
  cases hg with
  | idle => exact .refl _
  | greyed _ hrev _ hrec =>
    exact Space.KeepsObjects.trans (.revises hrev ⟨e, he⟩ ⟨_, rfl⟩) hrec.keepsObjects

end Heap

end Tricolor
