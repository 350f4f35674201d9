import Tricolor.Proofs.References

/-!
# Registrations of resized objects

Wherever a resizing leaves an object, it is fixed and registered there as it was before, and nothing
is left of its old place in any list. What is not always kept is that its finalizer is due: an object
that stays in its place, or a block, is due as it was, but one that is moved by copying it is
registered anew, so that its finalizer has to wait until another cycle finds it unreachable.
-/

namespace Tricolor

namespace Heap

variable {h h' h₁ : Heap} {r moved : Ref} {e : Entity} {size : Nat}

/-- A resizing to another place that is done by copying the object. -/
def ByCopying (h : Heap) (r : Ref) (size : Nat) (moved : Ref) : Prop := ¬ h.StaysHuge r size ∧ moved ≠ r

/-- What becomes of the registrations of an object that is resized at `r`, and is then at `moved`. -/
structure Renews (h : Heap) (r moved : Ref) (size : Nat) (h' : Heap) : Prop where
  live : h'.isLive moved = true
  fixed : (h'.space.slot moved).fixed ↔ (h.space.slot r).fixed
  /-- it has to be finalized if it had to be -/
  registered : (h'.space.slot moved).idle ∨ (h'.space.slot moved).pending ↔
    (h.space.slot r).idle ∨ (h.space.slot r).pending
  /-- its finalizer is due if it was, unless the object was copied -/
  pending : (h'.space.slot moved).pending ↔ (h.space.slot r).pending ∧ ¬ h.ByCopying r size moved
  idle : (h'.space.slot moved).idle ↔
    (h.space.slot r).idle ∨ (h.space.slot r).pending ∧ h.ByCopying r size moved
  /-- no list has its old place -/
  dropped : moved ≠ r → ¬ (h'.space.slot r).fixed ∧ ¬ (h'.space.slot r).idle ∧ ¬ (h'.space.slot r).pending

/-- A copy is registered as its header says, which is the header of the object. -/
theorem Copies.renews (hs : h.Sound) (he : (h.space.slot r).entity? = some e) (hstays : ¬ h.StaysHuge r size)
    (hne : moved ≠ r) (hc : h.Copies r e size moved h₁) (hrel : h₁.Releases r h') : h.Renews r moved size h' := by
  obtain ⟨x, hx, hheader, -⟩ := hc.copy
  have hs' := hc.sound.releases hrel
  have hslot : h'.space.slot moved = h₁.space.slot moved := hrel.revises.slot_ne hne
  have hx' : (h'.space.slot moved).entity? = some x := hslot ▸ hx
  have hpending : ¬ (h'.space.slot moved).pending := fun hp => hc.listed (hslot ▸ hp)
  have hcopied : h.ByCopying r size moved := ⟨hstays, hne⟩
  have hregistered : (h'.space.slot moved).idle ∨ (h'.space.slot moved).pending ↔
      (h.space.slot r).idle ∨ (h.space.slot r).pending := by
    rw [(hs'.admits moved).registered hx', (hs.admits r).registered he, hheader]
  refine
    { live := hs'.isLive_iff.2 ⟨x, hx'⟩
      fixed := by rw [(hs'.admits moved).fixed hx', (hs.admits r).fixed he, hheader]
      registered := hregistered
      pending := ⟨fun hp => absurd hp hpending, fun hp => absurd hcopied hp.2⟩
      idle := ?_
      dropped := fun _ => ?_ }
  · constructor
    · intro hidle
      exact (hregistered.1 (.inl hidle)).imp_right fun hp => ⟨hp, hcopied⟩
    · intro hor
      exact (hregistered.2 (hor.imp_right And.left)).resolve_right hpending
  · rw [hrel.revises.slot_self]
    exact ⟨id, id, id⟩

/-- What a successful resizing makes of the registrations. -/
theorem Reallocates.renews (hs : h.Sound) (he : (h.space.slot r).entity? = some e)
    (hr : h.Reallocates r e size (.ok moved) h') : h.Renews r moved size h' := by
  cases hr with
  | @resized _ x s' hs' hslot hmoved _ _ _ =>
    -- the lists go along with the object
    have hnot : ¬ h.ByCopying r size moved := fun hcopied =>
      hmoved.elim hcopied.2 fun hstays => hcopied.1 hstays.1
    have hself : s'.slot moved = { h.space.slot r with entity? := some x } := by
      rw [hslot, Function.update_self]
    have hself' : (Heap.space { h with space := s' }).slot moved = _ := hself
    refine
      { live := hs'.isLive_iff.2 ⟨x, by rw [hself']⟩
        fixed := by rw [hself']
        registered := by rw [hself']
        pending := by rw [hself']; exact (and_iff_left hnot).symm
        idle := by rw [hself']; exact (or_iff_left fun hp => hnot hp.2).symm
        dropped := fun hne => ?_ }
    show ¬ (s'.slot r).fixed ∧ ¬ (s'.slot r).idle ∧ ¬ (s'.slot r).pending
    rw [hslot, Function.update_of_ne hne.symm, Function.update_self]
    exact ⟨id, id, id⟩
  | moved hstays hne hc hrel => exact hc.renews hs he hstays hne hrel

end Heap

namespace Machine

variable {σ : Type} {mu : Mutator σ} {m : Machine σ} {config : Config} {hashOf : List UInt8 → Hash}
  {supply : Supply} {r moved : Ref} {old size : Nat} {h : Heap}

/-- A resized object is fixed if it was, and registered if it was, and its old place is in no list.
Its finalizer is due if it was, except that a finalizer that is due is put off when the object is
moved by copying it. -/
theorem resizing_renews_registrations (hm : Reachable mu Heap.anyResizing config hashOf m)
    (hfresh : m.heap.FreshFor supply r size)
    (hrun : m.heap.realloc supply r old size = .ok (.ok moved, h)) : m.heap.Renews r moved size h := by
  obtain ⟨e, he, hr⟩ := Heap.realloc_eq_ok hm.sound hfresh hrun
  exact hr.renews hm.sound he

/-- A block whose finalizer is due loses its payload, and so is copied: its finalizer is not due any more. -/
theorem due_finalizer_put_off : ∃ (m : Machine Ledger) (h : Heap),
    m.heap.phase = .finalize ∧ (m.heap.space.slot (.huge 5)).pending ∧
      m.heap.realloc (.page 6) (.huge 5) 100 0 = .ok (.ok ⟨6, 1024⟩, h) ∧
      (h.space.slot ⟨6, 1024⟩).idle ∧ ¬ (h.space.slot ⟨6, 1024⟩).pending := by
  let config : Config := { hugeThreshold := 64, stringsPerStep := 64 }
  let start := answerOf (Heap.build config fun _ => 0) (by decide +kernel)
  have hstart : Heap.withConfig config (fun _ => 0) = .ok (.ok start) := rfl
  let placed := answerOf (start.alloc (.page 5) .udata 100) (by decide +kernel)
  have hplaced : start.alloc (.page 5) .udata 100 = .ok placed := eq_answerOf _
  let registered := answerOf (placed.2.registerFinalizer (.huge 5)) (by decide +kernel)
  have hregistered : placed.2.registerFinalizer (.huge 5) = .ok registered := eq_answerOf _
  -- seven steps lead to the phase in which finalizers run
  let swept := answerOf (singleSteps Ledger.mutator ⟨{}, registered⟩ 7) (by decide +kernel)
  have hswept : singleSteps Ledger.mutator ⟨{}, registered⟩ 7 = .ok swept := eq_answerOf _
  have hplace : Reachable Ledger.mutator Heap.anyResizing config (fun _ => 0) ⟨{}, placed.2⟩ :=
    (Reachable.initial {} hstart).step
      (.operate (.alloc (Supply.page_fresh (by decide) rfl (by decide +kernel) 0) hplaced))
  have hregister : Reachable Ledger.mutator Heap.anyResizing config (fun _ => 0) ⟨{}, registered⟩ :=
    hplace.step (.operate (.registerFinalizer ⟨by decide +kernel, by decide +kernel⟩ hregistered))
  have hreach := hregister.singleSteps (Ledger.finalizersOperate _ _ _) hswept
  have hfresh := Supply.page_fresh (p := 6) (s := swept.heap.space) (by decide) (by decide +kernel)
    (by decide +kernel)
  have hs := hreach.sound
  obtain ⟨e, he⟩ := hs.isLive_iff.1 (show swept.heap.isLive (.huge 5) = true by decide +kernel)
  have hheader : e.header = ⟨.udata, false, true, 100⟩ := Except.ok.inj
    ((Space.header_eq hs.wf he).symm.trans (by decide +kernel : swept.heap.space.header (.huge 5) = _))
  have htotal : objectBytes 0 = .ok 16 := by decide
  have hstays : ¬ swept.heap.StaysHuge (.huge 5) 0 := by
    rintro ⟨-, total, htotal', hlt⟩
    cases htotal.symm.trans htotal'
    exact absurd hlt (by decide +kernel)
  -- there is room in an arena, so the object is moved there
  obtain ⟨h₀, halloc⟩ : ∃ h₀, swept.heap.alloc (.page 6) e.header.kind 0 = .ok (.ok ⟨6, 1024⟩, h₀) := by
    rw [hheader]
    exact ⟨_, eq_answerOf_of_fst (by decide +kernel) (by decide +kernel)⟩
  have hkind : e.header.kind ≠ .str := by rw [hheader]; decide
  obtain ⟨_, h, hmoves, hne, -, -⟩ := Heap.moveObject_spec hs (hfresh 0) he hkind halloc
  have hresized : swept.heap.realloc (.page 6) (.huge 5) 100 0 = .ok (.ok ⟨6, 1024⟩, h) := by
    rw [← hmoves, ← Heap.realloc_eq_moveObject hs he hkind (by decide) htotal hstays (by simp [Ref.huge, Ref.isHuge]),
      hheader]
  have hrenews := resizing_renews_registrations hreach ⟨fun _ => hfresh 5, fun _ => hfresh 0⟩ hresized
  have hmem : 5 ∈ swept.heap.space.hugePending := by decide +kernel
  have hpending : (swept.heap.space.slot (.huge 5)).pending := by rwa [Space.slot_huge]
  have hcopied : swept.heap.ByCopying (.huge 5) 0 ⟨6, 1024⟩ := ⟨hstays, hne⟩
  exact ⟨swept, h, by decide +kernel, hpending, hresized, hrenews.idle.2 (.inr ⟨hpending, hcopied⟩),
    fun hp => (hrenews.pending.1 hp).2 hcopied⟩

end Machine

end Tricolor
