import Tricolor.Proofs.Heap.Operation
import Tricolor.Proofs.Space.Fixing

/-!
# Operations and the lists of fixed objects

No operation of a program lists an object as fixed twice. An object that is moved is listed at its new place
before its old place is given up; a block that is resized is renamed in the list.
-/

namespace Tricolor

namespace Heap

variable {h h' : Heap} {r : Ref} {supply : Supply} {result : Except AllocError Ref} {kind : Kind} {size : Nat}

/-! ## Allocation -/

theorem fixedOnce_place (hf : h.space.FixedOnce) {total : Nat} (hrun : h.place supply total = .ok (result, h')) :
    h'.space.FixedOnce := by
  rw [place] at hrun
  split at hrun
  · obtain ⟨⟨r?, s₁⟩, halloc, hret⟩ := bind_eq_ok_iff.1 hrun
    cases hret
    exact hf.allocHuge halloc
  · obtain ⟨⟨r?, s₁⟩, halloc, hrest⟩ := bind_eq_ok_iff.1 hrun
    have hf₁ := hf.allocCells halloc
    cases r? with
    | error error =>
      cases hrest
      exact hf₁
    | ok r =>
      obtain ⟨s₂, hclear, hret⟩ := bind_eq_ok_iff.1 hrest
      cases hret
      exact hf₁.modifyBytes hclear

theorem fixedOnce_alloc (hf : h.space.FixedOnce) (hrun : h.alloc supply kind size = .ok (result, h')) :
    h'.space.FixedOnce := by
  rw [alloc] at hrun
  split at hrun
  · cases hrun
    exact hf
  · obtain ⟨total, -, hrun⟩ := bind_eq_ok_iff.1 hrun
    obtain ⟨⟨placed?, h₁⟩, hplace, hrest⟩ := bind_eq_ok_iff.1 hrun
    have hf₁ := fixedOnce_place hf hplace
    cases placed? with
    | error error =>
      cases hrest
      exact hf₁
    | ok r =>
      obtain ⟨s₂, hheader, hret⟩ := bind_eq_ok_iff.1 hrest
      cases hret
      exact hf₁.modifyHeader hheader

theorem fixedOnce_intern (hf : h.space.FixedOnce) {bytes : List UInt8}
    (hrun : h.intern supply bytes = .ok (result, h')) : h'.space.FixedOnce := by
  rw [Heap.intern] at hrun
  split at hrun
  · obtain ⟨survives, -, hrest⟩ := bind_eq_ok_iff.1 hrun
    split at hrest
    · cases hrest
      exact hf
    · obtain ⟨s', hmark, hret⟩ := bind_eq_ok_iff.1 hrest
      cases hret
      exact hf.setMark hmark
  · obtain ⟨⟨r?, h₁⟩, halloc, hrest⟩ := bind_eq_ok_iff.1 hrun
    have hf₁ := fixedOnce_alloc hf halloc
    cases r? with
    | error error =>
      cases hrest
      exact hf₁
    | ok r =>
      obtain ⟨s₂, hwrite, hret⟩ := bind_eq_ok_iff.1 hrest
      cases hret
      exact hf₁.modifyBytes hwrite

/-! ## Freeing and resizing -/

theorem fixedOnce_release (hf : h.space.FixedOnce) (hrun : h.release r = .ok h') : h'.space.FixedOnce := by
  obtain ⟨header, -, hrun⟩ := bind_eq_ok_iff.1 hrun
  obtain ⟨freed, hfree, hspace⟩ : ∃ freed, h.space.free r = .ok freed ∧ freed.2 = h'.space := by
    split at hrun
    · obtain ⟨_, -, hrun⟩ := bind_eq_ok_iff.1 hrun
      obtain ⟨_, -, hrun⟩ := bind_eq_ok_iff.1 hrun
      obtain ⟨_, hfree, hret⟩ := bind_eq_ok_iff.1 hrun
      cases hret
      exact ⟨_, hfree, rfl⟩
    · obtain ⟨_, -, hrun⟩ := bind_eq_ok_iff.1 hrun
      obtain ⟨_, hfree, hret⟩ := bind_eq_ok_iff.1 hrun
      cases hret
      exact ⟨_, hfree, rfl⟩
  exact hspace ▸ hf.free hfree

theorem fixedOnce_free (hf : h.space.FixedOnce) (hrun : h.free r size = .ok h') : h'.space.FixedOnce := by
  obtain ⟨_, -, hrun⟩ := bind_eq_ok_iff.1 hrun
  obtain ⟨_, -, hrun⟩ := bind_eq_ok_iff.1 hrun
  obtain ⟨_, -, hrun⟩ := bind_eq_ok_iff.1 hrun
  obtain ⟨_, -, hrelease⟩ := bind_eq_ok_iff.1 hrun
  exact fixedOnce_release hf hrelease

theorem fixedOnce_finishResize (hf : h.space.FixedOnce) {header : Header}
    (hrun : h.finishResize r header size = .ok h') : h'.space.FixedOnce := by
  rw [finishResize] at hrun
  obtain ⟨s₁, hclear, hrun⟩ := ite_bind_eq_ok_iff.1 hrun
  obtain ⟨s₂, hheader, hret⟩ := bind_eq_ok_iff.1 hrun
  cases hret
  have hf₁ : s₁.FixedOnce := by
    split at hclear
    · exact hf.modifyBytes hclear
    · cases hclear
      exact hf
  exact hf₁.modifyHeader hheader

/-- The copy of an object at its new place is not fixed before it is fixed in the object's stead. -/
theorem Sound.fixedOnce_moveObject (hs : h.Sound) (hf : h.space.FixedOnce) (hfresh : supply.Fresh h.space 0)
    {header : Header} (hrun : h.moveObject supply r header size = .ok (result, h')) : h'.space.FixedOnce := by
  obtain ⟨⟨moved?, h₀⟩, halloc, hrest⟩ := bind_eq_ok_iff.1 hrun
  have hf₀ := fixedOnce_alloc hf halloc
  cases moved? with
  | error error =>
    cases hrest
    exact hf₀
  | ok moved =>
    obtain ⟨bytes, hbytes, hrest⟩ := bind_eq_ok_iff.1 hrest
    obtain ⟨s₁, hwrite, hrest⟩ := bind_eq_ok_iff.1 hrest
    obtain ⟨s₂, hfix, hrest⟩ := ite_bind_eq_ok_iff.1 hrest
    obtain ⟨s₃, hregister, hrest⟩ := ite_bind_eq_ok_iff.1 hrest
    obtain ⟨marked, -, hrest⟩ := ite_bind_eq_ok_iff.1 hrest
    obtain ⟨s₄, hmark, hrest⟩ := ite_bind_eq_ok_iff.1 hrest
    obtain ⟨h₂, hrelease, hret⟩ := bind_eq_ok_iff.1 hrest
    cases hret
    have hf₁ : s₁.FixedOnce := hf₀.modifyBytes hwrite
    have hf₂ : s₂.FixedOnce := by
      split at hfix
      · obtain ⟨s₀, rfl, -, hok⟩ := alloc_eq_ok hs hfresh halloc
        obtain ⟨x, happears⟩ := hok moved rfl
        have hs₀ := hs.appears happears
        have hx : (s₀.slot moved).entity? = some x := by rw [happears.revises.slot_self]
        have hroom : headerBytes + 0 + (bytes.read r.payloadOffset (min header.size size)).length ≤ x.size := by
          have hfits := (objectBytes_eq_ok happears.size).1
          rw [Zeroed.length_read]
          omega
        obtain ⟨_, hwrite', hrev⟩ := Space.writePayload_spec hs₀.wf hx 0 _ hroom
        rw [hwrite'] at hwrite
        cases hwrite
        refine hf₁.fix hrev.wf (congrArg Slot.entity? hrev.slot_self) (fun y hy => ?_) hfix
        rw [hrev.slot_self] at hy ⊢
        cases hy
        exact hs₀.fixedAgrees moved x hx
      · cases hfix
        exact hf₁
    have hf₃ : s₃.FixedOnce := by
      split at hregister
      · exact hf₂.registerFinalizer hregister
      · cases hregister
        exact hf₂
    have hf₄ : s₄.FixedOnce := by
      split at hmark
      · exact hf₃.mark hmark
      · cases hmark
        exact hf₃
    exact fixedOnce_release (h := { h₀ with space := s₄ }) hf₄ hrelease

theorem Sound.fixedOnce_realloc (hs : h.Sound) (hf : h.space.FixedOnce) (hfresh : h.FreshFor supply r size)
    {old : Nat} (hrun : h.realloc supply r old size = .ok (result, h')) : h'.space.FixedOnce := by
  rw [realloc] at hrun
  obtain ⟨_, hlive, hrun⟩ := bind_eq_ok_iff.1 hrun
  obtain ⟨e, he⟩ := hs.isLive_iff.1 (require_eq_ok_iff.1 hlive)
  split at hrun
  · cases hrun
    exact hf
  · obtain ⟨total, htotal, hrun⟩ := bind_eq_ok_iff.1 hrun
    obtain ⟨header, -, hrun⟩ := bind_eq_ok_iff.1 hrun
    obtain ⟨_, -, hrun⟩ := bind_eq_ok_iff.1 hrun
    obtain ⟨_, -, hrun⟩ := bind_eq_ok_iff.1 hrun
    split at hrun
    · next hcond =>
      -- a huge block that stays one: what is listed is a block, and it does not move onto another block
      rw [Bool.and_eq_true, decide_eq_true_iff] at hcond
      obtain ⟨⟨moved?, s₁⟩, hresize, hrest⟩ := bind_eq_ok_iff.1 hrun
      obtain ⟨-, hok⟩ := Space.resizeHuge_eq_ok hs.wf hcond.1 he (hfresh.1 ⟨hcond.1, total, htotal, hcond.2⟩) hs.listed
        (objectBytes_eq_ok htotal).2.1 hresize
      have hf₁ : s₁.FixedOnce := hf.resizeHuge (fun moved hm hlisted => by
        obtain ⟨hhuge, hvacant, -⟩ := hok moved hm
        rcases hvacant with rfl | hvacant
        · rfl
        · have hfixed : (h.space.slot moved).fixed := by
            rw [Space.slot_of_isHuge hhuge]
            exact hlisted
          exact absurd hfixed (hs.not_listed hvacant).1) hresize
      cases moved? with
      | error error =>
        cases hrest
        exact hf₁
      | ok moved =>
        obtain ⟨h₂, hfinish, hret⟩ := bind_eq_ok_iff.1 hrest
        cases hret
        exact fixedOnce_finishResize (h := { h with space := s₁ }) hf₁ hfinish
    · next hcond =>
      obtain ⟨n, -, hrun⟩ := bind_eq_ok_iff.1 hrun
      split at hrun
      · obtain ⟨h₂, hfinish, hret⟩ := bind_eq_ok_iff.1 hrun
        cases hret
        exact fixedOnce_finishResize hf hfinish
      · refine hs.fixedOnce_moveObject hf (hfresh.2 ?_) hrun
        rintro ⟨hr, total', htotal', hlt⟩
        rw [htotal] at htotal'
        cases htotal'
        rw [hr, decide_eq_true hlt] at hcond
        exact hcond rfl

/-! ## Barriers -/

theorem fixedOnce_drainStores (hf : h.space.FixedOnce) (hrun : h.drainStores = .ok h') : h'.space.FixedOnce := by
  rw [drainStores] at hrun
  obtain ⟨s', hfold, hret⟩ := bind_eq_ok_iff.1 hrun
  cases hret
  rw [← Array.foldlM_toList] at hfold
  exact foldlM_keeps hf (fun _ hf hmark => hf.markRecorded hmark) hfold

theorem fixedOnce_record (hf : h.space.FixedOnce) (hrun : h.record r = .ok h') : h'.space.FixedOnce := by
  rw [record] at hrun
  simp only at hrun
  split at hrun
  · exact fixedOnce_drainStores (h := { h with stores := h.stores.push r }) hf hrun
  · cases hrun
    exact hf

theorem fixedOnce_saveFromSweep (hf : h.space.FixedOnce) (hrun : h.saveFromSweep r = .ok h') :
    h'.space.FixedOnce := by
  rw [saveFromSweep] at hrun
  split at hrun
  · obtain ⟨needs, -, hrun⟩ := bind_eq_ok_iff.1 hrun
    split at hrun
    · obtain ⟨s', hmark, hret⟩ := bind_eq_ok_iff.1 hrun
      cases hret
      exact hf.setMark hmark
    · cases hrun
      exact hf
  · cases hrun
    exact hf

theorem fixedOnce_barrierForward (hf : h.space.FixedOnce) {writer referent : Ref}
    (hrun : h.barrierForward writer referent = .ok h') : h'.space.FixedOnce := by
  obtain ⟨hides, -, hrest⟩ := bind_eq_ok_iff.1 hrun
  split at hrest
  · split at hrest
    · exact fixedOnce_record hf hrest
    · exact fixedOnce_saveFromSweep hf hrest
  · cases hrest
    exact hf

theorem fixedOnce_barrierBack (hf : h.space.FixedOnce) (hrun : h.barrierBack r = .ok h') : h'.space.FixedOnce := by
  rw [barrierBack] at hrun
  split at hrun
  · obtain ⟨marked, -, hrest⟩ := bind_eq_ok_iff.1 hrun
    split at hrest
    · obtain ⟨s₁, hclear, hrecord⟩ := bind_eq_ok_iff.1 hrest
      exact fixedOnce_record (h := { h with space := s₁ }) (hf.clearMark hclear) hrecord
    · cases hrest
      exact hf
  · cases hrun
    exact hf

theorem fixedOnce_barrierSlot (hf : h.space.FixedOnce) {writer referent : Ref}
    (hrun : h.barrierSlot writer referent = .ok h') : h'.space.FixedOnce := by
  obtain ⟨hides, -, hrest⟩ := bind_eq_ok_iff.1 hrun
  split at hrest
  · split at hrest
    · obtain ⟨s', hmark, hret⟩ := bind_eq_ok_iff.1 hrest
      cases hret
      exact hf.mark hmark
    · exact fixedOnce_saveFromSweep hf hrest
  · cases hrest
    exact hf

/-! ## Operations -/

theorem Operation.fixedOnce {allowed : Resizings} (hs : h.Sound) (hf : h.space.FixedOnce)
    (hop : Operation allowed h h') : h'.space.FixedOnce := by
  cases hop with
  | alloc _ hrun => exact fixedOnce_alloc hf hrun
  | intern _ hrun => exact fixedOnce_intern hf hrun
  | free _ hrun => exact fixedOnce_free hf hrun
  | realloc _ hfresh hrun => exact hs.fixedOnce_realloc hf hfresh hrun
  | writePayload _ _ hrun =>
    obtain ⟨_, -, hrun⟩ := bind_eq_ok_iff.1 hrun
    obtain ⟨_, -, hrun⟩ := bind_eq_ok_iff.1 hrun
    obtain ⟨_, hwrite, hret⟩ := bind_eq_ok_iff.1 hrun
    cases hret
    exact hf.modifyBytes hwrite
  | @fix r _ _ hrun =>
    obtain ⟨_, hlive, hrun⟩ := bind_eq_ok_iff.1 hrun
    obtain ⟨_, hfix, hret⟩ := bind_eq_ok_iff.1 hrun
    cases hret
    obtain ⟨e, he⟩ := hs.isLive_iff.1 (require_eq_ok_iff.1 hlive)
    exact hf.fix hs.wf he (hs.fixedAgrees r) hfix
  | registerFinalizer _ hrun =>
    obtain ⟨_, -, hrun⟩ := bind_eq_ok_iff.1 hrun
    obtain ⟨_, hregister, hret⟩ := bind_eq_ok_iff.1 hrun
    cases hret
    exact hf.registerFinalizer hregister
  | barrierForward _ _ hrun => exact fixedOnce_barrierForward hf hrun
  | barrierBack _ hrun => exact fixedOnce_barrierBack hf hrun
  | barrierSlot _ _ hrun => exact fixedOnce_barrierSlot hf hrun
  | setTraceActive => exact hf
  | setPause => exact hf
  | setStepMultiplier => exact hf

end Heap

end Tricolor
