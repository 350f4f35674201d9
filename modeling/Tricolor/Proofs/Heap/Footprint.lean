import Tricolor.Proofs.Heap.Memory

/-!
# The footprints of the operations

For every operation of a program, the objects that it writes, those that it removes and those whose
flags it changes. Allocating, interning and resizing write the object that they answer; freeing writes
no object.
-/

namespace Tricolor

namespace Space

variable {own flagged : Ref → Prop} {s s' : Space} {r : Ref} {n : Nat}

/-- Changing bytes within an object. -/
theorem Amends.modifyObject (h : s.Addressed) (hpos : 0 < n) (hown : ∀ x, r.Covers n x → own x)
    {f : Zeroed UInt8 → Zeroed UInt8} (hrun : s.modifyBytes r f = .ok s')
    (hf : ∀ m i, (f m).get i = m.get i ∨ r.offset ≤ i ∧ i < r.offset + n) : s.Amends own flagged s' :=
  .modifyBytes h (hown r (r.covers_self hpos)) hrun fun m i =>
    (hf m i).imp_right fun hi => hown _ (r.covers_cell hi.1 hi.2)

theorem Amends.writePayload (h : s.Addressed) (hown : ∀ x, r.Covers n x → own x) {start : Nat} {bytes : List UInt8}
    (hfits : headerBytes + start + bytes.length ≤ n) (hrun : s.writePayload r start bytes = .ok s') :
    s.Amends own flagged s' := by
  have hpos : 0 < headerBytes := by decide
  refine .modifyObject h (by omega) hown hrun fun m i => ?_
  rw [Zeroed.get_write]
  split
  · next hi =>
    rw [Ref.payloadOffset] at hi
    exact .inr ⟨by omega, by omega⟩
  · exact .inl rfl

theorem Amends.clearPayload (h : s.Addressed) (hown : ∀ x, r.Covers n x → own x) {start count : Nat}
    (hfits : headerBytes + start + count ≤ n) (hrun : s.clearPayload r start count = .ok s') :
    s.Amends own flagged s' := by
  have hpos : 0 < headerBytes := by decide
  refine .modifyObject h (by omega) hown hrun fun m i => ?_
  rw [Zeroed.get_clear]
  split
  · next hi =>
    rw [Ref.payloadOffset] at hi
    exact .inr ⟨by omega, by omega⟩
  · exact .inl rfl

theorem Amends.clearObject (h : s.Addressed) (hpos : 0 < n) (hown : ∀ x, r.Covers n x → own x)
    (hrun : s.clearObject r n = .ok s') : s.Amends own flagged s' := by
  refine .modifyObject h hpos hown hrun fun m i => ?_
  rw [Zeroed.get_clear]
  split
  · next hi => exact .inr hi
  · exact .inl rfl

/-- Where there is no huge block, no mark is set. -/
theorem setMark_of_absent (h : s.Wf) (hr : r.isHuge = true) (hnone : (s.slot r).entity? = none)
    (hrun : s.setMark r = .ok s') : s' = s := by
  rw [setMark, if_pos hr] at hrun
  obtain ⟨blocks, hflags, hret⟩ := bind_eq_ok_iff.1 hrun
  cases hret
  obtain ⟨i?, hfind, hrest⟩ := bind_eq_ok_iff.1 hflags
  have hpage : r.page ≠ 0 := by
    obtain ⟨_, hpage, -⟩ := bind_eq_ok_iff.1 hfind
    exact require_eq_ok_iff.1 hpage
  rw [slot_of_isHuge hr] at hnone
  rcases BlockTable.find_cases h.blocks hpage with ⟨_, e, -, -, he⟩ | ⟨hnowhere, -⟩
  · rw [Option.map_eq_none_iff.1 hnone] at he
    cases he
  · rw [hfind] at hnowhere
    cases hnowhere
    cases hrest
    rfl

end Space

namespace Heap

variable {own gone flagged : Ref → Prop} {h h' : Heap} {r : Ref} {supply : Supply}
  {result : Except AllocError Ref} {kind : Kind} {size : Nat}

theorem Sound.changesOnly_fix (hs : h.Sound) (hrun : h.fix r = .ok h') : h.ChangesOnly Space.nowhere Space.nowhere (· = r) h' := by
  obtain ⟨e, s', he, rfl, hrev⟩ := fix_eq_ok hs hrun
  obtain ⟨_, -, hrun⟩ := bind_eq_ok_iff.1 hrun
  obtain ⟨_, hfix, hret⟩ := bind_eq_ok_iff.1 hrun
  cases hret
  have hamends : h.space.Amends Space.nowhere (· = r) s' := .fix hs.wf.addressed (.inr rfl) hfix
  exact .of_flags hamends.writes (.revises hrev ⟨e, he⟩ ⟨_, rfl⟩) hs.wf hrev.wf

theorem Sound.changesOnly_registerFinalizer (hs : h.Sound) (hrun : h.registerFinalizer r = .ok h') :
    h.ChangesOnly Space.nowhere Space.nowhere (· = r) h' := by
  obtain ⟨e, s', he, rfl, hrev⟩ := registerFinalizer_eq_ok hs hrun
  obtain ⟨_, -, hrun⟩ := bind_eq_ok_iff.1 hrun
  obtain ⟨_, hregister, hret⟩ := bind_eq_ok_iff.1 hrun
  cases hret
  have hamends : h.space.Amends Space.nowhere (· = r) s' := .registerFinalizer hs.wf.addressed (.inr rfl) hregister
  refine .of_flags hamends.writes (.revises hrev ⟨e, he⟩ ?_) hs.wf hrev.wf
  split
  · exact ⟨e, he⟩
  · exact ⟨_, rfl⟩

/-! ## Barriers -/

theorem amends_drainStores (hrun : h.drainStores = .ok h') : h.space.Amends own flagged h'.space := by
  rw [drainStores] at hrun
  obtain ⟨s', hfold, hret⟩ := bind_eq_ok_iff.1 hrun
  cases hret
  rw [← Array.foldlM_toList] at hfold
  exact .foldlM (fun _ hmark => .markRecorded hmark) hfold

theorem amends_record (hrun : h.record r = .ok h') : h.space.Amends own flagged h'.space := by
  rw [record] at hrun
  simp only at hrun
  split at hrun
  · have hdrained : Space.Amends own flagged _ h'.space := amends_drainStores hrun
    exact hdrained
  · cases hrun
    exact .refl _

theorem amends_saveFromSweep (hrun : h.saveFromSweep r = .ok h') : h.space.Amends own flagged h'.space := by
  rw [saveFromSweep] at hrun
  split at hrun
  · obtain ⟨needs, -, hrun⟩ := bind_eq_ok_iff.1 hrun
    split at hrun
    · obtain ⟨s', hmark, hret⟩ := bind_eq_ok_iff.1 hrun
      cases hret
      exact .setMark hmark
    · cases hrun
      exact .refl _
  · cases hrun
    exact .refl _

/-- Asking whether a space has marked a reference tells of an object if the answer is yes. -/
theorem exists_of_marked (hwf : h.space.Wf) (hmarked : h.space.isMarked r = .ok true) :
    ∃ e, (h.space.slot r).entity? = some e := by
  rcases Space.exists_of_isMarked hwf hmarked with ⟨e, he, -⟩ | ⟨-, -, hfalse⟩
  · exact ⟨e, he⟩
  · cases hfalse

theorem isMarked_of_hides {writer referent : Ref} (hrun : h.hidesReferent writer referent = .ok true) :
    h.space.isMarked referent = .ok false := by
  obtain ⟨marked, -, hrun⟩ := bind_eq_ok_iff.1 hrun
  cases marked with
  | false => cases hrun
  | true =>
    obtain ⟨hidden, hhidden, hret⟩ := bind_eq_ok_iff.1 hrun
    cases hidden with
    | false => exact hhidden
    | true => cases hret

/-- Saving an object from the sweep, or nothing where there is none. -/
theorem Sound.changesOnly_saveFromSweep (hs : h.Sound) (hwhite : h.space.isMarked r = .ok false)
    (hrun : h.saveFromSweep r = .ok h') : h.ChangesOnly own gone flagged h' := by
  rcases Space.exists_of_isMarked hs.wf hwhite with ⟨e, he, -⟩ | ⟨hnone, hhuge, -⟩
  · obtain ⟨hs', hor⟩ := hs.saveFromSweep he hrun
    refine .of_flags (amends_saveFromSweep hrun).writes ?_ hs.wf hs'.wf
    rcases hor with rfl | ⟨-, s', rfl, hrev⟩
    · exact .refl _
    · exact .revises hrev ⟨e, he⟩ ⟨_, rfl⟩
  · rw [Heap.saveFromSweep] at hrun
    split at hrun
    · obtain ⟨needs, -, hrun⟩ := bind_eq_ok_iff.1 hrun
      split at hrun
      · obtain ⟨s', hmark, hret⟩ := bind_eq_ok_iff.1 hrun
        cases hret
        cases Space.setMark_of_absent hs.wf hhuge hnone hmark
        exact .refl hs.wf
      · cases hrun
        exact .refl hs.wf
    · cases hrun
      exact .refl hs.wf

theorem Sound.changesOnly_barrierForward (hs : h.Sound) {writer referent : Ref}
    (hrun : h.barrierForward writer referent = .ok h') : h.ChangesOnly own gone flagged h' := by
  rw [barrierForward] at hrun
  obtain ⟨hides, hhides, hrest⟩ := bind_eq_ok_iff.1 hrun
  cases hides with
  | false =>
    cases hrest
    exact .refl hs.wf
  | true =>
    rw [if_pos rfl] at hrest
    split at hrest
    · next hp =>
      obtain ⟨hrecords, hs'⟩ := record_eq_ok hs (isMarking_iff.1 hp) hrest
      exact .of_flags (amends_record hrest).writes hrecords.keepsObjects hs.wf hs'.wf
    · exact hs.changesOnly_saveFromSweep (isMarked_of_hides hhides) hrest

theorem Sound.changesOnly_barrierBack (hs : h.Sound) (hrun : h.barrierBack r = .ok h') :
    h.ChangesOnly own gone flagged h' := by
  have hbarrier := hrun
  rw [barrierBack] at hrun
  split at hrun
  · obtain ⟨marked, hmarked, hrest⟩ := bind_eq_ok_iff.1 hrun
    cases marked with
    | false =>
      cases hrest
      exact .refl hs.wf
    | true =>
      obtain ⟨e, he⟩ := exists_of_marked hs.wf hmarked
      obtain ⟨hs', hgreyed⟩ := barrierBack_eq_ok hs he hbarrier
      obtain ⟨s₁, hclear, hrecord⟩ := bind_eq_ok_iff.1 hrest
      exact .of_flags ((Space.Amends.clearMark hmarked hclear).trans (amends_record hrecord)).writes
        (hgreyed.keepsObjects he) hs.wf hs'.wf
  · cases hrun
    exact .refl hs.wf

theorem Sound.changesOnly_barrierSlot (hs : h.Sound) {writer referent : Ref}
    (hrun : h.barrierSlot writer referent = .ok h') : h.ChangesOnly own gone flagged h' := by
  rw [barrierSlot] at hrun
  obtain ⟨hides, hhides, hrest⟩ := bind_eq_ok_iff.1 hrun
  cases hides with
  | false =>
    cases hrest
    exact .refl hs.wf
  | true =>
    rw [if_pos rfl] at hrest
    split at hrest
    · obtain ⟨s', hmark, hret⟩ := bind_eq_ok_iff.1 hrest
      cases hret
      obtain ⟨-, hshades⟩ := Space.mark_eq_ok hs.wf hmark
      exact .of_flags (Space.Amends.mark hmark).writes (.shades hshades) hs.wf hshades.advances.wf
    · exact hs.changesOnly_saveFromSweep (isMarked_of_hides hhides) hrest

end Heap

end Tricolor
