import Mathlib.Tactic.Common
import Tricolor.Proofs.Space.Updates
import Tricolor.Space.Contents

/-!
# Headers and payloads in a space

Changing the header or the payload of an object is seen in its slot and nowhere else, as long
as no byte behind the object is touched.
-/

namespace Tricolor

namespace Space

variable {s s' : Space} {r : Ref} {e : Entity}

theorem compare_eq_iff {p q : Page} : compare p q = .eq ↔ p = q := Nat.compare_eq_eq

/-- Changing the contents of one huge block. -/
theorem revises_contents (h : s.Wf) {p : Page} {b : BlockEntry} (hb : s.blocks.entryOf? p = some b)
    (f : HugeBlock → HugeBlock) :
    s.Revises { s with contents := s.contents.modify p f } (.huge p)
      { s.hugeSlot p with
        entity? := some { s.entityOf b with
          header := (f (s.blockAt p)).header
          content := fun i => if headerBytes + i < b.size then
            (f (s.blockAt p)).bytes.get (headerBytes + i) else 0 } } := by
  have hself : (s.contents.modify p f)[p]? = some (f (s.blockAt p)) := by
    rw [Std.TreeMap.getElem?_modify, if_pos (compare_eq_iff.2 rfl), contents_of_entry h hb]
    rfl
  have ha : s.AltersBlock p { s with contents := s.contents.modify p f } :=
    { blocks := h.blocks
      region := h.region
      contents := fun q hq => by
        show (s.contents.modify p f)[q]? = _
        rw [Std.TreeMap.getElem?_modify, if_neg fun heq => hq (compare_eq_iff.1 heq).symm]
      content := by
        show ((s.contents.modify p f)[p]?).isSome = (s.blocks.entryOf? p).isSome
        rw [hself, hb]
        rfl
      queued := h.grey
      greyNodup := h.greyNodup
      registered := h.registered
      total := rfl
      total_lt := h.total_lt }
  refine (ha.revises h).congr (Slot.ext ?_ rfl rfl rfl rfl)
  show (s.blocks.entryOf? p).map _ = _
  rw [hb, Option.map_some, entityOf, blockAt, (page_ne_zero h hb).2, hself]
  rfl

/-- Changing the header of an object. -/
theorem modifyHeader_spec (h : s.Wf) (he : (s.slot r).entity? = some e) (f : Header → Header) :
    ∃ s', s.modifyHeader r f = .ok s' ∧
      s.Revises s' r ((s.slot r).mapEntity fun e => { e with header := f e.header }) := by
  by_cases hr : r.isHuge = true
  · obtain ⟨b, hb, rfl⟩ := exists_entry hr he
    refine ⟨{ s with contents := s.contents.modify r.page fun b => { b with header := f b.header } },
      ?_, ?_⟩
    · rw [modifyHeader, if_pos hr]
      refine bind_eq_ok_iff.2 ⟨(), require_eq_ok_iff.2 ?_, rfl⟩
      rw [Std.TreeMap.contains_eq_isSome_getElem?, contents_of_entry h hb]
      rfl
    · have hrev := revises_contents h hb fun b => { b with header := f b.header }
      rw [← eq_huge hr] at hrev
      refine hrev.congr ?_
      rw [slot_of_isHuge hr]
      refine Slot.ext ?_ rfl rfl rfl rfl
      show _ = ((s.blocks.entryOf? r.page).map s.entityOf).map _
      rw [hb, Option.map_some, Option.map_some, entityOf, (page_ne_zero h hb).2]
  · rw [Bool.not_eq_true] at hr
    obtain ⟨a, ha, hslot⟩ := exists_arena hr he
    obtain ⟨i, hi, -⟩ := (arena?_eq_some h).1 ha
    obtain ⟨hsound, hslotA⟩ := Arena.slot_header (h.sound hi) r.cell f
    rw [modifyHeader, if_neg (by rw [hr]; exact Bool.false_ne_true), hslot]
    exact h.modifyArenaOf_spec hr ha rfl hsound rfl rfl rfl rfl hslotA

/-- Nothing is read behind the end of an object. -/
theorem content_of_ge (he : (s.slot r).entity? = some e) {i : Nat}
    (hi : e.size ≤ headerBytes + i) : e.content i = 0 := by
  by_cases hr : r.isHuge = true
  · obtain ⟨b, hb, rfl⟩ := exists_entry hr he
    exact if_neg (Nat.not_lt.2 hi)
  · rw [Bool.not_eq_true] at hr
    obtain ⟨a, ha, hslot⟩ := exists_arena hr he
    have he' : a.entity? r.cell = some e := by
      rw [hslot] at he
      exact he
    have heq := he'
    rw [Arena.entity?_of_allocated (Arena.isAllocated_of_entity? he')] at heq
    cases heq
    exact if_neg (Nat.not_lt.2 hi)

/-- Changing bytes of an object. -/
theorem modifyBytes_spec (h : s.Wf) (he : (s.slot r).entity? = some e)
    (f : Zeroed UInt8 → Zeroed UInt8) {content : Nat → UInt8}
    (houtside : ∀ m i, i < r.offset ∨ r.offset + e.size ≤ i → (f m).get i = m.get i)
    (hinside : ∀ m : Zeroed UInt8, (∀ i, headerBytes + i < e.size → m.get (r.payloadOffset + i) = e.content i) →
      ∀ i, headerBytes + i < e.size → (f m).get (r.payloadOffset + i) = content i)
    (hend : ∀ i, e.size ≤ headerBytes + i → content i = 0) :
    ∃ s', s.modifyBytes r f = .ok s' ∧
      s.Revises s' r { s.slot r with entity? := some { e with content } } := by
  by_cases hr : r.isHuge = true
  · obtain ⟨b, hb, rfl⟩ := exists_entry hr he
    have hoffset : r.payloadOffset = headerBytes := by
      rw [eq_huge hr]
      rfl
    refine ⟨{ s with contents := s.contents.modify r.page fun b => { b with bytes := f b.bytes } },
      ?_, ?_⟩
    · rw [modifyBytes, if_pos hr]
      refine bind_eq_ok_iff.2 ⟨(), require_eq_ok_iff.2 ?_, rfl⟩
      rw [Std.TreeMap.contains_eq_isSome_getElem?, contents_of_entry h hb]
      rfl
    · have hrev := revises_contents h hb fun b => { b with bytes := f b.bytes }
      rw [← eq_huge hr] at hrev
      refine hrev.congr ?_
      rw [slot_of_isHuge hr]
      refine Slot.ext (congrArg some ?_) rfl rfl rfl rfl
      refine Entity.ext rfl rfl rfl ?_ ?_
      · show (s.blockAt r.page).header = (s.blockAt b.page).header
        rw [(page_ne_zero h hb).2]
      · funext i
        show (if headerBytes + i < b.size then (f (s.blockAt r.page).bytes).get (headerBytes + i) else 0) = _
        split
        · next hi =>
          rw [← hoffset]
          refine hinside _ (fun j hj => ?_) i hi
          rw [hoffset, entityOf, (page_ne_zero h hb).2]
          exact (if_pos hj).symm
        · next hi => exact (hend i (Nat.le_of_not_lt hi)).symm
  · rw [Bool.not_eq_true] at hr
    obtain ⟨a, ha, hslot⟩ := exists_arena hr he
    obtain ⟨i, hi, -⟩ := (arena?_eq_some h).1 ha
    have he' : a.entity? r.cell = some e := by
      rw [hslot] at he
      exact he
    have halloc := Arena.isAllocated_of_entity? he'
    have hsize := (Arena.eq_entityOf he').1
    have hcontent : ∀ j, headerBytes + j < e.size → a.bytes.get (r.payloadOffset + j) = e.content j := by
      intro j hj
      have heq := he'
      rw [Arena.entity?_of_allocated halloc] at heq
      cases heq
      exact (if_pos hj).symm
    obtain ⟨hsound, hslotA⟩ := Arena.slot_bytes (h.sound hi) halloc (f a.bytes) fun j hj => by
      refine houtside _ _ ?_
      rw [Ref.offset, hsize, ← Nat.add_mul]
      exact hj
    rw [modifyBytes, if_neg (by rw [hr]; exact Bool.false_ne_true), hslot]
    refine h.modifyArenaOf_spec hr ha rfl hsound rfl rfl rfl rfl ?_
    rw [hslotA]
    congr 1
    refine Slot.ext ?_ rfl rfl rfl rfl
    show (a.entity? r.cell).map _ = _
    rw [he', Option.map_some]
    refine congrArg some (Entity.ext rfl rfl rfl rfl (funext fun j => ?_))
    show (if headerBytes + j < e.size then (f a.bytes).get (r.payloadOffset + j) else 0) = _
    split
    · next hj => exact hinside _ hcontent j hj
    · next hj => exact (hend j (Nat.le_of_not_lt hj)).symm

/-- Writing into the payload of an object. -/
theorem writePayload_spec (h : s.Wf) (he : (s.slot r).entity? = some e) (start : Nat)
    (bytes : List UInt8) (hfits : headerBytes + start + bytes.length ≤ e.size) :
    ∃ s', s.writePayload r start bytes = .ok s' ∧
      s.Revises s' r { s.slot r with entity? := some { e with
        content := fun i => if start ≤ i ∧ i < start + bytes.length then bytes.getD (i - start) 0
          else e.content i } } := by
  have hoffset : r.payloadOffset = r.offset + headerBytes := rfl
  refine modifyBytes_spec h he _ (fun m i hi => ?_) (fun m hm i hi => ?_) fun i hi => ?_
  · rw [Zeroed.get_write, if_neg]
    omega
  · rw [Zeroed.get_write]
    by_cases hin : start ≤ i ∧ i < start + bytes.length
    · rw [if_pos hin, if_pos (by omega)]
      congr 1
      omega
    · rw [if_neg hin, if_neg (by omega), hm i hi]
  · rw [if_neg (by omega)]
    exact content_of_ge he hi

/-- Zeroing a part of the payload of an object. -/
theorem clearPayload_spec (h : s.Wf) (he : (s.slot r).entity? = some e) (start count : Nat)
    (hfits : headerBytes + start + count ≤ e.size) :
    ∃ s', s.clearPayload r start count = .ok s' ∧
      s.Revises s' r { s.slot r with entity? := some { e with
        content := fun i => if start ≤ i ∧ i < start + count then 0 else e.content i } } := by
  have hoffset : r.payloadOffset = r.offset + headerBytes := rfl
  refine modifyBytes_spec h he _ (fun m i hi => ?_) (fun m hm i hi => ?_) fun i hi => ?_
  · rw [Zeroed.get_clear, if_neg]
    omega
  · rw [Zeroed.get_clear]
    by_cases hin : start ≤ i ∧ i < start + count
    · rw [if_pos hin, if_pos (by omega)]
      rfl
    · rw [if_neg hin, if_neg (by omega), hm i hi]
  · rw [if_neg (by omega)]
    exact content_of_ge he hi

/-- Zeroing all bytes of an object. -/
theorem clearObject_spec (h : s.Wf) (he : (s.slot r).entity? = some e) :
    ∃ s', s.clearObject r e.size = .ok s' ∧
      s.Revises s' r { s.slot r with entity? := some { e with content := fun _ => 0 } } := by
  have hoffset : r.payloadOffset = r.offset + headerBytes := rfl
  refine modifyBytes_spec h he _ (fun m i hi => ?_) (fun m hm i hi => ?_) fun _ _ => rfl
  · rw [Zeroed.get_clear, if_neg]
    omega
  · rw [Zeroed.get_clear, if_pos (by omega)]
    rfl

end Space

end Tricolor
