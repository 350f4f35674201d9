import Mathlib.Tactic.Common
import Tricolor.Proofs.Space.Updates
import Tricolor.Space.Marking

/-!
# Marking in a space

Marking shades the slot of an object, and `Space.Shades` says what a sequence of marks does:
it shades the objects of a list. Each object can only be queued once by that, so what waits
plus what is white never grows.
-/

namespace Tricolor

namespace BlockFlags

theorem isMarked_or_mark (f : BlockFlags) : isMarked (f ||| mark) = true := by
  revert f
  decide

theorem isGrey_or_mark (f : BlockFlags) : isGrey (f ||| mark) = isGrey f := by
  revert f
  decide

theorem isMarked_or_both (f : BlockFlags) : isMarked (f ||| (mark ||| grey)) = true := by
  revert f
  decide

theorem isGrey_or_both (f : BlockFlags) : isGrey (f ||| (mark ||| grey)) = true := by
  revert f
  decide

theorem isMarked_clear_mark (f : BlockFlags) : isMarked (f &&& ~~~mark) = false := by
  revert f
  decide

theorem isGrey_clear_mark (f : BlockFlags) : isGrey (f &&& ~~~mark) = isGrey f := by
  revert f
  decide

theorem isMarked_clear_grey (f : BlockFlags) : isMarked (f &&& ~~~grey) = isMarked f := by
  revert f
  decide

theorem isGrey_clear_grey (f : BlockFlags) : isGrey (f &&& ~~~grey) = false := by
  revert f
  decide

end BlockFlags

namespace Space

variable {s s' s'' : Space} {r t : Ref} {e : Entity}

/-- The numbers of entries of the arenas' queues do not depend on their indices. -/
theorem sum_zipIdx (l : List Arena) (k : Nat) :
    (((l.zipIdx k).map fun (arena, index) => (arena.grey.size, GreySource.arena index)).map
      Prod.fst).sum = (l.map (·.grey.size)).sum := by
  induction l generalizing k with
  | nil => rfl
  | cons a rest ih =>
    rw [List.zipIdx_cons, List.map_cons, List.map_cons, List.sum_cons, ih, List.map_cons,
      List.sum_cons]

/-- What waits in the queues of the arenas and of the huge blocks. -/
theorem waiting_eq (s : Space) :
    s.waiting = (s.arenas.toList.map (·.grey.size)).sum + s.hugeGrey.size := by
  have hfold : ∀ (l : List (Nat × GreySource)) (n : Nat),
      l.foldl (fun n depth => n + depth.1) n = n + (l.map Prod.fst).sum := by
    intro l
    induction l with
    | nil => intro n; rfl
    | cons x rest ih =>
      intro n
      rw [List.foldl_cons, ih, List.map_cons, List.sum_cons, Nat.add_assoc]
  rw [waiting, hfold, greyDepths, List.map_append, List.sum_append, sum_zipIdx]
  simp

/-! ## The flags of huge blocks -/

/-- Changing the flags of a huge block, and the queue accordingly. -/
theorem Wf.revises_flags (h : s.Wf) {p : Page} {b : BlockEntry} (hb : s.blocks.entryOf? p = some b)
    (f : BlockFlags → BlockFlags) (grey : Array Page)
    (hgrey : ∀ q, q ≠ p → (q ∈ grey ↔ q ∈ s.hugeGrey))
    (hmem : p ∈ grey ↔ (f b.flags).isGrey = true) (hnodup : grey.toList.Nodup) :
    ∃ blocks, s.blocks.updateFlags p f = .ok blocks ∧
      s.Revises { s with blocks, hugeGrey := grey } (.huge p)
        { s.hugeSlot p with
          entity? := some { s.entityOf b with marked := (f b.flags).isMarked }
          queued := p ∈ grey } := by
  obtain ⟨hp, hbp⟩ := page_ne_zero h hb
  obtain ⟨blocks, heq, hwf, hbytes, hentry⟩ := BlockTable.updateFlags_spec h.blocks hp f
  have hself : blocks.entryOf? p = some { b with flags := f b.flags } := by
    rw [hentry, Function.update_self, hb]
    rfl
  have hregion := h.region hb
  have ha : s.AltersBlock p { s with blocks, hugeGrey := grey } :=
    { blocks := hwf
      entry := fun q hq => by
        show blocks.entryOf? q = _
        rw [hentry, Function.update_of_ne hq]
      region := fun hb' => by
        cases hself.symm.trans hb'
        exact hregion
      content := by
        show (s.contents[p]?).isSome = (blocks.entryOf? p).isSome
        rw [h.contents, hb, hself]
        rfl
      grey := hgrey
      queued := by
        show p ∈ grey ↔ ∃ b, blocks.entryOf? p = some b ∧ _
        rw [hself, hmem]
        simp
      greyNodup := hnodup
      registered := h.registered
      total := by rw [hbytes]
      total_lt := h.total_lt }
  refine ⟨blocks, heq, (ha.revises h).congr (Slot.ext ?_ rfl rfl rfl rfl)⟩
  show (blocks.entryOf? p).map _ = _
  rw [hself, Option.map_some, entityOf, entityOf]
  rfl

/-! ## Single marks -/

theorem revises_arenaMark {a : Arena} {c : Nat} (ha : a.Sound) (hc : a.isAllocated c = true) (bit : Bool) :
    c < arenaCells ∧ Arena.Sound { a with mark := a.mark.set c bit } ∧
      Arena.slot { a with mark := a.mark.set c bit } =
        Function.update a.slot c ((a.slot c).mapEntity fun e => { e with marked := bit }) := by
  refine ⟨?_, Arena.slot_mark ha hc bit⟩
  obtain ⟨chains, h⟩ := ha.tiled
  exact lt_of_lt_of_le (Arena.isAllocated_iff.1 hc).2.1 h.top_le

/-- The arena of an allocated object, and what makes up the object there. -/
theorem exists_sound (h : s.Wf) (hr : r.isHuge = false) (he : (s.slot r).entity? = some e) :
    ∃ a, s.arena? r.page = some a ∧ a.Sound ∧ a.isAllocated r.cell = true ∧
      s.slot r = a.slot r.cell ∧ a.mark.get r.cell = e.marked := by
  obtain ⟨a, ha, hslot⟩ := exists_arena hr he
  obtain ⟨i, hi, -⟩ := (arena?_eq_some h).1 ha
  have he' : a.entity? r.cell = some e := by
    rw [hslot] at he
    exact he
  exact ⟨a, ha, h.sound hi, Arena.isAllocated_of_entity? he', hslot, (Arena.eq_entityOf he').2.1.symm⟩

/-- Setting the mark of an object. -/
theorem setMark_spec (h : s.Wf) (he : (s.slot r).entity? = some e) :
    ∃ s', s.setMark r = .ok s' ∧
      s.Revises s' r ((s.slot r).mapEntity fun e => { e with marked := true }) := by
  by_cases hr : r.isHuge = true
  · obtain ⟨b, hb, rfl⟩ := exists_entry hr he
    obtain ⟨blocks, heq, hrev⟩ := h.revises_flags hb (· ||| .mark) _ (fun _ _ => Iff.rfl)
      (by rw [BlockFlags.isGrey_or_mark, h.grey, hb]; simp) h.greyNodup
    refine ⟨{ s with blocks }, ?_, ?_⟩
    · rw [setMark, if_pos hr]
      exact bind_eq_ok_iff.2 ⟨blocks, heq, rfl⟩
    · rw [eq_huge hr]
      refine hrev.congr ?_
      rw [slot_huge, BlockFlags.isMarked_or_mark]
      refine Slot.ext ?_ rfl rfl rfl rfl
      show _ = ((s.blocks.entryOf? r.page).map s.entityOf).map _
      rw [hb]
      rfl
  · rw [Bool.not_eq_true] at hr
    obtain ⟨a, ha, hsound, halloc, hslot, -⟩ := exists_sound h hr he
    obtain ⟨hlt, hsound', hslot'⟩ := revises_arenaMark hsound halloc true
    rw [setMark, if_neg (by rw [hr]; exact Bool.false_ne_true), hslot]
    exact h.modifyArenaOf_spec hr ha (bind_eq_ok_iff.2 ⟨(), require_eq_ok_iff.2 hlt, rfl⟩) hsound' rfl
      rfl rfl rfl hslot'

/-- Clearing the mark of an object. -/
theorem clearMark_spec (h : s.Wf) (he : (s.slot r).entity? = some e) :
    ∃ s', s.clearMark r = .ok s' ∧
      s.Revises s' r ((s.slot r).mapEntity fun e => { e with marked := false }) := by
  by_cases hr : r.isHuge = true
  · obtain ⟨b, hb, rfl⟩ := exists_entry hr he
    obtain ⟨blocks, heq, hrev⟩ := h.revises_flags hb (· &&& ~~~.mark) _ (fun _ _ => Iff.rfl)
      (by rw [BlockFlags.isGrey_clear_mark, h.grey, hb]; simp) h.greyNodup
    refine ⟨{ s with blocks }, ?_, ?_⟩
    · rw [clearMark, if_pos hr]
      exact bind_eq_ok_iff.2 ⟨blocks, heq, rfl⟩
    · rw [eq_huge hr]
      refine hrev.congr ?_
      rw [slot_huge, BlockFlags.isMarked_clear_mark]
      refine Slot.ext ?_ rfl rfl rfl rfl
      show _ = ((s.blocks.entryOf? r.page).map s.entityOf).map _
      rw [hb]
      rfl
  · rw [Bool.not_eq_true] at hr
    obtain ⟨a, ha, hsound, halloc, hslot, -⟩ := exists_sound h hr he
    obtain ⟨hlt, hsound', hslot'⟩ := revises_arenaMark hsound halloc false
    rw [clearMark, if_neg (by rw [hr]; exact Bool.false_ne_true), hslot]
    exact h.modifyArenaOf_spec hr ha (bind_eq_ok_iff.2 ⟨(), require_eq_ok_iff.2 hlt, rfl⟩) hsound' rfl
      rfl rfl rfl hslot'

/-- Whether a place holds an object that was not reached. -/
def isWhite (s : Space) (r : Ref) : Bool := (s.slot r).entity?.any fun e => !e.marked

/-- `s'` is `s` with the objects of the list marked. -/
structure Shades (s : Space) (rs : List Ref) (s' : Space) : Prop where
  wf : s'.Wf
  slot : ∀ t, s'.slot t = if t ∈ rs then (s.slot t).shade else s.slot t
  unswept : s'.unswept = s.unswept
  hugeNeedsSweep : s'.hugeNeedsSweep = s.hugeNeedsSweep
  arenas_le : s.arenas.size ≤ s'.arenas.size
  /-- objects are queued once each -/
  waiting : ∀ objects : List Ref, (∀ r, s.isWhite r = true → r ∈ objects) →
    s'.waiting + objects.countP s'.isWhite ≤ s.waiting + objects.countP s.isWhite

theorem Shades.refl (h : s.Wf) : s.Shades [] s where
  wf := h
  slot t := by rw [if_neg List.not_mem_nil]
  unswept := rfl
  hugeNeedsSweep := rfl
  arenas_le := le_rfl
  waiting _ _ := le_rfl

/-- Marking leaves no more white objects than there were. -/
theorem Shades.isWhite {rs : List Ref} (h : s.Shades rs s') (hw : s'.isWhite t = true) :
    s.isWhite t = true := by
  rw [Space.isWhite, h.slot] at hw
  split at hw
  · rw [Slot.shade_entity?] at hw
    cases he : (s.slot t).entity? with
    | none => rw [he] at hw; cases hw
    | some e => rw [he] at hw; cases hw
  · exact hw

theorem Shades.trans {rs ts : List Ref} (h : s.Shades rs s') (h' : s'.Shades ts s'') :
    s.Shades (rs ++ ts) s'' where
  wf := h'.wf
  slot t := by
    rw [h'.slot, h.slot]
    by_cases hr : t ∈ rs
    · by_cases ht : t ∈ ts
      · rw [if_pos ht, if_pos hr, Slot.shade_shade, if_pos (List.mem_append_left _ hr)]
      · rw [if_neg ht, if_pos hr, if_pos (List.mem_append_left _ hr)]
    · by_cases ht : t ∈ ts
      · rw [if_pos ht, if_neg hr, if_pos (List.mem_append_right _ ht)]
      · rw [if_neg ht, if_neg hr, if_neg (fun hor => (List.mem_append.1 hor).elim hr ht)]
  unswept := h'.unswept.trans h.unswept
  hugeNeedsSweep := h'.hugeNeedsSweep.trans h.hugeNeedsSweep
  arenas_le := h.arenas_le.trans h'.arenas_le
  waiting objects hall := (h'.waiting objects fun _ hr => hall _ (h.isWhite hr)).trans
    (h.waiting objects hall)

/-- An object stays allocated while objects are marked. -/
theorem Shades.entity {rs : List Ref} (h : s.Shades rs s') (he : (s.slot t).entity? = some e) :
    ∃ marked, (s'.slot t).entity? = some { e with marked } ∧ (e.marked = true → marked = true) ∧
      (t ∈ rs → marked = true) ∧ (marked = true → e.marked = true ∨ t ∈ rs) := by
  rw [h.slot]
  split
  · next ht =>
    rw [Slot.shade_entity?, he]
    exact ⟨true, rfl, fun _ => rfl, fun _ => rfl, fun _ => .inr ht⟩
  · next ht => exact ⟨e.marked, he, id, fun h' => absurd h' ht, .inl⟩

theorem Shades.entity_none {rs : List Ref} (h : s.Shades rs s') :
    (s'.slot t).entity? = none ↔ (s.slot t).entity? = none := by
  rw [h.slot]
  split
  · rw [Slot.shade_entity?, Option.map_eq_none_iff]
  · rfl

/-- Marking one object is a change of its slot after which at most one more waits. -/
theorem Revises.shades (hrev : s.Revises s' r (s.slot r).shade)
    (hwaiting : s'.waiting ≤ s.waiting + (if s.isWhite r then 1 else 0)) :
    s.Shades [r] s' where
  wf := hrev.wf
  slot t := by
    rw [hrev.slot]
    by_cases ht : t = r
    · subst ht
      rw [Function.update_self, if_pos List.mem_cons_self]
    · rw [Function.update_of_ne ht, if_neg (by simpa using ht)]
  unswept := hrev.unswept
  hugeNeedsSweep := hrev.hugeNeedsSweep
  arenas_le := hrev.arenas_le
  waiting objects hall := by
    have hself : s'.isWhite r = false := by
      rw [isWhite, hrev.slot_self, Slot.shade_entity?]
      cases (s.slot r).entity? <;> rfl
    have hother : ∀ t, t ≠ r → s'.isWhite t = s.isWhite t := fun t ht => by
      rw [isWhite, isWhite, hrev.slot_ne ht]
    have hle : objects.countP s'.isWhite ≤ objects.countP s.isWhite := by
      refine List.countP_mono_left fun t _ ht => ?_
      by_cases htr : t = r
      · subst htr
        rw [hself] at ht
        cases ht
      · rwa [hother t htr] at ht
    cases hw : s.isWhite r with
    | false =>
      rw [hw] at hwaiting
      exact Nat.add_le_add hwaiting hle
    | true =>
      rw [hw] at hwaiting
      have hlt : objects.countP s'.isWhite < objects.countP s.isWhite := by
        obtain ⟨l, l', rfl⟩ := List.append_of_mem (hall r hw)
        have hsub : ∀ l : List Ref, l.countP s'.isWhite ≤ l.countP s.isWhite := by
          intro l
          refine List.countP_mono_left fun t _ ht => ?_
          by_cases htr : t = r
          · subst htr
            rw [hself] at ht
            cases ht
          · rwa [hother t htr] at ht
        rw [List.countP_append, List.countP_append, List.countP_cons, List.countP_cons, hself, hw]
        have hl := hsub l
        have hl' := hsub l'
        simp only [Bool.false_eq_true, if_false, if_true]
        omega
      simp only [if_true] at hwaiting
      omega

/-! ## Marking objects -/

theorem Shades.congr {rs ts : List Ref} (h : s.Shades rs s') (hmem : ∀ t, t ∈ rs ↔ t ∈ ts) :
    s.Shades ts s' where
  wf := h.wf
  slot t := by
    rw [h.slot]
    simp only [hmem]
  unswept := h.unswept
  hugeNeedsSweep := h.hugeNeedsSweep
  arenas_le := h.arenas_le
  waiting := h.waiting

/-- Marking one object changes its slot only. -/
theorem Shades.revises (h : s.Shades [r] s') : s.Revises s' r (s.slot r).shade where
  wf := h.wf
  slot := by
    funext t
    rw [h.slot]
    by_cases ht : t = r
    · rw [if_pos (List.mem_singleton.2 ht), ht, Function.update_self]
    · rw [if_neg (fun hmem => ht (List.mem_singleton.1 hmem)), Function.update_of_ne ht]
  unswept := h.unswept
  hugeNeedsSweep := h.hugeNeedsSweep
  arenas_le := h.arenas_le

theorem waiting_setArena {i : Nat} {a a' : Arena} (ha : s.arenas[i]? = some a) (total : Nat) :
    waiting { s with arenas := s.arenas.setIfInBounds i a', total } + a.grey.size =
      s.waiting + a'.grey.size := by
  have hsum := sum_map_set (fun b : Arena => b.grey.size) (l := s.arenas.toList) (i := i) (x := a) a'
    (by rw [Array.getElem?_toList]; exact ha)
  rw [waiting_eq, waiting_eq, Array.toList_setIfInBounds]
  show _ + s.hugeGrey.size + _ = _
  omega

/-- Marking a huge block. -/
theorem markHuge_spec (h : s.Wf) (hr : r.isHuge = true) (he : (s.slot r).entity? = some e) :
    ∃ s', s.markHuge r e.header.kind.isLeaf = .ok s' ∧ s.Shades [r] s' := by
  obtain ⟨b, hb, hbe⟩ := exists_entry hr he
  obtain ⟨hp, -⟩ := page_ne_zero h hb
  have hslot : s.slot r = s.hugeSlot r.page := slot_of_isHuge hr
  have hmarked : b.flags.isMarked = e.marked := by rw [← hbe]; rfl
  have hguard : require ((s.blocks.entryOf? r.page).isSome = true) Fault.notAllocated = .ok () :=
    require_eq_ok_iff.2 (by rw [hb]; rfl)
  have hrun : s.markHuge r e.header.kind.isLeaf =
      if e.marked then .ok s
      else if e.header.kind.isLeaf || b.flags.isGrey then
        s.blocks.setFlags r.page .mark >>= fun blocks => .ok { s with blocks }
      else
        s.blocks.setFlags r.page (.mark ||| .grey) >>= fun blocks =>
          .ok { s with blocks, hugeGrey := s.hugeGrey.push r.page } := by
    rw [markHuge, BlockTable.contains_eq_ok h.blocks hp, BlockTable.flags_eq_ok h.blocks hp]
    show (require _ _ >>= fun _ => _) = _
    rw [hguard, hb]
    show (if b.flags.isMarked = true then _ else _) = _
    rw [hmarked]
    rfl
  rw [hrun]
  cases hm : e.marked with
  | true =>
    refine ⟨s, rfl, Revises.shades ?_ (Nat.le_add_right _ _)⟩
    rw [Slot.shade_of_marked he hm]
    exact Revises.refl h r
  | false =>
    rw [if_neg Bool.false_ne_true]
    have hwhite : s.isWhite r = true := by rw [isWhite, he]; simp [hm]
    split
    · next hor =>
      obtain ⟨blocks, heq, hrev⟩ := h.revises_flags hb (· ||| .mark) _ (fun _ _ => Iff.rfl)
        (by rw [BlockFlags.isGrey_or_mark, h.grey, hb]; simp) h.greyNodup
      refine ⟨_, bind_eq_ok_iff.2 ⟨blocks, heq, rfl⟩, Revises.shades ?_ (Nat.le_add_right _ _)⟩
      rw [Slot.shade_of_white he hm]
      rw [← eq_huge hr] at hrev
      refine hrev.congr ?_
      rw [hslot, BlockFlags.isMarked_or_mark, ← hbe]
      refine Slot.ext rfl (propext ⟨.inl, fun hq => hq.elim id fun hleaf => ?_⟩) rfl rfl rfl
      rw [← hbe] at hor
      rw [hleaf, Bool.false_or] at hor
      exact h.grey.2 ⟨b, hb, hor⟩
    · next hor =>
      rw [Bool.or_eq_true, not_or, Bool.not_eq_true, Bool.not_eq_true] at hor
      have hnot : r.page ∉ s.hugeGrey := by
        rw [h.grey]
        rintro ⟨b', hb', hg⟩
        rw [hb] at hb'
        cases hb'
        rw [hor.2] at hg
        cases hg
      obtain ⟨blocks, heq, hrev⟩ := h.revises_flags hb (· ||| (.mark ||| .grey))
        (s.hugeGrey.push r.page)
        (fun q hq => by rw [Array.mem_push, or_iff_left hq])
        (by rw [BlockFlags.isGrey_or_both]; simp)
        (nodup_push h.greyNodup hnot)
      refine ⟨_, bind_eq_ok_iff.2 ⟨blocks, heq, rfl⟩, Revises.shades ?_ ?_⟩
      · rw [Slot.shade_of_white he hm]
        rw [← eq_huge hr] at hrev
        refine hrev.congr ?_
        rw [hslot, BlockFlags.isMarked_or_both, ← hbe]
        refine Slot.ext rfl (propext ⟨fun _ => .inr ?_, fun _ => ?_⟩) rfl rfl rfl
        · rw [hbe]
          exact hor.1
        · rw [Array.mem_push]
          exact .inr rfl
      · rw [hwhite, if_pos rfl, waiting_eq, waiting_eq, Array.size_push, Nat.add_assoc]

/-- Marking an object of an arena. -/
theorem markSmall_spec (h : s.Wf) (hr : r.isHuge = false) (he : (s.slot r).entity? = some e) :
    ∃ s', s.markSmall r e.header.kind.isLeaf = .ok s' ∧ s.Shades [r] s' := by
  obtain ⟨a, ha, hsound, halloc, hslot, hmark⟩ := exists_sound h hr he
  obtain ⟨i, hi, hp⟩ := (arena?_eq_some h).1 ha
  obtain ⟨hlt, hsound', hslot'⟩ := revises_arenaMark hsound halloc true
  have hne : r.cell ≠ 0 := by
    rw [Ref.isHuge, beq_eq_false_iff_ne] at hr
    exact hr
  have hwhite : s.isWhite r = !e.marked := by rw [isWhite, he]; rfl
  -- what the change of the arena is
  have hrun : ∃ a', (do
      require (a.isAllocated r.cell = true) .notAllocated
      if ← a.isMarked r.cell then return a
      else
        let arena ← a.setMark r.cell
        if e.header.kind.isLeaf then return arena
        else return { arena with grey := ← arena.grey.push r.cell }) = Except.ok a' ∧ a'.Sound ∧
      a'.page = a.page ∧ a'.index = a.index ∧ a'.needsSweep = a.needsSweep ∧ a'.used = a.used ∧
      a'.slot = Function.update a.slot r.cell (a.slot r.cell).shade ∧
      a'.grey.size ≤ a.grey.size + (if s.isWhite r then 1 else 0) := by
    have he' : (a.slot r.cell).entity? = some e := hslot ▸ he
    have hread : a.isMarked r.cell = .ok e.marked :=
      bind_eq_ok_iff.2 ⟨(), require_eq_ok_iff.2 hlt, by rw [hmark]; rfl⟩
    have hset : a.setMark r.cell = .ok { a with mark := a.mark.set r.cell true } :=
      bind_eq_ok_iff.2 ⟨(), require_eq_ok_iff.2 hlt, rfl⟩
    rw [require_eq_ok_iff.2 halloc]
    show ∃ a', (a.isMarked r.cell >>= fun _ => _) = _ ∧ _
    rw [hread]
    show ∃ a', (if e.marked = true then _ else a.setMark r.cell >>= fun _ => _) = _ ∧ _
    rw [hset]
    cases hm : e.marked with
    | true =>
      refine ⟨a, rfl, hsound, rfl, rfl, rfl, rfl, ?_, Nat.le_add_right _ _⟩
      rw [Slot.shade_of_marked he' hm, Function.update_eq_self]
    | false =>
      show ∃ a', (if e.header.kind.isLeaf = true then _ else _) = _ ∧ _
      rw [Slot.shade_of_white he' hm]
      cases hl : e.header.kind.isLeaf with
      | true =>
        refine ⟨_, rfl, hsound', rfl, rfl, rfl, rfl, ?_, Nat.le_add_right _ _⟩
        rw [hslot']
        congr 1
        refine Slot.ext ?_ (propext ⟨.inl, fun hq => hq.elim id fun hf => by cases hf⟩) rfl rfl rfl
        rw [Slot.mapEntity_entity?, he']
        rfl
      | false =>
        obtain ⟨hsound'', hslot''⟩ := Arena.slot_queue hsound' r.cell
        refine ⟨_, bind_eq_ok_iff.2 ⟨_, bind_eq_ok_iff.2 ⟨(), require_eq_ok_iff.2 hne, rfl⟩, rfl⟩,
          hsound'', rfl, rfl, rfl, rfl, ?_, ?_⟩
        · rw [hslot'', hslot', Function.update_self, Function.update_idem]
          congr 1
          refine Slot.ext ?_ (propext ⟨fun _ => .inr rfl, fun _ => trivial⟩) rfl rfl rfl
          rw [Slot.mapEntity_entity?, he']
          rfl
        · rw [hwhite, hm]
          show (a.grey.cells.push r.cell).size ≤ _
          rw [Array.size_push]
          exact le_rfl
  obtain ⟨a', heq, hs, hpage, hindex, hsweep, hused, hslotA, hgrey⟩ := hrun
  refine ⟨_, (modifyArenaOf_eq_ok_iff h).2 ⟨i, a, a', hi, hp, heq, rfl⟩, Revises.shades ?_ ?_⟩
  · rw [hslot]
    exact h.revises_small hi hs hpage hindex hsweep (by rw [Arena.usedBytes, Arena.usedBytes, hused])
      h.total_lt hr hp hslotA
  · have := @waiting_setArena s i a a' hi s.total
    have heta : ({ s with arenas := s.arenas.setIfInBounds i a', total := s.total } : Space) =
      { s with arenas := s.arenas.setIfInBounds i a' } := rfl
    rw [heta] at this
    omega

/-- Marking an object. -/
theorem mark_spec (h : s.Wf) (he : (s.slot r).entity? = some e) :
    ∃ s', s.mark r = .ok s' ∧ s.Shades [r] s' := by
  rw [mark, header_eq h he]
  show ∃ s', (if r.isHuge = true then _ else _) = _ ∧ _
  by_cases hr : r.isHuge = true
  · rw [if_pos hr]
    exact markHuge_spec h hr he
  · rw [if_neg hr]
    exact markSmall_spec h (by rwa [Bool.not_eq_true] at hr) he

/-- Only allocated objects can be marked. -/
theorem exists_of_mark (h : s.Wf) (hs : s.mark r = .ok s') : ∃ e, (s.slot r).entity? = some e := by
  obtain ⟨header, -, hs⟩ := bind_eq_ok_iff.1 hs
  rw [← Option.isSome_iff_exists, ← isAllocated_eq h]
  split at hs
  · next hr =>
    obtain ⟨found, hfound, hs⟩ := bind_eq_ok_iff.1 hs
    obtain ⟨_, hreq, -⟩ := bind_eq_ok_iff.1 hs
    rw [isAllocated, if_pos hr, hfound]
    exact require_eq_ok_iff.1 hreq
  · next hr =>
    rw [Bool.not_eq_true] at hr
    obtain ⟨i, a, a', hi, hp, hf, -⟩ := (modifyArenaOf_eq_ok_iff h).1 hs
    obtain ⟨_, hreq, -⟩ := bind_eq_ok_iff.1 hf
    rw [isAllocated, if_neg (by rw [hr]; exact Bool.false_ne_true), h.indices.2 ⟨a, hi, hp⟩]
    simp only [hi, Option.any_some]
    exact require_eq_ok_iff.1 hreq

theorem mark_eq_ok (h : s.Wf) (hs : s.mark r = .ok s') :
    (∃ e, (s.slot r).entity? = some e) ∧ s.Shades [r] s' := by
  obtain ⟨e, he⟩ := exists_of_mark h hs
  obtain ⟨t, ht, hshades⟩ := mark_spec h he
  rw [ht] at hs
  cases hs
  exact ⟨⟨e, he⟩, hshades⟩

end Space

end Tricolor
