import Tricolor.Proofs.Regions
import Tricolor.Proofs.Space.Placement

/-!
# Resizing a huge block, and the memory of objects

A huge block that is resized takes all that is recorded of it along, wherever the memory
supply puts it. The memory of different objects never overlaps.
-/

namespace Tricolor

namespace Space

variable {s s' : Space} {r t : Ref} {e e' : Entity} {supply : Supply} {p q : Page}

theorem mem_renamePage {x : Page} {pages : Array Page} :
    x ∈ renamePage p q pages ↔ (x ∈ pages ∧ x ≠ p) ∨ (x = q ∧ p ∈ pages) := by
  rw [renamePage, Array.mem_map]
  constructor
  · rintro ⟨y, hy, rfl⟩
    by_cases hyp : y = p
    · rw [if_pos hyp]
      exact .inr ⟨rfl, hyp ▸ hy⟩
    · rw [if_neg hyp]
      exact .inl ⟨hy, hyp⟩
  · rintro (⟨hx, hne⟩ | ⟨rfl, hp⟩)
    · exact ⟨x, hx, if_neg hne⟩
    · exact ⟨p, hp, if_pos rfl⟩

/-- Renaming a page to one that is not listed keeps a list free of repetitions. -/
theorem nodup_renamePage {pages : List Page} (h : pages.Nodup) (hq : q ∈ pages → q = p) :
    (pages.map fun page => if page = p then q else page).Nodup := by
  refine List.Nodup.map_on (fun x hx y hy heq => ?_) h
  by_cases hxp : x = p
  · by_cases hyp : y = p
    · rw [hxp, hyp]
    · rw [if_pos hxp, if_neg hyp] at heq
      subst heq
      exact absurd (hq hy) hyp
  · by_cases hyp : y = p
    · rw [if_neg hxp, if_pos hyp] at heq
      subst heq
      exact absurd (hq hx) hxp
    · rwa [if_neg hxp, if_neg hyp] at heq

/-- The object that a resized block holds: the bytes that both sizes have are kept. -/
def resized (e : Entity) (size : Nat) : Entity :=
  { e with size, content := fun i => if headerBytes + i < min e.size size then e.content i else 0 }

/-- The bytes of a block that was refitted. -/
theorem get_refit (block : HugeBlock) {old size i : Nat} (hi : i < size) :
    (refit block old size).bytes.get i = if i < min old size then block.bytes.get i else 0 := by
  rw [refit, Zeroed.get_clear]
  by_cases hlt : i < min old size
  · rw [if_neg (by omega), if_pos hlt]
  · rw [if_pos (by omega), if_neg hlt]
    rfl

/-- A page that is free, or that a block leaves, is on no list but for the block that leaves it. -/
theorem eq_of_listed (h : s.Wf)
    (hlisted : ∀ t, (s.slot t).fixed ∨ (s.slot t).idle ∨ (s.slot t).pending → s.Holds t)
    (hfree : q = p ∨ s.blocks.entryOf? q = none)
    (hq : (s.hugeSlot q).queued ∨ (s.hugeSlot q).fixed ∨ (s.hugeSlot q).idle ∨ (s.hugeSlot q).pending) : q = p := by
  refine hfree.resolve_right fun hnone => ?_
  rcases hq with hqueued | hlist
  · obtain ⟨b, hb, -⟩ := h.grey.1 hqueued
    cases hnone.symm.trans hb
  · obtain ⟨e, he⟩ := hlisted (.huge q) hlist
    obtain ⟨b, hb, -⟩ := exists_entry (show (Ref.huge q).isHuge = true from rfl) he
    cases hnone.symm.trans hb

theorem mem_renamePage_of_ne {x : Page} {pages : Array Page} (hx : x ≠ q) :
    x ∈ renamePage p q pages ↔ x ∈ withoutPage p pages := by
  rw [mem_renamePage, mem_withoutPage]
  exact or_iff_left fun hand => hx hand.1

theorem mem_renamePage_self {pages : Array Page} (hq : q ∈ pages → q = p) :
    q ∈ renamePage p q pages ↔ p ∈ pages := by
  rw [mem_renamePage]
  exact ⟨fun hor => hor.elim (fun hand => absurd (hq hand.1) hand.2) And.right, fun hp => .inr ⟨rfl, hp⟩⟩

/-- The object of a block that moves is the one that it held, resized. -/
theorem entityOf_moveBlock {b : BlockEntry} (blocks : BlockTable) (q : Page) (size : Nat) :
    (s.moveBlock blocks b.page q b.size size).entityOf ⟨q, size, b.flags⟩ = resized (s.entityOf b) size := by
  let block := refit (s.blockAt b.page) b.size size
  have hmoved : (s.moveBlock blocks b.page q b.size size).blockAt q = block := by
    show (((s.contents.erase b.page).insert q (refit (s.contents.getD b.page default) b.size size))[q]?).getD _ = _
    rw [getElem?_insert, if_pos rfl, Std.TreeMap.getD_eq_getD_getElem?]
    rfl
  rw [entityOf, hmoved, resized]
  refine Entity.ext rfl rfl rfl rfl (funext fun i => ?_)
  show (if headerBytes + i < size then block.bytes.get (headerBytes + i) else 0) =
    if headerBytes + i < min b.size size then
      (if headerBytes + i < b.size then (s.blockAt b.page).bytes.get (headerBytes + i) else 0) else 0
  by_cases hi : headerBytes + i < size
  · rw [if_pos hi, get_refit _ hi]
    split
    · rw [if_pos (by omega)]
    · rfl
  · rw [if_neg hi, if_neg (by omega)]

/-- A block that moves first leaves its place, and then all that was recorded of it is
recorded of its new place. -/
theorem moveBlock_spec (h : s.Wf) {b : BlockEntry} (hb : s.blocks.entryOf? p = some b) {blocks : BlockTable} {size : Nat}
    (hwf : blocks.Wf) (hbytes : blocks.bytes + b.size = s.blocks.bytes + size)
    (hentry : blocks.entryOf? =
      Function.update (Function.update s.blocks.entryOf? p none) q (some ⟨q, size, b.flags⟩))
    (hsize : cellBytes ≤ size) (hmod : size % cellBytes = 0)
    (hregion : ∀ x, Page.Within x q size → s.indices[x]? = none ∧
      ∀ p' b', p' ≠ p → s.blocks.entryOf? p' = some b' → ¬ Page.Within x p' b'.size)
    (hunlisted : (s.hugeSlot q).queued ∨ (s.hugeSlot q).fixed ∨ (s.hugeSlot q).idle ∨ (s.hugeSlot q).pending → q = p)
    (hrange : s.total - b.size + size < wordRange) :
    ∃ s₁, s.Revises s₁ (.huge p) .blank ∧ s₁.Revises (s.moveBlock blocks p q b.size size) (.huge q)
      { s.hugeSlot p with entity? := some (resized (s.entityOf b) size) } := by
  obtain ⟨hp, hbp⟩ := page_ne_zero h hb
  obtain ⟨blocks₁, -, hwf₁, hbytes₁, -, hentry₁⟩ := BlockTable.remove_spec h.blocks hp hb
  let s₁ : Space := { s with
    blocks := blocks₁
    contents := s.contents.erase p
    hugeGrey := withoutPage p s.hugeGrey
    hugeFixed := withoutPage p s.hugeFixed
    hugeFinalizers := withoutPage p s.hugeFinalizers
    hugePending := withoutPage p s.hugePending
    total := s.total - b.size }
  have hrev₁ : s.Revises s₁ (.huge p) .blank :=
    h.revises_leave hwf₁ hbytes₁ hentry₁ (fun _ => mem_withoutPage) (fun _ => mem_withoutPage)
      (fun _ => mem_withoutPage) ((withoutPage_sublist _ _).append (withoutPage_sublist _ _))
  have hgrey : q ∈ s.hugeGrey → q = p := fun hq => hunlisted (.inl hq)
  have hfixed : q ∈ s.hugeFixed → q = p := fun hq => hunlisted (.inr (.inl hq))
  have hidle : q ∈ s.hugeFinalizers → q = p := fun hq => hunlisted (.inr (.inr (.inl hq)))
  have hpending : q ∈ s.hugePending → q = p := fun hq => hunlisted (.inr (.inr (.inr hq)))
  let block := refit (s.contents.getD p default) b.size size
  have hself : ((s.contents.erase p).insert q block)[q]? = some block := by rw [getElem?_insert, if_pos rfl]
  have hentrySelf : blocks.entryOf? q = some ⟨q, size, b.flags⟩ := by rw [hentry, Function.update_self]
  have hentryOther : ∀ x, x ≠ q → blocks.entryOf? x = blocks₁.entryOf? x := fun x hx => by
    rw [hentry, Function.update_of_ne hx, hentry₁]
  have ha : s₁.AltersBlock q (s.moveBlock blocks p q b.size size) :=
    { blocks := hwf
      entry := hentryOther
      region := fun hb' => by
        cases hentrySelf.symm.trans hb'
        refine ⟨hsize, hmod, fun x hx => ⟨(hregion x hx).1, fun p' b' _ hb'' => ?_⟩⟩
        have hb'' : blocks₁.entryOf? p' = some b' := hb''
        rw [hentry₁] at hb''
        by_cases hpp : p' = p
        · rw [hpp, Function.update_self] at hb''
          cases hb''
        · rw [Function.update_of_ne hpp] at hb''
          exact (hregion x hx).2 p' b' hpp hb''
      contents := fun x hx => by
        show ((s.contents.erase p).insert q block)[x]? = (s.contents.erase p)[x]?
        rw [getElem?_insert, if_neg (Ne.symm hx)]
      content := by
        show (((s.contents.erase p).insert q block)[q]?).isSome = (blocks.entryOf? q).isSome
        rw [hself, hentrySelf]
        rfl
      grey := fun _ => mem_renamePage_of_ne
      queued := by
        show q ∈ renamePage p q s.hugeGrey ↔ ∃ b, blocks.entryOf? q = some b ∧ _
        rw [mem_renamePage_self hgrey, h.grey, hb, hentrySelf]
        simp
      greyNodup := by
        show (renamePage p q s.hugeGrey).toList.Nodup
        rw [renamePage, Array.toList_map]
        exact nodup_renamePage h.greyNodup fun hin => hgrey (Array.mem_toList_iff.1 hin)
      fixed := fun _ => mem_renamePage_of_ne
      finalizers := fun _ => mem_renamePage_of_ne
      pending := fun _ => mem_renamePage_of_ne
      registered := by
        show ((renamePage p q s.hugeFinalizers).toList ++ (renamePage p q s.hugePending).toList).Nodup
        rw [renamePage, renamePage, Array.toList_map, Array.toList_map, ← List.map_append]
        refine nodup_renamePage h.registered fun hin => ?_
        rcases List.mem_append.1 hin with hin | hin
        · exact hidle (Array.mem_toList_iff.1 hin)
        · exact hpending (Array.mem_toList_iff.1 hin)
      total := by
        show s.total - b.size + size + blocks₁.bytes = s.total - b.size + blocks.bytes
        omega
      total_lt := hrange }
  refine ⟨s₁, hrev₁, (ha.revises hrev₁.wf).congr ?_⟩
  refine Slot.ext ?_ (propext (mem_renamePage_self hgrey)) (propext (mem_renamePage_self hfixed))
    (propext (mem_renamePage_self hidle)) (propext (mem_renamePage_self hpending))
  show (blocks.entryOf? q).map _ = _
  rw [hentrySelf, Option.map_some, ← hbp, entityOf_moveBlock]

/-- Resizing a huge block moves what is recorded of it to its new place. -/
theorem resizeHuge_eq_ok (h : s.Wf) (hr : r.isHuge = true) (he : (s.slot r).entity? = some e)
    (hfresh : supply.Fresh s r.page)
    (hlisted : ∀ t, (s.slot t).fixed ∨ (s.slot t).idle ∨ (s.slot t).pending → s.Holds t)
    {size : Nat} (hsize : cellBytes ≤ size) {result : Except AllocError Ref}
    (hrun : s.resizeHuge supply r size = .ok (result, s')) :
    (∀ e, result = .error e → s' = s) ∧
      ∀ moved, result = .ok moved → moved.isHuge = true ∧ (moved = r ∨ (s.slot moved).entity? = none) ∧
        s'.Wf ∧ s'.unswept = s.unswept ∧ s'.hugeNeedsSweep = s.hugeNeedsSweep ∧
        s'.arenas = s.arenas ∧
        s'.slot = Function.update (Function.update s.slot r .blank) moved
          { s.slot r with entity? := some (resized e size) } := by
  obtain ⟨b, hb, rfl⟩ := exists_entry hr he
  obtain ⟨hp, -⟩ := page_ne_zero h hb
  obtain ⟨old, hold, -, ⟨-, rfl, rfl⟩ | ⟨q, blocks, hask, rfl, hreplace, -, hrange, rfl⟩⟩ := resizeHuge_cases hrun
  · exact ⟨fun _ _ => rfl, fun _ hm => by cases hm⟩
  rw [BlockTable.sizeOf?_eq_ok h.blocks hp, hb] at hold
  cases hold
  have hq := supplied_of_askBlock hask
  obtain ⟨hqz, hregion⟩ := hfresh size q hq
  have hpos : 0 < size := lt_of_lt_of_le (by decide) hsize
  have hfree : q = r.page ∨ s.blocks.entryOf? q = none :=
    or_iff_not_imp_left.2 (Fresh.entryOf?_eq_none h hfresh hq hpos)
  obtain ⟨hwf, hmod, hbytes, hentry⟩ := BlockTable.replace_spec h.blocks hp hqz hb hfree hreplace
  obtain ⟨s₁, hleave, hmove⟩ := moveBlock_spec h hb hwf hbytes hentry hsize hmod (fun x hx => (hregion x hx).2)
    (eq_of_listed h hlisted hfree) hrange
  refine ⟨fun _ hm => (by cases hm), fun moved hm => ?_⟩
  cases hm
  refine ⟨rfl, ?_, hmove.wf, hmove.unswept.trans hleave.unswept, hmove.hugeNeedsSweep.trans hleave.hugeNeedsSweep,
    rfl, ?_⟩
  · refine hfree.imp (fun heq => by rw [eq_huge hr, heq]) fun hnone => ?_
    show (s.blocks.entryOf? q).map _ = none
    rw [hnone]
    rfl
  · rw [hmove.slot, hleave.slot, ← eq_huge hr, slot_of_isHuge hr]

/-! ## The memory of objects -/

/-- An object of an arena lies in the cells below the bump region. -/
theorem end_le_top (h : s.Wf) (hr : r.isHuge = false) (he : (s.slot r).entity? = some e) :
    ∃ (i : Nat) (a : Arena), s.arenas[i]? = some a ∧ a.page = r.page ∧ firstCell ≤ r.cell ∧
      r.cell * cellBytes + e.size ≤ a.top * cellBytes ∧ a.top ≤ arenaCells := by
  obtain ⟨a, ha, hslot⟩ := exists_arena hr he
  obtain ⟨i, hi, hp⟩ := (arena?_eq_some h).1 ha
  rw [hslot] at he
  obtain ⟨hge, hlt, -⟩ := Arena.isAllocated_iff.1 (Arena.isAllocated_of_entity? he)
  obtain ⟨chains, htiled⟩ := (h.sound hi).tiled
  have hle := Nat.mul_le_mul_right cellBytes (Arena.stretch_extent htiled.top_le hlt).le_top
  rw [Nat.add_mul, ← (Arena.eq_entityOf he).1] at hle
  exact ⟨i, a, hi, hp, hge, hle, htiled.top_le⟩

/-- An object of an arena lies within the arena's page. -/
theorem end_le_page (h : s.Wf) (hr : r.isHuge = false) (he : (s.slot r).entity? = some e) :
    r.address + e.size ≤ (r.page + 1) * pageBytes := by
  obtain ⟨_, a, -, -, -, hend, htop⟩ := end_le_top h hr he
  have hcells : arenaCells * cellBytes = pageBytes := by decide
  have := Nat.mul_le_mul_right cellBytes htop
  rw [Ref.address, Nat.add_mul]
  omega

/-- No block reaches into the page of an arena. -/
theorem page_apart_block (h : s.Wf) {i : Nat} {a : Arena} {p : Page} {b : BlockEntry}
    (ha : s.arenas[i]? = some a) (hb : s.blocks.entryOf? p = some b) :
    Apart (a.page * pageBytes, pageBytes) (p * pageBytes, b.size) := by
  have hnot : ¬ Page.Within a.page p b.size := fun hin => by
    have hindex := h.apart hb hin
    rw [h.indices.2 ⟨a, ha, rfl⟩] at hindex
    cases hindex
  rw [Page.Within, not_and_or, Nat.not_le, Nat.not_lt] at hnot
  refine hnot.imp_left fun hlt => ?_
  have := Nat.mul_le_mul_right pageBytes (Nat.succ_le_of_lt hlt)
  rwa [Nat.succ_mul] at this

/-- Blocks do not overlap. -/
theorem blocks_apart (h : s.Wf) {p p' : Page} {b b' : BlockEntry} (hb : s.blocks.entryOf? p = some b)
    (hb' : s.blocks.entryOf? p' = some b') (hne : p ≠ p') :
    Apart (p * pageBytes, b.size) (p' * pageBytes, b'.size) := by
  have hself := within_self p (lt_of_lt_of_le (by decide) (h.sizes hb).1)
  have hself' := within_self p' (lt_of_lt_of_le (by decide) (h.sizes hb').1)
  have hnot : ¬ Page.Within p' p b.size := fun hin => hne (h.apartBlocks hb hb' hin hself')
  have hnot' : ¬ Page.Within p p' b'.size := fun hin => hne (h.apartBlocks hb hb' hself hin)
  rw [Page.Within, not_and_or, Nat.not_le, Nat.not_lt] at hnot hnot'
  rcases hnot with hlt | hle
  · exact .inr (hnot'.resolve_left (Nat.lt_asymm hlt))
  · exact .inl hle

/-- An object of an arena and a huge block do not overlap. -/
theorem memory_apart_block (h : s.Wf) (hr : r.isHuge = false) (ht : t.isHuge = true)
    (he : (s.slot r).entity? = some e) (he' : (s.slot t).entity? = some e') :
    r.address + e.size ≤ t.address ∨ t.address + e'.size ≤ r.address := by
  obtain ⟨i, a, hi, hp, -⟩ := end_le_top h hr he
  obtain ⟨b, hb, rfl⟩ := exists_entry ht he'
  have hend := end_le_page h hr he
  have hapart := page_apart_block h hi hb
  rw [hp] at hapart
  rw [Nat.succ_mul] at hend
  rw [address_of_isHuge ht]
  exact hapart.imp hend.trans fun hle => hle.trans (Nat.le_add_right _ _)

/-- Two huge blocks do not overlap. -/
theorem memory_apart_blocks (h : s.Wf) (hr : r.isHuge = true) (ht : t.isHuge = true)
    (he : (s.slot r).entity? = some e) (he' : (s.slot t).entity? = some e') (hne : r ≠ t) :
    r.address + e.size ≤ t.address ∨ t.address + e'.size ≤ r.address := by
  obtain ⟨b, hb, rfl⟩ := exists_entry hr he
  obtain ⟨b', hb', rfl⟩ := exists_entry ht he'
  have hpages : r.page ≠ t.page := fun hp => hne (by rw [eq_huge hr, eq_huge ht, hp])
  rw [address_of_isHuge hr, address_of_isHuge ht]
  exact blocks_apart h hb hb' hpages

/-- An object lies before those of the later pages. -/
theorem end_le_address (h : s.Wf) (hr : r.isHuge = false) (he : (s.slot r).entity? = some e)
    (hlt : r.page < t.page) : r.address + e.size ≤ t.address :=
  calc r.address + e.size
    _ ≤ (r.page + 1) * pageBytes := end_le_page h hr he
    _ ≤ t.page * pageBytes := Nat.mul_le_mul_right _ hlt
    _ ≤ t.address := Nat.le_add_right _ _

/-- Two objects of one arena do not overlap. -/
theorem memory_apart_page (h : s.Wf) (hr : r.isHuge = false) (ht : t.isHuge = false)
    (he : (s.slot r).entity? = some e) (he' : (s.slot t).entity? = some e') (hpage : r.page = t.page)
    (hne : r ≠ t) : r.address + e.size ≤ t.address ∨ t.address + e'.size ≤ r.address := by
  obtain ⟨a, ha, hslot⟩ := exists_arena hr he
  obtain ⟨i, hi, -⟩ := (arena?_eq_some h).1 ha
  rw [hslot] at he
  rw [slot_small ht (hpage ▸ ha)] at he'
  have hcell : r.cell ≠ t.cell := fun hc => hne (by
    cases r
    cases t
    rw [Ref.mk.injEq]
    exact ⟨hpage, hc⟩)
  rw [Ref.address, Ref.address, hpage, (Arena.eq_entityOf he).1, (Arena.eq_entityOf he').1]
  rcases (h.sound hi).tiled.apart (Arena.isAllocated_of_entity? he) (Arena.isAllocated_of_entity? he') hcell with
    hle | hle
  · have hbytes := Nat.mul_le_mul_right cellBytes hle
    rw [Nat.add_mul] at hbytes
    omega
  · have hbytes := Nat.mul_le_mul_right cellBytes hle
    rw [Nat.add_mul] at hbytes
    omega

/-- The memory of different objects does not overlap. -/
theorem memory_apart (h : s.Wf) (he : (s.slot r).entity? = some e) (he' : (s.slot t).entity? = some e')
    (hne : r ≠ t) : r.address + e.size ≤ t.address ∨ t.address + e'.size ≤ r.address := by
  cases hr : r.isHuge with
  | false =>
    cases ht : t.isHuge with
    | false =>
      rcases Nat.lt_trichotomy r.page t.page with hlt | heq | hgt
      · exact .inl (end_le_address h hr he hlt)
      · exact memory_apart_page h hr ht he he' heq hne
      · exact .inr (end_le_address h ht he' hgt)
    | true => exact memory_apart_block h hr ht he he'
  | true =>
    cases ht : t.isHuge with
    | false => exact (memory_apart_block h ht hr he' he).symm
    | true => exact memory_apart_blocks h hr ht he he' hne

end Space

end Tricolor
