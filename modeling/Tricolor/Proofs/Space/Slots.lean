import Mathlib.Data.List.Perm.Subperm
import Tricolor.Proofs.BlockTable
import Tricolor.Proofs.Space.Runs
import Tricolor.Space.Contents

/-!
# The slots of a space

`Space.slot` is the view of a space that heaps build on: for every reference, the object
there and the lists that it stands in, whether it is kept in an arena or as a huge block.
`Space.Wf` is the invariant. What can be asked of an object is read off its slot.
-/

namespace Tricolor

/-- The number of pages in an address space of 64 bits. -/
def pageCount : Nat := wordRange / pageBytes

/-- A page that a block of `size` bytes at `start` reaches into. -/
def Page.Within (q start size : Nat) : Prop :=
  start ≤ q ∧ q * pageBytes < start * pageBytes + size

namespace Space

/-- The arena at a page. -/
def arena? (s : Space) (p : Page) : Option Arena := s.indices[p]?.bind (s.arenas[·]?)

/-- The contents of the huge block at a page. -/
def blockAt (s : Space) (p : Page) : HugeBlock := s.contents[p]?.getD default

/-- The object in a registered block. -/
def entityOf (s : Space) (e : BlockEntry) : Entity where
  size := e.size
  marked := e.flags.isMarked
  awaits := s.hugeNeedsSweep
  header := (s.blockAt e.page).header
  content := fun i => if headerBytes + i < e.size then (s.blockAt e.page).bytes.get (headerBytes + i)
    else 0

/-- What is recorded of the huge block at a page. -/
def hugeSlot (s : Space) (p : Page) : Slot where
  entity? := (s.blocks.entryOf? p).map s.entityOf
  queued := p ∈ s.hugeGrey
  fixed := p ∈ s.hugeFixed
  idle := p ∈ s.hugeFinalizers
  pending := p ∈ s.hugePending

/-- What is recorded of a reference. -/
def slot (s : Space) (r : Ref) : Slot :=
  if r.isHuge then s.hugeSlot r.page else (s.arena? r.page).elim .blank (·.slot r.cell)

/-- Whether a sweep awaits the arena with an index. -/
def unswept (s : Space) (index : Nat) : Bool := (s.arenas[index]?).any (·.needsSweep)

/-- The invariant of a space. -/
structure Wf (s : Space) : Prop where
  sound : ∀ {i : Nat} {a : Arena}, s.arenas[i]? = some a → a.Sound
  index : ∀ {i : Nat} {a : Arena}, s.arenas[i]? = some a → a.index = i
  page_lt : ∀ {i : Nat} {a : Arena}, s.arenas[i]? = some a → a.page < pageCount
  /-- nothing is recorded of cell 0, which stands for a huge block -/
  zero : ∀ {i : Nat} {a : Arena}, s.arenas[i]? = some a → a.slot 0 = .blank
  indices : ∀ {p : Page} {i : Nat}, s.indices[p]? = some i ↔ ∃ a, s.arenas[i]? = some a ∧ a.page = p
  current : ∀ i, s.current = some i → i < s.arenas.size
  blocks : s.blocks.Wf
  contents : ∀ p, s.contents[p]?.isSome = (s.blocks.entryOf? p).isSome
  sizes : ∀ {p e}, s.blocks.entryOf? p = some e → cellBytes ≤ e.size ∧ e.size % cellBytes = 0
  grey : ∀ {p}, p ∈ s.hugeGrey ↔ ∃ e, s.blocks.entryOf? p = some e ∧ e.flags.isGrey = true
  greyNodup : s.hugeGrey.toList.Nodup
  registered : (s.hugeFinalizers.toList ++ s.hugePending.toList).Nodup
  /-- no block reaches into an arena -/
  apart : ∀ {p e q}, s.blocks.entryOf? p = some e → Page.Within q p e.size → s.indices[q]? = none
  /-- no two blocks overlap -/
  apartBlocks : ∀ {p p' e e' q}, s.blocks.entryOf? p = some e → s.blocks.entryOf? p' = some e' →
    Page.Within q p e.size → Page.Within q p' e'.size → p = p'
  total : s.total = (s.arenas.toList.map Arena.usedBytes).sum + s.blocks.bytes
  total_lt : s.total < wordRange

/-- The indices of a space agree with each other: every arena stores its place in the list, its page
leads to that place and no other page does, and the current arena is in the list. -/
structure Indexed (s : Space) : Prop where
  tiled : ∀ {i : Nat} {a : Arena}, s.arenas[i]? = some a → a.Tiled
  index : ∀ {i : Nat} {a : Arena}, s.arenas[i]? = some a → a.index = i
  page_lt : ∀ {i : Nat} {a : Arena}, s.arenas[i]? = some a → a.page < pageCount
  indices : ∀ {p : Page} {i : Nat}, s.indices[p]? = some i ↔ ∃ a, s.arenas[i]? = some a ∧ a.page = p
  current : ∀ i, s.current = some i → i < s.arenas.size

theorem Wf.indexed {s : Space} (h : s.Wf) : s.Indexed where
  tiled ha := (h.sound ha).tiled
  index := h.index
  page_lt := h.page_lt
  indices := h.indices
  current := h.current

theorem slot_huge (s : Space) (p : Page) : s.slot (.huge p) = s.hugeSlot p := rfl

theorem slot_of_isHuge {s : Space} {r : Ref} (hr : r.isHuge = true) : s.slot r = s.hugeSlot r.page :=
  if_pos hr

theorem slot_of_not_isHuge {s : Space} {r : Ref} (hr : r.isHuge = false) :
    s.slot r = (s.arena? r.page).elim .blank (·.slot r.cell) :=
  if_neg (Bool.eq_false_iff.1 hr)

variable {s : Space} {r : Ref} {a : Arena} {e : Entity}

/-! ## Arenas by page -/

namespace Indexed

variable (h : s.Indexed)

include h

theorem arena?_eq_some {p : Page} : s.arena? p = some a ↔ ∃ i : Nat, s.arenas[i]? = some a ∧ a.page = p := by
  rw [arena?, Option.bind_eq_some_iff]
  constructor
  · rintro ⟨i, hi, ha⟩
    have ha : s.arenas[i]? = some a := ha
    obtain ⟨b, hb, hp⟩ := h.indices.1 hi
    rw [ha] at hb
    cases hb
    exact ⟨i, ha, hp⟩
  · rintro ⟨i, ha, hp⟩
    exact ⟨i, h.indices.2 ⟨a, ha, hp⟩, ha⟩

theorem indexOf_eq {i : Nat} (ha : s.arenas[i]? = some a) : s.indexOf a.page = .ok i := by
  rw [indexOf, h.indices.2 ⟨a, ha, rfl⟩]
  simp only [ha, h.index ha, if_true]

/-- The arena of a page and its index. -/
theorem indexOf_eq_ok {p : Page} {i : Nat} (hi : s.indexOf p = .ok i) : ∃ a, s.arenas[i]? = some a ∧ a.page = p := by
  rw [indexOf] at hi
  split at hi
  · cases hi
  · next j hj =>
    split at hi
    · cases hi
    · split at hi
      · cases hi
        exact h.indices.1 hj
      · cases hi

theorem arenaOf_eq (ha : s.arena? r.page = some a) : s.arenaOf r = .ok a := by
  obtain ⟨i, hi, hp⟩ := h.arena?_eq_some.1 ha
  refine bind_eq_ok_iff.2 ⟨i, by rw [← hp]; exact h.indexOf_eq hi, ?_⟩
  rw [arenaAt, hi]

theorem arenaOf_eq_ok (ha : s.arenaOf r = .ok a) : s.arena? r.page = some a := by
  obtain ⟨i, hi, ha⟩ := bind_eq_ok_iff.1 ha
  obtain ⟨b, hb, hp⟩ := h.indexOf_eq_ok hi
  rw [arenaAt, hb] at ha
  cases ha
  exact h.arena?_eq_some.2 ⟨i, hb, hp⟩

theorem page_eq_iff {i j : Nat} {b : Arena} (ha : s.arenas[i]? = some a) (hb : s.arenas[j]? = some b) :
    b.page = a.page ↔ j = i := by
  constructor
  · intro hp
    have hj := h.indices.2 ⟨b, hb, hp⟩
    rw [h.indices.2 ⟨a, ha, rfl⟩] at hj
    exact (Option.some.inj hj).symm
  · rintro rfl
    rw [ha] at hb
    cases hb
    rfl

/-- No two arenas have one page. -/
theorem nodup_pages : (s.arenas.toList.map Arena.page).Nodup := by
  rw [List.nodup_iff_injective_get]
  intro i j hij
  rw [List.get_eq_getElem, List.get_eq_getElem, List.getElem_map, List.getElem_map] at hij
  have hilt : i.val < s.arenas.toList.length := by simpa using i.2
  have hjlt : j.val < s.arenas.toList.length := by simpa using j.2
  have hi : s.arenas[i.val]? = some s.arenas.toList[i.val] := by
    rw [← Array.getElem?_toList, List.getElem?_eq_getElem]
  have hj : s.arenas[j.val]? = some s.arenas.toList[j.val] := by
    rw [← Array.getElem?_toList, List.getElem?_eq_getElem]
  exact Fin.ext ((h.page_eq_iff hj hi).1 hij)

/-- The indices of the arenas fit into the cells that store them. -/
theorem arenas_le_pageCount : s.arenas.size ≤ pageCount := by
  have hsub : s.arenas.toList.map Arena.page ⊆ List.range pageCount := by
    intro p hp
    obtain ⟨a, ha, rfl⟩ := List.mem_map.1 hp
    obtain ⟨i, hi⟩ := Array.getElem?_of_mem (Array.mem_toList_iff.1 ha)
    exact List.mem_range.2 (h.page_lt hi)
  have := (List.subperm_of_subset h.nodup_pages hsub).length_le
  rwa [List.length_map, Array.length_toList, List.length_range] at this

end Indexed

theorem arena?_eq_some (h : s.Wf) {p : Page} :
    s.arena? p = some a ↔ ∃ i : Nat, s.arenas[i]? = some a ∧ a.page = p := h.indexed.arena?_eq_some

theorem indexOf_eq (h : s.Wf) {i : Nat} (ha : s.arenas[i]? = some a) : s.indexOf a.page = .ok i :=
  h.indexed.indexOf_eq ha

theorem indexOf_eq_ok (h : s.Wf) {p : Page} {i : Nat} (hi : s.indexOf p = .ok i) :
    ∃ a, s.arenas[i]? = some a ∧ a.page = p := h.indexed.indexOf_eq_ok hi

theorem arenaOf_eq (h : s.Wf) (ha : s.arena? r.page = some a) : s.arenaOf r = .ok a := h.indexed.arenaOf_eq ha

theorem arenaOf_eq_ok (h : s.Wf) (ha : s.arenaOf r = .ok a) : s.arena? r.page = some a :=
  h.indexed.arenaOf_eq_ok ha

/-! ## Objects by reference -/

/-- A huge block is at the start of its page. -/
theorem eq_huge (hr : r.isHuge = true) : r = .huge r.page := by
  obtain ⟨p, c⟩ := r
  rw [Ref.isHuge, beq_iff_eq] at hr
  cases hr
  rfl

theorem address_of_isHuge (hr : r.isHuge = true) : r.address = r.page * pageBytes := by
  rw [Ref.isHuge, beq_iff_eq] at hr
  rw [Ref.address, hr, Nat.zero_mul, Nat.add_zero]

/-- The slot of a reference into an arena. -/
theorem slot_small (hr : r.isHuge = false) (ha : s.arena? r.page = some a) :
    s.slot r = a.slot r.cell := by
  rw [slot_of_not_isHuge hr, ha]
  rfl

/-- A reference into an arena whose place is known to hold something lies in an arena. -/
theorem exists_arena (hr : r.isHuge = false) (he : (s.slot r).entity? = some e) :
    ∃ a, s.arena? r.page = some a ∧ s.slot r = a.slot r.cell := by
  cases ha : s.arena? r.page with
  | some a => exact ⟨a, rfl, slot_small hr ha⟩
  | none =>
    rw [slot_of_not_isHuge hr, ha] at he
    cases he

/-- Running a change on the arena of a reference. -/
theorem modifyArenaOf_eq_ok_iff (h : s.Wf) {f : Arena → Except Fault Arena} {t : Space} :
    s.modifyArenaOf r f = .ok t ↔ ∃ (i : Nat) (a a' : Arena), s.arenas[i]? = some a ∧ a.page = r.page ∧
      f a = .ok a' ∧ t = { s with arenas := s.arenas.setIfInBounds i a' } := by
  have hset : ∀ (i : Nat) (a' : Arena) (hi : i < s.arenas.size),
      s.arenas.set i a' = s.arenas.setIfInBounds i a' := by
    intro i a' hi
    rw [Array.setIfInBounds, dif_pos hi]
  rw [modifyArenaOf, bind_eq_ok_iff]
  constructor
  · rintro ⟨i, hi, ht⟩
    obtain ⟨a, ha, hp⟩ := indexOf_eq_ok h hi
    obtain ⟨⟨_, t'⟩, ht', hret⟩ := bind_eq_ok_iff.1 ht
    cases hret
    obtain ⟨hlt, a', hf, rfl⟩ := updateArena_eq_ok_iff.1 ht'
    obtain ⟨b, hfa, hret⟩ := bind_eq_ok_iff.1 hf
    cases hret
    have hget := ha
    rw [Array.getElem?_eq_getElem hlt, Option.some.injEq] at hget
    rw [hget] at hfa
    exact ⟨i, a, a', ha, hp, hfa, by rw [hset i a' hlt]⟩
  · rintro ⟨i, a, a', ha, hp, hfa, rfl⟩
    obtain ⟨hlt, hget⟩ := Array.getElem?_eq_some_iff.1 ha
    refine ⟨i, by rw [← hp]; exact indexOf_eq h ha, bind_eq_ok_iff.2 ⟨((), _), ?_, rfl⟩⟩
    refine updateArena_eq_ok_iff.2 ⟨hlt, a', bind_eq_ok_iff.2 ⟨a', by rw [hget]; exact hfa, rfl⟩, ?_⟩
    rw [hset i a' hlt]

/-! ## What is read off a slot -/

/-- The entry of an allocated huge block. -/
theorem exists_entry (hr : r.isHuge = true) (he : (s.slot r).entity? = some e) :
    ∃ b, s.blocks.entryOf? r.page = some b ∧ s.entityOf b = e := by
  rw [slot_of_isHuge hr] at he
  exact Option.map_eq_some_iff.1 he

theorem page_ne_zero (h : s.Wf) {p : Page} {b : BlockEntry} (hb : s.blocks.entryOf? p = some b) :
    p ≠ 0 ∧ b.page = p := by
  obtain ⟨hmem, hp⟩ := (BlockTable.entryOf?_eq_some_iff h.blocks.distinct).1 hb
  exact ⟨by rw [← hp]; exact h.blocks.distinct.2 b hmem, hp⟩

theorem contents_of_entry (h : s.Wf) {p : Page} {b : BlockEntry} (hb : s.blocks.entryOf? p = some b) :
    s.contents[p]? = some (s.blockAt p) := by
  have hsome := h.contents p
  rw [hb] at hsome
  obtain ⟨block, hblock⟩ := Option.isSome_iff_exists.1 hsome
  rw [blockAt, hblock]
  rfl

/-- An object is allocated exactly if its slot holds one. -/
theorem isAllocated_eq (h : s.Wf) (r : Ref) : s.isAllocated r = (s.slot r).entity?.isSome := by
  rw [isAllocated]
  split
  · next hr =>
    rw [slot_of_isHuge hr]
    show _ = ((s.blocks.entryOf? r.page).map s.entityOf).isSome
    rw [Option.isSome_map]
    by_cases hp : r.page = 0
    · rw [BlockTable.contains, BlockTable.find, hp]
      cases hb : s.blocks.entryOf? 0 with
      | none => rfl
      | some b => exact absurd rfl (page_ne_zero h hb).1
    · rw [BlockTable.contains_eq_ok h.blocks hp]
  · next hr =>
    rw [Bool.not_eq_true] at hr
    cases hi : s.indices[r.page]? with
    | none =>
      rw [slot_of_not_isHuge hr, arena?, hi]
      rfl
    | some i =>
      obtain ⟨a, ha, hp⟩ := h.indices.1 hi
      have harena : s.arena? r.page = some a := (arena?_eq_some h).2 ⟨i, ha, hp⟩
      simp only
      rw [slot_small hr harena, ha]
      exact Arena.entity?_isSome.symm

/-- The place holds an object. -/
def Holds (s : Space) (r : Ref) : Prop := ∃ e, (s.slot r).entity? = some e

theorem holds_iff (h : s.Wf) : s.isAllocated r = true ↔ s.Holds r := by
  rw [isAllocated_eq h, Option.isSome_iff_exists, Holds]

theorem not_holds : ¬ s.Holds r ↔ (s.slot r).entity? = none := by
  rw [Holds, Option.eq_none_iff_forall_ne_some]
  exact not_exists

/-- The object at a reference outlives the pending sweep. -/
def Survives (s : Space) (r : Ref) : Prop := ∃ e, (s.slot r).entity? = some e ∧ e.survives = true

theorem Survives.holds (h : s.Survives r) : s.Holds r := by
  obtain ⟨e, he, -⟩ := h
  exact ⟨e, he⟩

section Reads

variable (h : s.Wf) (he : (s.slot r).entity? = some e)

include h he

theorem header_eq : s.header r = .ok e.header := by
  by_cases hr : r.isHuge = true
  · obtain ⟨b, hb, rfl⟩ := exists_entry hr he
    rw [header, if_pos hr, contents_of_entry h hb]
    rw [entityOf, (page_ne_zero h hb).2]
    rfl
  · rw [Bool.not_eq_true] at hr
    obtain ⟨a, ha, hslot⟩ := exists_arena hr he
    rw [hslot] at he
    rw [header, if_neg (by rw [hr]; exact Bool.false_ne_true), (Arena.eq_entityOf he).2.2.2]
    exact bind_eq_ok_iff.2 ⟨a, arenaOf_eq h ha, rfl⟩

theorem isMarked_eq : s.isMarked r = .ok e.marked := by
  by_cases hr : r.isHuge = true
  · obtain ⟨b, hb, rfl⟩ := exists_entry hr he
    rw [isMarked, if_pos hr, BlockTable.flags_eq_ok h.blocks (page_ne_zero h hb).1, hb]
    rfl
  · rw [Bool.not_eq_true] at hr
    obtain ⟨a, ha, hslot⟩ := exists_arena hr he
    rw [hslot] at he
    rw [isMarked, if_neg (by rw [hr]; exact Bool.false_ne_true), (Arena.eq_entityOf he).2.1]
    refine bind_eq_ok_iff.2 ⟨a, arenaOf_eq h ha, bind_eq_ok_iff.2 ⟨(), ?_, rfl⟩⟩
    exact require_eq_ok_iff.2 (Arena.isAllocated_of_entity? he)

theorem needsSweep_eq : s.needsSweep r = .ok e.awaits := by
  by_cases hr : r.isHuge = true
  · obtain ⟨b, hb, rfl⟩ := exists_entry hr he
    rw [needsSweep, if_pos hr]
    rfl
  · rw [Bool.not_eq_true] at hr
    obtain ⟨a, ha, hslot⟩ := exists_arena hr he
    rw [hslot] at he
    rw [needsSweep, if_neg (by rw [hr]; exact Bool.false_ne_true), (Arena.eq_entityOf he).2.2.1]
    exact bind_eq_ok_iff.2 ⟨a, arenaOf_eq h ha, rfl⟩

theorem survives_eq : s.survives r = .ok e.survives := by
  rw [survives, isMarked_eq h he, Entity.survives]
  cases hm : e.marked with
  | true => rfl
  | false =>
    show (s.needsSweep r >>= fun b => pure (!b)) = _
    rw [needsSweep_eq h he]
    rfl

theorem objectSize_eq : s.objectSize r = .ok e.size := by
  by_cases hr : r.isHuge = true
  · obtain ⟨b, hb, rfl⟩ := exists_entry hr he
    rw [objectSize, if_pos hr, BlockTable.sizeOf?_eq_ok h.blocks (page_ne_zero h hb).1, hb]
    rfl
  · rw [Bool.not_eq_true] at hr
    obtain ⟨a, ha, hslot⟩ := exists_arena hr he
    rw [hslot] at he
    rw [objectSize, if_neg (by rw [hr]; exact Bool.false_ne_true), (Arena.eq_entityOf he).1]
    refine bind_eq_ok_iff.2 ⟨a, arenaOf_eq h ha, bind_eq_ok_iff.2 ⟨a.extent r.cell, ?_, rfl⟩⟩
    exact Arena.objectCells_eq (Arena.isAllocated_of_entity? he)

/-- The bytes behind the header of an object. -/
theorem bytesOf_eq : ∃ bytes, s.bytesOf r = .ok bytes ∧ ∀ i, headerBytes + i < e.size →
    bytes.get (r.payloadOffset + i) = e.content i := by
  by_cases hr : r.isHuge = true
  · obtain ⟨b, hb, rfl⟩ := exists_entry hr he
    refine ⟨(s.blockAt r.page).bytes, ?_, fun i hi => ?_⟩
    · rw [bytesOf, if_pos hr, contents_of_entry h hb]
      rfl
    · have hoffset : r.payloadOffset = headerBytes := by
        rw [eq_huge hr]
        rfl
      rw [hoffset, entityOf, (page_ne_zero h hb).2]
      exact (if_pos hi).symm
  · rw [Bool.not_eq_true] at hr
    obtain ⟨a, ha, hslot⟩ := exists_arena hr he
    rw [hslot] at he
    refine ⟨a.bytes, ?_, fun i hi => ?_⟩
    · rw [bytesOf, if_neg (by rw [hr]; exact Bool.false_ne_true)]
      exact bind_eq_ok_iff.2 ⟨a, arenaOf_eq h ha, rfl⟩
    · have heq := he
      rw [show (a.slot r.cell).entity? = a.entity? r.cell from rfl,
        Arena.entity?_of_allocated (Arena.isAllocated_of_entity? he)] at heq
      cases heq
      exact (if_pos hi).symm

/-- Reading from the start of its payload. -/
theorem bytesOf_read (hsize : headerBytes + e.header.size ≤ e.size) : ∃ bytes, s.bytesOf r = .ok bytes ∧
    ∀ count, bytes.read r.payloadOffset (min e.header.size count) = e.payload.take count := by
  obtain ⟨bytes, hbytes, hget⟩ := bytesOf_eq h he
  refine ⟨bytes, hbytes, fun count => ?_⟩
  rw [Zeroed.read, Entity.payload, List.range'_eq_map_range, List.map_map, ← List.map_take, List.take_range,
    Nat.min_comm]
  refine List.map_congr_left fun i hi => hget i ?_
  rw [List.mem_range] at hi
  omega

theorem payload_eq (hsize : headerBytes + e.header.size ≤ e.size) : s.payload r = .ok e.payload := by
  obtain ⟨bytes, hbytes, hread⟩ := bytesOf_read h he hsize
  rw [payload, header_eq h he]
  refine bind_eq_ok_iff.2 ⟨e.header, rfl, bind_eq_ok_iff.2 ⟨bytes, hbytes, ?_⟩⟩
  have hall := hread e.header.size
  rw [Nat.min_self, List.take_of_length_le (by rw [Entity.length_payload])] at hall
  exact congrArg Except.ok hall

end Reads

/-- Asking whether an object of an arena is marked only succeeds if it is allocated. -/
theorem exists_of_isMarked (h : s.Wf) {b : Bool} (hb : s.isMarked r = .ok b) :
    (∃ e, (s.slot r).entity? = some e ∧ e.marked = b) ∨
      (s.slot r).entity? = none ∧ r.isHuge = true ∧ b = false := by
  cases he : (s.slot r).entity? with
  | some e =>
    rw [isMarked_eq h he] at hb
    cases hb
    exact .inl ⟨e, rfl, rfl⟩
  | none =>
    refine .inr ⟨rfl, ?_⟩
    rw [isMarked] at hb
    split at hb
    · next hr =>
      refine ⟨hr, ?_⟩
      rw [slot_of_isHuge hr] at he
      obtain ⟨flags, hflags, hret⟩ := bind_eq_ok_iff.1 hb
      cases hret
      by_cases hp : r.page = 0
      · rw [BlockTable.flags, BlockTable.lookup, BlockTable.find, hp] at hflags
        cases hflags
      · rw [BlockTable.flags_eq_ok h.blocks hp, Option.map_eq_none_iff.1 he] at hflags
        cases hflags
        rfl
    · next hr =>
      rw [Bool.not_eq_true] at hr
      obtain ⟨a, ha, hb⟩ := bind_eq_ok_iff.1 hb
      obtain ⟨_, halloc, -⟩ := bind_eq_ok_iff.1 hb
      rw [slot_small hr (arenaOf_eq_ok h ha)] at he
      have := Arena.entity?_of_allocated (require_eq_ok_iff.1 halloc)
      rw [show (a.slot r.cell).entity? = a.entity? r.cell from rfl, this] at he
      cases he

/-! ## A space without memory -/

theorem entryOf?_empty (p : Page) : BlockTable.entryOf? .empty p = none := by
  rw [BlockTable.entryOf?_eq_none_iff]
  intro e he
  have hnil : BlockTable.entries .empty = [] := by
    rw [BlockTable.entries, BlockTable.empty, Array.toList_replicate]
    exact List.filterMap_replicate_of_none rfl
  rw [hnil] at he
  exact absurd he List.not_mem_nil

theorem wf_empty : empty.Wf where
  sound ha := by cases ha
  index ha := by cases ha
  page_lt ha := by cases ha
  zero ha := by cases ha
  indices {p i} := by
    have hnone : empty.indices[p]? = none := Std.TreeMap.getElem?_emptyc
    rw [hnone]
    exact ⟨fun h => (by cases h), fun ⟨_, h, _⟩ => by cases h⟩
  current _ h := by cases h
  blocks := BlockTable.wf_empty
  contents p := by
    have hnone : empty.contents[p]? = none := Std.TreeMap.getElem?_emptyc
    rw [hnone, show empty.blocks = .empty from rfl, entryOf?_empty]
    rfl
  sizes hb := by
    rw [show empty.blocks = .empty from rfl, entryOf?_empty] at hb
    cases hb
  grey {p} := by
    rw [show empty.blocks = .empty from rfl, entryOf?_empty]
    exact ⟨fun h => absurd h (Array.not_mem_empty p), fun ⟨_, h, _⟩ => by cases h⟩
  greyNodup := List.nodup_nil
  registered := List.nodup_nil
  apart hb := by
    rw [show empty.blocks = .empty from rfl, entryOf?_empty] at hb
    cases hb
  apartBlocks hb := by
    rw [show empty.blocks = .empty from rfl, entryOf?_empty] at hb
    cases hb
  total := rfl
  total_lt := by decide

/-- Nothing is recorded of any place. -/
theorem slot_empty (r : Ref) : empty.slot r = .blank := by
  cases hr : r.isHuge with
  | true =>
    rw [slot_of_isHuge hr]
    refine Slot.ext ?_ ?_ ?_ ?_ ?_
    · show (BlockTable.entryOf? .empty r.page).map empty.entityOf = none
      rw [entryOf?_empty]
      rfl
    all_goals exact eq_false (Array.not_mem_empty _)
  | false =>
    have hnone : empty.indices[r.page]? = none := Std.TreeMap.getElem?_emptyc
    rw [slot_of_not_isHuge hr, arena?, hnone]
    rfl

end Space

end Tricolor
