import Tricolor.Proofs.Heap.Presence
import Tricolor.Proofs.Space.Memory

/-!
# What an operation changes in the memory of a heap

`Heap.ChangesOnly` is what a program relies on: what it stored in an object stays there, whatever the
heap does with the memory around it. An operation names the objects that it writes, those that it
removes and those whose flags it changes. All other objects stay, at their places, those that stay
keep their kind and their payload, and all other cells of the arenas keep their bytes, their headers
and, unless they head a free run, their links.
-/

namespace Tricolor

/-- The `n` bytes of the object at `r` reach into the cell at `x`. -/
def Ref.Covers (r : Ref) (n : Nat) (x : Ref) : Prop := r.address ≤ x.address ∧ x.address < r.address + n

theorem Ref.covers_self (r : Ref) {n : Nat} (hn : 0 < n) : r.Covers n r :=
  ⟨le_rfl, Nat.lt_add_of_pos_right hn⟩

/-- The cell of a byte of the object lies in the object. -/
theorem Ref.covers_cell (r : Ref) {n i : Nat} (hge : r.offset ≤ i) (hlt : i < r.offset + n) :
    r.Covers n ⟨r.page, i / cellBytes⟩ := by
  simp only [Ref.Covers, Ref.address, Ref.offset, cellBytes] at hge hlt ⊢
  omega

/-- The memory of a cell, in the three ways in which it is read: as the link of a free run, as the
header of an object, and as bytes. -/
structure CellMemory where
  link : Nat
  header : Header
  bytes : List UInt8

namespace CellMemory

/-- A cell that nothing was written into. -/
def untouched : CellMemory := ⟨default, default, List.replicate cellBytes 0⟩

end CellMemory

/-- The memory of a cell. -/
def Arena.memory (a : Arena) (c : Nat) : CellMemory where
  link := a.links.get c
  header := a.headers.get c
  bytes := a.bytes.read (c * cellBytes) cellBytes

theorem Arena.memory_new (page : Page) (index c : Nat) : (Arena.new page index).memory c = .untouched := by
  have hbytes : (Arena.new page index).bytes.read (c * cellBytes) cellBytes = List.replicate cellBytes 0 := by
    rw [Zeroed.read, List.eq_replicate_iff, List.length_map, List.length_range']
    refine ⟨rfl, fun b hb => ?_⟩
    obtain ⟨i, -, rfl⟩ := List.mem_map.1 hb
    exact Zeroed.get_empty i
  rw [memory, hbytes]
  exact congrArg₂ (CellMemory.mk · · _) (Zeroed.get_empty c) (Zeroed.get_empty c)

namespace Space

variable {own flagged : Ref → Prop} {s s' : Space} {r : Ref} {e : Entity} {a : Arena} {i c : Nat}

/-- The memory of a cell. It is untouched where there is no arena. -/
def memory (s : Space) (x : Ref) : CellMemory := (s.arena? x.page).elim .untouched (·.memory x.cell)

theorem memory_eq {x : Ref} (ha : s.arena? x.page = some a) : s.memory x = a.memory x.cell := by
  rw [memory, ha]
  rfl

/-- No object reaches into the head of a free run. -/
theorem not_covers_of_isFree (h : s.Wf) (ha : s.arenas[i]? = some a) (hc : a.IsFree c) (hholds : Links.Holds c)
    (he : (s.slot r).entity? = some e) : ¬ r.Covers e.size ⟨a.page, c⟩ := by
  rintro ⟨hge, hlt⟩
  have hcell : c < 65536 := by
    have := hholds.2
    rwa [arenaCells_eq] at this
  have hindex := h.indices.2 ⟨a, ha, rfl⟩
  simp only [Ref.address, pageBytes, cellBytes] at hge hlt
  cases hr : r.isHuge with
  | true =>
    obtain ⟨b, hb, rfl⟩ := exists_entry hr he
    have hzero : r.cell = 0 := by
      rw [Ref.isHuge, beq_iff_eq] at hr
      exact hr
    have hsize : (s.entityOf b).size = b.size := rfl
    have hin : Page.Within a.page r.page b.size := by
      rw [Page.Within, pageBytes]
      omega
    rw [h.apart hb hin] at hindex
    cases hindex
  | false =>
    have hend := end_le_page h hr he
    obtain ⟨b, hb, hslot⟩ := exists_arena hr he
    obtain ⟨j, hj, hp⟩ := (arena?_eq_some h).1 hb
    simp only [Ref.address, pageBytes, cellBytes] at hend
    have hpage : r.page = a.page := Nat.le_antisymm (by omega) (by omega)
    rw [← hpage, h.indices.2 ⟨b, hj, hp⟩] at hindex
    cases hindex
    rw [ha] at hj
    cases hj
    rw [hslot] at he
    obtain ⟨-, htop, hblock⟩ := Arena.isAllocated_iff.1 (Arena.isAllocated_of_entity? he)
    rw [(Arena.eq_entityOf he).1, hpage] at hlt
    rw [hpage] at hge
    rcases Nat.lt_trichotomy r.cell c with hless | heq | hmore
    · obtain ⟨chains, htiled⟩ := (h.sound ha).tiled
      have := htiled.stretch_le htop hless (by rw [Arena.isBoundary, hc.2, Bool.or_true])
      simp only [cellBytes] at hlt
      omega
    · rw [heq, hc.1] at hblock
      cases hblock
    · omega

/-- The arena at a page before the memory was written to; it may have been added since. -/
theorem Writes.arena_before (hw : s.Writes own flagged s') (h : s.Wf) (h' : s'.Wf) {p : Page} {a' : Arena}
    (ha' : s'.arena? p = some a') :
    ∃ a : Arena, (s.arena? p = some a ∨ s.arena? p = none ∧ ∃ i, a = .new p i) ∧
      a.Writes (cellsIn own p) (cellsIn flagged p) a' := by
  obtain ⟨i, hi, rfl⟩ := (arena?_eq_some h').1 ha'
  obtain ⟨a, hor, hwrites⟩ := hw.arena i a' hi
  refine ⟨a, ?_, hwrites⟩
  rcases hor with ha | ⟨hnone, rfl⟩
  · exact .inl ((arena?_eq_some h).2 ⟨i, ha, hwrites.page.symm⟩)
  · -- an arena that was there before is still there, and there are no two at one page
    refine .inr ⟨?_, i, rfl⟩
    cases hb : s.arena? a'.page with
    | none => rfl
    | some b =>
      obtain ⟨j, hj, hp⟩ := (arena?_eq_some h).1 hb
      have hjlt : j < s'.arenas.size := lt_of_lt_of_le (Array.getElem?_eq_some_iff.1 hj).1 hw.size_le
      have hj' := Array.getElem?_eq_getElem hjlt
      obtain ⟨d, hd, hdwrites⟩ := hw.arena j _ hj'
      have hdb : d = b := by
        rcases hd with hd | ⟨hd, -⟩
        · rw [hj] at hd
          exact (Option.some.inj hd).symm
        · rw [hj] at hd
          cases hd
      have hpage : s'.arenas[j].page = a'.page := by rw [← hp, ← hdb, hdwrites.page]
      have hindex := h'.indices.2 ⟨a', hi, rfl⟩
      rw [h'.indices.2 ⟨_, hj', hpage⟩] at hindex
      cases hindex
      rw [hj] at hnone
      cases hnone

/-- The memory that an object is read from. -/
theorem Writes.reads (hw : s.Writes own flagged s') (h : s.Wf) (h' : s'.Wf) {x : Entity}
    (he : (s.slot r).entity? = some e) (hx : (s'.slot r).entity? = some x) (hr : ¬ own r) :
    (x.header = e.header ∨ flagged r ∧ e.header.SameObject x.header) ∧
      ∃ bytes bytes', s.bytesOf r = .ok bytes ∧ s'.bytesOf r = .ok bytes' ∧
        ∀ i, ¬ own ⟨r.page, i / cellBytes⟩ → bytes'.get i = bytes.get i := by
  cases hhuge : r.isHuge with
  | true =>
    obtain ⟨b, hb, rfl⟩ := exists_entry hhuge he
    obtain ⟨b', hb', rfl⟩ := exists_entry hhuge hx
    have hget := contents_of_entry h hb
    have hget' := contents_of_entry h' hb'
    rw [eq_huge hhuge] at hr
    obtain ⟨c, hc, hamends⟩ := (hw.block _ _ hget').resolve_left hr
    rw [hget] at hc
    cases hc
    refine ⟨?_, (s.blockAt r.page).bytes, (s'.blockAt r.page).bytes, ?_, ?_, fun i _ => ?_⟩
    · rw [eq_huge hhuge, entityOf, entityOf, (page_ne_zero h hb).2, (page_ne_zero h' hb').2]
      exact hamends.header
    · rw [bytesOf, if_pos hhuge, hget]
      rfl
    · rw [bytesOf, if_pos hhuge, hget']
      rfl
    · rw [hamends.bytes]
  | false =>
    obtain ⟨a', ha', hslot'⟩ := exists_arena hhuge hx
    obtain ⟨b, hb, hslot⟩ := exists_arena hhuge he
    obtain ⟨a, hor, hwrites⟩ := hw.arena_before h h' ha'
    have hab : a = b := by
      rcases hor with ha | ⟨hnone, -⟩
      · rw [hb] at ha
        exact (Option.some.inj ha).symm
      · rw [hb] at hnone
        cases hnone
    subst hab
    rw [hslot] at he
    rw [hslot'] at hx
    have hnot : ¬ r.isHuge = true := by
      rw [hhuge]
      exact Bool.false_ne_true
    refine ⟨?_, a.bytes, a'.bytes, ?_, ?_, fun i hi => (hwrites.byte i).resolve_right hi⟩
    · rw [(Arena.eq_entityOf he).2.2.2, (Arena.eq_entityOf hx).2.2.2]
      exact (hwrites.header r.cell).imp_right fun hor => hor.resolve_left hr
    · rw [bytesOf, if_neg hnot]
      exact bind_eq_ok_iff.2 ⟨a, arenaOf_eq h hb, rfl⟩
    · rw [bytesOf, if_neg hnot]
      exact bind_eq_ok_iff.2 ⟨a', arenaOf_eq h' ha', rfl⟩

end Space

namespace Heap

variable {own gone flagged : Ref → Prop} {h h' : Heap} {r t x : Ref} {e : Entity}

/-- What can be read of an object. -/
structure Shows (h : Heap) (r : Ref) (kind : Kind) (bytes : List UInt8) : Prop where
  kind : h.kind r = .ok kind
  length : h.payloadSize r = .ok bytes.length
  payload : h.payload r = .ok bytes

/-- The object has kept its kind and its payload. -/
def Retains (h : Heap) (r : Ref) (h' : Heap) : Prop := ∃ kind bytes, h.Shows r kind bytes ∧ h'.Shows r kind bytes

/-- If there is an object at `r`, then it was there before, and has kept its kind and its payload. -/
def Conserves (h : Heap) (r : Ref) (h' : Heap) : Prop := h'.isLive r = true → h.isLive r = true ∧ h.Retains r h'

/-- A free run starts at the cell, and no object reaches into it. -/
structure HeadsFreeRun (h : Heap) (x : Ref) : Prop where
  range : Links.Holds x.cell
  state : h.space.cellState x = .ok .free
  apart : ∀ r n, h.objectSize r = .ok n → ¬ r.Covers n x

/-- The cell keeps its bytes, its link unless it heads a free run, and its header but for the flags
of an object. -/
structure LeavesCell (h : Heap) (flagged : Prop) (x : Ref) (h' : Heap) : Prop where
  link : (h'.space.memory x).link = (h.space.memory x).link ∨ h'.HeadsFreeRun x
  header : (h'.space.memory x).header = (h.space.memory x).header ∨
    flagged ∧ (h.space.memory x).header.SameObject (h'.space.memory x).header
  bytes : (h'.space.memory x).bytes = (h.space.memory x).bytes

/-- The cell keeps its bytes and its link. -/
structure KeepsCell (h : Heap) (x : Ref) (h' : Heap) : Prop where
  link : (h'.space.memory x).link = (h.space.memory x).link
  bytes : (h'.space.memory x).bytes = (h.space.memory x).bytes

theorem Retains.trans {h'' : Heap} (hr : h.Retains r h') (hr' : h'.Retains r h'') : h.Retains r h'' := by
  obtain ⟨kind, bytes, hshows, hshown⟩ := hr
  obtain ⟨kind', bytes', hshows', hshown'⟩ := hr'
  obtain rfl : kind = kind' := Except.ok.inj (hshown.kind.symm.trans hshows'.kind)
  obtain rfl : bytes = bytes' := Except.ok.inj (hshown.payload.symm.trans hshows'.payload)
  exact ⟨kind, bytes, hshows, hshown'⟩

theorem Conserves.trans {h'' : Heap} (hr : h.Conserves r h') (hr' : h'.Conserves r h'') : h.Conserves r h'' := fun hlive => by
  obtain ⟨hlive', hretains'⟩ := hr' hlive
  obtain ⟨hlive, hretains⟩ := hr hlive'
  exact ⟨hlive, hretains.trans hretains'⟩

/-- A cell of an object heads no free run. -/
theorem LeavesCell.keeps {p : Prop} {n : Nat} (hl : h.LeavesCell p x h') (hn : h'.objectSize r = .ok n)
    (hcovers : r.Covers n x) : h.KeepsCell x h' where
  link := hl.link.resolve_right fun hfree => hfree.apart r n hn hcovers
  bytes := hl.bytes

/-- The cell lies in one of the objects. -/
def Occupies (h : Heap) (objects : Ref → Prop) (x : Ref) : Prop :=
  ∃ r n, objects r ∧ h.objectSize r = .ok n ∧ r.Covers n x

/-- Nothing was written but the objects of `own`, the flags of `flagged`, and the links of free runs,
and no objects were added or removed but those of `own` and `gone`. -/
structure ChangesOnly (h : Heap) (own gone flagged : Ref → Prop) (h' : Heap) : Prop where
  present : ∀ r, ¬ own r → ¬ gone r → h'.isLive r = h.isLive r
  object : ∀ r, h.isLive r = true → h'.isLive r = true → ¬ own r → h.Retains r h'
  /-- no link is written into an object, wherever it ends -/
  body : ∀ r n x, h'.objectSize r = .ok n → ¬ own r → r.Covers n x → (h'.space.arena? x.page).isSome = true →
    h.KeepsCell x h'
  cell : ∀ x, (h'.space.arena? x.page).isSome = true → ¬ h'.Occupies own x → h.LeavesCell (flagged x) x h'

theorem ChangesOnly.conserves (hc : h.ChangesOnly own gone flagged h') (hown : ¬ own r)
    (hgone : gone r → h'.isLive r = false) : h.Conserves r h' := fun hlive => by
  have hbefore := hc.present r hown fun hr => Bool.false_ne_true ((hgone hr).symm.trans hlive)
  rw [hlive] at hbefore
  exact ⟨hbefore.symm, hc.object r hbefore.symm hlive hown⟩

theorem shows_iff (hwf : h.space.Wf) (he : (h.space.slot r).entity? = some e) {bytes : Zeroed UInt8}
    (hbytes : h.space.bytesOf r = .ok bytes) :
    h.Shows r e.header.kind (bytes.read r.payloadOffset e.header.size) := by
  have hlive : h.requireLive r = .ok () := require_eq_ok_iff.2 ((Space.holds_iff hwf).2 ⟨e, he⟩)
  have hheader := Space.header_eq hwf he
  refine ⟨?_, ?_, ?_⟩
  · exact bind_eq_ok_iff.2 ⟨(), hlive, bind_eq_ok_iff.2 ⟨_, hheader, rfl⟩⟩
  · rw [Zeroed.read, List.length_map, List.length_range']
    exact bind_eq_ok_iff.2 ⟨(), hlive, bind_eq_ok_iff.2 ⟨_, hheader, rfl⟩⟩
  · refine bind_eq_ok_iff.2 ⟨(), hlive, ?_⟩
    exact bind_eq_ok_iff.2 ⟨_, hheader, bind_eq_ok_iff.2 ⟨_, hbytes, rfl⟩⟩

/-- An object whose header and payload lie in cells that were not written keeps its payload. -/
theorem retains_of_writes (hw : h.space.Writes own flagged h'.space) (hwf : h.space.Wf) (hwf' : h'.space.Wf)
    (hr : h.isLive r = true) (hr' : h'.isLive r = true) (hhead : ¬ own r)
    (hbody : ∀ x, (h'.space.slot r).entity? = some x → ∀ i, r.payloadOffset ≤ i →
      i < r.payloadOffset + x.header.size → ¬ own ⟨r.page, i / cellBytes⟩) : h.Retains r h' := by
  obtain ⟨e, he⟩ := (Space.holds_iff hwf).1 hr
  obtain ⟨x, hx⟩ := (Space.holds_iff hwf').1 hr'
  obtain ⟨hheader, bytes, bytes', hbytes, hbytes', hget⟩ := hw.reads hwf hwf' he hx hhead
  have hsame : x.header.kind = e.header.kind ∧ x.header.size = e.header.size := by
    rcases hheader with heq | ⟨-, hsame⟩
    · rw [heq]
      exact ⟨rfl, rfl⟩
    · exact hsame
  refine ⟨_, _, shows_iff hwf he hbytes, ?_⟩
  have hshows := shows_iff hwf' hx hbytes'
  rw [hsame.1, hsame.2] at hshows
  have hread : bytes'.read r.payloadOffset e.header.size = bytes.read r.payloadOffset e.header.size := by
    refine List.map_congr_left fun i hi => ?_
    obtain ⟨hge, hlt⟩ := List.mem_range'_1.1 hi
    exact hget i (hbody x hx i hge (hsame.2 ▸ hlt))
  rw [hread] at hshows
  exact hshows

/-- A cell outside of what was written. -/
theorem leavesCell_of_writes (hw : h.space.Writes own flagged h'.space) (hwf : h.space.Wf) (hwf' : h'.space.Wf)
    (hx : (h'.space.arena? x.page).isSome = true) (hnot : ¬ own x) : h.LeavesCell (flagged x) x h' := by
  obtain ⟨a', ha'⟩ := Option.isSome_iff_exists.1 hx
  obtain ⟨a, hor, hwrites⟩ := hw.arena_before hwf hwf' ha'
  have hmemory : h.space.memory x = a.memory x.cell := by
    rcases hor with ha | ⟨hnone, i, rfl⟩
    · exact Space.memory_eq ha
    · rw [Arena.memory_new, Space.memory, hnone]
      rfl
  obtain ⟨i, hi, hp⟩ := (Space.arena?_eq_some hwf').1 ha'
  refine { link := ?_, header := ?_, bytes := ?_ } <;> rw [hmemory, Space.memory_eq ha']
  · refine (hwrites.link x.cell).imp_right fun ⟨hholds, hfree⟩ => ⟨hholds, ?_, fun r n hn hcovers => ?_⟩
    · have hsmall : ¬ x.isHuge = true := fun hhuge => by
        have hge := hholds.1
        rw [beq_iff_eq.1 hhuge, firstCell_eq] at hge
        exact absurd hge (by decide)
      rw [Space.cellState, if_neg hsmall]
      refine bind_eq_ok_iff.2 ⟨a', Space.arenaOf_eq hwf' ha', ?_⟩
      refine bind_eq_ok_iff.2 ⟨(), require_eq_ok_iff.2 hholds.2, ?_⟩
      rw [hfree.1, hfree.2]
      rfl
    · obtain ⟨e, he, rfl⟩ := (objectSize_eq_ok_iff hwf').1 hn
      refine Space.not_covers_of_isFree hwf' hi hfree hholds he ?_
      rw [hp]
      exact hcovers
  · exact (hwrites.header x.cell).imp_right fun hor => hor.resolve_left hnot
  · refine List.map_congr_left fun i hi => (hwrites.byte i).resolve_right ?_
    obtain ⟨hge, hlt⟩ := List.mem_range'_1.1 hi
    have hcell : i / cellBytes = x.cell := by
      simp only [cellBytes] at hge hlt ⊢
      omega
    rw [hcell]
    exact hnot

/-- An operation that writes no object. -/
theorem ChangesOnly.of_flags (hw : h.space.Writes Space.nowhere flagged h'.space)
    (hkeeps : Space.KeepsObjects gone h.space h'.space) (hwf : h.space.Wf) (hwf' : h'.space.Wf) :
    h.ChangesOnly own gone flagged h' where
  present _ _ hr := isLive_eq hwf hwf' hkeeps hr
  object _ hr hr' _ := retains_of_writes hw hwf hwf' hr hr' id fun _ _ _ _ _ => id
  body _ _ _ hn _ hcovers hx := (leavesCell_of_writes hw hwf hwf' hx id).keeps hn hcovers
  cell _ hx _ := leavesCell_of_writes hw hwf hwf' hx id

/-- An operation that does nothing. -/
theorem ChangesOnly.refl (hwf : h.space.Wf) : h.ChangesOnly own gone flagged h :=
  .of_flags (Space.Amends.refl h.space).writes (.refl h.space) hwf hwf

theorem Conserves.refl (hwf : h.space.Wf) : h.Conserves r h :=
  (ChangesOnly.refl hwf : h.ChangesOnly Space.nowhere Space.nowhere Space.nowhere h).conserves id False.elim

end Heap

end Tricolor
