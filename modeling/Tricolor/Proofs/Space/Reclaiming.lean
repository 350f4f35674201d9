import Tricolor.Proofs.Space.Placement
import Tricolor.Space.Reclaiming

/-!
# Reclaiming memory in a space

To begin a sweep is to let every object await it; sweeping an arena or the huge blocks settles
the objects there, and releasing spare arenas is not seen in any slot.
-/

namespace Tricolor

namespace Space

variable {s s' : Space} {r t : Ref} {e : Entity} {a : Arena} {i : Nat}

/-- An object of an arena awaits the sweep that its arena awaits. -/
theorem awaits_small (h : s.Wf) (hr : r.isHuge = false) (he : (s.slot r).entity? = some e) :
    ∃ i, s.AtIndex i r ∧ i < s.arenas.size ∧ e.awaits = s.unswept i := by
  obtain ⟨a, ha, hslot⟩ := exists_arena hr he
  obtain ⟨i, hi, hp⟩ := (arena?_eq_some h).1 ha
  rw [hslot] at he
  refine ⟨i, ⟨hr, h.indices.2 ⟨a, hi, hp⟩⟩, (Array.getElem?_eq_some_iff.1 hi).1, ?_⟩
  rw [(Arena.eq_entityOf he).2.2.1, unswept, hi]
  rfl

theorem awaits_huge (hr : r.isHuge = true) (he : (s.slot r).entity? = some e) :
    e.awaits = s.hugeNeedsSweep := by
  obtain ⟨b, -, rfl⟩ := exists_entry hr he
  rfl

/-- Where nothing is flagged, no object awaits a sweep. -/
theorem awaits_eq_false (h : s.Wf) (hhuge : s.hugeNeedsSweep = false) (harenas : ∀ i, s.unswept i = false)
    (he : (s.slot r).entity? = some e) : e.awaits = false := by
  cases hr : r.isHuge with
  | true => rw [awaits_huge hr he, hhuge]
  | false =>
    obtain ⟨i, -, -, haw⟩ := awaits_small h hr he
    rw [haw, harenas i]

/-! ## Beginning a sweep -/

theorem slot_beginSweep_arena (ha : a.Sound) (b : Bool) :
    Arena.Sound { a with needsSweep := b } ∧
      ∀ c, Arena.slot { a with needsSweep := b } c =
        (a.slot c).mapEntity fun e => { e with awaits := b } := by
  refine ⟨⟨ha.tiled.setNeedsSweep b, ha.register, ha.nodup⟩, fun c => Slot.ext ?_ rfl rfl rfl rfl⟩
  show Arena.entity? { a with needsSweep := b } c = (a.entity? c).map _
  by_cases hc : a.isAllocated c = true
  · rw [Arena.entity?_of_allocated hc,
      Arena.entity?_of_allocated (a := { a with needsSweep := b }) hc]
    rfl
  · rw [Bool.not_eq_true] at hc
    rw [Arena.entity?_of_not_allocated hc,
      Arena.entity?_of_not_allocated (a := { a with needsSweep := b }) hc]
    rfl

/-- The arenas as a sweep finds them: those with objects are flagged. -/
def flagged (arena : Arena) : Arena :=
  if arena.isEmpty then arena else { arena with needsSweep := true }

theorem used_flagged (a : Arena) : (flagged a).used = a.used := by
  rw [flagged]
  split <;> rfl

theorem stays_flagged (ha : a.Tiled) : a.Stays (flagged a) := by
  rw [flagged]
  split
  · exact .refl ha
  · exact ⟨rfl, rfl, ha.setNeedsSweep true⟩

/-- The arenas stay where they are when a sweep begins. -/
theorem Indexed.beginSweep (h : s.Indexed) : s.beginSweep.Indexed := by
  refine h.of_stays rfl rfl Array.size_map fun i a ha => ⟨flagged a, ?_, stays_flagged (h.tiled ha)⟩
  show (s.arenas.map flagged)[i]? = _
  rw [Array.getElem?_map, ha]
  rfl

theorem slot_flagged (ha : a.Sound) : (flagged a).Sound ∧
    ∀ c, (flagged a).slot c = (a.slot c).mapEntity fun e => { e with awaits := true } := by
  rw [flagged]
  split
  · next hempty =>
    refine ⟨ha, fun c => Slot.ext ?_ rfl rfl rfl rfl⟩
    obtain ⟨chains, h⟩ := ha.tiled
    show a.entity? c = (a.entity? c).map _
    rw [Arena.entity?_of_not_allocated (h.empty hempty c)]
    rfl
  · exact slot_beginSweep_arena ha true

/-- Beginning a sweep lets every object await it. -/
theorem beginSweep_spec (h : s.Wf) :
    s.beginSweep.Wf ∧ s.beginSweep.hugeNeedsSweep = true ∧
      ∀ t, s.beginSweep.slot t = (s.slot t).mapEntity fun e => { e with awaits := true } := by
  have harenas : s.beginSweep.arenas = s.arenas.map flagged := rfl
  have hinv : ∀ {j : Nat} {b : Arena}, s.beginSweep.arenas[j]? = some b →
      ∃ a, s.arenas[j]? = some a ∧ b = flagged a := by
    intro j b hb
    rw [harenas, Array.getElem?_map] at hb
    obtain ⟨a, ha, rfl⟩ := Option.map_eq_some_iff.1 hb
    exact ⟨a, ha, rfl⟩
  refine ⟨AltersArenas.wf
    { indexed := h.indexed.beginSweep
      sound := fun hb => ?_
      zero := fun hb => ?_
      apart := h.apart
      total := ?_
      total_lt := h.total_lt } h, rfl, fun t => ?_⟩
  · obtain ⟨a, ha, rfl⟩ := hinv hb
    exact (slot_flagged (h.sound ha)).1
  · obtain ⟨a, ha, rfl⟩ := hinv hb
    rw [(slot_flagged (h.sound ha)).2, h.zero ha]
    rfl
  · rw [harenas, Array.toList_map, List.map_map]
    have hused : Arena.usedBytes ∘ flagged = Arena.usedBytes := by
      funext a
      rw [Function.comp_apply, Arena.usedBytes, Arena.usedBytes, used_flagged]
    rw [hused]
    exact h.total
  · cases ht : t.isHuge with
    | true =>
      rw [slot_of_isHuge ht, slot_of_isHuge ht]
      refine Slot.ext ?_ rfl rfl rfl rfl
      show (s.blocks.entryOf? t.page).map _ = ((s.blocks.entryOf? t.page).map s.entityOf).map _
      rw [Option.map_map]
      rfl
    | false =>
      rw [slot_of_not_isHuge ht, slot_of_not_isHuge ht, arena?, arena?]
      show ((s.indices[t.page]?).bind ((s.arenas.map flagged)[·]?)).elim _ _ = _
      cases hj : s.indices[t.page]? with
      | none => rfl
      | some j =>
        obtain ⟨a, ha, -⟩ := h.indices.1 hj
        rw [Option.bind_some, Option.bind_some, Array.getElem?_map, ha]
        exact (slot_flagged (h.sound ha)).2 t.cell

/-! ## Sweeping -/

/-- A space can be swept: nothing is queued, and whatever is listed survives. -/
structure Sweepable (s : Space) : Prop where
  quiet : ∀ t, ¬ (s.slot t).queued
  listed : ∀ t, (s.slot t).fixed ∨ (s.slot t).idle ∨ (s.slot t).pending →
    ∃ e, (s.slot t).entity? = some e ∧ e.survives = true

/-- What is left at a place once it was swept. -/
def settled (v : Slot) : Slot := { v with entity? := v.entity?.bind Entity.settle }

/-- Every cell of an arena has its slot in the space, but for cell 0, of which nothing is
recorded. -/
theorem slot_cell (h : s.Wf) (ha : s.arenas[i]? = some a) (c : Nat) :
    a.slot c = .blank ∨ s.AtIndex i (a.object c) ∧ s.slot (a.object c) = a.slot c := by
  by_cases hc : c = 0
  · rw [hc]
    exact .inl (h.zero ha)
  · have hat : s.AtIndex i (a.object c) :=
      (atIndex_iff h ha).2 ⟨by rw [Ref.isHuge, beq_eq_false_iff_ne]; exact hc, rfl⟩
    exact .inr ⟨hat, slot_atIndex h ha hat⟩

/-- The total counts the bytes in use of each arena. -/
theorem Wf.usedBytes_le (h : s.Wf) (ha : s.arenas[i]? = some a) : a.usedBytes ≤ s.total := by
  have htotal := h.total
  have hle := List.single_le_sum (l := s.arenas.toList.map Arena.usedBytes) (fun _ _ => Nat.zero_le _)
    a.usedBytes (List.mem_map.2 ⟨a, Array.mem_toList_iff.2 (Array.mem_of_getElem? ha), rfl⟩)
  omega

/-- The bytes that the sweep of an arena reclaims are subtracted from the total. -/
theorem sweepArena_eq {a' : Arena} (ha : s.arenas[i]? = some a) (hsweep : a.sweep = .ok a')
    (hle : a'.usedBytes ≤ a.usedBytes) :
    s.sweepArena i = do
      let total ← checkedSub s.total (a.usedBytes - a'.usedBytes)
      return (a.usedBytes - a'.usedBytes, { s with arenas := s.arenas.setIfInBounds i a', total }) := by
  have hupdate : (s.updateArena i fun arena => do
      let before := arena.usedBytes
      let arena ← arena.sweep
      return (← checkedSub before arena.usedBytes, arena)) =
        .ok (a.usedBytes - a'.usedBytes, { s with arenas := s.arenas.setIfInBounds i a' }) :=
    updateArena_eq_ok_iff'.2 ⟨a, a', ha, bind_eq_ok_iff.2 ⟨a', hsweep, bind_eq_ok_iff.2
      ⟨_, checkedSub_eq_ok_iff.2 ⟨hle, rfl⟩, rfl⟩⟩, rfl⟩
  rw [sweepArena, hupdate]
  simp only [shrink, bind, Except.bind]
  cases checkedSub s.total (a.usedBytes - a'.usedBytes) <;> rfl

/-- A swept arena is not swept again. -/
theorem sweepArena_settled (ha : s.arenas[i]? = some a) (hn : a.needsSweep = false) :
    s.sweepArena i = .ok (0, s) := by
  have hkept : a.sweep = .ok a := by
    rw [Arena.sweep, hn]
    rfl
  rw [sweepArena_eq ha hkept le_rfl, Nat.sub_self]
  exact bind_eq_ok_iff.2 ⟨s.total, checkedSub_eq_ok_iff.2 ⟨Nat.zero_le _, rfl⟩,
    congrArg (fun s => Except.ok (0, s)) (setArena_self ha)⟩

/-- No object of an arena is queued when it may be swept. -/
theorem Sweepable.grey_isEmpty (hs : s.Sweepable) (h : s.Wf) (ha : s.arenas[i]? = some a) :
    a.grey.isEmpty = true := by
  rw [GreyStack.isEmpty, Array.isEmpty_iff, Array.eq_empty_iff_forall_not_mem]
  intro c hc
  have hq : (a.slot c).queued := hc
  rcases slot_cell h ha c with hblank | ⟨-, hslot⟩
  · rw [hblank] at hq
    exact hq
  · rw [← hslot] at hq
    exact hs.quiet _ hq

/-- Whatever is listed in an arena that awaits its sweep is marked. -/
theorem Sweepable.marked (hs : s.Sweepable) (h : s.Wf) (ha : s.arenas[i]? = some a) (hn : a.needsSweep = true)
    {c : Nat} (hor : (a.slot c).fixed ∨ (a.slot c).idle ∨ (a.slot c).pending) :
    a.isAllocated c = true ∧ a.mark.get c = true := by
  rcases slot_cell h ha c with hblank | ⟨-, hslot⟩
  · rw [hblank] at hor
    exact (hor.elim id fun hor => hor.elim id id).elim
  · rw [← hslot] at hor
    obtain ⟨e, he, hsurvives⟩ := hs.listed _ hor
    rw [hslot] at he
    obtain ⟨-, hm, haw, -⟩ := Arena.eq_entityOf he
    rw [Entity.survives, hm, haw, hn, Bool.not_true, Bool.or_false] at hsurvives
    exact ⟨Arena.isAllocated_of_entity? he, hsurvives⟩

/-- An arena with a registered object has a marked one, if it awaits its sweep. -/
theorem Sweepable.finalizers_isEmpty (hs : s.Sweepable) (h : s.Wf) (ha : s.arenas[i]? = some a)
    (hn : a.needsSweep = true) (hnone : ∀ c, a.isAllocated c = true → a.mark.get c = false) :
    a.finalizers.isEmpty = true := by
  rw [FinalizerRegister.Wf.isEmpty_iff (h.sound ha).register]
  refine List.eq_nil_iff_forall_not_mem.2 fun x hc => ?_
  obtain ⟨c, pending⟩ := x
  have hor : (a.slot c).idle ∨ (a.slot c).pending := by
    cases pending with
    | true => exact .inr hc
    | false => exact .inl hc
  obtain ⟨halloc, hm⟩ := hs.marked h ha hn (.inr hor)
  rw [hnone c halloc] at hm
  cases hm

/-- Sweeping an arena settles its objects, if it awaits its sweep. -/
theorem sweepArena_spec (h : s.Wf) (hs : s.Sweepable) (hi : i < s.arenas.size) :
    ∃ freed s', s.sweepArena i = .ok (freed, s') ∧ s'.Wf ∧ s'.arenas.size = s.arenas.size ∧
      s'.hugeNeedsSweep = s.hugeNeedsSweep ∧
      (∀ j, s'.unswept j = if i = j then false else s.unswept j) ∧
      (∀ t, s.AtIndex i t → s.unswept i = true → s'.slot t = settled (s.slot t)) ∧
      ∀ t, ¬ (s.AtIndex i t ∧ s.unswept i = true) → s'.slot t = s.slot t := by
  obtain ⟨a, ha⟩ : ∃ a, s.arenas[i]? = some a := ⟨_, Array.getElem?_eq_getElem hi⟩
  have hflag : s.unswept i = a.needsSweep := by rw [unswept, ha]; rfl
  cases hn : a.needsSweep with
  | false =>
    refine ⟨0, s, sweepArena_settled ha hn, h, rfl, rfl, fun j => ?_, fun t _ hu => ?_, fun _ _ => rfl⟩
    · split
      · next heq => rw [← heq, hflag, hn]
      · rfl
    · rw [hflag, hn] at hu
      cases hu
  | true =>
    obtain ⟨a', hsweep, hswept⟩ := Arena.sweep_spec (h.sound ha).tiled hn (hs.grey_isEmpty h ha)
      (hs.finalizers_isEmpty h ha hn)
    obtain ⟨hsound, hslotA⟩ := Arena.slot_swept (h.sound ha) hswept
      fun c hc => hs.marked h ha hn (.inl hc)
    have hle := hswept.used_le (h.sound ha).tiled
    have hbytes : a'.usedBytes ≤ a.usedBytes := Nat.mul_le_mul_right _ hle
    have htotal := h.usedBytes_le ha
    have hzero : a'.slot 0 = .blank := by
      rw [hslotA, h.zero ha]
      rfl
    have hslot := @slot_setArena s a a' i h ha (s.total - (a.usedBytes - a'.usedBytes))
    refine ⟨a.usedBytes - a'.usedBytes,
      { s with
        arenas := s.arenas.setIfInBounds i a'
        total := s.total - (a.usedBytes - a'.usedBytes) }, ?_, ?_, Array.size_setIfInBounds, rfl,
      fun j => ?_, fun t hat _ => ?_, fun t hnot => ?_⟩
    · rw [sweepArena_eq ha hsweep hbytes]
      exact bind_eq_ok_iff.2 ⟨_, checkedSub_eq_ok_iff.2 ⟨by omega, rfl⟩, rfl⟩
    · exact h.setArena ha hsound hzero hswept.keeps.page hswept.keeps.index (by omega)
        (lt_of_le_of_lt (Nat.sub_le _ _) h.total_lt)
    · rw [unswept_setArena ha, hswept.needsSweep]
    · rw [hslot, if_pos ((atIndex_iff h ha).1 hat), hslotA, slot_atIndex h ha hat]
      rfl
    · rw [hslot, if_neg fun hand => hnot ⟨(atIndex_iff h ha).2 hand, by rw [hflag, hn]⟩]

/-- A sum that stays in its range. -/
theorem foldlM_checkedAdd {α : Type} (f : α → Nat) (range : Nat) :
    ∀ (l : List α) (n : Nat), n + (l.map f).sum < range →
      l.foldlM (fun n x => checkedAdd range n (f x)) n = .ok (n + (l.map f).sum) := by
  intro l
  induction l with
  | nil => exact fun n _ => rfl
  | cons x rest ih =>
    intro n hlt
    rw [List.map_cons, List.sum_cons] at hlt ⊢
    rw [List.foldlM_cons]
    refine bind_eq_ok_iff.2 ⟨n + f x, checkedAdd_eq_ok_iff.2 ⟨by omega, rfl⟩, ?_⟩
    rw [ih (n + f x) (by omega), Nat.add_assoc]

/-- Erasing the contents of several blocks. -/
theorem getElem?_foldl_erase (pages : List BlockEntry) :
    ∀ (contents : Std.TreeMap Page HugeBlock) (p : Page),
      (pages.foldl (fun contents e => contents.erase e.page) contents)[p]? =
        if ∃ e ∈ pages, e.page = p then none else contents[p]? := by
  induction pages with
  | nil =>
    intro contents p
    rw [List.foldl_nil, if_neg]
    rintro ⟨e, he, -⟩
    exact List.not_mem_nil he
  | cons e rest ih =>
    intro contents p
    have hiff : (∃ x ∈ e :: rest, x.page = p) ↔ e.page = p ∨ ∃ x ∈ rest, x.page = p :=
      List.exists_mem_cons_iff ..
    rw [List.foldl_cons, ih, getElem?_erase]
    simp only [hiff]
    by_cases hep : e.page = p
    · simp only [hep, true_or, if_true, ite_self]
    · simp only [hep, false_or, if_false]

/-- The table and the contents of the huge blocks after their sweep. -/
structure BlocksSwept (s : Space) (blocks : BlockTable) (contents : Std.TreeMap Page HugeBlock) : Prop where
  wf : blocks.Wf
  entry : ∀ p, blocks.entryOf? p = (s.blocks.entryOf? p).bind BlockTable.swept
  contents : ∀ p, contents[p]? =
    if ∃ b, s.blocks.entryOf? p = some b ∧ BlockTable.swept b = none then none else s.contents[p]?

namespace BlocksSwept

variable {blocks : BlockTable} {contents : Std.TreeMap Page HugeBlock} {p : Page} {b : BlockEntry}

/-- A block that is left was registered with its mark set. -/
theorem entry_eq_some (hb : s.BlocksSwept blocks contents) (h : blocks.entryOf? p = some b) :
    ∃ b', s.blocks.entryOf? p = some b' ∧ b'.flags.isMarked = true ∧ b = { b' with flags := 0 } := by
  rw [hb.entry] at h
  obtain ⟨b', hb', hswept⟩ := Option.bind_eq_some_iff.1 h
  exact ⟨b', hb', BlockTable.swept_eq_some_iff.1 hswept⟩

/-- The contents of a block that is left stay. -/
theorem contents_of_marked (hb : s.BlocksSwept blocks contents) (he : s.blocks.entryOf? p = some b)
    (hm : b.flags.isMarked = true) : contents[p]? = s.contents[p]? := by
  rw [hb.contents, if_neg]
  rintro ⟨b', hb', hswept⟩
  cases he.symm.trans hb'
  rw [BlockTable.swept_eq_none_iff, hm] at hswept
  cases hswept

/-- The blocks that are left are those with contents. -/
theorem isSome_contents (hb : s.BlocksSwept blocks contents) (h : s.Wf) (p : Page) :
    (contents[p]?).isSome = (blocks.entryOf? p).isSome := by
  cases he : s.blocks.entryOf? p with
  | none =>
    rw [hb.contents, hb.entry, he, if_neg (fun ⟨_, hx, _⟩ => by cases hx), h.contents, he]
    rfl
  | some b =>
    cases hm : b.flags.isMarked with
    | true =>
      rw [hb.contents_of_marked he hm, h.contents, hb.entry, he, Option.bind_some,
        BlockTable.swept_eq_some_iff.2 ⟨hm, rfl⟩]
      rfl
    | false =>
      rw [hb.contents, if_pos ⟨b, he, BlockTable.swept_eq_none_iff.2 hm⟩, hb.entry, he, Option.bind_some,
        BlockTable.swept_eq_none_iff.2 hm]
      rfl

/-- The space is well-formed after the sweep of its blocks, none of which is queued. -/
theorem wf_space (hb : s.BlocksSwept blocks contents) (h : s.Wf) (hquiet : s.hugeGrey = #[]) {total : Nat}
    (htotal : total = (s.arenas.toList.map Arena.usedBytes).sum + blocks.bytes) (hle : total ≤ s.total) :
    Wf { s with blocks, contents, hugeNeedsSweep := false, total } where
  sound := h.sound
  index := h.index
  page_lt := h.page_lt
  zero := h.zero
  indices := h.indices
  current := h.current
  blocks := hb.wf
  contents := hb.isSome_contents h
  sizes := fun {p b} he => by
    obtain ⟨b', hb', -, rfl⟩ := hb.entry_eq_some he
    have hsize := h.sizes hb'
    exact hsize
  grey := fun {p} => by
    refine ⟨fun hp => absurd (hquiet ▸ hp) (Array.not_mem_empty p), ?_⟩
    rintro ⟨b, he, hg⟩
    obtain ⟨b', -, -, rfl⟩ := hb.entry_eq_some he
    have hzero : (0 : BlockFlags).isGrey = false := by decide
    exact absurd (hzero.symm.trans hg) Bool.false_ne_true
  greyNodup := h.greyNodup
  registered := h.registered
  apart := fun {p b q} he hq => by
    obtain ⟨b', hb', -, rfl⟩ := hb.entry_eq_some he
    exact h.apart hb' hq
  apartBlocks := fun {p p' b b' q} he he' hq hq' => by
    obtain ⟨_, hx, -, rfl⟩ := hb.entry_eq_some he
    obtain ⟨_, hx', -, rfl⟩ := hb.entry_eq_some he'
    exact h.apartBlocks hx hx' hq hq'
  total := htotal
  total_lt := lt_of_le_of_lt hle h.total_lt

/-- The object of a block is settled by the sweep. -/
theorem entityOf_swept (hb : s.BlocksSwept blocks contents) (h : s.Wf) (he : s.blocks.entryOf? p = some b)
    (total : Nat) : (BlockTable.swept b).map
      (entityOf { s with blocks, contents, hugeNeedsSweep := false, total }) = (s.entityOf b).settle := by
  rw [Entity.settle]
  show _ = if b.flags.isMarked = true then _ else none
  by_cases hm : b.flags.isMarked = true
  · rw [if_pos hm, BlockTable.swept_eq_some_iff.2 ⟨hm, rfl⟩, Option.map_some]
    have hblock : blockAt { s with blocks, contents, hugeNeedsSweep := false, total } b.page =
        s.blockAt b.page := by
      rw [(page_ne_zero h he).2]
      exact congrArg (Option.getD · default) (hb.contents_of_marked he hm)
    have hzero : (0 : BlockFlags).isMarked = false := by decide
    simp only [entityOf, hblock, hzero]
  · rw [if_neg hm, BlockTable.swept_eq_none_iff.2 (Bool.not_eq_true _ ▸ hm), Option.map_none]

/-- The slots of the blocks are settled by the sweep, and the others stay. -/
theorem slot_swept (hb : s.BlocksSwept blocks contents) (h : s.Wf) (total : Nat) (t : Ref) :
    slot { s with blocks, contents, hugeNeedsSweep := false, total } t =
      if t.isHuge then settled (s.slot t) else s.slot t := by
  cases ht : t.isHuge with
  | false =>
    rw [if_neg Bool.false_ne_true, slot_of_not_isHuge ht, slot_of_not_isHuge ht]
    rfl
  | true =>
    rw [if_pos rfl, slot_of_isHuge ht, slot_of_isHuge ht]
    refine Slot.ext ?_ rfl rfl rfl rfl
    show (blocks.entryOf? t.page).map _ = ((s.blocks.entryOf? t.page).map s.entityOf).bind _
    rw [hb.entry]
    cases he : s.blocks.entryOf? t.page with
    | none => rfl
    | some b => exact hb.entityOf_swept h he total

end BlocksSwept

/-- Sweeping the huge blocks settles them. -/
theorem sweepHuge_spec (h : s.Wf) (hs : s.Sweepable) :
    ∃ freed s', s.sweepHuge = .ok (freed, s') ∧ s'.Wf ∧ s'.arenas = s.arenas ∧ s'.indices = s.indices ∧
      s'.hugeNeedsSweep = false ∧
      ∀ t, s'.slot t = if t.isHuge then settled (s.slot t) else s.slot t := by
  have hquiet : s.hugeGrey = #[] := by
    rw [Array.eq_empty_iff_forall_not_mem]
    exact fun p hp => hs.quiet (.huge p) hp
  obtain ⟨dead, blocks, hsweep, hwf, rfl, hbytes, hperm⟩ := BlockTable.sweep_spec h.blocks
  set dead := s.blocks.entries.filter (!·.flags.isMarked)
  have htotal := h.total
  have hsum : (dead.map BlockEntry.size).sum ≤ s.total := by omega
  have hrest : s.total - (dead.map BlockEntry.size).sum =
      (s.arenas.toList.map Arena.usedBytes).sum + blocks.bytes := by omega
  have hadd := foldlM_checkedAdd BlockEntry.size wordRange dead 0
    (by rw [Nat.zero_add]; exact lt_of_le_of_lt hsum h.total_lt)
  rw [Nat.zero_add] at hadd
  have hswept : s.BlocksSwept blocks (dead.foldl (fun contents e => contents.erase e.page) s.contents) :=
    { wf := hwf
      entry := BlockTable.entryOf?_swept h.blocks hwf hperm
      contents := fun p => by
        rw [getElem?_foldl_erase]
        simp only [dead, BlockTable.exists_dead_iff h.blocks] }
  refine ⟨(dead.map BlockEntry.size).sum, _, ?_, hswept.wf_space h hquiet hrest (Nat.sub_le _ _),
    rfl, rfl, rfl, hswept.slot_swept h _⟩
  rw [sweepHuge]
  refine bind_eq_ok_iff.2 ⟨(), require_eq_ok_iff.2 (by rw [hquiet]; rfl), bind_eq_ok_iff.2 ⟨(dead, blocks),
    hsweep, bind_eq_ok_iff.2 ⟨_, hadd, bind_eq_ok_iff.2 ⟨_, ?_, rfl⟩⟩⟩⟩
  exact bind_eq_ok_iff.2 ⟨_, checkedSub_eq_ok_iff.2 ⟨hsum, rfl⟩, rfl⟩

end Space

end Tricolor
