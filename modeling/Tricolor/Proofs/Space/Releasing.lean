import Tricolor.Proofs.Space.Reclaiming

/-!
# Releasing arenas

An arena without objects can be given up, and the last arena takes its index. No slot shows
it: nothing is recorded of the cells of an empty arena, and the index of an arena is stored
where no cell heads an object.
-/

namespace Tricolor

namespace Arena

variable {a : Arena}

/-- The arena is the same but for the words that no cell of an object has: it may have another index. -/
def Renumbered (a a' : Arena) : Prop :=
  ∃ block : Bitmap, (∀ c, firstCell ≤ c → block.get c = a.block.get c) ∧ a' = { a with block }

namespace Renumbered

variable {a' a'' : Arena} {c : Nat}

theorem refl (a : Arena) : a.Renumbered a := ⟨a.block, fun _ _ => rfl, rfl⟩

theorem trans (h : a.Renumbered a') (h' : a'.Renumbered a'') : a.Renumbered a'' := by
  obtain ⟨block, hblock, rfl⟩ := h
  obtain ⟨block', hblock', rfl⟩ := h'
  exact ⟨block', fun c hc => (hblock' c hc).trans (hblock c hc), rfl⟩

theorem page (h : a.Renumbered a') : a'.page = a.page := by
  obtain ⟨block, -, rfl⟩ := h
  rfl

theorem isEmpty (h : a.Renumbered a') : a'.isEmpty = a.isEmpty := by
  obtain ⟨block, -, rfl⟩ := h
  rfl

theorem needsSweep (h : a.Renumbered a') : a'.needsSweep = a.needsSweep := by
  obtain ⟨block, -, rfl⟩ := h
  rfl

theorem isAllocated (h : a.Renumbered a') (c : Nat) : a'.isAllocated c = a.isAllocated c := by
  obtain ⟨block, hblock, rfl⟩ := h
  rw [Bool.eq_iff_iff, isAllocated_iff, isAllocated_iff]
  constructor
  · rintro ⟨hc, htop, hget⟩
    exact ⟨hc, htop, (hblock c hc).symm.trans hget⟩
  · rintro ⟨hc, htop, hget⟩
    exact ⟨hc, htop, (hblock c hc).trans hget⟩

theorem isBoundary (h : a.Renumbered a') (hc : firstCell ≤ c) : a'.isBoundary c = a.isBoundary c := by
  obtain ⟨block, hblock, rfl⟩ := h
  rw [Arena.isBoundary, hblock c hc]
  rfl

theorem stretch (h : a.Renumbered a') (hc : firstCell ≤ c) (stop : Nat) :
    Stretch a'.isBoundary a.top c stop ↔ Stretch a.isBoundary a.top c stop :=
  ⟨fun hs => hs.congr fun _ hd _ _ => (h.isBoundary (hc.trans hd)).symm,
    fun hs => hs.congr fun _ hd _ _ => h.isBoundary (hc.trans hd)⟩

/-- Objects keep their lengths. -/
theorem extent (h : a.Renumbered a') (ha : a.Tiled) (hc : a.isAllocated c = true) : a'.extent c = a.extent c := by
  obtain ⟨chains, htiled⟩ := ha
  obtain ⟨hge, hlt, -⟩ := isAllocated_iff.1 hc
  have hstretch := (h.stretch (Nat.le_succ_of_le hge) _).2 (stretch_extent htiled.top_le hlt)
  obtain ⟨block, -, rfl⟩ := h
  exact extent_eq_of_stretch (a := { a with block }) htiled.top_le hlt hstretch

theorem tiled (h : a.Renumbered a') (ha : a.Tiled) : a'.Tiled := by
  obtain ⟨chains, htiled⟩ := ha
  have hbound := fun c (hc : firstCell ≤ c) => h.isBoundary hc
  have hstretch := fun c n (hc : firstCell ≤ c) => h.stretch (Nat.le_succ_of_le hc) (c + n)
  have halloc := h.isAllocated
  obtain ⟨block, hblock, rfl⟩ := h
  exact ⟨chains,
    { top_ge := htiled.top_ge
      top_le := htiled.top_le
      blank := fun c hc hlt => (hbound c (htiled.top_ge.trans hc)).trans (htiled.blank c hc hlt)
      first := fun hlt => (hbound _ le_rfl).trans (htiled.first hlt)
      represents := htiled.represents
      nodup := htiled.nodup
      listed := fun c n => by
        refine (htiled.listed c n).trans (and_congr_right fun hc => and_congr_right fun _ => ?_)
        rw [hblock c hc]
        exact and_congr_right fun _ => and_congr_right fun _ => (hstretch c n hc).symm
      used := htiled.used
      hint := htiled.hint
      empty := fun hempty c => (halloc c).trans (htiled.empty hempty c) }⟩

/-- The index of an arena is not seen in its slots. -/
theorem slot (h : a.Renumbered a') (ha : a.Tiled) : a'.slot = a.slot := by
  funext c
  have hentity : a'.entity? c = a.entity? c := by
    cases hc : a.isAllocated c with
    | false => rw [entity?_of_not_allocated hc, entity?_of_not_allocated ((h.isAllocated c).trans hc)]
    | true =>
      rw [entity?_of_allocated hc, entity?_of_allocated ((h.isAllocated c).trans hc), h.extent ha hc]
      obtain ⟨block, -, rfl⟩ := h
      rfl
  obtain ⟨block, -, rfl⟩ := h
  exact Slot.ext hentity rfl rfl rfl rfl

theorem sound (h : a.Renumbered a') (ha : a.Sound) : a'.Sound := by
  have htiled := h.tiled ha.tiled
  obtain ⟨block, -, rfl⟩ := h
  exact ⟨htiled, ha.register, ha.nodup⟩

end Renumbered

/-- The index of an arena is stored where no cell heads an object. -/
theorem renumbered_setIndex (a : Arena) (index : Nat) : a.Renumbered (a.setIndex index) := by
  refine ⟨_, fun c hc => ?_, rfl⟩
  have hword : ¬ (0 = c / 64 ∧ 0 < bitmapWords) := by
    rw [firstCell_eq] at hc
    omega
  rw [Bitmap.get, Bitmap.word_setWord, if_neg hword]
  rfl

theorem index_setIndex (a : Arena) {index : Nat} (hindex : index ≤ pageCount) :
    (a.setIndex index).index = index := by
  have hpos : 0 < bitmapWords := by decide
  rw [Arena.index, setIndex, Bitmap.word_setWord, if_pos ⟨rfl, hpos⟩, BitVec.toNat_ofNat,
    Nat.mod_eq_of_lt (lt_of_le_of_lt hindex (by decide))]

/-- An arena that holds no object uses no cell. -/
theorem used_of_isEmpty (ha : a.Sound) (hempty : a.isEmpty = true) : a.used = 0 := by
  obtain ⟨chains, h⟩ := ha.tiled
  have hheads : a.heads = [] := List.eq_nil_iff_forall_not_mem.2 fun c hc => by
    rw [mem_heads, h.empty hempty] at hc
    cases hc
  rw [← h.sum_extent, hheads]
  rfl

end Arena

/-- Moving the last entry of a list to a place, where another was, takes that other one out. -/
theorem perm_swapRemove {α : Type} {init : List α} {x last : α} {i : Nat} (hx : (init ++ [last])[i]? = some x)
    (hi : i < init.length) : (init ++ [last]).Perm (x :: init.set i last) := by
  rw [List.getElem?_append_left hi, List.getElem?_eq_getElem hi, Option.some.injEq] at hx
  subst hx
  calc (init ++ [last]).Perm (last :: init) := List.perm_append_singleton last init
    _ |>.Perm (last :: init[i] :: init.eraseIdx i) := (List.getElem_cons_eraseIdx_perm hi).symm.cons last
    _ |>.Perm (init[i] :: last :: init.eraseIdx i) := .swap _ _ _
    _ |>.Perm (init[i] :: init.set i last) := (List.set_perm_cons_eraseIdx hi last).symm.cons _

namespace Space

variable {s s' : Space} {a : Arena} {i : Nat}

/-- The arenas that are left when one of them is removed, each at its new index. -/
theorem arenas_removeArena (ha : s.arenas[i]? = some a) {j : Nat} {b : Arena} :
    (s.removeArena i).arenas[j]? = some b ↔ j < s.arenas.size - 1 ∧
      if j = i then ∃ b', s.arenas[s.arenas.size - 1]? = some b' ∧ b = b'.setIndex i
      else s.arenas[j]? = some b := by
  have hi := (Array.getElem?_eq_some_iff.1 ha).1
  rw [removeArena, ha]
  by_cases hlast : i < s.arenas.size - 1
  · simp only [if_pos hlast]
    rw [Array.getElem?_pop, Array.size_setIfInBounds]
    by_cases hj : j < s.arenas.size - 1
    · rw [if_pos hj, and_iff_right hj, Array.getElem?_setIfInBounds]
      by_cases hji : j = i
      · have hpred : s.arenas.size - 1 < s.arenas.size := by omega
        rw [if_pos hji.symm, if_pos hji, if_pos (hji ▸ hi), Option.some.injEq,
          Array.getD_eq_getD_getElem?, Array.getElem?_eq_getElem hpred]
        exact ⟨fun hb => ⟨_, rfl, hb.symm⟩, fun ⟨b', hb', hb⟩ => by cases hb'; exact hb.symm⟩
      · rw [if_neg (Ne.symm hji), if_neg hji]
    · rw [if_neg hj]
      exact ⟨fun hb => (by cases hb), fun hb => absurd hb.1 hj⟩
  · simp only [if_neg hlast]
    rw [Array.getElem?_pop]
    by_cases hj : j < s.arenas.size - 1
    · rw [if_pos hj, and_iff_right hj, if_neg (by omega)]
    · rw [if_neg hj]
      exact ⟨fun hb => (by cases hb), fun hb => absurd hb.1 hj⟩

/-- The pages of the arenas that are left when one of them is removed. -/
theorem indices_removeArena (h : s.Indexed) (ha : s.arenas[i]? = some a) (p : Page) :
    (s.removeArena i).indices[p]? = if p = a.page then none
      else s.indices[p]?.map fun j => if j = s.arenas.size - 1 then i else j := by
  have hi := (Array.getElem?_eq_some_iff.1 ha).1
  have hpred : s.arenas.size - 1 < s.arenas.size := by omega
  have herase : ∀ q, (s.indices.erase a.page)[q]? = if a.page = q then none else s.indices[q]? := by
    intro q
    rw [Std.TreeMap.getElem?_erase]
    simp only [compare_eq_iff]
  have hpage : ∀ {j : Nat}, s.indices[a.page]? = some j → j = i := fun {j} hj => by
    rw [h.indices.2 ⟨a, ha, rfl⟩] at hj
    exact (Option.some.inj hj).symm
  by_cases hlast : i < s.arenas.size - 1
  · -- the last arena moves
    obtain ⟨b, hb⟩ : ∃ b, s.arenas[s.arenas.size - 1]? = some b :=
      ⟨_, Array.getElem?_eq_getElem hpred⟩
    have hmoved : s.indices[b.page]? = some (s.arenas.size - 1) := h.indices.2 ⟨b, hb, rfl⟩
    have hne : b.page ≠ a.page := fun heq => by
      rw [heq] at hmoved
      have := hpage hmoved
      omega
    have hindices : (s.removeArena i).indices = (s.indices.erase a.page).insert b.page i := by
      rw [removeArena, ha]
      simp only [if_pos hlast, Array.getD_eq_getD_getElem?, hb, Option.getD_some]
      rfl
    rw [hindices, Std.TreeMap.getElem?_insert]
    simp only [compare_eq_iff, herase]
    by_cases hbp : b.page = p
    · rw [if_pos hbp, if_neg (fun hpa => hne (hbp.trans hpa)), ← hbp, hmoved, Option.map_some, if_pos rfl]
    · rw [if_neg hbp]
      by_cases hpa : p = a.page
      · rw [if_pos hpa, if_pos hpa.symm]
      · rw [if_neg hpa, if_neg (Ne.symm hpa)]
        cases hj : s.indices[p]? with
        | none => rfl
        | some j =>
          rw [Option.map_some, if_neg]
          rintro rfl
          obtain ⟨b', hb', hp⟩ := h.indices.1 hj
          rw [hb] at hb'
          cases hb'
          exact hbp hp
  · have hindices : (s.removeArena i).indices = s.indices.erase a.page := by
      rw [removeArena, ha]
      simp only [if_neg hlast]
    rw [hindices, herase]
    by_cases hpa : p = a.page
    · rw [if_pos hpa, if_pos hpa.symm]
    · rw [if_neg hpa, if_neg (Ne.symm hpa)]
      cases hj : s.indices[p]? with
      | none => rfl
      | some j =>
        rw [Option.map_some, if_neg]
        rintro rfl
        obtain ⟨b, hb, hp⟩ := h.indices.1 hj
        have heq : s.arenas.size - 1 = i := by omega
        rw [heq, ha] at hb
        cases hb
        exact hpa hp.symm

theorem size_removeArena (ha : s.arenas[i]? = some a) :
    (s.removeArena i).arenas.size = s.arenas.size - 1 := by
  rw [removeArena, ha]
  by_cases hlast : i < s.arenas.size - 1
  · simp only [if_pos hlast, Array.size_pop, Array.size_setIfInBounds]
  · simp only [if_neg hlast, Array.size_pop]

/-- The arenas are the one that is removed and those that are left, as far as their indices do not matter. -/
theorem perm_removeArena {α : Type} {f : Arena → α} (hf : ∀ (a : Arena) (index : Nat), f (a.setIndex index) = f a)
    (ha : s.arenas[i]? = some a) :
    (s.arenas.toList.map f).Perm (f a :: (s.removeArena i).arenas.toList.map f) := by
  obtain ⟨hi, -⟩ := Array.getElem?_eq_some_iff.1 ha
  have hne : s.arenas.toList ≠ [] := List.ne_nil_of_length_pos (by rw [Array.length_toList]; omega)
  obtain ⟨init, b, hsplit⟩ : ∃ init b, s.arenas.toList = init ++ [b] :=
    ⟨_, _, (List.dropLast_append_getLast hne).symm⟩
  have hlength : s.arenas.size = init.length + 1 := by
    rw [← Array.length_toList, hsplit, List.length_append, List.length_singleton]
  rw [← Array.getElem?_toList, hsplit] at ha
  rw [removeArena, ← Array.getElem?_toList, hsplit, ha]
  by_cases hlast : i < s.arenas.size - 1
  · have hb : s.arenas.getD (s.arenas.size - 1) default = b := by
      rw [Array.getD_eq_getD_getElem?, ← Array.getElem?_toList, hsplit, hlength, Nat.add_sub_cancel,
        List.getElem?_concat_length, Option.getD_some]
    simp only [if_pos hlast, hb, Array.toList_pop, Array.toList_setIfInBounds, hsplit]
    rw [List.set_append_left _ _ (by omega), List.dropLast_concat, List.map_append, List.map_set, hf]
    refine perm_swapRemove ?_ (by rw [List.length_map]; omega)
    rw [← List.map_singleton, ← List.map_append, List.getElem?_map, ha, Option.map_some]
  · have hlt : i = init.length := by omega
    subst hlt
    rw [List.getElem?_concat_length, Option.some.injEq] at ha
    simp only [if_neg hlast, Array.toList_pop, hsplit, List.dropLast_concat]
    rw [List.map_append, ← ha]
    exact List.perm_append_singleton _ _

/-- Removing an arena that uses no cell leaves the bytes in use. -/
theorem sum_removeArena (ha : s.arenas[i]? = some a) (hused : a.used = 0) :
    ((s.removeArena i).arenas.toList.map Arena.usedBytes).sum = (s.arenas.toList.map Arena.usedBytes).sum := by
  rw [(perm_removeArena (f := Arena.usedBytes) (fun _ _ => rfl) ha).sum_eq, List.sum_cons, Arena.usedBytes, hused,
    Nat.zero_mul, Nat.zero_add]

/-- `s'` is `s` without some arenas of which nothing is recorded. -/
structure Relieved (s s' : Space) : Prop where
  wf : s'.Wf
  slot : s'.slot = s.slot
  hugeNeedsSweep : s'.hugeNeedsSweep = s.hugeNeedsSweep
  unswept : (∀ j, s.unswept j = false) → ∀ j, s'.unswept j = false
  total : s'.total = s.total

theorem Relieved.refl (h : s.Wf) : s.Relieved s := ⟨h, rfl, rfl, id, rfl⟩

theorem Relieved.trans {s'' : Space} (h : s.Relieved s') (h' : s'.Relieved s'') : s.Relieved s'' where
  wf := h'.wf
  slot := h'.slot.trans h.slot
  hugeNeedsSweep := h'.hugeNeedsSweep.trans h.hugeNeedsSweep
  unswept hs := h'.unswept (h.unswept hs)
  total := h'.total.trans h.total

/-- The current arena stays the current one when another arena is removed, even if it moves. -/
theorem current_removeArena (ha : s.arenas[i]? = some a) : (s.removeArena i).current =
    if i < s.arenas.size - 1 ∧ s.current = some (s.arenas.size - 1) then some i else s.current := by
  rw [removeArena, ha]
  by_cases hlast : i < s.arenas.size - 1
  · simp only [hlast, true_and, if_true]
  · simp only [hlast, false_and, if_false]

/-- Removing an arena does not touch the huge blocks. -/
theorem removeArena_eq (s : Space) (i : Nat) : s.removeArena i = { s with
    arenas := (s.removeArena i).arenas
    indices := (s.removeArena i).indices
    current := (s.removeArena i).current } := by
  rw [removeArena]
  split
  · rfl
  · simp only
    split <;> rfl

/-- An arena that is left when one is removed was there before, perhaps at another index. -/
theorem exists_of_removeArena (h : s.Indexed) (ha : s.arenas[i]? = some a) {j : Nat} {b : Arena}
    (hb : (s.removeArena i).arenas[j]? = some b) : ∃ (j' : Nat) (b' : Arena), s.arenas[j']? = some b' ∧ j' ≠ i ∧
      j = (if j' = s.arenas.size - 1 then i else j') ∧ b'.Renumbered b ∧ b.index = j := by
  have hi := (Array.getElem?_eq_some_iff.1 ha).1
  have hle := h.arenas_le_pageCount
  obtain ⟨hj, hif⟩ := (arenas_removeArena ha).1 hb
  split at hif
  · next hji =>
    obtain ⟨b', hb', rfl⟩ := hif
    exact ⟨_, b', hb', by omega, by rw [if_pos rfl, hji], b'.renumbered_setIndex i,
      (Arena.index_setIndex b' (by omega)).trans hji.symm⟩
  · next hji => exact ⟨j, b, hif, hji, by rw [if_neg (by omega)], .refl b, h.index hif⟩

/-- The other arenas are left when one is removed. -/
theorem exists_removeArena (ha : s.arenas[i]? = some a) {j : Nat} {b : Arena} (hb : s.arenas[j]? = some b)
    (hne : j ≠ i) :
    ∃ b', (s.removeArena i).arenas[if j = s.arenas.size - 1 then i else j]? = some b' ∧ b.Renumbered b' := by
  have hi := (Array.getElem?_eq_some_iff.1 ha).1
  have hj := (Array.getElem?_eq_some_iff.1 hb).1
  by_cases hlast : j = s.arenas.size - 1
  · rw [if_pos hlast]
    refine ⟨b.setIndex i, (arenas_removeArena ha).2 ⟨by omega, ?_⟩, b.renumbered_setIndex i⟩
    rw [if_pos rfl]
    exact ⟨b, hlast ▸ hb, rfl⟩
  · rw [if_neg hlast]
    refine ⟨b, (arenas_removeArena ha).2 ⟨by omega, ?_⟩, .refl b⟩
    rw [if_neg hne]
    exact hb

/-- The indices still agree when an arena other than the current one is removed. -/
theorem Indexed.removeArena (h : s.Indexed) (ha : s.arenas[i]? = some a) (hcurrent : s.current ≠ some i) :
    (s.removeArena i).Indexed where
  tiled hb := by
    obtain ⟨_, _, hb', -, -, hsame, -⟩ := exists_of_removeArena h ha hb
    exact hsame.tiled (h.tiled hb')
  index hb := by
    obtain ⟨_, _, -, -, -, -, hindex⟩ := exists_of_removeArena h ha hb
    exact hindex
  page_lt hb := by
    obtain ⟨_, _, hb', -, -, hsame, -⟩ := exists_of_removeArena h ha hb
    exact hsame.page ▸ h.page_lt hb'
  indices {p j} := by
    rw [indices_removeArena h ha]
    constructor
    · intro hj
      split at hj
      · cases hj
      · next hpa =>
        obtain ⟨j', hj', rfl⟩ := Option.map_eq_some_iff.1 hj
        obtain ⟨b', hb', rfl⟩ := h.indices.1 hj'
        obtain ⟨b, hb, hsame⟩ := exists_removeArena ha hb' fun heq => hpa ((h.page_eq_iff ha hb').2 heq)
        exact ⟨b, hb, hsame.page⟩
    · rintro ⟨b, hb, rfl⟩
      obtain ⟨j', b', hb', hne, rfl, hsame, -⟩ := exists_of_removeArena h ha hb
      rw [hsame.page, if_neg fun hpa => hne ((h.page_eq_iff ha hb').1 hpa), h.indices.2 ⟨b', hb', rfl⟩]
      rfl
  current j hj := by
    have hi := (Array.getElem?_eq_some_iff.1 ha).1
    rw [size_removeArena ha]
    rw [current_removeArena ha] at hj
    split at hj
    · next hand =>
      cases hj
      exact hand.1
    · next hnot =>
      have hlt := h.current j hj
      have hne : j ≠ i := fun heq => hcurrent (heq ▸ hj)
      have hnl : ¬ (i < s.arenas.size - 1 ∧ j = s.arenas.size - 1) := fun hand =>
        hnot ⟨hand.1, by rw [hj, hand.2]⟩
      omega

/-- Removing an arena that uses no cell alters the arenas only. -/
theorem altersArenas_removeArena (h : s.Wf) (ha : s.arenas[i]? = some a) (hused : a.used = 0)
    (hcurrent : s.current ≠ some i) : s.AltersArenas (s.removeArena i) := by
  rw [removeArena_eq]
  refine
    { indexed := (h.indexed.removeArena ha hcurrent).of_arenas rfl rfl rfl
      sound := fun hb => ?_
      zero := fun hb => ?_
      apart := fun hb hq => ?_
      total := h.total.trans (congrArg (· + s.blocks.bytes) (sum_removeArena ha hused).symm)
      total_lt := h.total_lt }
  · obtain ⟨_, _, hb', -, -, hsame, -⟩ := exists_of_removeArena h.indexed ha hb
    exact hsame.sound (h.sound hb')
  · obtain ⟨_, _, hb', -, -, hsame, -⟩ := exists_of_removeArena h.indexed ha hb
    rw [hsame.slot (h.sound hb').tiled]
    exact h.zero hb'
  · show (s.removeArena i).indices[_]? = none
    rw [indices_removeArena h.indexed ha, h.apart hb hq]
    split <;> rfl

/-- The arena at a page is the one that was there, unless that is the one that is removed. -/
theorem arena?_removeArena (h : s.Wf) (ha : s.arenas[i]? = some a) (hcurrent : s.current ≠ some i) (p : Page) :
    (∃ b b', s.arena? p = some b ∧ (s.removeArena i).arena? p = some b' ∧ b.Tiled ∧ b.Renumbered b') ∨
      (s.arena? p = none ∨ s.arena? p = some a) ∧ (s.removeArena i).arena? p = none := by
  have hindexed := h.indexed.removeArena ha hcurrent
  cases hb : (s.removeArena i).arena? p with
  | some b =>
    obtain ⟨j, hj, hp⟩ := hindexed.arena?_eq_some.1 hb
    obtain ⟨j', b', hb', -, -, hsame, -⟩ := exists_of_removeArena h.indexed ha hj
    exact .inl ⟨b', b, (arena?_eq_some h).2 ⟨j', hb', hsame.page.symm.trans hp⟩, rfl, (h.sound hb').tiled, hsame⟩
  | none =>
    refine .inr ⟨?_, rfl⟩
    cases hb' : s.arena? p with
    | none => exact .inl rfl
    | some b' =>
      obtain ⟨j, hj, hp⟩ := (arena?_eq_some h).1 hb'
      have hgone : j = i := by
        by_contra hne
        obtain ⟨b, hbj, hsame⟩ := exists_removeArena ha hj hne
        rw [hindexed.arena?_eq_some.2 ⟨_, hbj, hsame.page.trans hp⟩] at hb
        cases hb
      exact .inr (by rw [← hj, hgone, ha])

/-- Removing an arena of which nothing is recorded is not seen in any slot. -/
theorem removeArena_spec (h : s.Wf) (ha : s.arenas[i]? = some a) (hempty : a.isEmpty = true)
    (hblank : ∀ c, a.slot c = .blank) (hcurrent : s.current ≠ some i) :
    s.Relieved (s.removeArena i) := by
  have halters := altersArenas_removeArena h ha (Arena.used_of_isEmpty (h.sound ha) hempty) hcurrent
  have hsweep : (s.removeArena i).hugeNeedsSweep = s.hugeNeedsSweep := by rw [removeArena_eq]
  refine ⟨halters.wf h, ?_, hsweep, fun hun j => ?_, by rw [removeArena_eq]⟩
  · funext t
    cases ht : t.isHuge with
    | true => exact halters.slot_of_isHuge hsweep ht
    | false =>
      rw [slot_of_not_isHuge ht, slot_of_not_isHuge ht]
      rcases arena?_removeArena h ha hcurrent t.page with ⟨b, b', hb, hb', htiled, hsame⟩ | ⟨hb, hb'⟩
      · rw [hb, hb']
        exact congrFun (hsame.slot htiled) t.cell
      · rw [hb']
        rcases hb with hb | hb
        · rw [hb]
        · rw [hb]
          exact (hblank t.cell).symm
  · cases hb : (s.removeArena i).arenas[j]? with
    | none => rw [unswept, hb]; rfl
    | some b =>
      obtain ⟨j', b', hb', -, -, hsame, -⟩ := exists_of_removeArena h.indexed ha hb
      have hold := hun j'
      rw [unswept, hb'] at hold
      rw [unswept, hb]
      exact hsame.needsSweep.trans hold

/-- Nothing is recorded of the cells of an empty arena, as long as nothing is queued and what
is listed is allocated. -/
theorem slot_of_isEmpty (h : s.Wf) (ha : s.arenas[i]? = some a) (hempty : a.isEmpty = true)
    (hquiet : ∀ t, ¬ (s.slot t).queued)
    (hlisted : ∀ t, (s.slot t).fixed ∨ (s.slot t).idle ∨ (s.slot t).pending → s.Holds t) (c : Nat) :
    a.slot c = .blank := by
  rcases slot_cell h ha c with hblank | ⟨-, hslot⟩
  · exact hblank
  · obtain ⟨chains, htiled⟩ := (h.sound ha).tiled
    have hnone : (a.slot c).entity? = none := Arena.entity?_of_not_allocated (htiled.empty hempty c)
    have hno : ¬ ((a.slot c).fixed ∨ (a.slot c).idle ∨ (a.slot c).pending) := by
      rw [← hslot]
      intro hor
      obtain ⟨e, he⟩ := hlisted _ hor
      rw [hslot, hnone] at he
      cases he
    refine Slot.ext hnone ?_ ?_ ?_ ?_
    · exact eq_false fun hq => hquiet (a.object c) (by rw [hslot]; exact hq)
    · exact eq_false fun hf => hno (.inl hf)
    · exact eq_false fun hf => hno (.inr (.inl hf))
    · exact eq_false fun hf => hno (.inr (.inr hf))

theorem releaseFrom_spec (keep : Nat) :
    ∀ (n : Nat) {s : Space} (index kept released : Nat), s.Wf → (∀ t, ¬ (s.slot t).queued) →
      (∀ t, (s.slot t).fixed ∨ (s.slot t).idle ∨ (s.slot t).pending → s.Holds t) →
      s.Relieved (s.releaseFrom keep index kept released n).2 := by
  intro n
  induction n with
  | zero => exact fun _ _ _ h _ _ => .refl h
  | succ n ih =>
    intro s index kept released h hquiet hlisted
    rw [releaseFrom]
    cases ha : s.arenas[index]? with
    | none => exact .refl h
    | some a =>
      simp only
      split
      · next hcond =>
        obtain ⟨hempty, hcurrent⟩ := Bool.and_eq_true_iff.1 hcond
        split
        · exact ih _ _ _ h hquiet hlisted
        · have hrel := removeArena_spec h ha hempty (slot_of_isEmpty h ha hempty hquiet hlisted)
            (by simpa using hcurrent)
          refine hrel.trans (ih _ _ _ hrel.wf ?_ ?_)
          · rw [hrel.slot]
            exact hquiet
          · intro t
            rw [hrel.slot, Holds, hrel.slot]
            exact hlisted t
      · exact ih _ _ _ h hquiet hlisted

/-- Releasing spare arenas is not seen in any slot. -/
theorem releaseSpareArenas_spec (h : s.Wf) (keep : Nat) (hquiet : ∀ t, ¬ (s.slot t).queued)
    (hlisted : ∀ t, (s.slot t).fixed ∨ (s.slot t).idle ∨ (s.slot t).pending → s.Holds t) :
    s.Relieved (s.releaseSpareArenas keep).2 :=
  releaseFrom_spec keep _ _ _ _ h hquiet hlisted

/-- The next arena that awaits its sweep. -/
theorem nextUnswept_spec (s : Space) (start : Nat) :
    match s.nextUnswept start with
    | some j => start ≤ j ∧ j < s.arenas.size ∧ ∀ k, start ≤ k → k < j → s.unswept k = false
    | none => ∀ k, start ≤ k → s.unswept k = false := by
  have hunswept : ∀ k, (s.arenas[k]?).any (·.needsSweep) = s.unswept k := fun _ => rfl
  split
  · next j hj =>
    rw [nextUnswept, List.find?_range'_eq_some] at hj
    obtain ⟨-, hmem, hbefore⟩ := hj
    rw [List.mem_range'_1] at hmem
    exact ⟨hmem.1, by omega, fun k hk hlt => by simpa [hunswept] using hbefore k hk hlt⟩
  · next hj =>
    intro k hk
    by_cases hlt : k < s.arenas.size
    · rw [nextUnswept, List.find?_eq_none] at hj
      rw [← hunswept, ← Bool.not_eq_true]
      exact hj k (by rw [List.mem_range'_1]; omega)
    · rw [unswept, Array.getElem?_eq_none (not_lt.1 hlt)]
      rfl

end Space

end Tricolor
