import Tricolor.Proofs.Ledger
import Tricolor.Proofs.Space.Indices

/-!
# Releasing spare arenas

An arena is spare if it is empty and not the current one. Spare arenas beyond a number can be given up:
the last arena then takes the place of the one that is removed, and its stored index, the map from
pages and the current arena follow. `Space.Sheds` says what several removals leave; the loop over the
arenas keeps it together with the number of spare arenas that it has passed.

`Space.Change` is anything that the program does with a space. After any changes the indices agree, and
a release leaves every object where it is.
-/

namespace Tricolor

namespace Space

variable {s s' s'' : Space} {r : Ref} {a a' : Arena} {i k : Nat}

/-! ## Spare arenas -/

/-- The page of the current arena. -/
def currentPage (s : Space) : Option Page := s.current.bind fun index => (s.arenas[index]?).map (·.page)

/-- An arena is empty and not the current one. -/
def isSpare (s : Space) (a : Arena) : Bool := a.isEmpty && s.currentPage != some a.page

/-- The number of spare arenas. -/
def spareArenas (s : Space) : Nat := s.arenas.countP s.isSpare

/-- Arenas are told apart by their pages. -/
theorem Indexed.currentPage_eq_iff (h : s.Indexed) (ha : s.arenas[i]? = some a) :
    s.currentPage = some a.page ↔ s.current = some i := by
  rw [currentPage, Option.bind_eq_some_iff]
  constructor
  · rintro ⟨j, hj, hp⟩
    obtain ⟨b, hb, hp⟩ := Option.map_eq_some_iff.1 hp
    rw [hj, (h.page_eq_iff ha hb).1 hp]
  · exact fun hi => ⟨i, hi, by rw [ha]; rfl⟩

theorem Indexed.isSpare_eq (h : s.Indexed) (ha : s.arenas[i]? = some a) :
    s.isSpare a = (a.isEmpty && s.current != some i) := by
  rw [isSpare, Bool.eq_iff_iff]
  simp only [Bool.and_eq_true, bne_iff_ne, ne_eq, h.currentPage_eq_iff ha]

/-- There is no current arena exactly if there is no page of one. -/
theorem Indexed.currentPage_eq_none_iff (h : s.Indexed) : s.currentPage = none ↔ s.current = none := by
  constructor
  · intro hnone
    cases hc : s.current with
    | none => rfl
    | some i =>
      rw [(h.currentPage_eq_iff (Array.getElem?_eq_getElem (h.current i hc))).2 hc] at hnone
      cases hnone
  · intro hnone
    rw [currentPage, hnone]
    rfl

theorem isSpare_congr (hcurrent : s'.currentPage = s.currentPage) : s'.isSpare = s.isSpare := by
  funext a
  rw [isSpare, isSpare, hcurrent]

theorem isSpare_renumbered (h : a.Renumbered a') : s.isSpare a' = s.isSpare a := by
  rw [isSpare, isSpare, h.isEmpty, h.page]

/-- An arena with an object is not spare. -/
theorem isSpare_of_isAllocated (ha : a.Tiled) {c : Nat} (hc : a.isAllocated c = true) : s.isSpare a = false := by
  obtain ⟨chains, htiled⟩ := ha
  cases hempty : a.isEmpty with
  | false => rw [isSpare, hempty, Bool.false_and]
  | true =>
    rw [htiled.empty hempty c] at hc
    cases hc

/-! ## Removing spare arenas -/

/-- `s'` is `s` without `k` of its spare arenas. -/
structure Sheds (k : Nat) (s s' : Space) : Prop where
  indexed : s'.Indexed
  size : s'.arenas.size + k = s.arenas.size
  spares : s'.spareArenas + k = s.spareArenas
  currentPage : s'.currentPage = s.currentPage
  keeps : ∀ a ∈ s.arenas, s.isSpare a = false → ∃ a' ∈ s'.arenas, a.Renumbered a'
  was : ∀ a' ∈ s'.arenas, ∃ a ∈ s.arenas, a.Renumbered a'
  rest : s' = { s with arenas := s'.arenas, indices := s'.indices, current := s'.current }

theorem Sheds.refl (h : s.Indexed) : s.Sheds 0 s :=
  ⟨h, rfl, rfl, rfl, fun a ha _ => ⟨a, ha, .refl a⟩, fun a ha => ⟨a, ha, .refl a⟩, rfl⟩

theorem Sheds.trans {k' : Nat} (h : s.Sheds k s') (h' : s'.Sheds k' s'') : s.Sheds (k + k') s'' where
  indexed := h'.indexed
  size := by rw [← h.size, ← h'.size]; omega
  spares := by rw [← h.spares, ← h'.spares]; omega
  currentPage := h'.currentPage.trans h.currentPage
  keeps a ha hspare := by
    obtain ⟨a', ha', hsame⟩ := h.keeps a ha hspare
    have hspare' : s'.isSpare a' = false := by rw [isSpare_congr h.currentPage, isSpare_renumbered hsame, hspare]
    obtain ⟨a'', ha'', hsame'⟩ := h'.keeps a' ha' hspare'
    exact ⟨a'', ha'', hsame.trans hsame'⟩
  was a'' ha'' := by
    obtain ⟨a', ha', hsame'⟩ := h'.was a'' ha''
    obtain ⟨a, ha, hsame⟩ := h.was a' ha'
    exact ⟨a, ha, hsame.trans hsame'⟩
  rest := by rw [h'.rest, h.rest]

/-- The current arena stays the same, even if it is the last one, which moves. -/
theorem currentPage_removeArena (h : s.Indexed) (ha : s.arenas[i]? = some a) (hcurrent : s.current ≠ some i) :
    (s.removeArena i).currentPage = s.currentPage := by
  have hindexed := h.removeArena ha hcurrent
  have hi := (Array.getElem?_eq_some_iff.1 ha).1
  cases hc : s.current with
  | none =>
    rw [h.currentPage_eq_none_iff.2 hc, hindexed.currentPage_eq_none_iff, current_removeArena ha, hc]
    exact if_neg fun hand => by cases hand.2
  | some j =>
    have hlt := h.current j hc
    have hne : j ≠ i := fun heq => hcurrent (heq ▸ hc)
    have hb : s.arenas[j]? = some s.arenas[j] := Array.getElem?_eq_getElem hlt
    obtain ⟨b', hb', hsame⟩ := exists_removeArena ha hb hne
    rw [(h.currentPage_eq_iff hb).2 hc, ← hsame.page, hindexed.currentPage_eq_iff hb', current_removeArena ha, hc]
    by_cases hlast : j = s.arenas.size - 1
    · rw [if_pos ⟨by omega, by rw [hlast]⟩, if_pos hlast]
    · rw [if_neg fun hand => hlast (Option.some.inj hand.2), if_neg hlast]

theorem sheds_removeArena (h : s.Indexed) (ha : s.arenas[i]? = some a) (hspare : s.isSpare a = true) :
    s.Sheds 1 (s.removeArena i) := by
  have hi := (Array.getElem?_eq_some_iff.1 ha).1
  have hcurrent : s.current ≠ some i := by
    rw [h.isSpare_eq ha, Bool.and_eq_true, bne_iff_ne] at hspare
    exact hspare.2
  have hpage := currentPage_removeArena h ha hcurrent
  refine
    { indexed := h.removeArena ha hcurrent
      size := by rw [size_removeArena ha]; omega
      spares := ?_
      currentPage := hpage
      keeps := fun b hb hkept => ?_
      was := fun b hb => ?_
      rest := removeArena_eq s i }
  · have hsetIndex := fun (a : Arena) index => isSpare_renumbered (s := s) (a.renumbered_setIndex index)
    have hperm := perm_removeArena hsetIndex ha
    have hcount := hperm.countP_eq id
    rw [hspare, List.countP_cons_of_pos rfl, List.countP_map, List.countP_map] at hcount
    rw [spareArenas, spareArenas, isSpare_congr hpage, ← Array.countP_toList, ← Array.countP_toList]
    exact hcount.symm
  · obtain ⟨j, hj⟩ := Array.getElem?_of_mem hb
    have hne : j ≠ i := by
      rintro rfl
      rw [ha] at hj
      cases hj
      rw [hspare] at hkept
      cases hkept
    obtain ⟨b', hb', hsame⟩ := exists_removeArena ha hj hne
    exact ⟨b', Array.mem_of_getElem? hb', hsame⟩
  · obtain ⟨j, hj⟩ := Array.getElem?_of_mem hb
    obtain ⟨_, b', hb', -, -, hsame, -⟩ := exists_of_removeArena h ha hj
    exact ⟨b', Array.mem_of_getElem? hb', hsame⟩

/-- Removing an arena does not move those before it. -/
theorem take_removeArena (ha : s.arenas[i]? = some a) :
    (s.removeArena i).arenas.toList.take i = s.arenas.toList.take i := by
  have hi := (Array.getElem?_eq_some_iff.1 ha).1
  refine List.ext_getElem? fun j => ?_
  rw [List.getElem?_take, List.getElem?_take, Array.getElem?_toList, Array.getElem?_toList]
  split
  · next hj =>
    refine Option.ext fun b => (arenas_removeArena ha).trans ?_
    rw [if_neg (by omega), and_iff_right (by omega)]
  · rfl

/-! ## The loop -/

/-- The spare arenas among the first ones. -/
def sparesBefore (s : Space) (index : Nat) : Nat := (s.arenas.toList.take index).countP s.isSpare

theorem sparesBefore_le (s : Space) (index : Nat) : s.sparesBefore index ≤ s.spareArenas := by
  rw [sparesBefore, spareArenas, ← Array.countP_toList]
  exact (List.take_sublist _ _).countP_le

theorem sparesBefore_of_size_le (h : s.arenas.size ≤ i) : s.sparesBefore i = s.spareArenas := by
  rw [sparesBefore, spareArenas, ← Array.countP_toList, List.take_of_length_le (by rwa [Array.length_toList])]

theorem sparesBefore_succ (ha : s.arenas[i]? = some a) :
    s.sparesBefore (i + 1) = s.sparesBefore i + if s.isSpare a then 1 else 0 := by
  rw [sparesBefore, List.take_add_one, Array.getElem?_toList, ha, List.countP_append]
  exact congrArg (_ + ·) List.countP_singleton

/-- The loop removes spare arenas until `keep` of them are left, when it has kept those that it passed. -/
theorem releaseFrom_sheds {keep : Nat} : ∀ {n : Nat} {s : Space} {index kept : Nat} (released : Nat), s.Indexed →
    s.sparesBefore index = kept → kept ≤ keep → s.arenas.size ≤ index + n →
      ∃ k, (s.releaseFrom keep index kept released n).1 = released + k ∧
        s.Sheds k (s.releaseFrom keep index kept released n).2 ∧
        (s.releaseFrom keep index kept released n).2.spareArenas = min keep s.spareArenas := by
  intro n
  induction n with
  | zero =>
    intro s index kept released h hbefore hle hn
    rw [sparesBefore_of_size_le (i := index) hn] at hbefore
    exact ⟨0, rfl, .refl h, (min_eq_right (hbefore.trans_le hle)).symm⟩
  | succ n ih =>
    intro s index kept released h hbefore hle hn
    rw [releaseFrom]
    cases ha : s.arenas[index]? with
    | none =>
      rw [sparesBefore_of_size_le (Array.getElem?_eq_none_iff.1 ha)] at hbefore
      exact ⟨0, rfl, .refl h, (min_eq_right (hbefore.trans_le hle)).symm⟩
    | some a =>
      have hnext := sparesBefore_succ ha
      simp only [← h.isSpare_eq ha]
      cases hspare : s.isSpare a with
      | false =>
        rw [hspare, if_neg Bool.false_ne_true, Nat.add_zero, hbefore] at hnext
        exact ih released h hnext hle (by omega)
      | true =>
        rw [hspare, if_pos rfl, hbefore] at hnext
        simp only [if_true]
        by_cases hroom : kept < keep
        · rw [if_pos hroom]
          exact ih released h hnext hroom (by omega)
        · rw [if_neg hroom]
          -- the arena that took the place is looked at next
          have hshed := sheds_removeArena h ha hspare
          have hbefore' : (s.removeArena index).sparesBefore index = kept := by
            rw [sparesBefore, take_removeArena ha, isSpare_congr hshed.currentPage]
            exact hbefore
          obtain ⟨k, hk, hsheds, hspares⟩ := ih (released + 1) hshed.indexed hbefore' hle
            (by have := hshed.size; omega)
          refine ⟨1 + k, by rw [hk, Nat.add_assoc], hshed.trans hsheds, ?_⟩
          have hleft := (s.removeArena index).sparesBefore_le index
          have := hshed.spares
          rw [hspares]
          omega

theorem releaseSpareArenas_sheds (h : s.Indexed) (keep : Nat) :
    s.Sheds (s.releaseSpareArenas keep).1 (s.releaseSpareArenas keep).2 ∧
      (s.releaseSpareArenas keep).2.spareArenas = min keep s.spareArenas := by
  have hnone : s.sparesBefore 0 = 0 := rfl
  obtain ⟨k, hk, hsheds, hspares⟩ := releaseFrom_sheds 0 h hnone (Nat.zero_le keep) (Nat.le_add_left _ _)
  rw [Nat.zero_add] at hk
  exact ⟨hk ▸ hsheds, hspares⟩

/-! ## Objects -/

/-- The object at a reference is in `s'` as it is in `s`: it has its state and its size, stands in the same
lists and holds the same, and is found in the arena that it was in. -/
structure Unmoved (s s' : Space) (r : Ref) : Prop where
  isAllocated : s'.isAllocated r = true
  state : ∃ state, s.cellState r = .ok state ∧ s'.cellState r = .ok state
  size : ∃ size, s.objectSize r = .ok size ∧ s'.objectSize r = .ok size
  slot : s'.slot r = s.slot r
  arena : r.isHuge = false → ∃ a a', s.arenaOf r = .ok a ∧ s'.arenaOf r = .ok a' ∧ a.Renumbered a' ∧
    a'.page = r.page ∧ a'.isAllocated r.cell = true

/-- A huge block does not depend on the arenas. -/
theorem Unmoved.of_huge (hr : r.isHuge = true) (halloc : s.isAllocated r = true)
    (hrest : s' = { s with arenas := s'.arenas, indices := s'.indices, current := s'.current }) : s.Unmoved s' r := by
  obtain ⟨arenas, indices, current, rfl⟩ : ∃ arenas indices current, s' = { s with arenas, indices, current } :=
    ⟨_, _, _, hrest⟩
  have hcontains : s.blocks.contains r.page = .ok true := by
    rw [Space.isAllocated, if_pos hr] at halloc
    split at halloc
    · next hfound => rw [hfound, halloc]
    · cases halloc
  obtain ⟨found?, hlookup⟩ : ∃ found?, s.blocks.lookup r.page = .ok found? := by
    obtain ⟨place, hfind, -⟩ := bind_eq_ok_iff.1 hcontains
    exact ⟨_, bind_eq_ok_iff.2 ⟨place, hfind, rfl⟩⟩
  have hflags : s.blocks.flags r.page = .ok (found?.elim 0 BlockEntry.flags) :=
    bind_eq_ok_iff.2 ⟨found?, hlookup, rfl⟩
  have hsize : s.blocks.sizeOf? r.page = .ok (found?.map BlockEntry.size) := bind_eq_ok_iff.2 ⟨found?, hlookup, rfl⟩
  have hstate : s.cellState r = .ok (if (found?.elim 0 BlockEntry.flags).isMarked then .black else .white) := by
    rw [cellState, if_pos hr]
    exact bind_eq_ok_iff.2 ⟨_, hflags, rfl⟩
  have hbytes : s.objectSize r = .ok ((found?.map BlockEntry.size).getD 0) := by
    rw [objectSize, if_pos hr]
    exact bind_eq_ok_iff.2 ⟨_, hsize, rfl⟩
  refine
    { isAllocated := ?_
      state := ⟨_, hstate, ?_⟩
      size := ⟨_, hbytes, ?_⟩
      slot := ?_
      arena := fun hsmall => by rw [hr] at hsmall; cases hsmall }
  · rw [Space.isAllocated, if_pos hr] at halloc ⊢
    exact halloc
  · rw [cellState, if_pos hr] at hstate ⊢
    exact hstate
  · rw [objectSize, if_pos hr] at hbytes ⊢
    exact hbytes
  · rw [slot_of_isHuge hr, slot_of_isHuge hr]
    rfl

/-- An object of an arena does not depend on the index of the arena. -/
theorem Unmoved.of_small (hr : r.isHuge = false) (h : s.Indexed) (h' : s'.Indexed) (ha : s.arena? r.page = some a)
    (halloc : a.isAllocated r.cell = true) (ha' : s'.arena? r.page = some a') (hsame : a.Renumbered a') :
    s.Unmoved s' r := by
  have harena := h.arenaOf_eq ha
  have harena' := h'.arenaOf_eq ha'
  have halloc' := (hsame.isAllocated r.cell).trans halloc
  obtain ⟨i, hi, -⟩ := h.arena?_eq_some.1 ha
  obtain ⟨-, -, hp⟩ := h'.arena?_eq_some.1 ha'
  have htiled := h.tiled hi
  have hnot : ¬ r.isHuge = true := by rw [hr]; exact Bool.false_ne_true
  have hcell : r.cell < arenaCells := by
    obtain ⟨chains, ht⟩ := htiled
    exact lt_of_lt_of_le (Arena.isAllocated_iff.1 halloc).2.1 ht.top_le
  have hstate : ∀ {s : Space} {a : Arena}, s.arenaOf r = .ok a →
      s.cellState r = .ok (.ofBits (a.block.get r.cell) (a.mark.get r.cell)) := fun harena => by
    rw [cellState, if_neg hnot]
    exact bind_eq_ok_iff.2 ⟨_, harena, Arena.cellState_eq_ofBits hcell⟩
  have hsize : ∀ {s : Space} {a : Arena}, s.arenaOf r = .ok a → a.isAllocated r.cell = true →
      s.objectSize r = .ok (a.extent r.cell * cellBytes) := fun harena halloc => by
    rw [objectSize, if_neg hnot]
    exact bind_eq_ok_iff.2 ⟨_, harena, bind_eq_ok_iff.2 ⟨_, Arena.objectCells_eq halloc, rfl⟩⟩
  refine
    { isAllocated := (isAllocated_small hr).2 ⟨a', ha', halloc'⟩
      state := ⟨_, hstate harena, ?_⟩
      size := ⟨_, hsize harena halloc, ?_⟩
      slot := ?_
      arena := fun _ => ⟨a, a', harena, harena', hsame, hp, halloc'⟩ }
  · rw [hstate harena']
    obtain ⟨block, hblock, rfl⟩ := hsame
    rw [hblock r.cell (Arena.isAllocated_iff.1 halloc).1]
  · rw [hsize harena' halloc', hsame.extent htiled halloc]
  · rw [slot_small hr ha, slot_small hr ha', hsame.slot htiled]

/-- Giving up spare arenas moves no object. -/
theorem Sheds.unmoved (hs : s.Sheds k s') (h : s.Indexed) (halloc : s.isAllocated r = true) : s.Unmoved s' r := by
  cases hr : r.isHuge with
  | true => exact .of_huge hr halloc hs.rest
  | false =>
    obtain ⟨a, ha, hcell⟩ := (isAllocated_small hr).1 halloc
    obtain ⟨i, hi, hp⟩ := h.arena?_eq_some.1 ha
    obtain ⟨a', ha', hsame⟩ := hs.keeps a (Array.mem_of_getElem? hi) (isSpare_of_isAllocated (h.tiled hi) hcell)
    obtain ⟨j, hj⟩ := Array.getElem?_of_mem ha'
    exact .of_small hr h hs.indexed ha hcell (hs.indexed.arena?_eq_some.2 ⟨j, hj, hsame.page.trans hp⟩) hsame

/-! ## Everything that is done with a space -/

/-- Something is done with a space, and succeeds. New arenas are not where memory is in use already, objects
have at least one cell, and only the marks of allocated objects are written. -/
inductive Change (s : Space) : Space → Prop where
  | allocCells {supply : Supply} {cells : Nat} {result : Except AllocError Ref} {s' : Space} : supply.Fresh s 0 →
      0 < cells → s.allocCells supply cells = .ok (result, s') → Change s s'
  | allocHuge {supply : Supply} {size : Nat} {result : Except AllocError Ref} {s' : Space} :
      s.allocHuge supply size = .ok (result, s') → Change s s'
  | resizeHuge {supply : Supply} {r : Ref} {size : Nat} {result : Except AllocError Ref} {s' : Space} :
      s.resizeHuge supply r size = .ok (result, s') → Change s s'
  | free {r : Ref} {size : Nat} {s' : Space} : s.free r = .ok (size, s') → Change s s'
  | mark {r : Ref} {s' : Space} : s.mark r = .ok s' → Change s s'
  | setMark {r : Ref} {s' : Space} : s.isAllocated r = true → s.setMark r = .ok s' → Change s s'
  | clearMark {r : Ref} {s' : Space} : s.isAllocated r = true → s.clearMark r = .ok s' → Change s s'
  | visit {mode : WeakMode} {v : Visit} {s' : Space} : s.visit mode v = .ok s' → Change s s'
  | popGrey {source : GreySource} {r? : Option Ref} {s' : Space} : s.popGrey source = .ok (r?, s') → Change s s'
  | modifyHeader {r : Ref} {f : Header → Header} {s' : Space} : s.modifyHeader r f = .ok s' → Change s s'
  | modifyBytes {r : Ref} {f : Zeroed UInt8 → Zeroed UInt8} {s' : Space} : s.modifyBytes r f = .ok s' → Change s s'
  | fix {r : Ref} {s' : Space} : s.fix r = .ok s' → Change s s'
  | registerFinalizer {r : Ref} {s' : Space} : s.registerFinalizer r = .ok s' → Change s s'
  | markFixed {s' : Space} : s.markFixed = .ok s' → Change s s'
  | selectFinalizers {isFinalizable : Ref → Bool} {selection : Selection} {s' : Space} :
      s.selectFinalizers isFinalizable = .ok (selection, s') → Change s s'
  | takePendingFinalizer {r? : Option Ref} {s' : Space} : s.takePendingFinalizer = .ok (r?, s') → Change s s'
  | beginSweep : Change s s.beginSweep
  | sweepArena {index freed : Nat} {s' : Space} : s.sweepArena index = .ok (freed, s') → Change s s'
  | sweepHuge {freed : Nat} {s' : Space} : s.sweepHuge = .ok (freed, s') → Change s s'
  | releaseSpareArenas (keep : Nat) : Change s (s.releaseSpareArenas keep).2

/-- The spaces that come about, from a space without memory. -/
inductive Arises : Space → Prop where
  | empty : Arises .empty
  | change {s s' : Space} : Arises s → Change s s' → Arises s'

/-- Whatever is done with a space, the indices still agree. -/
theorem Change.indexed (hc : s.Change s') (h : s.Indexed) : s'.Indexed := by
  cases hc with
  | allocCells hfresh hpos hrun => exact h.allocCells hfresh hpos hrun
  | allocHuge hrun => exact h.allocHuge hrun
  | resizeHuge hrun => exact h.resizeHuge hrun
  | free hrun => exact h.free hrun
  | mark hrun => exact h.mark hrun
  | setMark hr hrun => exact h.setMark hr hrun
  | clearMark hr hrun => exact h.clearMark hr hrun
  | visit hrun => exact h.visit hrun
  | popGrey hrun => exact h.popGrey hrun
  | modifyHeader hrun => exact h.modifyHeader hrun
  | modifyBytes hrun => exact h.modifyBytes hrun
  | fix hrun => exact h.fix hrun
  | registerFinalizer hrun => exact h.registerFinalizer hrun
  | markFixed hrun => exact h.markFixed hrun
  | selectFinalizers hrun => exact h.selectFinalizers hrun
  | takePendingFinalizer hrun => exact h.takePendingFinalizer hrun
  | beginSweep => exact h.beginSweep
  | sweepArena hrun => exact h.sweepArena hrun
  | sweepHuge hrun => exact h.sweepHuge hrun
  | releaseSpareArenas keep => exact (releaseSpareArenas_sheds h keep).1.indexed

theorem Arises.indexed (h : Arises s) : s.Indexed := by
  induction h with
  | empty => exact wf_empty.indexed
  | change _ hc ih => exact hc.indexed ih

/-- What is left when spare arenas beyond `keep` are given up. -/
structure Released (keep : Nat) (s : Space) (released : Nat) (s' : Space) : Prop where
  /-- an arena that is gone was empty and not the current one -/
  kept : ∀ (i : Nat) (a : Arena), s.arenas[i]? = some a → a.isEmpty = false ∨ s.current = some i →
    ∃ (j : Nat) (a' : Arena), s'.arenas[j]? = some a' ∧ a.Renumbered a'
  /-- no arena is new -/
  was : ∀ (j : Nat) (a' : Arena), s'.arenas[j]? = some a' →
    ∃ (i : Nat) (a : Arena), s.arenas[i]? = some a ∧ a.Renumbered a'
  spares : s'.spareArenas = min keep s.spareArenas
  /-- the answer is the number of arenas that are gone -/
  count : s'.arenas.size + released = s.arenas.size
  /-- the current arena is the same, at its new index -/
  current : ∀ (i : Nat) (a : Arena), s.current = some i → s.arenas[i]? = some a →
    ∃ (j : Nat) (a' : Arena), s'.current = some j ∧ s'.arenas[j]? = some a' ∧ a.Renumbered a'
  noCurrent : s.current = none → s'.current = none
  unmoved : ∀ r, s.isAllocated r = true → s.Unmoved s' r

theorem Indexed.released (h : s.Indexed) (keep : Nat) :
    s.Released keep (s.releaseSpareArenas keep).1 (s.releaseSpareArenas keep).2 := by
  obtain ⟨hsheds, hspares⟩ := releaseSpareArenas_sheds h keep
  have hkept : ∀ (i : Nat) (a : Arena), s.arenas[i]? = some a → a.isEmpty = false ∨ s.current = some i →
      ∃ (j : Nat) (a' : Arena), (s.releaseSpareArenas keep).2.arenas[j]? = some a' ∧ a.Renumbered a' := by
    intro i a ha hor
    have hspare : s.isSpare a = false := by
      rw [h.isSpare_eq ha]
      rcases hor with hempty | hcurrent
      · rw [hempty, Bool.false_and]
      · simp [hcurrent]
    obtain ⟨a', ha', hsame⟩ := hsheds.keeps a (Array.mem_of_getElem? ha) hspare
    obtain ⟨j, hj⟩ := Array.getElem?_of_mem ha'
    exact ⟨j, a', hj, hsame⟩
  exact
    { kept := hkept
      was := fun j a' ha' => by
        obtain ⟨a, ha, hsame⟩ := hsheds.was a' (Array.mem_of_getElem? ha')
        obtain ⟨i, hi⟩ := Array.getElem?_of_mem ha
        exact ⟨i, a, hi, hsame⟩
      spares := hspares
      count := hsheds.size
      current := fun i a hi ha => by
        obtain ⟨j, a', hj, hsame⟩ := hkept i a ha (.inr hi)
        refine ⟨j, a', (hsheds.indexed.currentPage_eq_iff hj).1 ?_, hj, hsame⟩
        rw [hsheds.currentPage, hsame.page]
        exact (h.currentPage_eq_iff ha).2 hi
      noCurrent := fun hnone => by
        rw [← hsheds.indexed.currentPage_eq_none_iff, hsheds.currentPage]
        exact h.currentPage_eq_none_iff.2 hnone
      unmoved := fun r halloc => hsheds.unmoved h halloc }

/-- Whatever was done with a space, every arena stores its place in the list, the map leads from the pages
of the arenas to their places and has no other page, and the current arena is in the list. Giving up
the spare arenas beyond `keep` takes empty ones only, answers their number, leaves the current arena the
current one, and leaves every object where it is. -/
theorem arena_indices_agree (h : Arises s) :
    (∀ (i : Nat) (a : Arena), s.arenas[i]? = some a → a.index = i) ∧
    (∀ (p : Page) (i : Nat), s.indices[p]? = some i ↔ ∃ a, s.arenas[i]? = some a ∧ a.page = p) ∧
    (∀ i, s.current = some i → i < s.arenas.size) ∧
    ∀ keep, s.Released keep (s.releaseSpareArenas keep).1 (s.releaseSpareArenas keep).2 :=
  ⟨fun _ _ => h.indexed.index, fun _ _ => h.indexed.indices, h.indexed.current, h.indexed.released⟩

/-- The first of two arenas is given up. The other one, which is the current one and holds an object, takes
its place. -/
theorem current_arena_moves_down : ∃ s : Space, Arises s ∧ s.current = some 1 ∧ s.spareArenas = 1 ∧
    s.isAllocated ⟨2, firstCell⟩ = true ∧ (s.releaseSpareArenas 0).1 = 1 ∧
    (s.releaseSpareArenas 0).2.current = some 0 ∧ s.Unmoved (s.releaseSpareArenas 0).2 ⟨2, firstCell⟩ := by
  let larger : Except AllocError Ref := .error (.tooLarge (arenaCells * cellBytes))
  -- an object that no arena has room for still brings a new arena
  obtain ⟨s₁, s₂, s, hfirst, hfresh, hsecond, hthird, hcurrent, hspares, halloc, hreleased, hmoved⟩ :
      ∃ s₁ s₂ s, Space.empty.allocCells (.page 1) arenaCells = .ok (larger, s₁) ∧ (Supply.page 2).Fresh s₁ 0 ∧
        s₁.allocCells (.page 2) arenaCells = .ok (larger, s₂) ∧
        s₂.allocCells (fun _ => none) 1 = .ok (.ok ⟨2, firstCell⟩, s) ∧ s.current = some 1 ∧ s.spareArenas = 1 ∧
        s.isAllocated ⟨2, firstCell⟩ = true ∧ (s.releaseSpareArenas 0).1 = 1 ∧
        (s.releaseSpareArenas 0).2.current = some 0 :=
    ⟨_, _, _, eq_answerOf_of_fst (by decide +kernel) (by decide +kernel),
      Supply.page_fresh (by decide) (by decide +kernel) (by decide +kernel) 0,
      eq_answerOf_of_fst (by decide +kernel) (by decide +kernel),
      eq_answerOf_of_fst (by decide +kernel) (by decide +kernel), by decide +kernel, by decide +kernel,
      by decide +kernel, by decide +kernel, by decide +kernel⟩
  have hfresh₀ : (Supply.page 1).Fresh .empty 0 := Supply.page_fresh (by decide) rfl (by decide +kernel) 0
  have hs : Arises s :=
    ((Arises.empty.change (.allocCells hfresh₀ (by decide) hfirst)).change
      (.allocCells hfresh (by decide) hsecond)).change
        (.allocCells (fun _ _ hnone => by cases hnone) (by decide) hthird)
  exact ⟨s, hs, hcurrent, hspares, halloc, hreleased, hmoved,
    ((arena_indices_agree hs).2.2.2 0).unmoved _ halloc⟩

end Space

namespace Machine

/-- In a heap, spare arenas are given up between any two steps of the collector without harm. -/
theorem Reachable.released {σ : Type} {mu : Mutator σ} {allowed : Heap.Resizings} {config : Config}
    {hashOf : List UInt8 → Hash} {m : Machine σ} (hm : Reachable mu allowed config hashOf m) (keep : Nat) :
    m.heap.space.Released keep (m.heap.space.releaseSpareArenas keep).1 (m.heap.space.releaseSpareArenas keep).2 :=
  hm.sound.wf.indexed.released keep

end Machine

end Tricolor
