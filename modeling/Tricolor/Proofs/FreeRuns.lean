import Mathlib.Data.List.Perm.Basic
import Mathlib.Logic.Function.Basic
import Mathlib.Order.Nat
import Mathlib.Tactic.Common
import Tricolor.FreeRuns

/-!
# The runs that a free list holds

`FreeRuns.Represents` reads the bins of a free list as chains of cells through the links
in memory; `FreeRuns.listed` is then the list of all runs, each a head with its length.
Pushing a run adds it to that list, and taking one removes the shortest run that is long
enough, if there is one. Nothing else about the list changes.
-/

namespace Tricolor

/-! ## Chains of links -/

namespace Links

/-- The cells met when links are followed from `head` on. -/
def Chain (links : Links) : Nat → List Nat → Prop
  | head, [] => head = 0
  | head, cell :: rest => head = cell ∧ Holds cell ∧ Chain links (links.get cell) rest

theorem Holds.ne_zero {cell : Nat} (h : Holds cell) : cell ≠ 0 := by
  have hfirst : firstCell = 1024 := rfl
  have := h.1
  omega

/-- The links lead along one chain only. -/
theorem Chain.unique {links : Links} {cells cells' : List Nat} : ∀ {head : Nat}, links.Chain head cells →
    links.Chain head cells' → cells = cells' := by
  induction cells generalizing cells' with
  | nil =>
    intro head h h'
    cases cells' with
    | nil => rfl
    | cons c rest => exact absurd (h'.1.symm.trans h) h'.2.1.ne_zero
  | cons c rest ih =>
    intro head h h'
    cases cells' with
    | nil => exact absurd (h.1.symm.trans h') h.2.1.ne_zero
    | cons c' rest' =>
      obtain ⟨rfl, -, hrest⟩ := h
      obtain ⟨rfl, -, hrest'⟩ := h'
      rw [ih hrest hrest']

/-- A link stored at a cell outside a chain leaves the chain as it is. -/
theorem Chain.set {links : Links} {cell target : Nat} {cells : List Nat} (hcell : cell ∉ cells) :
    ∀ {head : Nat}, links.Chain head cells → Chain (Zeroed.set links cell target) head cells := by
  induction cells with
  | nil => exact id
  | cons c rest ih =>
    intro head h
    obtain ⟨hc, hholds, hrest⟩ := h
    rw [List.mem_cons, not_or] at hcell
    refine ⟨hc, hholds, ?_⟩
    rw [Zeroed.get_set, if_neg hcell.1]
    exact ih hcell.2 hrest

/-- The chain of an empty bin is empty. -/
theorem Chain.eq_nil {links : Links} {cells : List Nat} (h : links.Chain 0 cells) : cells = [] := by
  cases cells with
  | nil => rfl
  | cons c rest => exact absurd h.1.symm h.2.1.ne_zero

/-- A bin that is not empty has its head first in its chain. -/
theorem Chain.eq_cons {links : Links} {head : Nat} {cells : List Nat} (h : links.Chain head cells)
    (hne : head ≠ 0) :
    ∃ rest, cells = head :: rest ∧ Holds head ∧ links.Chain (links.get head) rest := by
  cases cells with
  | nil => exact absurd h hne
  | cons c rest =>
    obtain ⟨rfl, hholds, hrest⟩ := h
    exact ⟨rest, rfl, hholds, hrest⟩

theorem store_eq_ok {links : Links} {cell target : Nat} (h : Holds cell) :
    links.store cell target = .ok (Zeroed.set links cell target) := by
  rw [store, require_eq_ok_iff.2 h]
  rfl

theorem next_eq_ok {links : Links} {cell : Nat} (h : Holds cell) :
    links.next cell = .ok (links.get cell) := by
  rw [next, require_eq_ok_iff.2 h]
  rfl

end Links

/-! ## Packed runs -/

namespace PackedRun

theorem toNat_pack {head cells : Nat} (hh : head < 65536) (hc : cells < 65536) :
    (pack head cells).toNat = cells * 65536 + head := by
  have hshift : cells <<< 16 = cells * 65536 := by rw [Nat.shiftLeft_eq]
  have hor : cells <<< 16 ||| head = cells <<< 16 + head :=
    (Nat.shiftLeft_add_eq_or_of_lt (by omega) cells).symm
  rw [pack, BitVec.toNat_or, BitVec.toNat_shiftLeft, BitVec.toNat_ofNat, BitVec.toNat_ofNat,
    Nat.mod_eq_of_lt (by omega : cells < 2 ^ 32), Nat.mod_eq_of_lt (by omega : head < 2 ^ 32),
    Nat.mod_eq_of_lt (by omega : cells <<< 16 < 2 ^ 32), hor]
  omega

theorem head_pack {head cells : Nat} (hh : head < 65536) (hc : cells < 65536) :
    (pack head cells).head = head := by
  rw [PackedRun.head, toNat_pack hh hc]
  omega

theorem cells_pack {head cells : Nat} (hh : head < 65536) (hc : cells < 65536) :
    (pack head cells).cells = cells := by
  rw [PackedRun.cells, toNat_pack hh hc]
  omega

/-- The runs ascend. -/
def Ascending (runs : List PackedRun) : Prop := runs.Pairwise fun r s => r.toNat ≤ s.toNat

theorem insert_perm (r : PackedRun) (runs : List PackedRun) : (insert r runs).Perm (r :: runs) := by
  induction runs with
  | nil => exact List.Perm.refl _
  | cons s rest ih =>
    rw [insert]
    by_cases hlt : s.toNat < r.toNat
    · rw [if_pos hlt]
      exact (ih.cons s).trans (List.Perm.swap r s rest)
    · rw [if_neg hlt]

theorem Ascending.insert {runs : List PackedRun} (h : Ascending runs) (r : PackedRun) :
    Ascending (PackedRun.insert r runs) := by
  induction runs with
  | nil => exact List.pairwise_singleton _ r
  | cons s rest ih =>
    obtain ⟨hs, hrest⟩ := List.pairwise_cons.1 h
    rw [PackedRun.insert]
    by_cases hlt : s.toNat < r.toNat
    · rw [if_pos hlt]
      refine List.pairwise_cons.2 ⟨fun t ht => ?_, ih hrest⟩
      rcases List.mem_cons.1 ((insert_perm r rest).mem_iff.1 ht) with rfl | ht
      · omega
      · exact hs t ht
    · rw [if_neg hlt]
      refine List.pairwise_cons.2 ⟨fun t ht => ?_, h⟩
      rcases List.mem_cons.1 ht with rfl | ht
      · omega
      · have := hs t ht
        omega

/-- No run is long enough exactly when none is taken. -/
theorem takeFit_eq_none {n : Nat} {runs : List PackedRun} (h : takeFit n runs = none) :
    ∀ r ∈ runs, r.cells < n := by
  induction runs with
  | nil => exact fun r hr => absurd hr List.not_mem_nil
  | cons s rest ih =>
    rw [takeFit] at h
    by_cases hfit : n ≤ s.cells
    · rw [if_pos hfit] at h
      cases h
    · rw [if_neg hfit, Option.map_eq_none_iff] at h
      intro r hr
      rcases List.mem_cons.1 hr with rfl | hr
      · omega
      · exact ih h r hr

/-- The run taken is long enough, and the least such run. -/
theorem takeFit_eq_some {n : Nat} {runs others : List PackedRun} {r : PackedRun}
    (hasc : Ascending runs) (h : takeFit n runs = some (r, others)) :
    runs.Perm (r :: others) ∧ Ascending others ∧ n ≤ r.cells ∧
      ∀ s ∈ runs, n ≤ s.cells → r.toNat ≤ s.toNat := by
  induction runs generalizing others with
  | nil => cases h
  | cons s rest ih =>
    obtain ⟨hs, hrest⟩ := List.pairwise_cons.1 hasc
    rw [takeFit] at h
    by_cases hfit : n ≤ s.cells
    · rw [if_pos hfit] at h
      cases h
      refine ⟨List.Perm.refl _, hrest, hfit, fun t ht _ => ?_⟩
      rcases List.mem_cons.1 ht with rfl | ht
      · exact le_refl _
      · exact hs t ht
    · rw [if_neg hfit, Option.map_eq_some_iff] at h
      obtain ⟨⟨r', left⟩, htake, heq⟩ := h
      cases heq
      obtain ⟨hperm, hleft, hn, hleast⟩ := ih hrest htake
      refine ⟨(hperm.cons s).trans (List.Perm.swap r s left), ?_, hn, fun t ht hfit' => ?_⟩
      · exact List.pairwise_cons.2 ⟨fun t ht => hs t (hperm.symm.subset (List.mem_cons_of_mem r ht)), hleft⟩
      · rcases List.mem_cons.1 ht with rfl | ht
        · exact absurd hfit' hfit
        · exact hleast t ht hfit'

end PackedRun

/-! ## The listed runs -/

namespace FreeRuns

/-- The runs in the bins, when the bin at `i` holds the cells `chains i`. -/
def binned (chains : Nat → List Nat) : List (Nat × Nat) :=
  (List.range binCount).flatMap fun i => (chains i).map fun head => (head, i + 1)

/-- All runs of a free list, each a head with its length. -/
def listed (runs : FreeRuns) (chains : Nat → List Nat) : List (Nat × Nat) :=
  binned chains ++ runs.oversized.map fun r => (r.head, r.cells)

/-- The bins hold the chains `chains`, and the packed runs ascend. -/
structure Represents (runs : FreeRuns) (links : Links) (chains : Nat → List Nat) : Prop where
  /-- each bin leads through the links along its chain -/
  chain : ∀ i, i < binCount → links.Chain (runs.bin i) (chains i)
  /-- the packed runs ascend -/
  ascending : PackedRun.Ascending runs.oversized
  /-- the packed runs are too long for the bins -/
  long : ∀ r ∈ runs.oversized, binCount < r.cells

/-- The list holds exactly the runs `shelf`. -/
def Lists (runs : FreeRuns) (links : Links) (shelf : List (Nat × Nat)) : Prop :=
  ∃ chains, runs.Represents links chains ∧ (runs.listed chains).Perm shelf

theorem mem_binned {chains : Nat → List Nat} {head n : Nat} :
    (head, n) ∈ binned chains ↔ 0 < n ∧ n ≤ binCount ∧ head ∈ chains (n - 1) := by
  simp only [binned, List.mem_flatMap, List.mem_range, List.mem_map, Prod.mk.injEq]
  constructor
  · rintro ⟨i, hi, head, hhead, rfl, rfl⟩
    exact ⟨by omega, by omega, by simpa using hhead⟩
  · rintro ⟨hpos, hle, hhead⟩
    exact ⟨n - 1, by omega, head, hhead, rfl, by omega⟩

/-- Replacing the list at one index changes a concatenation by what that list gained. -/
theorem flatMap_update_cons {α β : Type} [DecidableEq α] (f : α → List β) (i : α) (b : β) :
    ∀ {is : List α}, is.Nodup → i ∈ is →
      (is.flatMap (Function.update f i (b :: f i))).Perm (b :: is.flatMap f) := by
  intro is
  induction is with
  | nil => exact fun _ hi => absurd hi List.not_mem_nil
  | cons j rest ih =>
    intro hnodup hi
    obtain ⟨hj, hrest⟩ := List.nodup_cons.1 hnodup
    rw [List.flatMap_cons, List.flatMap_cons]
    by_cases hij : j = i
    · subst hij
      have hsame : rest.flatMap (Function.update f j (b :: f j)) = rest.flatMap f := by
        refine List.flatMap_congr fun k hk => ?_
        rw [Function.update_of_ne]
        rintro rfl
        exact hj hk
      rw [hsame, Function.update_self]
      exact List.Perm.refl _
    · rw [Function.update_of_ne hij]
      have hmem : i ∈ rest := (List.mem_cons.1 hi).resolve_left (Ne.symm hij)
      exact ((ih hrest hmem).append_left (f j)).trans List.perm_middle

/-- A head that is put before the chain of a bin adds one run. -/
theorem binned_cons {chains : Nat → List Nat} {i head : Nat} (hi : i < binCount) :
    (binned (Function.update chains i (head :: chains i))).Perm ((head, i + 1) :: binned chains) := by
  have hfun : (fun j => (Function.update chains i (head :: chains i) j).map fun h => (h, j + 1)) =
      Function.update (fun j => (chains j).map fun h => (h, j + 1)) i
        ((head, i + 1) :: (chains i).map fun h => (h, i + 1)) := by
    funext j
    by_cases hj : j = i
    · subst hj
      simp
    · rw [Function.update_of_ne hj, Function.update_of_ne hj]
  rw [binned, hfun]
  exact flatMap_update_cons _ i _ List.nodup_range (List.mem_range.2 hi)

theorem bin_set (bins : Vector Nat binCount) (oversized : List PackedRun) (hint i j head : Nat)
    (hi : i < binCount) :
    (FreeRuns.mk (bins.setIfInBounds i head) oversized hint).bin j =
      if i = j then head else (FreeRuns.mk bins oversized hint).bin j := by
  have hi' : i < 8 := hi
  simp only [bin, Vector.toArray_setIfInBounds, Array.getD_eq_getD_getElem?,
    Array.getElem?_setIfInBounds, Vector.size_toArray]
  by_cases hij : i = j
  · subst hij
    simp [hi]
  · simp [hij]

@[simp] theorem bin_lowerHint (runs : FreeRuns) (cell i : Nat) :
    (runs.lowerHint cell).bin i = runs.bin i := rfl

/-- A list without runs represents empty chains. -/
theorem represents_empty (hint : Nat) (links : Links) : (empty hint).Represents links fun _ => [] where
  chain i hi := by
    have hi' : i < 8 := hi
    simp only [bin, empty, Vector.toArray_replicate, Array.getD_eq_getD_getElem?,
      Array.getElem?_replicate]
    simp [hi, Links.Chain]
  ascending := List.Pairwise.nil
  long r hr := absurd hr List.not_mem_nil

@[simp] theorem listed_empty (hint : Nat) : (empty hint).listed (fun _ => []) = [] := by
  simp [listed, empty, binned]

/-- The chains of the bins when a run was pushed: a short one goes to the front of its bin. -/
def pushed (chains : Nat → List Nat) (head cells : Nat) : Nat → List Nat :=
  if cells ≤ binCount then Function.update chains (cells - 1) (head :: chains (cells - 1)) else chains

/-- Pushing a run that starts at no listed head lists it in front of its bin, and lets the hint
fall to its head. -/
theorem push_chains {runs : FreeRuns} {links : Links} {chains : Nat → List Nat} {head cells : Nat}
    (hrep : runs.Represents links chains) (hpos : 0 < cells) (hcells : cells < 65536)
    (hhead : Links.Holds head) (hfresh : ∀ n, (head, n) ∉ runs.listed chains) :
    ∃ runs' links', runs.push links head cells = .ok (runs', links') ∧
      runs'.Represents links' (pushed chains head cells) ∧
      (runs'.listed (pushed chains head cells)).Perm ((head, cells) :: runs.listed chains) ∧
      runs'.hint = min runs.hint head := by
  rw [push, require_eq_ok_iff.2 hpos]
  by_cases hbin : cells ≤ binCount
  · have hi : cells - 1 < binCount := by omega
    have hnot : ∀ i, i < binCount → head ∉ chains i := fun i hi hmem =>
      hfresh (i + 1) (List.mem_append_left _ (mem_binned.2 ⟨by omega, by omega, by simpa using hmem⟩))
    have hchains : pushed chains head cells = Function.update chains (cells - 1) (head :: chains (cells - 1)) :=
      if_pos hbin
    rw [hchains]
    refine ⟨_, _, by simp only [hbin, if_true, Links.store_eq_ok hhead]; rfl, ?_, ?_, rfl⟩
    · refine ⟨fun i hlt => ?_, hrep.ascending, hrep.long⟩
      rw [bin_lowerHint, bin_set _ _ _ _ _ _ hi]
      by_cases hij : cells - 1 = i
      · subst hij
        rw [if_pos rfl, Function.update_self]
        refine ⟨rfl, hhead, ?_⟩
        rw [Zeroed.get_set, if_pos rfl]
        exact (hrep.chain _ hi).set (hnot _ hi)
      · rw [if_neg hij, Function.update_of_ne (Ne.symm hij)]
        exact (hrep.chain i hlt).set (hnot i hlt)
    · have hn : cells - 1 + 1 = cells := by omega
      have := (@binned_cons chains _ head hi).append_right
        (runs.oversized.map fun r => (r.head, r.cells))
      rw [hn] at this
      exact this
  · have hfits : head < 65536 := hhead.2
    have hchains : pushed chains head cells = chains := if_neg hbin
    rw [hchains]
    refine ⟨_, _, by simp only [hbin, if_false]; rfl, ?_, ?_, rfl⟩
    · refine ⟨hrep.chain, hrep.ascending.insert _, fun r hr => ?_⟩
      rcases List.mem_cons.1 ((PackedRun.insert_perm _ _).mem_iff.1 hr) with rfl | hr
      · rw [PackedRun.cells_pack hfits hcells]
        omega
      · exact hrep.long r hr
    · have hperm := ((PackedRun.insert_perm (.pack head cells) runs.oversized).map
        fun r => (r.head, r.cells)).append_left (binned chains)
      rw [List.map_cons, PackedRun.head_pack hfits hcells, PackedRun.cells_pack hfits hcells] at hperm
      exact hperm.trans List.perm_middle

/-- Pushing a run that starts at no listed head lists it, and lets the hint fall to its
head. -/
theorem push_spec {runs : FreeRuns} {links : Links} {chains : Nat → List Nat} {head cells : Nat}
    (hrep : runs.Represents links chains) (hpos : 0 < cells) (hcells : cells < 65536)
    (hhead : Links.Holds head) (hfresh : ∀ n, (head, n) ∉ runs.listed chains) :
    ∃ runs' links' chains', runs.push links head cells = .ok (runs', links') ∧
      runs'.Represents links' chains' ∧
      (runs'.listed chains').Perm ((head, cells) :: runs.listed chains) ∧
      runs'.hint = min runs.hint head := by
  obtain ⟨runs', links', hpush⟩ := push_chains hrep hpos hcells hhead hfresh
  exact ⟨runs', links', _, hpush⟩

/-- The first bin in a range that is not empty. -/
theorem firstBin_spec (runs : FreeRuns) (i n : Nat) :
    match runs.firstBin i n with
    | none => ∀ j, i ≤ j → j < i + n → runs.bin j = 0
    | some j => i ≤ j ∧ j < i + n ∧ runs.bin j ≠ 0 ∧ ∀ k, i ≤ k → k < j → runs.bin k = 0 := by
  induction n generalizing i with
  | zero => exact fun j _ _ => by omega
  | succ n ih =>
    rw [firstBin]
    by_cases hbin : runs.bin i = 0
    · simp only [hbin, bne_self_eq_false, Bool.false_eq_true, if_false]
      have hrest := ih (i + 1)
      cases hfirst : runs.firstBin (i + 1) n with
      | none =>
        rw [hfirst] at hrest
        intro j hj hlt
        rcases Nat.eq_or_lt_of_le hj with rfl | hj
        · exact hbin
        · exact hrest j hj (by omega)
      | some j =>
        rw [hfirst] at hrest
        obtain ⟨hj, hlt, hne, hclear⟩ := hrest
        refine ⟨by omega, by omega, hne, fun k hk hkj => ?_⟩
        rcases Nat.eq_or_lt_of_le hk with rfl | hk
        · exact hbin
        · exact hclear k hk hkj
    · rw [if_pos (by simpa using hbin)]
      exact ⟨le_refl i, by omega, hbin, fun k _ _ => by omega⟩

/-- What a search for `cells` cells leaves of the runs `before`: either no run is long
enough, or the shortest run that is long enough is gone. -/
def Takes (cells : Nat) (before after : List (Nat × Nat)) : Option (Nat × Nat) → Prop
  | none => before = after ∧ ∀ x ∈ before, x.2 < cells
  | some (head, n) => before.Perm ((head, n) :: after) ∧ cells ≤ n ∧ Links.Holds head ∧
      ∀ x ∈ before, cells ≤ x.2 → n ≤ x.2

/-- Which run a search for `cells` cells finds, and what it leaves of the list and of the chains of
its bins: the first run of the first bin that is long enough and not empty, else the least packed
run that is long enough. -/
inductive Found (runs : FreeRuns) (chains : Nat → List Nat) (cells : Nat) :
    Option (Nat × Nat) → FreeRuns → (Nat → List Nat) → Prop where
  | binned {i head : Nat} {rest : List Nat} {bins : Vector Nat binCount} :
      i < binCount → cells ≤ i + 1 → chains i = head :: rest → Links.Holds head →
      (∀ k, k < i → cells ≤ k + 1 → chains k = []) →
      Found runs chains cells (some (head, i + 1)) { runs with bins } (Function.update chains i rest)
  | packed {r : PackedRun} {others : List PackedRun} :
      (∀ k, k < binCount → cells ≤ k + 1 → chains k = []) →
      runs.oversized.Perm (r :: others) → cells ≤ r.cells →
      (∀ s ∈ runs.oversized, cells ≤ s.cells → r.toNat ≤ s.toNat) →
      Found runs chains cells (some (r.head, r.cells)) { runs with oversized := others } chains
  | nothing :
      (∀ k, k < binCount → cells ≤ k + 1 → chains k = []) → (∀ s ∈ runs.oversized, s.cells < cells) →
      Found runs chains cells none runs chains

/-- Taking a run finds one, and the links still lead along the chains that are left. -/
theorem take_found {runs : FreeRuns} {links : Links} {chains : Nat → List Nat} {cells : Nat}
    (hrep : runs.Represents links chains) (hpos : 0 < cells) :
    ∃ found runs' chains', runs.take links cells = .ok (found, runs') ∧
      runs'.Represents links chains' ∧ runs.Found chains cells found runs' chains' := by
  have hfirst := firstBin_spec runs (cells - 1) (binCount + 1 - cells)
  -- a bin without a head has no chain
  have hempty : ∀ k, k < binCount → runs.bin k = 0 → chains k = [] := by
    intro k hk hzero
    have hchain := hrep.chain k hk
    rw [hzero] at hchain
    exact hchain.eq_nil
  rw [take, require_eq_ok_iff.2 hpos]
  cases hbin : runs.firstBin (cells - 1) (binCount + 1 - cells) with
  | some i =>
    rw [hbin] at hfirst
    obtain ⟨hle, hlt, hne, hclear⟩ := hfirst
    have hi : i < binCount := by omega
    obtain ⟨rest, hchain, hhead, hrest⟩ := (hrep.chain i hi).eq_cons hne
    refine ⟨_, { runs with bins := runs.bins.setIfInBounds i (links.get (runs.bin i)) }, _,
      by simp only [bind, Except.bind, Links.next_eq_ok hhead]; rfl, ?_,
      .binned hi (by omega) hchain hhead fun k hk hfit => hempty k (by omega) (hclear k (by omega) hk)⟩
    refine ⟨fun j hj => ?_, hrep.ascending, hrep.long⟩
    rw [bin_set _ _ _ _ _ _ hi]
    by_cases hij : i = j
    · subst hij
      rw [if_pos rfl, Function.update_self]
      exact hrest
    · rw [if_neg hij, Function.update_of_ne (Ne.symm hij)]
      exact hrep.chain j hj
  | none =>
    rw [hbin] at hfirst
    have hclear : ∀ k, k < binCount → cells ≤ k + 1 → chains k = [] := fun k hk hfit =>
      hempty k hk (hfirst k (by omega) (by omega))
    cases hfit : PackedRun.takeFit cells runs.oversized with
    | none =>
      exact ⟨none, runs, chains, by simp only [bind, Except.bind]; rfl, hrep,
        .nothing hclear (PackedRun.takeFit_eq_none hfit)⟩
    | some found =>
      obtain ⟨r, others⟩ := found
      obtain ⟨hperm, hasc, hn, hleast⟩ := PackedRun.takeFit_eq_some hrep.ascending hfit
      refine ⟨some (r.head, r.cells), { runs with oversized := others }, chains,
        by simp only [bind, Except.bind]; rfl, ?_, .packed hclear hperm hn hleast⟩
      exact ⟨hrep.chain, hasc, fun s hs => hrep.long s (hperm.symm.subset (List.mem_cons_of_mem r hs))⟩

/-- What a search finds is the shortest run that is long enough, if there is one. -/
theorem Found.takes {runs runs' : FreeRuns} {links : Links} {chains chains' : Nat → List Nat} {cells : Nat}
    {found : Option (Nat × Nat)} (hfound : runs.Found chains cells found runs' chains')
    (hrep : runs.Represents links chains) (hholds : ∀ x ∈ runs.listed chains, Links.Holds x.1) :
    Takes cells (runs.listed chains) (runs'.listed chains') found := by
  -- no bin below `n` that is long enough holds a run
  have hshort : ∀ n, (∀ k, k < n → k < binCount → cells ≤ k + 1 → chains k = []) →
      ∀ x ∈ FreeRuns.binned chains, cells ≤ x.2 → n < x.2 := by
    intro n hclear x hx hfit
    obtain ⟨hx0, hx8, hmem⟩ := mem_binned.1 (show (x.1, x.2) ∈ _ from hx)
    by_contra hle
    rw [hclear (x.2 - 1) (by omega) (by omega) (by omega)] at hmem
    cases hmem
  cases hfound with
  | @binned i head rest bins hi hfits hchain hhead hclear =>
    refine ⟨?_, hfits, hhead, fun x hx hfit => ?_⟩
    · have hcons := @binned_cons (Function.update chains i rest) _ head hi
      rw [Function.update_idem, Function.update_self, ← hchain, Function.update_eq_self] at hcons
      exact hcons.append_right _
    · rcases List.mem_append.1 hx with hx | hx
      · exact hshort i (fun k hk _ => hclear k hk) x hx hfit
      · obtain ⟨r, hr, rfl⟩ := List.mem_map.1 hx
        have := hrep.long r hr
        show i + 1 ≤ r.cells
        omega
  | @packed r others hclear hperm hn hleast =>
    have hr : r ∈ runs.oversized := hperm.symm.subset List.mem_cons_self
    refine ⟨((hperm.map _).append_left (FreeRuns.binned chains)).trans List.perm_middle, hn, ?_,
      fun x hx hfit => ?_⟩
    · exact hholds (r.head, r.cells) (List.mem_append_right _ (List.mem_map.2 ⟨r, hr, rfl⟩))
    · rcases List.mem_append.1 hx with hx | hx
      · have := hshort binCount (fun k hk _ => hclear k hk) x hx hfit
        have := (mem_binned.1 (show (x.1, x.2) ∈ _ from hx)).2.1
        omega
      · obtain ⟨s, hs, rfl⟩ := List.mem_map.1 hx
        exact Nat.div_le_div_right (hleast s hs hfit)
  | nothing hclear hlong =>
    refine ⟨rfl, fun x hx => ?_⟩
    rcases List.mem_append.1 hx with hx | hx
    · by_contra hfit
      have := hshort binCount (fun k hk _ => hclear k hk) x hx (not_lt.1 hfit)
      have := (mem_binned.1 (show (x.1, x.2) ∈ _ from hx)).2.1
      omega
    · obtain ⟨s, hs, rfl⟩ := List.mem_map.1 hx
      exact hlong s hs

theorem Found.hint {runs runs' : FreeRuns} {chains chains' : Nat → List Nat} {cells : Nat}
    {found : Option (Nat × Nat)} (hfound : runs.Found chains cells found runs' chains') :
    runs'.hint = runs.hint := by
  cases hfound <;> rfl

/-- Taking a run removes the shortest one that is long enough, if there is one. -/
theorem take_spec {runs : FreeRuns} {links : Links} {chains : Nat → List Nat} {cells : Nat}
    (hrep : runs.Represents links chains) (hpos : 0 < cells)
    (hholds : ∀ x ∈ runs.listed chains, Links.Holds x.1) :
    ∃ found runs' chains', runs.take links cells = .ok (found, runs') ∧
      runs'.Represents links chains' ∧ runs'.hint = runs.hint ∧
      Takes cells (runs.listed chains) (runs'.listed chains') found := by
  obtain ⟨found, runs', chains', htake, hrep', hfound⟩ := take_found hrep hpos
  exact ⟨found, runs', chains', htake, hrep', hfound.hint, hfound.takes hrep hholds⟩

end FreeRuns

end Tricolor
