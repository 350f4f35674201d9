import Tricolor.Proofs.FreeRuns
import Tricolor.Proofs.Regions

/-!
# Best fit

A free list on its own, over memory in which nobody else writes to a listed run, behaves as a set of runs. A
history keeps that set beside the list: the runs that were pushed and not yet taken, the last one pushed in
front. At every point of a history the list holds just these runs, its hint is above no head of theirs, and a
search finds the shortest run that is long enough: of equally long ones the one pushed last, where bins hold
them, and the one with the lowest head, where they are packed.
-/

namespace Tricolor

namespace FreeRuns

/-- The run has a cell, and its cells can hold objects. -/
structure Usable (r : Nat × Nat) : Prop where
  pos : 0 < r.2
  ge : firstCell ≤ r.1
  le : r.1 + r.2 ≤ arenaCells

theorem Usable.holds {r : Nat × Nat} (h : Usable r) : Links.Holds r.1 :=
  ⟨h.ge, by have := h.pos; have := h.le; omega⟩

theorem Usable.lt {r : Nat × Nat} (h : Usable r) : r.2 < 65536 := by
  have : arenaCells = 65536 := rfl
  have : firstCell = 1024 := rfl
  have := h.ge
  have := h.le
  omega

/-- Runs that are apart and have a cell start at different cells. -/
theorem Usable.head_ne {r s : Nat × Nat} (hr : Usable r) (hs : Usable s) (hapart : Apart r s) : r.1 ≠ s.1 := by
  have := hr.pos
  have := hs.pos
  rcases hapart with h | h <;> omega

/-- The histories of a free list: the list, the links and the runs that were pushed and not taken since, the
last one pushed first. Between the operations on the list, others may write to cells outside these runs. -/
inductive History : FreeRuns → Links → List (Nat × Nat) → Prop where
  | empty (hint : Nat) (links : Links) : History (.empty hint) links []
  | push {runs runs' : FreeRuns} {links links' : Links} {shelf : List (Nat × Nat)} {head cells : Nat} :
      History runs links shelf → Usable (head, cells) → (∀ s ∈ shelf, Apart (head, cells) s) →
      runs.push links head cells = .ok (runs', links') → History runs' links' ((head, cells) :: shelf)
  | take {runs runs' : FreeRuns} {links : Links} {shelf : List (Nat × Nat)} {cells : Nat} {r : Nat × Nat} :
      History runs links shelf → 0 < cells → runs.take links cells = .ok (some r, runs') →
      History runs' links (shelf.erase r)
  | refuse {runs runs' : FreeRuns} {links : Links} {shelf : List (Nat × Nat)} {cells : Nat} :
      History runs links shelf → 0 < cells → runs.take links cells = .ok (none, runs') →
      History runs' links shelf
  | clear {runs : FreeRuns} {links : Links} {shelf : List (Nat × Nat)} (hint : Nat) :
      History runs links shelf → History (.empty hint) links []
  | lower {runs : FreeRuns} {links : Links} {shelf : List (Nat × Nat)} (cell : Nat) :
      History runs links shelf → History (runs.lowerHint cell) links shelf
  | write {runs : FreeRuns} {links : Links} {shelf : List (Nat × Nat)} {cell : Nat} (target : Nat) :
      History runs links shelf → (∀ s ∈ shelf, cell < s.1 ∨ s.1 + s.2 ≤ cell) →
      History runs (Zeroed.set links cell target) shelf

/-! ## The chains of the bins -/

theorem binned_congr {chains chains' : Nat → List Nat} (hsame : ∀ i, i < binCount → chains' i = chains i) :
    binned chains' = binned chains :=
  List.flatMap_congr fun i hi => by rw [hsame i (List.mem_range.1 hi)]

theorem listed_congr {runs : FreeRuns} {chains chains' : Nat → List Nat}
    (hsame : ∀ i, i < binCount → chains' i = chains i) : runs.listed chains' = runs.listed chains := by
  rw [listed, listed, binned_congr hsame]

theorem Represents.congr {runs : FreeRuns} {links : Links} {chains chains' : Nat → List Nat}
    (hsame : ∀ i, i < binCount → chains' i = chains i) (h : runs.Represents links chains) :
    runs.Represents links chains' where
  chain i hi := by
    rw [hsame i hi]
    exact h.chain i hi
  ascending := h.ascending
  long := h.long

/-- The heads in the bin at `i`: of the runs of `i + 1` cells, the last one pushed first. -/
def stack (shelf : List (Nat × Nat)) (i : Nat) : List Nat :=
  (shelf.filter fun r => r.2 = i + 1).map Prod.fst

theorem stack_cons {shelf : List (Nat × Nat)} {head cells i : Nat} (hpos : 0 < cells) (hi : i < binCount) :
    stack ((head, cells) :: shelf) i = pushed (stack shelf) head cells i := by
  have hcount : binCount = 8 := rfl
  by_cases hbin : cells = i + 1
  · subst hbin
    rw [pushed, if_pos (by omega), Nat.add_sub_cancel, Function.update_self, stack, stack,
      List.filter_cons_of_pos (by simp), List.map_cons]
  · rw [stack, List.filter_cons_of_neg (by simpa using hbin)]
    by_cases hshort : cells ≤ binCount
    · rw [pushed, if_pos hshort, Function.update_of_ne (by omega)]
      rfl
    · rw [pushed, if_neg hshort]
      rfl

/-- A run leaves the bins of other lengths as they are. -/
theorem stack_erase_of_ne {shelf : List (Nat × Nat)} {r : Nat × Nat} {i : Nat} (hne : r.2 ≠ i + 1) :
    stack (shelf.erase r) i = stack shelf i := by
  have hnot : r ∉ shelf.filter fun s => s.2 = i + 1 := fun h => hne (by simpa using (List.mem_filter.1 h).2)
  rw [stack, ← List.erase_filter, List.erase_of_not_mem hnot, stack]

/-- The run pushed last into a bin is the first of its length on the shelf, and leaves the others behind. -/
theorem stack_eq_cons {shelf : List (Nat × Nat)} {i head : Nat} {rest : List Nat}
    (h : stack shelf i = head :: rest) :
    shelf.find? (fun s => s.2 = i + 1) = some (head, i + 1) ∧ stack (shelf.erase (head, i + 1)) i = rest := by
  obtain ⟨r, runs, hfilter, rfl, hrest⟩ := List.map_eq_cons_iff.1 h
  have hr : r ∈ shelf.filter fun s => s.2 = i + 1 := hfilter ▸ List.mem_cons_self
  obtain ⟨head, n⟩ := r
  obtain rfl : n = i + 1 := by simpa using (List.mem_filter.1 hr).2
  refine ⟨by rw [← List.head?_filter, hfilter, List.head?_cons], ?_⟩
  rw [stack, ← List.erase_filter, hfilter, List.erase_cons_head, hrest]

/-! ## The list and its shelf -/

/-- A list holds one set of runs. -/
theorem Lists.perm {runs : FreeRuns} {links : Links} {shelf shelf' : List (Nat × Nat)}
    (h : runs.Lists links shelf) (h' : runs.Lists links shelf') : shelf.Perm shelf' := by
  obtain ⟨chains, hrep, hperm⟩ := h
  obtain ⟨chains', hrep', hperm'⟩ := h'
  have hsame : ∀ i, i < binCount → chains i = chains' i := fun i hi =>
    (hrep.chain i hi).unique (hrep'.chain i hi)
  rw [listed_congr hsame] at hperm
  exact hperm.symm.trans hperm'

/-- The list holds the runs of the shelf, each bin those of its length, the last one pushed first. -/
structure Shelved (runs : FreeRuns) (links : Links) (shelf : List (Nat × Nat)) : Prop where
  represents : runs.Represents links (stack shelf)
  listed : (runs.listed (stack shelf)).Perm shelf
  usable : ∀ r ∈ shelf, Usable r
  apart : shelf.Pairwise Apart
  hint : ∀ r ∈ shelf, runs.hint ≤ r.1

/-- What a search for `cells` cells is to find on the shelf. -/
structure BestFit (shelf : List (Nat × Nat)) (cells : Nat) (r : Nat × Nat) : Prop where
  mem : r ∈ shelf
  fits : cells ≤ r.2
  /-- no run that is long enough is shorter -/
  shortest : ∀ s ∈ shelf, cells ≤ s.2 → r.2 ≤ s.2
  /-- a short one is the last one of its length that was pushed -/
  last : r.2 ≤ binCount → shelf.find? (fun s => s.2 = r.2) = some r
  /-- a longer one is the lowest one of its length -/
  lowest : binCount < r.2 → ∀ s ∈ shelf, s.2 = r.2 → r.1 ≤ s.1

namespace Shelved

variable {runs runs' : FreeRuns} {links links' : Links} {shelf : List (Nat × Nat)} {head cells : Nat}

theorem lists (h : runs.Shelved links shelf) : runs.Lists links shelf :=
  ⟨stack shelf, h.represents, h.listed⟩

theorem nodup (h : runs.Shelved links shelf) : shelf.Nodup :=
  h.apart.imp_of_mem fun hr hs hapart heq =>
    (h.usable _ hr).head_ne (h.usable _ hs) hapart (congrArg Prod.fst heq)

theorem empty (hint : Nat) (links : Links) : (FreeRuns.empty hint).Shelved links [] where
  represents := represents_empty hint links
  listed := List.Perm.of_eq (listed_empty hint)
  usable _ hr := absurd hr List.not_mem_nil
  apart := List.Pairwise.nil
  hint _ hr := absurd hr List.not_mem_nil

/-- A run that has no cell in common with a run on the shelf can be pushed. -/
theorem push (h : runs.Shelved links shelf) (husable : Usable (head, cells))
    (hapart : ∀ s ∈ shelf, Apart (head, cells) s) :
    ∃ runs' links', runs.push links head cells = .ok (runs', links') ∧
      runs'.Shelved links' ((head, cells) :: shelf) := by
  have hfresh : ∀ n, (head, n) ∉ runs.listed (stack shelf) := fun n hmem => by
    have hmem := h.listed.mem_iff.1 hmem
    exact husable.head_ne (h.usable _ hmem) (hapart _ hmem) rfl
  obtain ⟨runs', links', hpush, hrep, hperm, hhint⟩ :=
    push_chains h.represents husable.pos husable.lt husable.holds hfresh
  have hchains : ∀ i, i < binCount →
      stack ((head, cells) :: shelf) i = pushed (stack shelf) head cells i :=
    fun i hi => stack_cons husable.pos hi
  refine ⟨runs', links', hpush, hrep.congr hchains, ?_, ?_, List.pairwise_cons.2 ⟨hapart, h.apart⟩, ?_⟩
  · rw [listed_congr hchains]
    exact hperm.trans (h.listed.cons (head, cells))
  · exact List.forall_mem_cons.2 ⟨husable, h.usable⟩
  · rw [hhint]
    refine List.forall_mem_cons.2 ⟨Nat.min_le_right _ _, fun r hr => ?_⟩
    exact (Nat.min_le_left _ _).trans (h.hint r hr)

/-- What is found is gone from the bins and stays in no other. -/
theorem stack_erase {r : Nat × Nat} {chains' : Nat → List Nat}
    (hfound : runs.Found (stack shelf) cells (some r) runs' chains') (hlong : ∀ s ∈ runs.oversized, binCount < s.cells)
    {i : Nat} (hi : i < binCount) : stack (shelf.erase r) i = chains' i := by
  cases hfound with
  | @binned j head rest bins hj hfits hchain hhead hclear =>
    by_cases hij : i = j
    · subst hij
      rw [Function.update_self, (stack_eq_cons hchain).2]
    · rw [Function.update_of_ne hij, stack_erase_of_ne (by simpa using Ne.symm hij)]
  | @packed r others hclear hperm hfits hleast =>
    have := hlong r (hperm.symm.subset List.mem_cons_self)
    exact stack_erase_of_ne (by show r.cells ≠ i + 1; omega)

/-- What is found is the best fit. -/
theorem bestFit {r : Nat × Nat} {chains' : Nat → List Nat} (h : runs.Shelved links shelf)
    (hfound : runs.Found (stack shelf) cells (some r) runs' chains')
    (htakes : Takes cells (runs.listed (stack shelf)) (runs'.listed chains') (some r)) :
    BestFit shelf cells r := by
  obtain ⟨hperm, hfits, -, hleast⟩ := htakes
  have hmem : r ∈ shelf := h.listed.subset (hperm.symm.subset List.mem_cons_self)
  refine ⟨hmem, hfits, fun s hs => hleast s (h.listed.symm.subset hs), fun hshort => ?_, fun hbig s hs heq => ?_⟩
  · cases hfound with
    | binned hj hfits hchain => exact (stack_eq_cons hchain).1
    | @packed r others hclear hpacked =>
      exact absurd (h.represents.long r (hpacked.symm.subset List.mem_cons_self)) (not_lt.2 hshort)
  · cases hfound with
    | binned hj => exact absurd hbig (not_lt.2 hj)
    | @packed r others hclear hpacked hlong hlowest =>
      -- a run this long is packed, and the words of equally long runs ascend with their heads
      rcases List.mem_append.1 (h.listed.symm.subset hs) with hs | hs
      · have := (mem_binned.1 (show (s.1, s.2) ∈ _ from hs)).2.1
        exact absurd this (not_le.2 (heq ▸ hbig))
      · obtain ⟨p, hp, rfl⟩ := List.mem_map.1 hs
        have hcells : p.toNat / 65536 = r.toNat / 65536 := heq
        have hle : r.toNat ≤ p.toNat := hlowest p hp (by show cells ≤ p.toNat / 65536; rw [hcells]; exact hlong)
        show r.toNat % 65536 ≤ p.toNat % 65536
        omega

/-- A search finds the best fit and takes it from the shelf, or no run is long enough. -/
theorem take (h : runs.Shelved links shelf) (hpos : 0 < cells) :
    ∃ found runs', runs.take links cells = .ok (found, runs') ∧
      match found with
      | none => runs'.Shelved links shelf ∧ ∀ s ∈ shelf, s.2 < cells
      | some r => runs'.Shelved links (shelf.erase r) ∧ BestFit shelf cells r := by
  obtain ⟨found, runs', chains', htake, hrep, hfound⟩ := take_found h.represents hpos
  have hholds : ∀ x ∈ runs.listed (stack shelf), Links.Holds x.1 := fun x hx =>
    (h.usable x (h.listed.subset hx)).holds
  have htakes := hfound.takes h.represents hholds
  refine ⟨found, runs', htake, ?_⟩
  cases found with
  | none =>
    cases hfound
    exact ⟨h, fun s hs => htakes.2 s (h.listed.symm.subset hs)⟩
  | some r =>
    have hbest := h.bestFit hfound htakes
    have hchains : ∀ i, i < binCount → stack (shelf.erase r) i = chains' i := fun i hi =>
      stack_erase hfound h.represents.long hi
    refine ⟨⟨hrep.congr hchains, ?_, fun s hs => h.usable s (List.mem_of_mem_erase hs), h.apart.erase r,
      fun s hs => hfound.hint ▸ h.hint s (List.mem_of_mem_erase hs)⟩, hbest⟩
    rw [listed_congr hchains]
    exact (List.cons_perm_iff_perm_erase.1 (htakes.1.symm.trans h.listed)).2

theorem lower (h : runs.Shelved links shelf) (cell : Nat) : (runs.lowerHint cell).Shelved links shelf where
  represents := ⟨h.represents.chain, h.represents.ascending, h.represents.long⟩
  listed := h.listed
  usable := h.usable
  apart := h.apart
  hint r hr := (Nat.min_le_left _ _).trans (h.hint r hr)

/-- A write outside the shelf meets no link of the list. -/
theorem write {cell : Nat} (h : runs.Shelved links shelf) (target : Nat)
    (hout : ∀ s ∈ shelf, cell < s.1 ∨ s.1 + s.2 ≤ cell) :
    runs.Shelved (Zeroed.set links cell target) shelf := by
  refine ⟨⟨fun i hi => (h.represents.chain i hi).set fun hmem => ?_, h.represents.ascending, h.represents.long⟩,
    h.listed, h.usable, h.apart, h.hint⟩
  obtain ⟨s, hs, rfl⟩ := List.mem_map.1 hmem
  have hs := List.mem_of_mem_filter hs
  have := (h.usable s hs).pos
  have := hout s hs
  omega

end Shelved

/-- Throughout a history the list holds the runs of the shelf. -/
theorem History.shelved {runs : FreeRuns} {links : Links} {shelf : List (Nat × Nat)}
    (h : History runs links shelf) : runs.Shelved links shelf := by
  induction h with
  | empty hint links => exact .empty hint links
  | push _ husable hapart hpush ih =>
    obtain ⟨runs', links', hpush', h'⟩ := ih.push husable hapart
    cases hpush.symm.trans hpush'
    exact h'
  | take _ hpos htake ih =>
    obtain ⟨found, runs', htake', h'⟩ := ih.take hpos
    cases htake.symm.trans htake'
    exact h'.1
  | refuse _ hpos htake ih =>
    obtain ⟨found, runs', htake', h'⟩ := ih.take hpos
    cases htake.symm.trans htake'
    exact h'.1
  | clear hint _ _ => exact .empty hint _
  | lower cell _ ih => exact ih.lower cell
  | write target _ hout ih => exact ih.write target hout

/-- At every point of a history the list is a set of runs: it holds each run of the shelf once, and its hint is
above none of their heads; a run that is apart from them can be pushed and is then held too; and a search either
finds the best fit, which is then the only run gone, or there is no run that is long enough and none is gone. -/
theorem exact_best_fit {runs : FreeRuns} {links : Links} {shelf : List (Nat × Nat)}
    (h : History runs links shelf) :
    runs.Lists links shelf ∧ shelf.Nodup ∧ (∀ r ∈ shelf, runs.hint ≤ r.1) ∧
      (∀ head cells, Usable (head, cells) → (∀ s ∈ shelf, Apart (head, cells) s) →
        ∃ runs' links', runs.push links head cells = .ok (runs', links') ∧
          runs'.Lists links' ((head, cells) :: shelf)) ∧
      ∀ cells, 0 < cells → ∃ found runs', runs.take links cells = .ok (found, runs') ∧
        (found = none ↔ ∀ s ∈ shelf, s.2 < cells) ∧
        (found = none → runs'.Lists links shelf) ∧
        ∀ r, found = some r → BestFit shelf cells r ∧ runs'.Lists links (shelf.erase r) := by
  have hs := h.shelved
  refine ⟨hs.lists, hs.nodup, hs.hint, fun head cells husable hapart => ?_, fun cells hpos => ?_⟩
  · obtain ⟨runs', links', hpush, h'⟩ := hs.push husable hapart
    exact ⟨runs', links', hpush, h'.lists⟩
  · obtain ⟨found, runs', htake, h'⟩ := hs.take hpos
    refine ⟨found, runs', htake, ?_⟩
    cases found with
    | none => exact ⟨iff_of_true rfl h'.2, fun _ => h'.1.lists, fun r hr => absurd hr.symm (Option.some_ne_none r)⟩
    | some r =>
      refine ⟨iff_of_false (Option.some_ne_none r) fun hshort => ?_, fun hr => absurd hr (Option.some_ne_none r),
        fun s hr => ?_⟩
      · exact absurd (hshort r h'.2.mem) (not_lt.2 h'.2.fits)
      · cases hr
        exact ⟨h'.2, h'.1.lists⟩

/-- Of two runs of two cells the one pushed last is taken, though it is the higher one. -/
theorem last_pushed_taken_first : ∃ runs links runs', History runs links [(1044, 2), (1034, 2)] ∧
    runs.take links 2 = .ok (some (1044, 2), runs') ∧ runs'.Lists links [(1034, 2)] := by
  have hempty := History.empty firstCell .empty
  have hlow : Usable (1034, 2) := ⟨by decide, by decide, by decide⟩
  have hhigh : Usable (1044, 2) := ⟨by decide, by decide, by decide⟩
  obtain ⟨-, -, -, hpush, -⟩ := exact_best_fit hempty
  obtain ⟨runs₁, links₁, hpush₁, -⟩ := hpush 1034 2 hlow (by decide)
  have hone := hempty.push hlow (by decide) hpush₁
  obtain ⟨-, -, -, hpush, -⟩ := exact_best_fit hone
  obtain ⟨runs₂, links₂, hpush₂, -⟩ := hpush 1044 2 hhigh (by decide)
  have htwo := hone.push hhigh (by decide) hpush₂
  obtain ⟨-, -, -, -, htake⟩ := exact_best_fit htwo
  obtain ⟨found, runs₃, htake, hnone, -, hsome⟩ := htake 2 (by decide)
  obtain ⟨r, rfl⟩ : ∃ r, found = some r :=
    Option.ne_none_iff_exists'.1 fun h => absurd (hnone.1 h) (by decide)
  obtain ⟨hbest, hlists⟩ := hsome r rfl
  have hlast := hbest.last
  rcases List.mem_pair.1 hbest.mem with rfl | rfl
  · exact ⟨runs₂, links₂, runs₃, htwo, htake, hlists⟩
  · exact absurd (hlast (by decide)) (by decide)

end FreeRuns

end Tricolor
