import Tricolor.Proofs.Space.Hosting

/-!
# Scanning words is searching cells

A scan shifts its first word, takes the following ones whole, and may meet bits past its limit in the last one. A
search looks at one cell after the other. They answer the same, over all bitmaps and all ranges of cells of an
arena. So the next boundary is the first cell with a bit in either bitmap, and the length of an object is the
distance to it, or to the top where there is none.
-/

namespace Tricolor

namespace Bitmap

variable {p : Nat → Bool} {start limit c : Nat}

/-- The first cell from `start` below `limit` with the property `p`, looked for a cell at a time. -/
def search (p : Nat → Bool) (start limit : Nat) : Option Nat :=
  (List.range' start (limit - start)).find? p

theorem search_eq_none_iff : search p start limit = none ↔ ∀ c, start ≤ c → c < limit → p c = false := by
  simp only [search, List.find?_eq_none, List.mem_range'_1, Bool.not_eq_true]
  exact ⟨fun h c hc hlt => h c ⟨hc, by omega⟩, fun h c hc => h c hc.1 (by omega)⟩

theorem search_eq_some_iff : search p start limit = some c ↔
    start ≤ c ∧ c < limit ∧ p c = true ∧ ∀ d, start ≤ d → d < c → p d = false := by
  rw [search, List.find?_range'_eq_some]
  simp only [List.mem_range'_1, Bool.not_eq_true', and_assoc]
  constructor
  · rintro ⟨hp, hc, hlt, hleast⟩
    exact ⟨hc, by omega, hp, hleast⟩
  · rintro ⟨hc, hlt, hp, hleast⟩
    exact ⟨hp, hc, by omega, hleast⟩

/-- What a scan finds is what the search finds. -/
theorem Finds.eq_search {found : Option Nat} (h : Finds p start limit found) : found = search p start limit := by
  cases found with
  | none => exact (search_eq_none_iff.2 h).symm
  | some c => exact (search_eq_some_iff.2 h).symm

end Bitmap

namespace Arena

open Bitmap (search)

variable {a : Arena} {head : Nat}

theorem nextBoundary_eq_search (a : Arena) (start : Nat) (htop : a.top ≤ arenaCells) :
    a.nextBoundary start = (search a.isBoundary start a.top).getD a.top :=
  congrArg (Option.getD · a.top) (Bitmap.finds_scan Bitmap.bitwise_or a.block a.mark start a.top htop).eq_search

/-- The next boundary from a cell below the top on is not in front of that cell. -/
theorem objectCells_eq_search (htop : a.top ≤ arenaCells) (hhead : a.isAllocated head = true) :
    ∃ n, 0 < n ∧ a.objectCells head = .ok n ∧ head + n = (search a.isBoundary (head + 1) a.top).getD a.top := by
  have hlt : head < a.top := (isAllocated_iff.1 hhead).2.1
  have hle : head + 1 ≤ a.nextBoundary (head + 1) := (stretch_nextBoundary a hlt htop).le
  refine ⟨a.extent head, ?_, objectCells_eq hhead, ?_⟩
  · rw [extent]
    omega
  · rw [← nextBoundary_eq_search a _ htop, extent]
    omega

end Arena

open Bitmap in
/-- A scan of two bitmaps answers what a search of the cells answers: the least cell of its range whose bit is set
in the selected combination of the two words with its bits, whichever words are selected. Where they are selected
bit by bit, it is the least cell whose two bits are. So the next boundary of an arena is the least cell from its
start on with a bit in either bitmap, at most the top, and the length of an object is its distance. -/
theorem scanning_words_is_searching_cells :
    (∀ (block mark : Bitmap) (start limit : Nat), limit ≤ arenaCells →
      (∀ select, scan select block mark start limit = search (selected select block mark) start limit) ∧
      ∀ select g, Bitwise select g →
        scan select block mark start limit = search (fun c => g (block.get c) (mark.get c)) start limit) ∧
    ∀ a : Arena, a.top ≤ arenaCells →
      (∀ start, a.nextBoundary start = (search a.isBoundary start a.top).getD a.top) ∧
      ∀ head, a.isAllocated head = true → ∃ n, 0 < n ∧ a.objectCells head = .ok n ∧
        head + n = (search a.isBoundary (head + 1) a.top).getD a.top := by
  refine ⟨fun block mark start limit hlimit => ⟨fun select => ?_, fun select g hsel => ?_⟩, fun a htop => ⟨?_, ?_⟩⟩
  · exact (finds_scan_selected select block mark start limit hlimit).eq_search
  · exact (finds_scan hsel block mark start limit hlimit).eq_search
  · exact fun start => a.nextBoundary_eq_search start htop
  · exact fun head hhead => Arena.objectCells_eq_search htop hhead

open Bitmap in
/-- Three objects in a row: the first ends at the edge of a word, the second in another word than it starts, and
the third at the top. -/
theorem objects_across_words_measured : ∃ a : Arena, a.top = 1195 ∧
    a.objectCells 1024 = .ok 64 ∧ search a.isBoundary 1025 a.top = some 1088 ∧
    a.objectCells 1088 = .ok 100 ∧ search a.isBoundary 1089 a.top = some 1188 ∧
    a.nextBoundary 1189 = 1195 ∧ search a.isBoundary 1189 a.top = none ∧
    search (fun c => a.block.get c && !a.mark.get c) 1025 1195 = some 1188 := by
  let first := answerOf ((Arena.new 1 0).alloc 64 false) (by decide +kernel)
  let second := answerOf (first.2.alloc 100 true) (by decide +kernel)
  let third := answerOf (second.2.alloc 7 false) (by decide +kernel)
  let a := third.2
  obtain ⟨hscan, harena⟩ := scanning_words_is_searching_cells
  have htop : a.top = 1195 := by decide +kernel
  obtain ⟨-, hobject⟩ := harena a (by decide +kernel)
  -- the search follows from the length, which is read off the words
  have hsearch : ∀ head n, a.isAllocated head = true → a.objectCells head = .ok n → head + n < 1195 →
      search a.isBoundary (head + 1) a.top = some (head + n) := by
    intro head n hhead hcells hlt
    obtain ⟨n', -, hcells', hend⟩ := hobject head hhead
    rw [Except.ok.inj (hcells'.symm.trans hcells)] at hend
    cases hfound : search a.isBoundary (head + 1) a.top with
    | none =>
      rw [hfound, Option.getD_none, htop] at hend
      omega
    | some c => rw [hend, hfound, Option.getD_some]
  have hfirst : a.objectCells 1024 = .ok 64 := by decide +kernel
  have hsecond : a.objectCells 1088 = .ok 100 := by decide +kernel
  have hlast : scan (· ||| ·) a.block a.mark 1189 a.top = none := by decide +kernel
  have hwhite : scan (fun block mark => block &&& ~~~mark) a.block a.mark 1025 1195 = some 1188 := by decide +kernel
  have hbits : Bitwise (fun block mark => block &&& ~~~mark) fun block mark => block && !mark := by
    intro v w i hi
    simp [hi]
  refine ⟨a, htop, hfirst, hsearch 1024 64 (by decide +kernel) hfirst (by decide), hsecond,
    hsearch 1088 100 (by decide +kernel) hsecond (by decide), by decide +kernel, ?_, ?_⟩
  · exact ((hscan a.block a.mark 1189 a.top (by decide +kernel)).2 _ _ bitwise_or).symm.trans hlast
  · exact ((hscan a.block a.mark 1025 1195 (by decide)).2 _ _ hbits).symm.trans hwhite

end Tricolor
