import Mathlib.Algebra.BigOperators.Group.List.Basic
import Mathlib.Algebra.Ring.Nat
import Mathlib.Data.List.Nodup
import Mathlib.Data.List.Range
import Tricolor.Arena.Sweep
import Tricolor.Proofs.FreeRuns
import Tricolor.Proofs.Scan

/-!
# How objects and free runs tile an arena

`Arena.Tiled` is the invariant of an arena. The cells that head an object or a free run
cut the cells from `firstCell` to `top` into stretches without overlap or gap; the free
list holds exactly the stretches that no object heads, each with its length, and the
cells from `top` on are blank. So the objects fill what the free runs leave:
`Tiled.sum_extent` says that the cells in use are the sum of the objects' lengths.
-/

namespace Tricolor

theorem firstCell_eq : firstCell = 1024 := rfl

theorem arenaCells_eq : arenaCells = 65536 := rfl

/-! ## Stretches between boundaries -/

/-- The stretch of cells from `start` on without a boundary ends at `stop`: at the next
boundary, or at `top`. -/
structure Stretch (boundary : Nat → Bool) (top start stop : Nat) : Prop where
  le : start ≤ stop
  le_top : stop ≤ top
  clear : ∀ c, start ≤ c → c < stop → boundary c = false
  ends : stop < top → boundary stop = true

namespace Stretch

variable {boundary boundary' : Nat → Bool} {top top' start stop stop' : Nat}

theorem unique (h : Stretch boundary top start stop) (h' : Stretch boundary top start stop') :
    stop = stop' := by
  rcases Nat.lt_trichotomy stop stop' with hlt | heq | hlt
  · have hset := h.ends (lt_of_lt_of_le hlt h'.le_top)
    rw [h'.clear stop h.le hlt] at hset
    cases hset
  · exact heq
  · have hset := h'.ends (lt_of_lt_of_le hlt h.le_top)
    rw [h.clear stop' h'.le hlt] at hset
    cases hset

/-- A stretch only depends on the boundaries in it and at its end. -/
theorem congr (h : Stretch boundary top start stop)
    (hsame : ∀ c, start ≤ c → c ≤ stop → c < top → boundary' c = boundary c) :
    Stretch boundary' top start stop where
  le := h.le
  le_top := h.le_top
  clear c hc hlt := by
    rw [hsame c hc (le_of_lt hlt) (lt_of_lt_of_le hlt h.le_top)]
    exact h.clear c hc hlt
  ends hlt := by
    rw [hsame stop h.le (le_refl stop) hlt]
    exact h.ends hlt

/-- A boundary in front of a cell of a stretch is in front of the stretch. -/
theorem boundary_lt (h : Stretch boundary top start stop) {c : Nat} (hc : boundary c = true)
    (hlt : c < stop) : c < start := by
  by_contra hge
  rw [h.clear c (by omega) hlt] at hc
  cases hc

end Stretch

namespace Arena

/-- Whether a cell heads an object or a free run. -/
def isBoundary (a : Arena) (c : Nat) : Bool := a.block.get c || a.mark.get c

/-- The length of the stretch that `head` heads. -/
def extent (a : Arena) (head : Nat) : Nat := a.nextBoundary (head + 1) - head

theorem isAllocated_iff {a : Arena} {c : Nat} :
    a.isAllocated c = true ↔ firstCell ≤ c ∧ c < a.top ∧ a.block.get c = true := by
  simp [isAllocated, and_assoc]

/-- The next boundary ends the stretch. -/
theorem stretch_nextBoundary (a : Arena) {start : Nat} (hstart : start ≤ a.top)
    (htop : a.top ≤ arenaCells) :
    Stretch a.isBoundary a.top start (a.nextBoundary start) := by
  have hfinds := Bitmap.finds_scan Bitmap.bitwise_or a.block a.mark start a.top htop
  unfold nextBoundary
  cases hscan : Bitmap.scan (· ||| ·) a.block a.mark start a.top with
  | none =>
    rw [hscan] at hfinds
    exact ⟨hstart, le_refl _, hfinds, fun hlt => absurd hlt (lt_irrefl _)⟩
  | some c =>
    rw [hscan] at hfinds
    obtain ⟨hc, hlt, hset, hleast⟩ := hfinds
    exact ⟨hc, le_of_lt hlt, hleast, fun _ => hset⟩

/-- The free list, whose bins hold `chains`, lists exactly the stretches that no object
heads, and the cells from `top` on are blank. -/
structure TiledBy (a : Arena) (chains : Nat → List Nat) : Prop where
  top_ge : firstCell ≤ a.top
  top_le : a.top ≤ arenaCells
  /-- no bit is set from `top` on -/
  blank : ∀ c, a.top ≤ c → c < arenaCells → a.isBoundary c = false
  /-- the first stretch starts at the first cell -/
  first : firstCell < a.top → a.isBoundary firstCell = true
  /-- the bins of the free list hold the chains -/
  represents : a.runs.Represents a.links chains
  /-- no run is listed twice -/
  nodup : ((a.runs.listed chains).map Prod.fst).Nodup
  /-- the listed runs are the free stretches -/
  listed : ∀ c n, (c, n) ∈ a.runs.listed chains ↔
    firstCell ≤ c ∧ c < a.top ∧ a.block.get c = false ∧ a.mark.get c = true ∧
      Stretch a.isBoundary a.top (c + 1) (c + n)
  /-- the cells in use are those that no run has -/
  used : a.used + ((a.runs.listed chains).map Prod.snd).sum + firstCell = a.top
  /-- no run starts below the hint -/
  hint : ∀ x ∈ a.runs.listed chains, a.runs.hint ≤ x.1
  /-- an arena that is said to be empty holds no object -/
  empty : a.isEmpty = true → ∀ c, a.isAllocated c = false

/-- The invariant of an arena: its objects and its listed free runs tile its cells. -/
def Tiled (a : Arena) : Prop := ∃ chains, a.TiledBy chains

namespace TiledBy

variable {a : Arena} {chains : Nat → List Nat}

/-- The runs are read off the first cells of the bin chains, which can hold links. -/
theorem holds (h : a.TiledBy chains) : ∀ x ∈ a.runs.listed chains, Links.Holds x.1 := by
  rintro ⟨c, n⟩ hx
  obtain ⟨hc, hlt, -⟩ := (h.listed c n).1 hx
  exact ⟨hc, lt_of_lt_of_le hlt h.top_le⟩

/-- A listed run is not empty and ends at `top` at the latest. -/
theorem listed_le (h : a.TiledBy chains) {c n : Nat} (hx : (c, n) ∈ a.runs.listed chains) :
    0 < n ∧ c + n ≤ a.top := by
  obtain ⟨-, -, -, -, hs⟩ := (h.listed c n).1 hx
  exact ⟨by have := hs.le; omega, hs.le_top⟩

end TiledBy

/-- The stretch that a cell below `top` heads has the length of the cell's extent. -/
theorem stretch_extent {a : Arena} (htop : a.top ≤ arenaCells) {c : Nat} (hc : c < a.top) :
    Stretch a.isBoundary a.top (c + 1) (c + a.extent c) := by
  have h := @stretch_nextBoundary a (c + 1) hc htop
  have heq : c + a.extent c = a.nextBoundary (c + 1) := by
    have := h.le
    rw [extent]
    omega
  rw [heq]
  exact h

theorem objectCells_eq {a : Arena} {c : Nat} (hc : a.isAllocated c = true) :
    a.objectCells c = .ok (a.extent c) := by
  rw [objectCells, require_eq_ok_iff.2 hc]
  rfl

/-- An arena with no bit set and no run listed is tiled. -/
theorem tiledBy_empty {a : Arena} (htop : a.top = firstCell)
    (hblank : ∀ c, firstCell ≤ c → c < arenaCells → a.isBoundary c = false)
    (hruns : a.runs = .empty firstCell) (hused : a.used = 0) : a.TiledBy fun _ => [] := by
  have hlisted : a.runs.listed (fun _ => []) = [] := by
    rw [hruns]
    exact FreeRuns.listed_empty firstCell
  exact
    { top_ge := le_of_eq htop.symm
      top_le := by rw [htop]; decide
      blank := fun c hc hlt => hblank c (htop ▸ hc) hlt
      first := fun hlt => absurd (htop ▸ hlt) (lt_irrefl _)
      represents := by rw [hruns]; exact FreeRuns.represents_empty firstCell _
      nodup := by rw [hlisted]; exact List.nodup_nil
      listed := fun c n => by
        rw [hlisted, htop]
        exact ⟨fun hx => absurd hx List.not_mem_nil,
          fun ⟨hc, hlt, _⟩ => absurd (lt_of_le_of_lt hc hlt) (lt_irrefl _)⟩
      used := by rw [hlisted, hused, htop]; exact Nat.zero_add firstCell
      hint := fun x hx => by rw [hlisted] at hx; exact absurd hx List.not_mem_nil
      empty := fun _ c => by
        rw [← Bool.not_eq_true, isAllocated_iff, htop]
        exact fun ⟨hc, hlt, _⟩ => absurd (lt_of_le_of_lt hc hlt) (lt_irrefl _) }

/-- A new arena is tiled: nothing is in it. -/
theorem tiled_new (page : Page) (index : Nat) : (new page index).Tiled := by
  refine ⟨fun _ => [], tiledBy_empty rfl (fun c hc hlt => ?_) rfl rfl⟩
  have hword : ¬ (0 = c / 64 ∧ 0 < bitmapWords) := by
    rw [firstCell_eq] at hc
    omega
  simp only [isBoundary, new, setIndex, Bitmap.get, Bitmap.word_setWord, hword, if_false]
  simp

/-! ## The stretches fill the arena -/

/-- The boundaries from `start` on, below `top`. -/
def boundaries (a : Arena) (start : Nat) : List Nat :=
  (List.range' start (a.top - start)).filter a.isBoundary

/-- The heads of the objects. -/
def heads (a : Arena) : List Nat :=
  (List.range' firstCell (a.top - firstCell)).filter a.block.get

theorem mem_heads {a : Arena} {c : Nat} : c ∈ a.heads ↔ a.isAllocated c = true := by
  rw [heads, List.mem_filter, List.mem_range'_1, isAllocated_iff]
  constructor
  · rintro ⟨⟨hc, hlt⟩, hb⟩
    exact ⟨hc, by omega, hb⟩
  · rintro ⟨hc, hlt, hb⟩
    exact ⟨⟨hc, by omega⟩, hb⟩

theorem nodup_heads (a : Arena) : a.heads.Nodup := List.Nodup.filter _ List.nodup_range'

/-- The boundaries from a boundary on are that boundary and those after its stretch. -/
theorem boundaries_eq_cons {a : Arena} (htop : a.top ≤ arenaCells) {start : Nat}
    (hlt : start < a.top) (hb : a.isBoundary start = true) :
    a.boundaries start = start :: a.boundaries (start + a.extent start) := by
  have hs := stretch_extent htop hlt
  have hpos := hs.le
  have hle := hs.le_top
  have hsplit : List.range' start (a.top - start) =
      start :: (List.range' (start + 1) (a.extent start - 1) ++
        List.range' (start + a.extent start) (a.top - (start + a.extent start))) := by
    have h1 : a.top - start = (a.extent start - 1 + (a.top - (start + a.extent start))) + 1 := by omega
    rw [h1, List.range'_succ, ← List.range'_append_1]
    have h2 : start + 1 + (a.extent start - 1) = start + a.extent start := by omega
    rw [h2]
  rw [boundaries, hsplit, List.filter_cons_of_pos hb, List.filter_append]
  have hnone : (List.range' (start + 1) (a.extent start - 1)).filter a.isBoundary = [] := by
    rw [List.filter_eq_nil_iff]
    intro c hc
    obtain ⟨hge, hlt⟩ := List.mem_range'_1.1 hc
    rw [hs.clear c hge (by omega)]
    exact Bool.false_ne_true
  rw [hnone, List.nil_append, boundaries]

/-- The stretches from a boundary on fill the cells up to `top`. -/
theorem sum_boundaries {a : Arena} (htop : a.top ≤ arenaCells) :
    ∀ (n start : Nat), a.top - start ≤ n → start ≤ a.top →
      (start < a.top → a.isBoundary start = true) →
      ((a.boundaries start).map a.extent).sum = a.top - start := by
  intro n
  induction n with
  | zero =>
    intro start hn hle _
    have hz : a.top - start = 0 := by omega
    simp [boundaries, hz]
  | succ n ih =>
    intro start hn hle hb
    rcases Nat.eq_or_lt_of_le hle with heq | hlt
    · have hz : a.top - start = 0 := by omega
      simp [boundaries, hz]
    · have hs := stretch_extent htop hlt
      have hpos := hs.le
      rw [boundaries_eq_cons htop hlt (hb hlt), List.map_cons, List.sum_cons,
        ih (start + a.extent start) (by omega) hs.le_top hs.ends]
      have := hs.le_top
      omega

/-- Splitting a list in two by a property splits a sum over it. -/
theorem sum_filter_add {α : Type} (f : α → Nat) (p : α → Bool) (l : List α) :
    ((l.filter p).map f).sum + ((l.filter fun x => !p x).map f).sum = (l.map f).sum := by
  induction l with
  | nil => rfl
  | cons x rest ih =>
    cases hp : p x with
    | true => simp only [List.filter_cons, hp, if_true, Bool.not_true, Bool.false_eq_true, if_false,
        List.map_cons, List.sum_cons, ← ih]; omega
    | false => simp only [List.filter_cons, hp, if_true, Bool.not_false, Bool.false_eq_true, if_false,
        List.map_cons, List.sum_cons, ← ih]; omega

/-- The listed runs are the boundaries that head no object. -/
theorem TiledBy.listed_perm {a : Arena} {chains : Nat → List Nat} (h : a.TiledBy chains) :
    ((a.runs.listed chains).map Prod.fst).Perm
      ((a.boundaries firstCell).filter fun c => !a.block.get c) := by
  refine (List.perm_ext_iff_of_nodup h.nodup ?_).2 fun c => ?_
  · exact List.Nodup.filter _ (List.Nodup.filter _ List.nodup_range')
  · rw [List.mem_map, List.mem_filter, boundaries, List.mem_filter, List.mem_range'_1]
    constructor
    · rintro ⟨⟨d, n⟩, hx, rfl⟩
      obtain ⟨hc, hlt, hblock, hmark, -⟩ := (h.listed d n).1 hx
      exact ⟨⟨⟨hc, by have := h.top_ge; omega⟩, by simp [isBoundary, hmark]⟩, by simp [hblock]⟩
    · rintro ⟨⟨⟨hc, hlt⟩, hb⟩, hblock⟩
      have hblock' : a.block.get c = false := by simpa using hblock
      have hlt' : c < a.top := by omega
      refine ⟨(c, a.extent c), (h.listed c _).2 ⟨hc, hlt', hblock', ?_, ?_⟩, rfl⟩
      · simpa [isBoundary, hblock'] using hb
      · exact stretch_extent h.top_le hlt'

/-- The boundaries that are no free runs are the objects. -/
theorem filter_boundaries (a : Arena) : (a.boundaries firstCell).filter a.block.get = a.heads := by
  rw [boundaries, heads, List.filter_filter]
  refine List.filter_congr fun c _ => ?_
  cases hb : a.block.get c <;> simp [isBoundary, hb]

/-- A free stretch is listed with its length and with no other. -/
theorem TiledBy.eq_extent {a : Arena} {chains : Nat → List Nat} (h : a.TiledBy chains) {c n : Nat}
    (hx : (c, n) ∈ a.runs.listed chains) : n = a.extent c := by
  obtain ⟨-, hlt, -, -, hs⟩ := (h.listed c n).1 hx
  have := (stretch_extent h.top_le hlt).unique hs
  omega

/-- The cells in use are the sum of the objects' lengths. -/
theorem TiledBy.sum_extent {a : Arena} {chains : Nat → List Nat} (h : a.TiledBy chains) :
    (a.heads.map a.extent).sum = a.used := by
  have hall := sum_boundaries h.top_le (a.top - firstCell) firstCell (le_refl _) h.top_ge h.first
  rw [← sum_filter_add a.extent a.block.get] at hall
  have hfree : (((a.boundaries firstCell).filter fun c => !a.block.get c).map a.extent).sum =
      ((a.runs.listed chains).map Prod.snd).sum := by
    rw [← (h.listed_perm.map a.extent).sum_eq, List.map_map]
    exact congrArg List.sum (List.map_congr_left fun x hx => (h.eq_extent hx).symm)
  rw [filter_boundaries, hfree] at hall
  have := h.used
  have := h.top_ge
  omega

theorem Tiled.sum_extent {a : Arena} (h : a.Tiled) : (a.heads.map a.extent).sum = a.used :=
  h.elim fun _ h => h.sum_extent

end Arena

end Tricolor
