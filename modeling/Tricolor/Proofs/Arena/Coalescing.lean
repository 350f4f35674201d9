import Tricolor.Proofs.Arena.Sweep

/-!
# Coalesced free runs

In a tiled arena in which there is an object behind each free run, the cells that objects occupy settle the
free list and the top: the listed runs are the maximal runs of vacant cells that have an object behind them,
and the last object ends at the top. So does a sweep leave an arena: the cells that are then occupied are
those of the objects that were marked.
-/

namespace Tricolor

/-- The `n` cells from `c` on are vacant, and neither the cell before them nor the one behind them is. -/
structure MaximalRun (occupied : Nat → Prop) (c n : Nat) : Prop where
  pos : 0 < n
  ge : firstCell ≤ c
  vacant : ∀ d, c ≤ d → d < c + n → ¬ occupied d
  before : c = firstCell ∨ occupied (c - 1)
  behind : occupied (c + n)

theorem MaximalRun.congr {occupied occupied' : Nat → Prop} (hsame : ∀ c, occupied' c ↔ occupied c) {c n : Nat} :
    MaximalRun occupied' c n ↔ MaximalRun occupied c n := by
  rw [funext fun c => propext (hsame c)]

namespace Arena

variable {a a' : Arena} {chains : Nat → List Nat} {c n : Nat}

/-- The cell is one of an object's. -/
def Occupied (a : Arena) (c : Nat) : Prop :=
  ∃ head, a.isAllocated head = true ∧ head ≤ c ∧ c < head + a.extent head

/-- The cell is one of a marked object's. -/
def Survives (a : Arena) (c : Nat) : Prop :=
  ∃ head, a.isAllocated head = true ∧ a.mark.get head = true ∧ head ≤ c ∧ c < head + a.extent head

theorem survives_iff :
    a.Survives c ↔ ∃ head ∈ a.heads.filter a.mark.get, head ≤ c ∧ c < head + a.extent head := by
  simp only [Survives, List.mem_filter, mem_heads, and_assoc]

instance (a : Arena) (c : Nat) : Decidable (a.Survives c) := decidable_of_iff' _ survives_iff

theorem Swept.occupied_iff (h : a.Swept a') : a'.Occupied c ↔ a.Survives c := by
  constructor
  · rintro ⟨head, halloc, hle, hlt⟩
    rw [h.extent head halloc] at hlt
    obtain ⟨halloc, hmark⟩ := (h.allocated head).1 halloc
    exact ⟨head, halloc, hmark, hle, hlt⟩
  · rintro ⟨head, halloc, hmark, hle, hlt⟩
    have halloc' := (h.allocated head).2 ⟨halloc, hmark⟩
    rw [← h.extent head halloc'] at hlt
    exact ⟨head, halloc', hle, hlt⟩

namespace TiledBy

/-- Below the top every cell is in the stretch of a boundary. -/
theorem exists_stretch (h : a.TiledBy chains) (hc : firstCell ≤ c) (hlt : c < a.top) :
    ∃ head, firstCell ≤ head ∧ a.isBoundary head = true ∧ head ≤ c ∧ c < head + a.extent head := by
  -- a cell that is no boundary is in the stretch of the cell before
  induction c with
  | zero => exact absurd hc (by decide)
  | succ c ih =>
    have hs := stretch_extent h.top_le hlt
    have hpos := hs.le
    cases hb : a.isBoundary (c + 1) with
    | true => exact ⟨c + 1, hc, hb, le_rfl, by omega⟩
    | false =>
      have hne : c + 1 ≠ firstCell := by
        intro heq
        rw [heq, h.first (heq ▸ hlt)] at hb
        cases hb
      obtain ⟨head, hge, hhead, hle, hend⟩ := ih (by omega) (by omega)
      refine ⟨head, hge, hhead, by omega, ?_⟩
      by_contra hnot
      have hlast : head + a.extent head = c + 1 := by omega
      have hs' := stretch_extent h.top_le (show head < a.top by omega)
      rw [hlast] at hs'
      rw [hs'.ends hlt] at hb
      cases hb

/-- No object occupies a cell of a listed run. -/
theorem not_occupied (h : a.TiledBy chains) (hx : (c, n) ∈ a.runs.listed chains) {d : Nat} (hd : c ≤ d)
    (hdn : d < c + n) : ¬ a.Occupied d := by
  rintro ⟨head, halloc, hle, hlt⟩
  obtain ⟨-, hctop, hfree, hmark, hs⟩ := (h.listed c n).1 hx
  obtain ⟨-, htop, hblock⟩ := isAllocated_iff.1 halloc
  have hs' := stretch_extent h.top_le htop
  have hbound : a.isBoundary c = true := by rw [isBoundary, hmark, Bool.or_true]
  have hbound' : a.isBoundary head = true := by rw [isBoundary, hblock, Bool.true_or]
  -- neither stretch has a boundary in it, so both start at the same cell
  have hch := hs.boundary_lt hbound' (by omega)
  have hhc := hs'.boundary_lt hbound (by omega)
  have heq : head = c := by omega
  rw [heq, hfree] at hblock
  cases hblock

/-- Below the top a cell is occupied or in a listed run. -/
theorem occupied_or_listed (h : a.TiledBy chains) (hc : firstCell ≤ c) (hlt : c < a.top) :
    a.Occupied c ∨ ∃ head n, (head, n) ∈ a.runs.listed chains ∧ head ≤ c ∧ c < head + n := by
  obtain ⟨head, hge, hb, hle, hend⟩ := h.exists_stretch hc hlt
  have htop : head < a.top := by omega
  cases hblock : a.block.get head with
  | true => exact .inl ⟨head, isAllocated_iff.2 ⟨hge, htop, hblock⟩, hle, hend⟩
  | false =>
    rw [isBoundary, hblock, Bool.false_or] at hb
    exact .inr ⟨head, _, h.mem_listed hge htop hblock hb, hle, hend⟩

theorem occupied_lt (h : a.TiledBy chains) (hc : a.Occupied c) : firstCell ≤ c ∧ c < a.top := by
  obtain ⟨head, halloc, hle, hlt⟩ := hc
  obtain ⟨hge, htop, -⟩ := isAllocated_iff.1 halloc
  have := (stretch_extent h.top_le htop).le_top
  exact ⟨by omega, by omega⟩

theorem occupied_head (h : a.TiledBy chains) (hc : a.isAllocated c = true) : a.Occupied c := by
  have := (stretch_extent h.top_le (isAllocated_iff.1 hc).2.1).le
  exact ⟨c, hc, le_rfl, by omega⟩

/-! ## Maximal runs -/

variable (hcoalesced : a.Coalesced)

include hcoalesced

/-- Behind a listed run there is an object. -/
theorem isAllocated_behind (h : a.TiledBy chains) (hx : (c, n) ∈ a.runs.listed chains) :
    a.isAllocated (c + n) = true := by
  obtain ⟨hge, hlt, hfree, hmark, -⟩ := (h.listed c n).1 hx
  rw [h.eq_extent hx]
  exact hcoalesced c hge hlt hfree hmark

/-- No listed run ends where another one starts, and none ends at the top. -/
theorem apart (h : a.TiledBy chains) (hx : (c, n) ∈ a.runs.listed chains) :
    c + n < a.top ∧ ∀ m, (c + n, m) ∉ a.runs.listed chains := by
  obtain ⟨-, hlt, hblock⟩ := isAllocated_iff.1 (h.isAllocated_behind hcoalesced hx)
  refine ⟨hlt, fun m hy => ?_⟩
  obtain ⟨-, -, hfree, -⟩ := (h.listed _ m).1 hy
  rw [hfree] at hblock
  cases hblock

/-- The cell before a listed run, and the last cell below the top, are an object's. -/
theorem occupied_before (h : a.TiledBy chains) (hc : firstCell < c) (hle : c ≤ a.top)
    (hends : c = a.top ∨ ∃ n, (c, n) ∈ a.runs.listed chains) : a.Occupied (c - 1) := by
  rcases h.occupied_or_listed (show firstCell ≤ c - 1 by omega) (by omega) with
    hoccupied | ⟨head, n, hx, hhead, hlt⟩
  · exact hoccupied
  · obtain ⟨hend, hnone⟩ := h.apart hcoalesced hx
    rcases hends with heq | ⟨m, hy⟩
    · omega
    · -- the run before would have to end here
      obtain ⟨-, -, -, hmark, -⟩ := (h.listed c m).1 hy
      obtain ⟨-, -, -, -, hs⟩ := (h.listed head n).1 hx
      have hbound : a.isBoundary c = true := by rw [isBoundary, hmark, Bool.or_true]
      have heq : head + n = c := by
        by_contra hne
        have := hs.boundary_lt hbound (by omega)
        omega
      exact absurd hy (heq ▸ hnone m)

theorem maximalRun (h : a.TiledBy chains) (hx : (c, n) ∈ a.runs.listed chains) : MaximalRun a.Occupied c n := by
  obtain ⟨hge, hlt, -⟩ := (h.listed c n).1 hx
  refine ⟨(h.listed_le hx).1, hge, fun d => h.not_occupied hx, ?_, ?_⟩
  · rcases Nat.eq_or_lt_of_le hge with heq | hfirst
    · exact .inl heq.symm
    · exact .inr (h.occupied_before hcoalesced hfirst (le_of_lt hlt) (.inr ⟨n, hx⟩))
  · exact h.occupied_head (h.isAllocated_behind hcoalesced hx)

/-- The listed runs are the maximal runs of vacant cells that have an object behind them. -/
theorem mem_listed_iff (h : a.TiledBy chains) :
    (c, n) ∈ a.runs.listed chains ↔ MaximalRun a.Occupied c n := by
  refine ⟨h.maximalRun hcoalesced, fun hrun => ?_⟩
  have hpos := hrun.pos
  obtain ⟨-, hbelow⟩ := h.occupied_lt hrun.behind
  rcases h.occupied_or_listed hrun.ge (show c < a.top by omega) with hoccupied | ⟨head, m, hx, hle, hlt⟩
  · exact absurd hoccupied (hrun.vacant c le_rfl (by omega))
  · -- two maximal runs with a common cell are the same
    have hrun' := h.maximalRun hcoalesced hx
    have heq : head = c := by
      by_contra hne
      have hge := hrun'.ge
      rcases hrun.before with hfirst | hbefore
      · omega
      · exact hrun'.vacant (c - 1) (by omega) (by omega) hbefore
    subst heq
    rcases Nat.lt_trichotomy m n with hmn | rfl | hmn
    · exact absurd hrun'.behind (hrun.vacant _ (by omega) (by omega))
    · exact hx
    · exact absurd hrun.behind (hrun'.vacant _ (by omega) (by omega))

/-- The last object ends at the top. -/
theorem top_spec (h : a.TiledBy chains) : a.top = firstCell ∨ a.Occupied (a.top - 1) := by
  rcases Nat.eq_or_lt_of_le h.top_ge with heq | hlt
  · exact .inl heq.symm
  · exact .inr (h.occupied_before hcoalesced hlt le_rfl (.inl rfl))

end TiledBy

end Arena

end Tricolor
