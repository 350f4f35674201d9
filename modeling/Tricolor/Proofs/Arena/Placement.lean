import Mathlib.Algebra.Order.BigOperators.Group.List
import Mathlib.Algebra.Order.Group.Nat
import Mathlib.Tactic.Common
import Tricolor.Proofs.Arena.Tiling

/-!
# Placing and freeing objects in an arena

An object takes a stretch of cells at `top` or at the start of a free run, and gives its
cells back to one of the two. `alloc_spec` and `free_spec` say that both keep the arena
tiled, that nothing changes for any other object, and that the cells in use are counted.
-/

namespace Tricolor

namespace Arena

/-! ## What no operation on cells changes -/

/-- What the operations that place, free and sweep objects leave alone. -/
structure Keeps (a a' : Arena) : Prop where
  page : a'.page = a.page
  index : a'.index = a.index
  headers : a'.headers = a.headers
  bytes : a'.bytes = a.bytes
  grey : a'.grey = a.grey
  finalizers : a'.finalizers = a.finalizers

theorem Keeps.refl (a : Arena) : a.Keeps a := ⟨rfl, rfl, rfl, rfl, rfl, rfl⟩

theorem Keeps.trans {a b c : Arena} (h : a.Keeps b) (h' : b.Keeps c) : a.Keeps c where
  page := h'.page.trans h.page
  index := h'.index.trans h.index
  headers := h'.headers.trans h.headers
  bytes := h'.bytes.trans h.bytes
  grey := h'.grey.trans h.grey
  finalizers := h'.finalizers.trans h.finalizers

/-- The index is stored where no bit of an object is. -/
theorem word_zero_set (b : Bitmap) {cell : Nat} (hcell : firstCell ≤ cell) (bit : Bool) :
    (b.set cell bit).word 0 = b.word 0 := by
  rw [firstCell_eq] at hcell
  rw [Bitmap.set, Bitmap.word_setWord, if_neg]
  omega

/-! ## Tilings -/

namespace TiledBy

variable {a : Arena} {chains : Nat → List Nat}

/-- A cell that heads a free run is listed with its extent. -/
theorem mem_listed (h : a.TiledBy chains) {c : Nat} (hc : firstCell ≤ c) (hlt : c < a.top)
    (hblock : a.block.get c = false) (hmark : a.mark.get c = true) :
    (c, a.extent c) ∈ a.runs.listed chains :=
  (h.listed c _).2 ⟨hc, hlt, hblock, hmark, stretch_extent h.top_le hlt⟩

/-- An object below `top` is part of the cells in use. -/
theorem extent_le_used (h : a.TiledBy chains) {c : Nat} (hc : a.isAllocated c = true) :
    a.extent c ≤ a.used := by
  rw [← h.sum_extent]
  exact List.single_le_sum (fun _ _ => Nat.zero_le _) _ (List.mem_map_of_mem (mem_heads.2 hc))

/-- The stretch that `c` heads ends before the next boundary or at it. -/
theorem stretch_le (h : a.TiledBy chains) {c d : Nat} (hc : c < a.top) (hcd : c < d)
    (hd : a.isBoundary d = true) : c + a.extent c ≤ d := by
  by_contra hlt
  have := (stretch_extent h.top_le hc).boundary_lt hd (by omega)
  omega

end TiledBy

/-- To see that an arena is tiled it is enough that every listed run is a free stretch and
that every free stretch is listed. -/
theorem listed_iff_of {a : Arena} {chains : Nat → List Nat}
    (hsound : ∀ c n, (c, n) ∈ a.runs.listed chains →
      firstCell ≤ c ∧ c < a.top ∧ a.block.get c = false ∧ a.mark.get c = true ∧
        Stretch a.isBoundary a.top (c + 1) (c + n))
    (hcomplete : ∀ c, firstCell ≤ c → c < a.top → a.block.get c = false → a.mark.get c = true →
      ∃ n, (c, n) ∈ a.runs.listed chains) (c n : Nat) :
    (c, n) ∈ a.runs.listed chains ↔
      firstCell ≤ c ∧ c < a.top ∧ a.block.get c = false ∧ a.mark.get c = true ∧
        Stretch a.isBoundary a.top (c + 1) (c + n) := by
  refine ⟨hsound c n, fun ⟨hc, hlt, hblock, hmark, hs⟩ => ?_⟩
  obtain ⟨m, hm⟩ := hcomplete c hc hlt hblock hmark
  obtain ⟨-, -, -, -, hs'⟩ := hsound c m hm
  have heq := hs'.unique hs
  rwa [Nat.add_left_cancel heq] at hm

/-- Two arenas with the same stretch at a cell give it the same extent. -/
theorem extent_eq_of_stretch {a : Arena} (htop : a.top ≤ arenaCells) {c n : Nat} (hc : c < a.top)
    (hs : Stretch a.isBoundary a.top (c + 1) (c + n)) : a.extent c = n :=
  Nat.add_left_cancel ((stretch_extent htop hc).unique hs)

/-! ## Placing an object -/

/-- `a'` is `a` with one more object, of `cells` cells from `head` on. -/
structure Placed (a a' : Arena) (head cells : Nat) (black : Bool) : Prop where
  keeps : a.Keeps a'
  fixed : a'.fixed = a.fixed
  needsSweep : a'.needsSweep = a.needsSweep
  tiled : a'.Tiled
  isEmpty : a'.isEmpty = false
  used : a'.used = a.used + cells
  /-- the object was not there before -/
  vacant : a.isAllocated head = false
  head_ge : firstCell ≤ head
  end_le : head + cells ≤ arenaCells
  allocated : ∀ c, a'.isAllocated c = true ↔ c = head ∨ a.isAllocated c = true
  mark_head : a'.mark.get head = black
  extent_head : a'.extent head = cells
  mark : ∀ c, a.isAllocated c = true → a'.mark.get c = a.mark.get c
  extent : ∀ c, a.isAllocated c = true → a'.extent c = a.extent c

section Alloc

variable {a : Arena} {chains : Nat → List Nat} {head cells : Nat}

/-- Occupying cells changes the bits of the head only. -/
theorem occupy_eq_ok (a : Arena) {head cells : Nat} (black : Bool) (hhead : head < arenaCells)
    (hused : a.used + cells < halfWordRange) :
    a.occupy head cells black = .ok { a with
      block := a.block.set head true
      mark := a.mark.set head black
      used := a.used + cells
      isEmpty := false } := by
  rw [occupy, require_eq_ok_iff.2 hhead, checkedAdd_eq_ok_iff.2 ⟨hused, rfl⟩]
  rfl

/-! ### At the top -/

/-- In `a'` an object has the `cells` cells from the top of `a` on, and the top is behind it. -/
structure Raises (a a' : Arena) (cells : Nat) (black : Bool) : Prop where
  pos : 0 < cells
  top : a'.top = a.top + cells
  top_le : a'.top ≤ arenaCells
  block : ∀ c, a'.block.get c = if a.top = c then true else a.block.get c
  mark : ∀ c, a'.mark.get c = if a.top = c then black else a.mark.get c

namespace Raises

variable {a' : Arena} {black : Bool} {c start stop : Nat}

theorem isBoundary (h : a.Raises a' cells black) (c : Nat) :
    a'.isBoundary c = if a.top = c then true else a.isBoundary c := by
  rw [Arena.isBoundary, h.block, h.mark]
  split <;> rfl

/-- What ended at the old top now ends at the new object. -/
theorem stretch (h : a.Raises a' cells black) (hs : Stretch a.isBoundary a.top start stop) :
    Stretch a'.isBoundary a'.top start stop where
  le := hs.le
  le_top := le_trans hs.le_top (h.top ▸ Nat.le_add_right _ _)
  clear c hc hlt := by
    rw [h.isBoundary, if_neg (by have := hs.le_top; omega)]
    exact hs.clear c hc hlt
  ends _ := by
    rw [h.isBoundary]
    split
    · rfl
    · next hne => exact hs.ends (lt_of_le_of_ne hs.le_top (Ne.symm hne))

/-- The new object ends at the new top. -/
theorem stretch_head (h : a.Raises a' cells black) (ha : a.TiledBy chains) :
    Stretch a'.isBoundary a'.top (a.top + 1) (a.top + cells) where
  le := Nat.add_le_add_left h.pos _
  le_top := le_of_eq h.top.symm
  clear c hc hlt := by
    rw [h.isBoundary, if_neg (by omega)]
    exact ha.blank c (by omega) (lt_of_lt_of_le hlt (h.top ▸ h.top_le))
  ends hlt := absurd (h.top ▸ hlt) (lt_irrefl _)

/-- Beside the new object, nothing is headed by a cell above the old top. -/
theorem lt_top (h : a.Raises a' cells black) (ha : a.TiledBy chains) (hlt : c < a'.top)
    (hc : a.isBoundary c = true) : c < a.top := by
  by_contra hge
  rw [ha.blank c (not_lt.1 hge) (lt_of_lt_of_le hlt h.top_le)] at hc
  cases hc

theorem isAllocated (h : a.Raises a' cells black) (ha : a.TiledBy chains) (c : Nat) :
    a'.isAllocated c = true ↔ c = a.top ∨ a.isAllocated c = true := by
  have hpos := h.pos
  have htop := h.top
  rw [isAllocated_iff, isAllocated_iff, h.block]
  constructor
  · rintro ⟨hc, hlt, hb⟩
    split at hb
    · next heq => exact .inl heq.symm
    · exact .inr ⟨hc, h.lt_top ha hlt (by rw [Arena.isBoundary, hb, Bool.true_or]), hb⟩
  · rintro (rfl | ⟨hc, hlt, hb⟩)
    · exact ⟨ha.top_ge, by omega, if_pos rfl⟩
    · exact ⟨hc, by omega, by rw [if_neg (by omega), hb]⟩

theorem tiledBy (h : a.Raises a' cells black) (ha : a.TiledBy chains) (hruns : a'.runs = a.runs)
    (hlinks : a'.links = a.links) (hused : a'.used = a.used + cells) (hempty : a'.isEmpty = false) :
    a'.TiledBy chains where
  top_ge := le_trans ha.top_ge (h.top ▸ Nat.le_add_right _ _)
  top_le := h.top_le
  blank c hc hlt := by
    have hpos := h.pos
    rw [h.top] at hc
    rw [h.isBoundary, if_neg (by omega)]
    exact ha.blank c (by omega) hlt
  first _ := by
    rw [h.isBoundary]
    split
    · rfl
    · next hne => exact ha.first (lt_of_le_of_ne ha.top_ge (Ne.symm hne))
  represents := by
    rw [hruns, hlinks]
    exact ha.represents
  nodup := by
    rw [hruns]
    exact ha.nodup
  listed := by
    refine listed_iff_of (fun c n hx => ?_) fun c hc hlt hb hm => ?_
    · rw [hruns] at hx
      obtain ⟨hc, hlt, hb, hm, hs⟩ := (ha.listed c n).1 hx
      have hne : a.top ≠ c := Nat.ne_of_gt hlt
      exact ⟨hc, h.top ▸ Nat.lt_add_right _ hlt, by rw [h.block, if_neg hne, hb],
        by rw [h.mark, if_neg hne, hm], h.stretch hs⟩
    · rw [hruns]
      rw [h.block] at hb
      rw [h.mark] at hm
      split at hb
      · cases hb
      · next hne =>
        rw [if_neg hne] at hm
        exact ⟨_, ha.mem_listed hc (h.lt_top ha hlt (by rw [Arena.isBoundary, hm, Bool.or_true])) hb hm⟩
  used := by
    have hsum := ha.used
    rw [hruns, hused, h.top]
    omega
  hint := by
    rw [hruns]
    exact ha.hint
  empty hisEmpty := absurd (hempty.symm.trans hisEmpty) Bool.false_ne_true

end Raises

/-- An object that is placed at `top` extends the tiling. -/
theorem TiledBy.bump (h : a.TiledBy chains) (hpos : 0 < cells) (hfits : a.top + cells ≤ arenaCells)
    (black : Bool) :
    Placed a { a with
      top := a.top + cells
      block := a.block.set a.top true
      mark := a.mark.set a.top black
      used := a.used + cells
      isEmpty := false } a.top cells black := by
  have hget : ∀ (b : Bitmap) bit c, (b.set a.top bit).get c = if a.top = c then bit else b.get c := fun b bit c =>
    Bitmap.get_set _ _ _ _ (by omega)
  have hraises : a.Raises { a with
      top := a.top + cells
      block := a.block.set a.top true
      mark := a.mark.set a.top black
      used := a.used + cells
      isEmpty := false } cells black := ⟨hpos, rfl, hfits, hget _ _, hget _ _⟩
  exact
    { keeps := ⟨rfl, congrArg BitVec.toNat (word_zero_set _ h.top_ge _), rfl, rfl, rfl, rfl⟩
      fixed := rfl
      needsSweep := rfl
      tiled := ⟨chains, hraises.tiledBy h rfl rfl rfl rfl⟩
      isEmpty := rfl
      used := rfl
      vacant := by
        rw [← Bool.not_eq_true, isAllocated_iff]
        exact fun hx => absurd hx.2.1 (lt_irrefl _)
      head_ge := h.top_ge
      end_le := hfits
      allocated := hraises.isAllocated h
      mark_head := (hraises.mark _).trans (if_pos rfl)
      extent_head := extent_eq_of_stretch hfits (Nat.lt_add_of_pos_right hpos) (hraises.stretch_head h)
      mark := fun c hc => (hraises.mark c).trans (if_neg (Nat.ne_of_gt (isAllocated_iff.1 hc).2.1))
      extent := fun c hc => by
        have hlt := (isAllocated_iff.1 hc).2.1
        exact extent_eq_of_stretch hfits (Nat.lt_add_right _ hlt) (hraises.stretch (stretch_extent h.top_le hlt)) }

/-! ### In a free run -/

/-- In `a'` an object has the first `cells` cells of the free run of `n` cells that is listed at `head` in `a`, and
the rest, if there is one, is a free run. -/
structure Cuts (a a' : Arena) (chains : Nat → List Nat) (head n cells : Nat) (black : Bool) : Prop where
  tiled : a.TiledBy chains
  listed : (head, n) ∈ a.runs.listed chains
  pos : 0 < cells
  le : cells ≤ n
  top : a'.top = a.top
  block : ∀ c, a'.block.get c = if head = c then true else a.block.get c
  mark : ∀ c, a'.mark.get c =
    if head = c then black else if cells < n ∧ c = head + cells then true else a.mark.get c

namespace Cuts

variable {a' : Arena} {n c d : Nat} {black : Bool}

theorem free (h : a.Cuts a' chains head n cells black) : a.block.get head = false :=
  ((h.tiled.listed head n).1 h.listed).2.2.1

theorem lt_top (h : a.Cuts a' chains head n cells black) : head < a.top :=
  ((h.tiled.listed head n).1 h.listed).2.1

theorem stretch_run (h : a.Cuts a' chains head n cells black) :
    Stretch a.isBoundary a.top (head + 1) (head + n) :=
  ((h.tiled.listed head n).1 h.listed).2.2.2.2

theorem isBoundary_head (h : a.Cuts a' chains head n cells black) : a.isBoundary head = true := by
  rw [Arena.isBoundary, ((h.tiled.listed head n).1 h.listed).2.2.2.1, Bool.or_true]

theorem top_le (h : a.Cuts a' chains head n cells black) : a'.top ≤ arenaCells := h.top ▸ h.tiled.top_le

/-- The rest starts at a cell that was no boundary. -/
theorem rest (h : a.Cuts a' chains head n cells black) (hlt : cells < n) :
    a.block.get (head + cells) = false ∧ a.mark.get (head + cells) = false :=
  have hpos := h.pos
  Bool.or_eq_false_iff.1 (h.stretch_run.clear _ (by omega) (by omega))

/-- That is the only new boundary. -/
theorem isBoundary (h : a.Cuts a' chains head n cells black) (c : Nat) :
    a'.isBoundary c = if cells < n ∧ c = head + cells then true else a.isBoundary c := by
  have hpos := h.pos
  rw [Arena.isBoundary, h.block, h.mark]
  by_cases hc : head = c
  · subst hc
    rw [if_pos rfl, Bool.true_or, h.isBoundary_head, ite_self]
  · rw [if_neg hc, if_neg hc]
    split
    · exact Bool.or_true _
    · rfl

theorem isBoundary_of (h : a.Cuts a' chains head n cells black) (hc : a.isBoundary c = true) :
    a'.isBoundary c = true := by
  rw [h.isBoundary, hc, ite_self]

theorem stretch_head (h : a.Cuts a' chains head n cells black) :
    Stretch a'.isBoundary a'.top (head + 1) (head + cells) := by
  have hs := h.stretch_run
  have hpos := h.pos
  have hle := h.le
  refine ⟨by omega, h.top ▸ le_trans (by omega) hs.le_top, fun c hc hlt => ?_, fun hlt => ?_⟩
  · rw [h.isBoundary, if_neg (by omega)]
    exact hs.clear c hc (by omega)
  · rw [h.top] at hlt
    rcases Nat.eq_or_lt_of_le hle with rfl | hrest
    · exact h.isBoundary_of (hs.ends hlt)
    · rw [h.isBoundary, if_pos ⟨hrest, rfl⟩]

/-- The rest ends where the run did. -/
theorem stretch_rest (h : a.Cuts a' chains head n cells black) (hlt : cells < n) :
    Stretch a'.isBoundary a'.top (head + cells + 1) (head + cells + (n - cells)) := by
  have hs := h.stretch_run
  have heq : head + cells + (n - cells) = head + n := by omega
  rw [heq, h.top]
  refine ⟨by omega, hs.le_top, fun c hc hlt' => ?_, fun hlt' => h.isBoundary_of (hs.ends hlt')⟩
  rw [h.isBoundary, if_neg (by omega)]
  exact hs.clear c (by omega) hlt'

/-- No other stretch has a new boundary in it. -/
theorem stretch (h : a.Cuts a' chains head n cells black) (hne : d ≠ head) (hlt : d < a.top)
    (hd : a.isBoundary d = true) : Stretch a'.isBoundary a'.top (d + 1) (d + a.extent d) := by
  have hs := stretch_extent h.tiled.top_le hlt
  rw [h.top]
  refine hs.congr fun c hc hle hlt' => ?_
  rw [h.isBoundary]
  split
  · next hnew =>
    rcases Nat.eq_or_lt_of_le hle with rfl | hin
    · exact (hs.ends hlt').symm
    · -- the stretch of `d` and the run would overlap
      have h₁ := hs.boundary_lt h.isBoundary_head (by have := h.pos; omega)
      have h₂ := h.stretch_run.boundary_lt hd (by omega)
      omega
  · rfl

theorem ne_head (h : a.Cuts a' chains head n cells black) (hc : a.block.get c = true) : head ≠ c := by
  rintro rfl
  rw [h.free] at hc
  cases hc

theorem isAllocated (h : a.Cuts a' chains head n cells black) (c : Nat) :
    a'.isAllocated c = true ↔ c = head ∨ a.isAllocated c = true := by
  rw [isAllocated_iff, isAllocated_iff, h.block, h.top]
  constructor
  · rintro ⟨hc, hlt, hb⟩
    split at hb
    · next heq => exact .inl heq.symm
    · exact .inr ⟨hc, hlt, hb⟩
  · rintro (rfl | ⟨hc, hlt, hb⟩)
    · exact ⟨((h.tiled.listed c n).1 h.listed).1, h.lt_top, if_pos rfl⟩
    · exact ⟨hc, hlt, by rw [hb, ite_self]⟩

theorem mark_of_block (h : a.Cuts a' chains head n cells black) (hc : a.block.get c = true) :
    a'.mark.get c = a.mark.get c := by
  rw [h.mark, if_neg (h.ne_head hc), if_neg]
  rintro ⟨hlt, rfl⟩
  rw [(h.rest hlt).1] at hc
  cases hc

/-- The rest of the run, if there is one, among the other runs. -/
theorem mem_rest {others : List (Nat × Nat)} {m : Nat} :
    (c, m) ∈ (if cells < n then (head + cells, n - cells) :: others else others) ↔
      (cells < n ∧ c = head + cells ∧ m = n - cells) ∨ (c, m) ∈ others := by
  split
  · next hlt => simp [hlt]
  · next hlt => simp [hlt]

section Listed

variable {chains' : Nat → List Nat} {others : List (Nat × Nat)} {m : Nat}

/-- The other runs were listed before, and start elsewhere. -/
theorem others_listed (h : a.Cuts a' chains head n cells black)
    (hrun : (a.runs.listed chains).Perm ((head, n) :: others)) (hx : (c, m) ∈ others) :
    (c, m) ∈ a.runs.listed chains ∧ head ≠ c := by
  refine ⟨hrun.symm.subset (List.mem_cons_of_mem _ hx), ?_⟩
  have hnodup := (hrun.map Prod.fst).nodup_iff.1 h.tiled.nodup
  rintro rfl
  exact (List.nodup_cons.1 hnodup).1 (List.mem_map.2 ⟨_, hx, rfl⟩)

theorem nodup_rest (h : a.Cuts a' chains head n cells black)
    (hrun : (a.runs.listed chains).Perm ((head, n) :: others)) :
    ((if cells < n then (head + cells, n - cells) :: others else others).map Prod.fst).Nodup := by
  have hnodup := (List.nodup_cons.1 ((hrun.map Prod.fst).nodup_iff.1 h.tiled.nodup)).2
  split
  · next hlt =>
    refine List.nodup_cons.2 ⟨fun hx => ?_, hnodup⟩
    obtain ⟨⟨c, m⟩, hx, heq⟩ := List.mem_map.1 hx
    have hm := ((h.tiled.listed c m).1 (h.others_listed hrun hx).1).2.2.2.1
    rw [show c = head + cells from heq, (h.rest hlt).2] at hm
    cases hm
  · exact hnodup

/-- The rest of the run and the other runs are free stretches. -/
theorem free_of_rest (h : a.Cuts a' chains head n cells black)
    (hrun : (a.runs.listed chains).Perm ((head, n) :: others))
    (hx : (c, m) ∈ (if cells < n then (head + cells, n - cells) :: others else others)) :
    firstCell ≤ c ∧ c < a'.top ∧ a'.block.get c = false ∧ a'.mark.get c = true ∧
      Stretch a'.isBoundary a'.top (c + 1) (c + m) := by
  have hpos := h.pos
  rcases mem_rest.1 hx with ⟨hlt, rfl, rfl⟩ | hx
  · have hge := ((h.tiled.listed head n).1 h.listed).1
    have hend := h.stretch_run.le_top
    refine ⟨by omega, h.top ▸ by omega, ?_, ?_, h.stretch_rest hlt⟩
    · rw [h.block, if_neg (by omega), (h.rest hlt).1]
    · rw [h.mark, if_neg (by omega), if_pos ⟨hlt, rfl⟩]
  · obtain ⟨hx, hne⟩ := h.others_listed hrun hx
    obtain ⟨hc, hlt, hb, hm, -⟩ := (h.tiled.listed c m).1 hx
    refine ⟨hc, h.top ▸ hlt, by rw [h.block, if_neg hne, hb], by rw [h.mark, if_neg hne, hm, ite_self], ?_⟩
    rw [h.tiled.eq_extent hx]
    exact h.stretch (Ne.symm hne) hlt (by rw [Arena.isBoundary, hm, Bool.or_true])

/-- They are all free stretches. -/
theorem rest_of_free (h : a.Cuts a' chains head n cells black)
    (hrun : (a.runs.listed chains).Perm ((head, n) :: others)) (hc : firstCell ≤ c) (hlt : c < a'.top)
    (hb : a'.block.get c = false) (hm : a'.mark.get c = true) :
    ∃ m, (c, m) ∈ (if cells < n then (head + cells, n - cells) :: others else others) := by
  rw [h.top] at hlt
  rw [h.block] at hb
  rw [h.mark] at hm
  split at hb
  · cases hb
  · next hne =>
    rw [if_neg hne] at hm
    split at hm
    · next hnew => exact ⟨n - cells, mem_rest.2 (.inl ⟨hnew.1, hnew.2, rfl⟩)⟩
    · have hx := hrun.subset (h.tiled.mem_listed hc hlt hb hm)
      refine ⟨a.extent c, mem_rest.2 (.inr ((List.mem_cons.1 hx).resolve_left fun heq => ?_))⟩
      exact hne (congrArg Prod.fst heq).symm

theorem tiledBy (h : a.Cuts a' chains head n cells black)
    (hrun : (a.runs.listed chains).Perm ((head, n) :: others)) (hrep : a'.runs.Represents a'.links chains')
    (hlist : (a'.runs.listed chains').Perm
      (if cells < n then (head + cells, n - cells) :: others else others))
    (hhint : a'.runs.hint ≤ a.runs.hint) (hused : a'.used = a.used + cells) (hempty : a'.isEmpty = false) :
    a'.TiledBy chains' where
  top_ge := h.top ▸ h.tiled.top_ge
  top_le := h.top_le
  blank c hc hlt := by
    have hend := h.stretch_run.le_top
    rw [h.top] at hc
    rw [h.isBoundary, if_neg (by omega)]
    exact h.tiled.blank c hc hlt
  first hlt := h.isBoundary_of (h.tiled.first (h.top ▸ hlt))
  represents := hrep
  nodup := (hlist.map Prod.fst).nodup_iff.2 (h.nodup_rest hrun)
  listed := by
    refine listed_iff_of (fun c m hx => h.free_of_rest hrun (hlist.subset hx)) fun c hc hlt hb hm => ?_
    obtain ⟨m, hx⟩ := h.rest_of_free hrun hc hlt hb hm
    exact ⟨m, hlist.symm.subset hx⟩
  used := by
    have hle := h.le
    have hsum := (hrun.map Prod.snd).sum_eq
    have hsum' := (hlist.map Prod.snd).sum_eq
    have htotal := h.tiled.used
    rw [List.map_cons, List.sum_cons] at hsum
    rw [hused, h.top]
    split at hsum'
    · rw [List.map_cons, List.sum_cons] at hsum'
      omega
    · omega
  hint x hx := by
    refine le_trans hhint ?_
    rcases mem_rest.1 (hlist.subset hx) with ⟨-, heq, -⟩ | hx
    · have hle : a.runs.hint ≤ head := h.tiled.hint _ h.listed
      omega
    · exact h.tiled.hint _ (h.others_listed hrun hx).1
  empty hisEmpty := absurd (hempty.symm.trans hisEmpty) Bool.false_ne_true

end Listed

end Cuts

/-- An object that is placed at the start of a free run takes the run's place in the
tiling; the rest of the run, if there is one, is free. -/
theorem TiledBy.reuse (h : a.TiledBy chains) (mark : Bitmap) {n : Nat}
    {others : List (Nat × Nat)} (hrun : (a.runs.listed chains).Perm ((head, n) :: others)) (hpos : 0 < cells) (hle : cells ≤ n)
    {runs : FreeRuns} {links : Links} {chains' : Nat → List Nat}
    (hrest : ∀ c, mark.get c = if cells < n ∧ c = head + cells then true else a.mark.get c)
    (hrep : runs.Represents links chains')
    (hlist : (runs.listed chains').Perm
      (if cells < n then (head + cells, n - cells) :: others else others))
    (hhint : runs.hint ≤ a.runs.hint) (black : Bool) :
    Placed a { a with
      block := a.block.set head true
      mark := mark.set head black
      used := a.used + cells
      runs, links
      isEmpty := false } head cells black := by
  have hmem : (head, n) ∈ a.runs.listed chains := hrun.symm.subset List.mem_cons_self
  obtain ⟨hge, hlt, hfree, -, hs⟩ := (h.listed head n).1 hmem
  have hget : ∀ (b : Bitmap) bit c, (b.set head bit).get c = if head = c then bit else b.get c := fun b bit c =>
    Bitmap.get_set _ _ _ _ (lt_of_lt_of_le hlt h.top_le)
  have hcuts : a.Cuts { a with
      block := a.block.set head true
      mark := mark.set head black
      used := a.used + cells
      runs, links
      isEmpty := false } chains head n cells black :=
    ⟨h, hmem, hpos, hle, rfl, hget _ _, fun c => (hget _ _ c).trans (by rw [hrest])⟩
  exact
    { keeps := ⟨rfl, congrArg BitVec.toNat (word_zero_set _ hge _), rfl, rfl, rfl, rfl⟩
      fixed := rfl
      needsSweep := rfl
      tiled := ⟨chains', hcuts.tiledBy hrun hrep hlist hhint rfl rfl⟩
      isEmpty := rfl
      used := rfl
      vacant := by
        rw [← Bool.not_eq_true, isAllocated_iff, hfree]
        exact fun hx => Bool.false_ne_true hx.2.2
      head_ge := hge
      end_le := le_trans (Nat.add_le_add_left hle head) (le_trans hs.le_top h.top_le)
      allocated := hcuts.isAllocated
      mark_head := (hcuts.mark head).trans (if_pos rfl)
      extent_head := extent_eq_of_stretch hcuts.top_le hlt hcuts.stretch_head
      mark := fun c hc => hcuts.mark_of_block (isAllocated_iff.1 hc).2.2
      extent := fun c hc => by
        obtain ⟨-, hlt', hb⟩ := isAllocated_iff.1 hc
        have hhead : a.isBoundary c = true := by rw [Arena.isBoundary, hb, Bool.true_or]
        exact extent_eq_of_stretch hcuts.top_le hlt' (hcuts.stretch (Ne.symm (hcuts.ne_head hb)) hlt' hhead) }

/-! ### On request -/

/-- Cells that do not fit at `top` are claimed from a free run, if one is long enough. -/
theorem claim_of_full {found : Option (Nat × Nat)} {runs : FreeRuns}
    (hstop : checkedAdd halfWordRange a.top cells = .ok (a.top + cells))
    (hfull : ¬ a.top + cells ≤ arenaCells) (htake : a.runs.take a.links cells = .ok (found, runs)) :
    a.claim cells = do
      match found with
      | none => return (none, a)
      | some (head, run) =>
        if cells < run then
          let rest := head + cells
          require (rest < arenaCells) (.cellOutOfRange rest)
          let (runs, links) ← runs.push a.links rest (run - cells)
          return (some head, { a with mark := a.mark.set rest true, runs, links })
        else
          return (some head, { a with runs }) := by
  rw [claim, hstop]
  exact (if_neg hfull).trans (congrArg (· >>= _) htake)

/-- The arena's free runs are those of the shelf. -/
def Lists (a : Arena) (shelf : List (Nat × Nat)) : Prop := a.runs.Lists a.links shelf

theorem TiledBy.lists (h : a.TiledBy chains) : a.Lists (a.runs.listed chains) :=
  ⟨chains, h.represents, List.Perm.refl _⟩

/-- There are no `cells` cells in a row above the top or in a free run. -/
def Full (a : Arena) (cells : Nat) : Prop :=
  arenaCells < a.top + cells ∧ ∃ shelf, a.Lists shelf ∧ ∀ r ∈ shelf, r.2 < cells

/-- Where the `cells` cells from `head` on are taken from, of an arena whose free runs are those of the shelf,
and which free runs are left. -/
inductive Claims (a : Arena) (cells head : Nat) (a' : Arena) (shelf : List (Nat × Nat)) :
    List (Nat × Nat) → Prop where
  /-- from the bump region, if there is room -/
  | bump : a.top + cells ≤ arenaCells → head = a.top → a'.top = head + cells → Claims a cells head a' shelf shelf
  /-- else from the shortest free run that is long enough, the rest of which is a free run again -/
  | reuse {n : Nat} {others : List (Nat × Nat)} : arenaCells < a.top + cells → a'.top = a.top →
      shelf.Perm ((head, n) :: others) → cells ≤ n → (∀ r ∈ shelf, cells ≤ r.2 → n ≤ r.2) →
      Claims a cells head a' shelf (if cells < n then (head + cells, n - cells) :: others else others)

/-- No free run starts within another one. -/
theorem TiledBy.not_listed_within (h : a.TiledBy chains) {n c m : Nat} (hx : (head, n) ∈ a.runs.listed chains)
    (hlt : head < c) (hend : c < head + n) : (c, m) ∉ a.runs.listed chains := by
  intro hc
  obtain ⟨-, -, -, hm, -⟩ := (h.listed c m).1 hc
  obtain ⟨-, -, -, -, hs⟩ := (h.listed head n).1 hx
  have hclear := hs.clear c hlt hend
  rw [isBoundary, hm, Bool.or_true] at hclear
  cases hclear

/-- Cells that fit at `top` are claimed there. -/
theorem TiledBy.alloc_bump (h : a.TiledBy chains) (hpos : 0 < cells) (hfits : a.top + cells ≤ arenaCells)
    (black : Bool) : ∃ a', a.alloc cells black = .ok (some a.top, a') ∧ Placed a a' a.top cells black ∧
      ∃ before after, a.Lists before ∧ a'.Lists after ∧ a.Claims cells a.top a' before after := by
  have hused := h.used
  have hcells := arenaCells_eq
  have hhalf : arenaCells < halfWordRange := by decide
  have hclaim : a.claim cells = .ok (some a.top, { a with top := a.top + cells }) := by
    rw [claim, checkedAdd_eq_ok_iff.2 ⟨by omega, rfl⟩]
    simp only [bind, Except.bind, hfits, if_true]
    rfl
  refine ⟨_, ?_, h.bump hpos hfits black, _, _, h.lists, h.lists, .bump hfits rfl rfl⟩
  rw [alloc, hclaim]
  simp only [bind, Except.bind]
  rw [occupy_eq_ok { a with top := a.top + cells } black (show a.top < arenaCells by omega)
    (show a.used + cells < halfWordRange by omega)]
  rfl

/-- A tiled arena answers every request for as many cells as it may have: with an object
that was not there before, or not at all when it is full. -/
theorem alloc_claims (ha : a.Tiled) (hpos : 0 < cells) (hrange : a.top + cells < halfWordRange) (black : Bool) :
    ∃ found a', a.alloc cells black = .ok (found, a') ∧
      match found with
      | none => a' = a ∧ a.Full cells
      | some head => Placed a a' head cells black ∧
          ∃ before after, a.Lists before ∧ a'.Lists after ∧ a.Claims cells head a' before after := by
  obtain ⟨chains, h⟩ := ha
  have htop := h.top_le
  have hused := h.used
  have hcells := arenaCells_eq
  have hstop : checkedAdd halfWordRange a.top cells = .ok (a.top + cells) :=
    checkedAdd_eq_ok_iff.2 ⟨hrange, rfl⟩
  have hrange : a.used + cells < halfWordRange := by omega
  by_cases hfits : a.top + cells ≤ arenaCells
  · obtain ⟨a', halloc, hplaced⟩ := h.alloc_bump hpos hfits black
    exact ⟨some a.top, a', halloc, hplaced⟩
  · obtain ⟨found, runs, chains', htake, hrep, hhint, htakes⟩ :=
      FreeRuns.take_spec h.represents hpos h.holds
    have hclaim := claim_of_full hstop hfits htake
    cases found with
    | none =>
      refine ⟨none, a, ?_, rfl, not_le.1 hfits, _, h.lists, htakes.2⟩
      rw [alloc, hclaim]
      rfl
    | some x =>
      obtain ⟨head, n⟩ := x
      obtain ⟨hperm, hlen, hholds, hshortest⟩ := htakes
      have hmem : (head, n) ∈ a.runs.listed chains := hperm.symm.subset List.mem_cons_self
      have hend := (h.listed_le hmem).2
      by_cases hlt : cells < n
      · have hrest : Links.Holds (head + cells) := ⟨by have := hholds.1; omega, by omega⟩
        have hfresh : ∀ m, (head + cells, m) ∉ runs.listed chains' := fun m hx =>
          h.not_listed_within hmem (by omega) (by omega) (hperm.symm.subset (List.mem_cons_of_mem _ hx))
        obtain ⟨runs', links', chains'', hpush, hrep', hlist, hhint'⟩ :=
          @FreeRuns.push_spec _ _ _ _ (n - cells) hrep (by omega) (by omega) hrest hfresh
        have hlists : runs'.Lists links' (if cells < n then (head + cells, n - cells) ::
            runs.listed chains' else runs.listed chains') := ⟨chains'', hrep', by rw [if_pos hlt]; exact hlist⟩
        refine ⟨some head, _, ?_, h.reuse (a.mark.set (head + cells) true) hperm hpos hlen
          (fun c => ?_) hrep' ?_ ?_ black, _, _, h.lists, hlists, .reuse (not_le.1 hfits) rfl hperm hlen hshortest⟩
        · rw [alloc, hclaim]
          simp only [bind, Except.bind, hlt, if_true, require_eq_ok_iff.2 hrest.2, hpush, pure, Except.pure]
          rw [occupy_eq_ok
            { a with mark := a.mark.set (head + cells) true, runs := runs', links := links' } black
            hholds.2 hrange]
        · rw [Bitmap.get_set _ _ _ _ hrest.2]
          by_cases hc : head + cells = c
          · simp [hc, hlt]
          · rw [if_neg hc, if_neg (by omega)]
        · rw [if_pos hlt]
          exact hlist
        · omega
      · have hlists : runs.Lists a.links (if cells < n then (head + cells, n - cells) ::
            runs.listed chains' else runs.listed chains') := ⟨chains', hrep, by rw [if_neg hlt]⟩
        refine ⟨some head, _, ?_, h.reuse a.mark hperm hpos hlen (fun c => ?_) hrep ?_
          (le_of_eq hhint) black, _, _, h.lists, hlists, .reuse (not_le.1 hfits) rfl hperm hlen hshortest⟩
        · rw [alloc, hclaim]
          simp only [bind, Except.bind, hlt, if_false, pure, Except.pure]
          rw [occupy_eq_ok { a with runs } black hholds.2 hrange]
        · rw [if_neg (by omega)]
        · rw [if_neg hlt]

theorem alloc_spec (ha : a.Tiled) (hpos : 0 < cells) (hrange : a.top + cells < halfWordRange) (black : Bool) :
    ∃ found a', a.alloc cells black = .ok (found, a') ∧
      match found with
      | none => a' = a
      | some head => Placed a a' head cells black := by
  obtain ⟨found, a', hrun, hspec⟩ := alloc_claims ha hpos hrange black
  refine ⟨found, a', hrun, ?_⟩
  cases found with
  | none => exact hspec.1
  | some head => exact hspec.1

/-- What an allocation that succeeds has done. -/
theorem alloc_eq_ok (ha : a.Tiled) (hpos : 0 < cells) {found : Option Nat} {a' : Arena} {black : Bool}
    (hrun : a.alloc cells black = .ok (found, a')) :
    (found = none → a' = a) ∧ ∀ head, found = some head → Placed a a' head cells black := by
  have hrange : a.top + cells < halfWordRange := by
    rw [alloc, claim] at hrun
    obtain ⟨_, hclaim, -⟩ := bind_eq_ok_iff.1 hrun
    obtain ⟨_, hstop, -⟩ := bind_eq_ok_iff.1 hclaim
    exact (checkedAdd_eq_ok_iff.1 hstop).1
  obtain ⟨found', a'', hrun', hspec⟩ := alloc_spec ha hpos hrange black
  rw [hrun] at hrun'
  cases hrun'
  cases found with
  | none => exact ⟨fun _ => hspec, fun _ hfound => by cases hfound⟩
  | some head => exact ⟨fun hfound => (by cases hfound), fun _ hfound => by cases hfound; exact hspec⟩

end Alloc

/-! ## Freeing an object -/

/-- `a'` is `a` without the object at `head`. -/
structure Vacated (a a' : Arena) (head : Nat) : Prop where
  keeps : a.Keeps a'
  fixed : a'.fixed = a.fixed
  needsSweep : a'.needsSweep = a.needsSweep
  tiled : a'.Tiled
  isEmpty : a'.isEmpty = a.isEmpty
  used : a'.used + a.extent head = a.used
  allocated : ∀ c, a'.isAllocated c = true ↔ c ≠ head ∧ a.isAllocated c = true
  mark : ∀ c, a'.isAllocated c = true → a'.mark.get c = a.mark.get c
  extent : ∀ c, a'.isAllocated c = true → a'.extent c = a.extent c

section Free

variable {a : Arena} {chains : Nat → List Nat} {head : Nat}

/-- In `a'` the cells from the object at `head` on, the last one of `a`, are unused. -/
structure Lowers (a a' : Arena) (head : Nat) : Prop where
  object : a.isAllocated head = true
  last : head + a.extent head = a.top
  top : a'.top = head
  block : ∀ c, a'.block.get c = if head = c then false else a.block.get c
  mark : ∀ c, a'.mark.get c = if head = c then false else a.mark.get c

namespace Lowers

variable {a' : Arena} {c : Nat}

theorem isBoundary (h : a.Lowers a' head) (c : Nat) :
    a'.isBoundary c = if head = c then false else a.isBoundary c := by
  rw [Arena.isBoundary, h.block, h.mark]
  split <;> rfl

theorem lt_top (h : a.Lowers a' head) : head < a.top := (isAllocated_iff.1 h.object).2.1

theorem isBoundary_head (h : a.Lowers a' head) : a.isBoundary head = true := by
  rw [Arena.isBoundary, (isAllocated_iff.1 h.object).2.2, Bool.true_or]

/-- Every other boundary is in front of the object. -/
theorem lt_head (h : a.Lowers a' head) (ha : a.TiledBy chains) (hc : a.isBoundary c = true) (hlt : c < a.top)
    (hne : head ≠ c) : c < head := by
  by_contra hge
  have hle := ha.stretch_le h.lt_top (lt_of_le_of_ne (not_lt.1 hge) hne) hc
  have hlast := h.last
  omega

/-- What is in front of the object is left as it was. -/
theorem stretch (h : a.Lowers a' head) (ha : a.TiledBy chains) (hc : c < head) :
    Stretch a'.isBoundary a'.top (c + 1) (c + a.extent c) := by
  have hs := stretch_extent ha.top_le (lt_trans hc h.lt_top)
  have hstop := ha.stretch_le (lt_trans hc h.lt_top) hc h.isBoundary_head
  rw [h.top]
  refine ⟨hs.le, hstop, fun d hd hlt => ?_, fun hlt => ?_⟩
  · rw [h.isBoundary, if_neg (by omega)]
    exact hs.clear d hd hlt
  · rw [h.isBoundary, if_neg (by omega)]
    exact hs.ends (lt_trans hlt h.lt_top)

theorem isAllocated (h : a.Lowers a' head) (ha : a.TiledBy chains) (c : Nat) :
    a'.isAllocated c = true ↔ c ≠ head ∧ a.isAllocated c = true := by
  have htop := h.lt_top
  rw [isAllocated_iff, isAllocated_iff, h.block, h.top]
  constructor
  · rintro ⟨hc, hlt, hb⟩
    rw [if_neg (by omega)] at hb
    exact ⟨by omega, hc, by omega, hb⟩
  · rintro ⟨hne, hc, hlt, hb⟩
    have hhead : a.isBoundary c = true := by rw [Arena.isBoundary, hb, Bool.true_or]
    exact ⟨hc, h.lt_head ha hhead hlt (Ne.symm hne), by rwa [if_neg (Ne.symm hne)]⟩

theorem tiledBy (h : a.Lowers a' head) (ha : a.TiledBy chains) (hruns : a'.runs = a.runs)
    (hlinks : a'.links = a.links) (hused : a'.used = a.used - a.extent head) (hempty : a'.isEmpty = a.isEmpty) :
    a'.TiledBy chains where
  top_ge := h.top ▸ (isAllocated_iff.1 h.object).1
  top_le := h.top ▸ le_trans (le_of_lt h.lt_top) ha.top_le
  blank c hc hlt := by
    rw [h.top] at hc
    rw [h.isBoundary]
    split
    · rfl
    · next hne =>
      have hlast := h.last
      rcases Nat.lt_or_ge c a.top with hin | hout
      · exact (stretch_extent ha.top_le h.lt_top).clear c (by omega) (by omega)
      · exact ha.blank c hout hlt
  first hlt := by
    rw [h.top] at hlt
    rw [h.isBoundary, if_neg (by omega)]
    exact ha.first (lt_trans hlt h.lt_top)
  represents := by
    rw [hruns, hlinks]
    exact ha.represents
  nodup := by
    rw [hruns]
    exact ha.nodup
  listed := by
    refine listed_iff_of (fun c n hx => ?_) fun c hc hlt hb hm => ?_
    · rw [hruns] at hx
      obtain ⟨hc, hlt, hb, hm, -⟩ := (ha.listed c n).1 hx
      have hne : head ≠ c := by
        rintro rfl
        rw [(isAllocated_iff.1 h.object).2.2] at hb
        cases hb
      have hbefore := h.lt_head ha (by rw [Arena.isBoundary, hm, Bool.or_true]) hlt hne
      rw [ha.eq_extent hx]
      exact ⟨hc, h.top ▸ hbefore, by rw [h.block, if_neg hne, hb], by rw [h.mark, if_neg hne, hm],
        h.stretch ha hbefore⟩
    · rw [h.top] at hlt
      rw [h.block, if_neg (by omega)] at hb
      rw [h.mark, if_neg (by omega)] at hm
      rw [hruns]
      exact ⟨_, ha.mem_listed hc (lt_trans hlt h.lt_top) hb hm⟩
  used := by
    have hle := ha.extent_le_used h.object
    have hsum := ha.used
    have hlast := h.last
    rw [hruns, hused, h.top]
    omega
  hint := by
    rw [hruns]
    exact ha.hint
  empty hisEmpty c := by
    rw [← Bool.not_eq_true, h.isAllocated ha, ha.empty (hempty ▸ hisEmpty) c]
    exact fun hc => Bool.false_ne_true hc.2

end Lowers

/-- An object that reaches `top` joins the bump region. -/
theorem TiledBy.join (h : a.TiledBy chains) (hhead : a.isAllocated head = true)
    (hend : head + a.extent head = a.top) :
    Vacated a { a with
      block := a.block.set head false
      used := a.used - a.extent head
      mark := a.mark.set head false
      top := head } head := by
  obtain ⟨hge, hlt, -⟩ := isAllocated_iff.1 hhead
  have hget : ∀ (b : Bitmap) c, (b.set head false).get c = if head = c then false else b.get c := fun b c =>
    Bitmap.get_set _ _ _ _ (lt_of_lt_of_le hlt h.top_le)
  have hlowers : a.Lowers { a with
      block := a.block.set head false
      used := a.used - a.extent head
      mark := a.mark.set head false
      top := head } head := ⟨hhead, hend, rfl, hget _, hget _⟩
  have htiled := hlowers.tiledBy h rfl rfl rfl rfl
  exact
    { keeps := ⟨rfl, congrArg BitVec.toNat (word_zero_set _ hge _), rfl, rfl, rfl, rfl⟩
      fixed := rfl
      needsSweep := rfl
      tiled := ⟨chains, htiled⟩
      isEmpty := rfl
      used := Nat.sub_add_cancel (h.extent_le_used hhead)
      allocated := hlowers.isAllocated h
      mark := fun c hc => by
        obtain ⟨hne, -⟩ := (hlowers.isAllocated h c).1 hc
        rw [hlowers.mark, if_neg (Ne.symm hne)]
      extent := fun c hc => by
        have hlt' := (isAllocated_iff.1 hc).2.1
        exact extent_eq_of_stretch htiled.top_le hlt' (hlowers.stretch h hlt') }

/-- In `a'` the cells of the object at `head` are a free run. -/
structure Frees (a a' : Arena) (head : Nat) : Prop where
  object : a.isAllocated head = true
  top : a'.top = a.top
  block : ∀ c, a'.block.get c = if head = c then false else a.block.get c
  mark : ∀ c, a'.mark.get c = if head = c then true else a.mark.get c

namespace Frees

variable {a' : Arena} {c n : Nat}

theorem block_head (h : a.Frees a' head) : a.block.get head = true := (isAllocated_iff.1 h.object).2.2

/-- The head of the object heads the run. -/
theorem isBoundary (h : a.Frees a' head) : a'.isBoundary = a.isBoundary := by
  funext c
  rw [Arena.isBoundary, Arena.isBoundary, h.block, h.mark]
  split
  · next heq => rw [← heq, h.block_head, Bool.or_true, Bool.true_or]
  · rfl

/-- So no stretch changes. -/
theorem extent (h : a.Frees a' head) (ha : a.TiledBy chains) (hc : c < a.top) : a'.extent c = a.extent c := by
  refine extent_eq_of_stretch (h.top ▸ ha.top_le) (h.top ▸ hc) ?_
  rw [h.isBoundary, h.top]
  exact stretch_extent ha.top_le hc

theorem isAllocated (h : a.Frees a' head) (c : Nat) :
    a'.isAllocated c = true ↔ c ≠ head ∧ a.isAllocated c = true := by
  rw [isAllocated_iff, isAllocated_iff, h.block, h.top]
  by_cases hc : head = c
  · simp [hc]
  · rw [if_neg hc]
    exact ⟨fun hx => ⟨Ne.symm hc, hx⟩, fun hx => hx.2⟩

theorem ne_head (h : a.Frees a' head) (hb : a.block.get c = false) : head ≠ c := by
  rintro rfl
  rw [h.block_head] at hb
  cases hb

theorem tiledBy (h : a.Frees a' head) (ha : a.TiledBy chains) {chains' : Nat → List Nat}
    (hrep : a'.runs.Represents a'.links chains')
    (hlist : (a'.runs.listed chains').Perm ((head, a.extent head) :: a.runs.listed chains))
    (hhint : a'.runs.hint = min a.runs.hint head) (hused : a'.used = a.used - a.extent head)
    (hempty : a'.isEmpty = a.isEmpty) : a'.TiledBy chains' where
  top_ge := h.top ▸ ha.top_ge
  top_le := h.top ▸ ha.top_le
  blank := by
    rw [h.isBoundary, h.top]
    exact ha.blank
  first := by
    rw [h.isBoundary, h.top]
    exact ha.first
  represents := hrep
  nodup := by
    refine (hlist.map Prod.fst).nodup_iff.2 (List.nodup_cons.2 ⟨fun hx => ?_, ha.nodup⟩)
    obtain ⟨⟨c, n⟩, hx, heq⟩ := List.mem_map.1 hx
    exact h.ne_head ((ha.listed c n).1 hx).2.2.1 heq.symm
  listed := by
    refine listed_iff_of (fun c n hx => ?_) fun c hc hlt hb hm => ?_
    · rw [h.isBoundary, h.top]
      rcases List.mem_cons.1 (hlist.subset hx) with heq | hx
      · cases heq
        obtain ⟨hge, hlt, -⟩ := isAllocated_iff.1 h.object
        exact ⟨hge, hlt, (h.block head).trans (if_pos rfl), (h.mark head).trans (if_pos rfl),
          stretch_extent ha.top_le hlt⟩
      · obtain ⟨hc, hlt, hb, hm, hs⟩ := (ha.listed c n).1 hx
        have hne := h.ne_head hb
        exact ⟨hc, hlt, by rw [h.block, if_neg hne, hb], by rw [h.mark, if_neg hne, hm], hs⟩
    · rw [h.top] at hlt
      rw [h.block] at hb
      rw [h.mark] at hm
      split at hb
      · next heq =>
        subst heq
        exact ⟨_, hlist.symm.subset List.mem_cons_self⟩
      · next hne =>
        rw [if_neg hne] at hm
        exact ⟨_, hlist.symm.subset (List.mem_cons_of_mem _ (ha.mem_listed hc hlt hb hm))⟩
  used := by
    have hle := ha.extent_le_used h.object
    have htotal := ha.used
    have hsum := (hlist.map Prod.snd).sum_eq
    rw [List.map_cons, List.sum_cons] at hsum
    rw [hused, h.top]
    omega
  hint x hx := by
    rw [hhint]
    rcases List.mem_cons.1 (hlist.subset hx) with rfl | hx
    · exact Nat.min_le_right _ _
    · exact le_trans (Nat.min_le_left _ _) (ha.hint x hx)
  empty hisEmpty c := by
    rw [← Bool.not_eq_true, h.isAllocated, ha.empty (hempty ▸ hisEmpty) c]
    exact fun hc => Bool.false_ne_true hc.2

end Frees

/-- An object that does not reach `top` becomes a free run. -/
theorem TiledBy.release (h : a.TiledBy chains) (hhead : a.isAllocated head = true)
    {runs : FreeRuns} {links : Links} {chains' : Nat → List Nat}
    (hrep : runs.Represents links chains')
    (hlist : (runs.listed chains').Perm ((head, a.extent head) :: a.runs.listed chains))
    (hhint : runs.hint = min a.runs.hint head) :
    Vacated a { a with
      block := a.block.set head false
      used := a.used - a.extent head
      mark := a.mark.set head true
      runs, links } head := by
  obtain ⟨hge, hlt, -⟩ := isAllocated_iff.1 hhead
  have hget : ∀ (b : Bitmap) bit c, (b.set head bit).get c = if head = c then bit else b.get c := fun b bit c =>
    Bitmap.get_set _ _ _ _ (lt_of_lt_of_le hlt h.top_le)
  have hfrees : a.Frees { a with
      block := a.block.set head false
      used := a.used - a.extent head
      mark := a.mark.set head true
      runs, links } head := ⟨hhead, rfl, hget _ _, hget _ _⟩
  exact
    { keeps := ⟨rfl, congrArg BitVec.toNat (word_zero_set _ hge _), rfl, rfl, rfl, rfl⟩
      fixed := rfl
      needsSweep := rfl
      tiled := ⟨chains', hfrees.tiledBy h hrep hlist hhint rfl rfl⟩
      isEmpty := rfl
      used := Nat.sub_add_cancel (h.extent_le_used hhead)
      allocated := hfrees.isAllocated
      mark := fun c hc => by
        obtain ⟨hne, -⟩ := (hfrees.isAllocated c).1 hc
        rw [hfrees.mark, if_neg (Ne.symm hne)]
      extent := fun c hc => hfrees.extent h (isAllocated_iff.1 hc).2.1 }

/-- Freeing an object gives its cells back. -/
theorem free_spec (ha : a.Tiled) (hhead : a.isAllocated head = true) :
    ∃ a', a.free head = .ok (a.extent head, a') ∧ Vacated a a' head := by
  obtain ⟨chains, h⟩ := ha
  obtain ⟨hge, hlt, hb⟩ := isAllocated_iff.1 hhead
  have hs := stretch_extent h.top_le hlt
  have hsub : checkedSub a.used (a.extent head) = .ok (a.used - a.extent head) :=
    checkedSub_eq_ok_iff.2 ⟨h.extent_le_used hhead, rfl⟩
  by_cases hend : head + a.extent head = a.top
  · refine ⟨_, ?_, h.join hhead hend⟩
    rw [free, objectCells_eq hhead]
    simp only [bind, Except.bind, hsub, hend, if_true]
    rfl
  · have hfresh : ∀ n, (head, n) ∉ a.runs.listed chains := by
      intro n hx
      have hfree := ((h.listed head n).1 hx).2.2.1
      rw [hb] at hfree
      cases hfree
    have hle := hs.le_top
    have htop := h.top_le
    have hpos := hs.le
    rw [arenaCells_eq] at htop
    obtain ⟨runs, links, chains', hpush, hrep, hlist, hhint⟩ :=
      FreeRuns.push_spec h.represents (show 0 < a.extent head by omega)
        (show a.extent head < 65536 by rw [firstCell_eq] at hge; omega)
        ⟨hge, lt_of_lt_of_le hlt h.top_le⟩ hfresh
    refine ⟨_, ?_, h.release hhead hrep hlist hhint⟩
    rw [free, objectCells_eq hhead]
    simp only [bind, Except.bind, hsub, hend, if_false, hpush]
    rfl

/-- What freeing an object has done. -/
theorem free_eq_ok (ha : a.Tiled) {n : Nat} {a' : Arena} (hrun : a.free head = .ok (n, a')) : Vacated a a' head := by
  obtain ⟨_, hcells, -⟩ := bind_eq_ok_iff.1 hrun
  obtain ⟨_, hhead, -⟩ := bind_eq_ok_iff.1 hcells
  obtain ⟨a'', hrun', hspec⟩ := free_spec ha (require_eq_ok_iff.1 hhead)
  rw [hrun] at hrun'
  cases hrun'
  exact hspec

end Free

end Arena

end Tricolor
