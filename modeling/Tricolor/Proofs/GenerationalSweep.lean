import Tricolor.Proofs.Arena.History

/-!
# The generational sweep

The bulk sweep and the generational sweep each replace the words of both bitmaps below `top`, by formulas of
their own: one leaves the survivors white, the other black. Turning them white afterwards gives what the bulk
sweep gives, in every arena, whatever its bits, its top and its free list are. What each of the three does to
a cell is a map of cell states, applied to the cells of the words that are swept and to no others.
-/

namespace Tricolor

namespace CellState

/-- What the bulk sweep makes of a cell: survivors turn white, and dead objects become free runs. -/
def swept : CellState → CellState
  | .black => .white
  | .white => .free
  | .free => .free
  | .extent => .extent

/-- What the generational sweep makes of a cell: survivors stay black, and dead objects become free runs. -/
def aged : CellState → CellState
  | .black => .black
  | .white => .free
  | .free => .free
  | .extent => .extent

theorem ofBits_swept (b m : Bool) : ofBits (b && m) (b ^^ m) = (ofBits b m).swept := by
  cases b <;> cases m <;> rfl

theorem ofBits_aged (b m : Bool) : ofBits (b && m) (b || m) = (ofBits b m).aged := by
  cases b <;> cases m <;> rfl

theorem swept_eq_white (state : CellState) : state.swept = .white ↔ state = .black := by
  cases state <;> decide

end CellState

namespace Bitmap

/-- A bit that is set belongs to a cell of the arena. -/
theorem lt_of_get {b : Bitmap} {c : Nat} (h : b.get c = true) : c < arenaCells := by
  by_contra hge
  have hcells : arenaCells = bitmapWords * 64 := rfl
  have hword : b.words.toArray.size ≤ c / 64 := by
    rw [Vector.size_toArray]
    omega
  rw [get, word, Array.getD_eq_getD_getElem?, Array.getElem?_eq_none hword] at h
  simp at h

/-- Two replacements of the same words are one. -/
theorem combine_combine (first last : Nat) (f g k : Word → Word → Word) (b other : Bitmap) :
    (b.combine first last f other).combine first last g (other.combine first last k b) =
      b.combine first last (fun v w => g (f v w) (k w v)) other := by
  rw [combine, combine, combine, combine, Bitmap.mk.injEq]
  ext i hi : 1
  by_cases h : first ≤ i ∧ i < last <;> simp [h]

end Bitmap

namespace Word

/-- Of the bits in either word, those that are not in both are in exactly one. -/
theorem or_xor_and (v w : Word) : (v ||| w) ^^^ (v &&& w) = v ^^^ w := by
  refine BitVec.eq_of_getLsbD_eq fun i _ => ?_
  rw [BitVec.getLsbD_xor, BitVec.getLsbD_or, BitVec.getLsbD_and, BitVec.getLsbD_xor]
  cases v.getLsbD i <;> cases w.getLsbD i <;> rfl

end Word

namespace Arena

variable {a b : Arena} {f : CellState → CellState}

/-- Of `a`, the cells in the words that a sweep replaces have their states mapped by `f`. The other cells, and
whatever is not in the bitmaps, are left alone, but for the flag and the hint that a sweep writes. -/
structure Recoloured (f : CellState → CellState) (a b : Arena) : Prop where
  inside : ∀ c, a.InSweep c → b.cellState c = f <$> a.cellState c
  outside : ∀ c, ¬ a.InSweep c → b.cellState c = a.cellState c
  keeps : a.Keeps b
  top : b.top = a.top
  used : b.used = a.used
  links : b.links = a.links
  fixed : b.fixed = a.fixed
  isEmpty : b.isEmpty = a.isEmpty

theorem cellState_eq_error {c : Nat} (hc : ¬ c < arenaCells) : a.cellState c = .error (.cellOutOfRange c) := by
  rw [cellState, require, if_neg hc]
  rfl

theorem Recoloured.endSweep (h : a.Recoloured f b) : a.Recoloured f b.endSweep where
  inside := h.inside
  outside := h.outside
  keeps := ⟨h.keeps.page, h.keeps.index, h.keeps.headers, h.keeps.bytes, h.keeps.grey, h.keeps.finalizers⟩
  top := h.top
  used := h.used
  links := h.links
  fixed := h.fixed
  isEmpty := h.isEmpty

/-- Of the swept words the cells in state `r` are those that were in state `q`, if `f` maps nothing else to it. -/
theorem Recoloured.inside_iff (h : a.Recoloured f b) {q r : CellState} (hf : ∀ state, f state = r ↔ state = q)
    {c : Nat} (hc : a.InSweep c) : b.cellState c = .ok r ↔ a.cellState c = .ok q := by
  rw [h.inside c hc]
  cases a.cellState c with
  | error => exact ⟨nofun, nofun⟩
  | ok state => simpa [Functor.map, Except.map] using hf state

/-- Replacing the words bit by bit maps the states of the cells in these words. -/
theorem recoloured_combineWords {newBlock newMark : Word → Word → Word} {p q : Bool → Bool → Bool}
    (hblock : Bitmap.Bitwise newBlock p) (hmark : Bitmap.Bitwise newMark q)
    (hf : ∀ b m, CellState.ofBits (p b m) (q b m) = f (.ofBits b m)) :
    a.Recoloured f (a.combineWords newBlock newMark) := by
  obtain ⟨hkeeps, hfixed, hisEmpty, htop⟩ := combineWords_keeps a newBlock newMark
  have hstate : ∀ c, (a.combineWords newBlock newMark).cellState c =
      if a.InSweep c then f <$> a.cellState c else a.cellState c := by
    intro c
    by_cases hcells : c < arenaCells
    · obtain ⟨hb, hm⟩ := get_combineWords hblock hmark (a := a) hcells
      rw [cellState_eq_ofBits hcells, cellState_eq_ofBits hcells, hb, hm]
      split
      · rw [hf]
        rfl
      · rfl
    · rw [cellState_eq_error hcells, cellState_eq_error hcells]
      split <;> rfl
  exact
    { inside := fun c hc => (hstate c).trans (if_pos hc)
      outside := fun c hc => (hstate c).trans (if_neg hc)
      keeps := hkeeps
      top := htop
      used := by rw [combineWords]
      links := by rw [combineWords]
      fixed := hfixed
      isEmpty := hisEmpty }

theorem recoloured_majorSweep (a : Arena) : a.Recoloured .swept a.majorSweep.2 :=
  (recoloured_combineWords bitwise_and bitwise_xor CellState.ofBits_swept).endSweep

theorem recoloured_minorSweep (a : Arena) : a.Recoloured .aged a.minorSweep.2 :=
  (recoloured_combineWords bitwise_and Bitmap.bitwise_or CellState.ofBits_aged).endSweep

theorem cellState_eq_black {c : Nat} :
    a.cellState c = .ok .black ↔ a.block.get c = true ∧ a.mark.get c = true := by
  by_cases hcells : c < arenaCells
  · rw [cellState_eq_ofBits hcells]
    cases a.block.get c <;> cases a.mark.get c <;> simp [CellState.ofBits]
  · rw [cellState_eq_error hcells]
    exact ⟨fun h => (by cases h), fun h => absurd (Bitmap.lt_of_get h.1) hcells⟩

/-- The sweep answers whether a cell of the swept words was black. -/
theorem majorSweep_answer (a : Arena) : a.majorSweep.1 = true ↔ ∃ c, a.InSweep c ∧ a.cellState c = .ok .black := by
  have hswept : ∀ c, a.majorSweep.2.InSweep c ↔ a.InSweep c := fun c => by
    rw [InSweep, InSweep, liveWords, liveWords, (recoloured_majorSweep a).top]
  have hanswer : a.majorSweep.1 = a.majorSweep.2.anyObject := rfl
  rw [hanswer, anyObject_iff_inSweep]
  refine exists_congr fun c => (and_congr_left' (hswept c)).trans (and_congr_right fun hc => ?_)
  rw [cellState_eq_black]
  by_cases hcells : c < arenaCells
  · have hblock := (get_combineWords bitwise_and bitwise_xor (a := a) hcells).1
    rw [if_pos hc] at hblock
    exact (Bool.eq_iff_iff.1 hblock).trans (Bool.and_eq_true_iff)
  · exact ⟨fun h => absurd (Bitmap.lt_of_get h) hcells, fun h => absurd (Bitmap.lt_of_get h.1) hcells⟩

theorem flipToWhite_endSweep (a : Arena) {block mark mark' : Bitmap}
    (hmark : mark.combine firstWord a.liveWords (fun m b => m ^^^ b) block = mark') :
    { a with block, mark }.endSweep.flipToWhite = { a with block, mark := mark' }.endSweep := by
  rw [← hmark]
  rfl

theorem anyObject_endSweep (a : Arena) (block mark mark' : Bitmap) :
    { a with block, mark }.endSweep.anyObject = { a with block, mark := mark' }.endSweep.anyObject := rfl

/-- Turning the survivors of a generational sweep white leaves the very arena that the bulk sweep leaves. -/
theorem flipToWhite_minorSweep (a : Arena) : a.minorSweep.2.flipToWhite = a.majorSweep.2 := by
  have hmark := Bitmap.combine_combine firstWord a.liveWords (fun m b => b ||| m) (fun m b => m ^^^ b) (· &&& ·)
    a.mark a.block
  simp only [Word.or_xor_and] at hmark
  exact flipToWhite_endSweep a hmark

/-- Both sweeps keep the same block bits, so they answer alike. -/
theorem minorSweep_answer (a : Arena) : a.minorSweep.1 = a.majorSweep.1 := anyObject_endSweep a _ _ _

/-- A generational sweep, with its survivors turned white afterwards, is a bulk sweep: it leaves the same arena and
answers the same, whether an object was black. Of the cells that are swept, among them all cells of objects, the
white ones are then those that were black, the white ones have become free, and the other cells are as before. -/
theorem generational_sweep_composes (a : Arena) :
    a.minorSweep.2.flipToWhite = a.majorSweep.2 ∧ a.minorSweep.1 = a.majorSweep.1 ∧
      (a.minorSweep.1 = true ↔ ∃ c, a.InSweep c ∧ a.cellState c = .ok .black) ∧
      a.Recoloured .aged a.minorSweep.2 ∧ a.Recoloured .swept a.minorSweep.2.flipToWhite ∧
      (∀ c, a.InSweep c →
        (a.minorSweep.2.flipToWhite.cellState c = .ok .white ↔ a.cellState c = .ok .black)) ∧
      a.minorSweep.2.flipToWhite.needsSweep = false ∧
      a.minorSweep.2.flipToWhite.runs = a.runs.lowerHint firstCell ∧
      ∀ c, firstCell ≤ c → c < a.top → a.InSweep c := by
  rw [flipToWhite_minorSweep, minorSweep_answer]
  have hmajor := recoloured_majorSweep a
  exact ⟨rfl, rfl, majorSweep_answer a, recoloured_minorSweep a, hmajor,
    fun c hc => hmajor.inside_iff CellState.swept_eq_white hc, rfl, rfl, fun c => inSweep_of_lt_top⟩

end Arena

end Tricolor
