import Tricolor.Layout

/-!
# Bitmaps

One bit for each cell of an arena, in words of 64 bits. `Bitmap.get` is the view
of a bitmap; `Bitmap.set` changes one bit, `Bitmap.combine` replaces a range of
words at once, and `Bitmap.scan` finds the first bit of a combination of two
bitmaps, a word at a time.
-/

namespace Tricolor

/-- A word of a bitmap. -/
abbrev Word := BitVec 64

namespace Word

/-- The place of the lowest set bit among the `n` bits from place `i` on, or
`i + n` when all of them are clear. -/
def lowestFrom (w : Word) (i : Nat) : Nat → Nat
  | 0 => i
  | n + 1 => if w.getLsbD i then i else lowestFrom w (i + 1) n

/-- The place of the lowest set bit, 64 for the zero word. -/
def lowest (w : Word) : Nat := lowestFrom w 0 64

end Word

/-- One bit for each cell of an arena. -/
structure Bitmap where
  /-- bit `i % 64` of word `i / 64` belongs to cell `i` -/
  words : Vector Word bitmapWords

namespace Bitmap

/-- No bit is set. -/
def zero : Bitmap := ⟨Vector.replicate bitmapWords 0⟩

instance : Inhabited Bitmap := ⟨zero⟩

/-- The word at `i`, zero past the end. -/
def word (b : Bitmap) (i : Nat) : Word := b.words.toArray.getD i 0

/-- Replaces the word at `i`. -/
def setWord (b : Bitmap) (i : Nat) (w : Word) : Bitmap := ⟨b.words.setIfInBounds i w⟩

/-- The bit of `cell`. -/
def get (b : Bitmap) (cell : Nat) : Bool := (b.word (cell / 64)).getLsbD (cell % 64)

/-- The word `w` with the bit at place `i` set to `bit`. -/
def withBit (w : Word) (i : Nat) (bit : Bool) : Word :=
  if bit then w ||| BitVec.twoPow 64 i else w &&& ~~~ BitVec.twoPow 64 i

/-- Sets the bit of `cell` to `bit`. -/
def set (b : Bitmap) (cell : Nat) (bit : Bool) : Bitmap :=
  b.setWord (cell / 64) (withBit (b.word (cell / 64)) (cell % 64) bit)

/-- Replaces the words from `first` below `last` by `f` of the words of `b` and
`other`. -/
def combine (first last : Nat) (f : Word → Word → Word) (b other : Bitmap) : Bitmap :=
  ⟨Vector.ofFn fun i => if first ≤ i.val ∧ i.val < last then f b.words[i] other.words[i] else b.words[i]⟩

/-- Whether some word from `first` below `last` is not zero. -/
def anyWord (first last : Nat) (b : Bitmap) : Bool :=
  (List.range' first (last - first)).any fun i => b.word i != 0

/-- Searches at most `n` words, from `cell` on and below `limit`. -/
def scanWords (select : Word → Word → Word) (block mark : Bitmap) (limit cell : Nat) :
    Nat → Option Nat
  | 0 => none
  | n + 1 =>
    if cell < limit then
      let i := cell / 64
      let bits := select (block.word i) (mark.word i) >>> (cell % 64)
      if bits = 0 then
        scanWords select block mark limit ((i + 1) * 64) n
      else
        let found := cell + Word.lowest bits
        if found < limit then some found else none
    else
      none

/-- The first cell from `start` below `limit` whose bit is set in the selected
combination of the two bitmaps, looked for a word at a time. -/
def scan (select : Word → Word → Word) (block mark : Bitmap) (start limit : Nat) : Option Nat :=
  scanWords select block mark limit start bitmapWords

/-! ## One bit at a time -/

@[simp] theorem word_zero (i : Nat) : zero.word i = 0 := by
  simp only [word, zero, Vector.toArray_replicate, Array.getD_eq_getD_getElem?,
    Array.getElem?_replicate]
  split <;> rfl

@[simp] theorem get_zero (cell : Nat) : zero.get cell = false := by
  simp [get]

theorem word_setWord (b : Bitmap) (i j : Nat) (w : Word) :
    (b.setWord i w).word j = if i = j ∧ i < bitmapWords then w else b.word j := by
  simp only [word, setWord, Vector.toArray_setIfInBounds, Array.getD_eq_getD_getElem?,
    Array.getElem?_setIfInBounds, Vector.size_toArray]
  by_cases hij : i = j
  · subst hij
    by_cases hi : i < bitmapWords
    · simp [hi]
    · simp [hi]
  · simp [hij]

theorem getLsbD_withBit (w : Word) (i j : Nat) (bit : Bool) (hj : j < 64) :
    (withBit w i bit).getLsbD j = if i = j then bit else w.getLsbD j := by
  unfold withBit
  by_cases hij : i = j
  · subst hij
    cases bit <;> simp [hj]
  · cases bit <;> simp [hj, hij, Ne.symm hij]

/-- Setting the bit of a cell is seen at that cell and nowhere else. -/
theorem get_set (b : Bitmap) (i j : Nat) (bit : Bool) (hi : i < arenaCells) :
    (b.set i bit).get j = if i = j then bit else b.get j := by
  have hw : i / 64 < bitmapWords := Nat.div_lt_of_lt_mul hi
  simp only [get, set, word_setWord, hw, and_true]
  by_cases hij : i = j
  · subst hij
    rw [if_pos rfl, if_pos rfl, getLsbD_withBit _ _ _ _ (Nat.mod_lt _ (by omega)), if_pos rfl]
  · rw [if_neg hij]
    split
    · next h =>
      rw [getLsbD_withBit _ _ _ _ (Nat.mod_lt _ (by omega)), if_neg (by omega), h]
    · rfl

/-! ## A range of words at a time -/

theorem word_combine (first last : Nat) (f : Word → Word → Word) (b other : Bitmap) (i : Nat)
    (hi : i < bitmapWords) :
    (combine first last f b other).word i =
      if first ≤ i ∧ i < last then f (b.word i) (other.word i) else b.word i := by
  have hw (c : Bitmap) : c.word i = c.words[i] := by
    simp [word, Array.getD_eq_getD_getElem?, hi]
  rw [hw, hw, hw]
  simp [combine]

/-- A range of words is replaced bit by bit, if `f` works bit by bit. -/
theorem get_combine (first last : Nat) (f : Word → Word → Word) (g : Bool → Bool → Bool)
    (hf : ∀ v w i, i < 64 → (f v w).getLsbD i = g (v.getLsbD i) (w.getLsbD i))
    (b other : Bitmap) (cell : Nat) (hc : cell < arenaCells) :
    (combine first last f b other).get cell =
      if first ≤ cell / 64 ∧ cell / 64 < last then g (b.get cell) (other.get cell)
      else b.get cell := by
  have hw : cell / 64 < bitmapWords := Nat.div_lt_of_lt_mul hc
  simp only [get, word_combine _ _ _ _ _ _ hw]
  split
  · exact hf _ _ _ (Nat.mod_lt _ (by omega))
  · rfl

end Bitmap

end Tricolor
