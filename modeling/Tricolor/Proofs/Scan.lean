import Mathlib.Order.Nat
import Mathlib.Tactic.Common
import Tricolor.Bitmap

/-!
# Scanning bitmaps

`Bitmap.scan` looks at a word at a time, and the statements here read it a cell at a
time: it answers the least cell in its range whose selected bit is set, and nothing
exactly when no cell in the range has its bit set. This holds wherever the range starts
and ends in its words, and whatever is selected; a selection that works bit by bit looks
at the two bits of each cell.
-/

namespace Tricolor

namespace Word

/-- The lowest set bit among `n` bits lies among them, unless all of them are clear. -/
theorem lowestFrom_spec (w : Word) (i n : Nat) :
    i ≤ lowestFrom w i n ∧ lowestFrom w i n ≤ i + n ∧
      (∀ j, i ≤ j → j < lowestFrom w i n → w.getLsbD j = false) ∧
      (lowestFrom w i n < i + n → w.getLsbD (lowestFrom w i n) = true) := by
  induction n generalizing i with
  | zero => simp only [lowestFrom]; exact ⟨by omega, by omega, fun j _ _ => by omega, by omega⟩
  | succ n ih =>
    unfold lowestFrom
    by_cases hbit : w.getLsbD i = true
    · rw [if_pos hbit]
      exact ⟨le_refl i, by omega, fun j _ _ => by omega, fun _ => hbit⟩
    · rw [if_neg hbit]
      obtain ⟨hle, hend, hclear, hset⟩ := ih (i + 1)
      refine ⟨by omega, by omega, fun j hj hlt => ?_, fun hlt => hset (by omega)⟩
      rcases Nat.eq_or_lt_of_le hj with rfl | hj
      · simpa using hbit
      · exact hclear j hj hlt

/-- A word that is not zero has its lowest set bit among its 64 bits. -/
theorem lowest_spec {w : Word} (hw : w ≠ 0) :
    lowest w < 64 ∧ w.getLsbD (lowest w) = true ∧ ∀ j, j < lowest w → w.getLsbD j = false := by
  obtain ⟨-, hend, hclear, hset⟩ := lowestFrom_spec w 0 64
  have hlt : lowestFrom w 0 64 < 0 + 64 := by
    rcases Nat.lt_or_ge (lowestFrom w 0 64) (0 + 64) with hlt | hge
    · exact hlt
    · refine absurd (BitVec.eq_of_getLsbD_eq fun i hi => ?_) hw
      rw [hclear i (Nat.zero_le i) (by omega)]
      simp
  exact ⟨by rw [lowest]; omega, hset hlt, fun j hj => hclear j (Nat.zero_le j) hj⟩

end Word

namespace Bitmap

/-- A way to combine two words that works bit by bit, as `g` combines two bits. -/
def Bitwise (select : Word → Word → Word) (g : Bool → Bool → Bool) : Prop :=
  ∀ v w i, i < 64 → (select v w).getLsbD i = g (v.getLsbD i) (w.getLsbD i)

theorem bitwise_or : Bitwise (· ||| ·) (· || ·) := fun _ _ _ _ => BitVec.getLsbD_or

/-- The selection of the heads of free runs: the mark is set and the block bit is not. -/
theorem bitwise_free : Bitwise (fun b m => m &&& ~~~b) (fun b m => m && !b) := by
  intro v w i hi
  simp [hi]

/-- Some word of a range is not zero exactly if a cell of the range has its bit set. -/
theorem anyWord_iff {first last : Nat} {b : Bitmap} :
    b.anyWord first last = true ↔ ∃ c, first ≤ c / 64 ∧ c / 64 < last ∧ b.get c = true := by
  simp only [anyWord, List.any_eq_true, List.mem_range'_1, bne_iff_ne]
  constructor
  · rintro ⟨i, ⟨hge, hlt⟩, hne⟩
    obtain ⟨hplace, hset, -⟩ := Word.lowest_spec hne
    have hdiv : (64 * i + Word.lowest (b.word i)) / 64 = i := by omega
    have hmod : (64 * i + Word.lowest (b.word i)) % 64 = Word.lowest (b.word i) := by omega
    refine ⟨64 * i + Word.lowest (b.word i), by omega, by omega, ?_⟩
    rw [get, hdiv, hmod, hset]
  · rintro ⟨c, hge, hlt, hset⟩
    refine ⟨c / 64, ⟨hge, by omega⟩, fun hzero => ?_⟩
    rw [get, hzero] at hset
    simp at hset

/-- What a scan from `start` below `limit` for cells with the property `p` finds: the
least such cell, or nothing when there is none. -/
def Finds (p : Nat → Bool) (start limit : Nat) : Option Nat → Prop
  | none => ∀ c, start ≤ c → c < limit → p c = false
  | some c => start ≤ c ∧ c < limit ∧ p c = true ∧ ∀ d, start ≤ d → d < c → p d = false

/-- A stretch without hits at the start of a range can be skipped. -/
theorem Finds.skip {p : Nat → Bool} {start mid limit : Nat} {found : Option Nat}
    (hskip : ∀ c, start ≤ c → c < mid → c < limit → p c = false) (hle : start ≤ mid)
    (hfound : Finds p mid limit found) : Finds p start limit found := by
  cases found with
  | none =>
    intro c hc hlt
    by_cases hmid : c < mid
    · exact hskip c hc hmid hlt
    · exact hfound c (by omega) hlt
  | some c =>
    obtain ⟨hc, hlt, hp, hleast⟩ := hfound
    refine ⟨by omega, hlt, hp, fun d hd hdc => ?_⟩
    by_cases hmid : d < mid
    · exact hskip d hd hmid (by omega)
    · exact hleast d (by omega) hdc

variable {select : Word → Word → Word} {g : Bool → Bool → Bool}

/-- The bit of a cell in the selected combination of the two words with its bits. -/
def selected (select : Word → Word → Word) (block mark : Bitmap) (c : Nat) : Bool :=
  (select (block.word (c / 64)) (mark.word (c / 64))).getLsbD (c % 64)

theorem selected_eq (hsel : Bitwise select g) (block mark : Bitmap) :
    selected select block mark = fun c => g (block.get c) (mark.get c) :=
  funext fun _ => hsel _ _ _ (Nat.mod_lt _ (by omega))

/-- The bits of a word shifted down to `cell` are the selected bits of the cells from
`cell` to the end of its word. -/
theorem getLsbD_selected (select : Word → Word → Word) (block mark : Bitmap) (cell j : Nat)
    (hj : cell % 64 + j < 64) :
    (select (block.word (cell / 64)) (mark.word (cell / 64)) >>> (cell % 64)).getLsbD j =
      selected select block mark (cell + j) := by
  have hdiv : (cell + j) / 64 = cell / 64 := by omega
  have hmod : (cell + j) % 64 = cell % 64 + j := by omega
  rw [BitVec.getLsbD_ushiftRight, selected, hdiv, hmod]

/-- Nothing is selected past the end of the word. -/
theorem getLsbD_selected_past (select : Word → Word → Word) (block mark : Bitmap) (cell j : Nat)
    (hj : 64 ≤ cell % 64 + j) :
    (select (block.word (cell / 64)) (mark.word (cell / 64)) >>> (cell % 64)).getLsbD j = false := by
  rw [BitVec.getLsbD_ushiftRight]
  exact BitVec.getLsbD_of_ge _ _ hj

/-- A search of enough words finds what there is to find. -/
theorem finds_scanWords (select : Word → Word → Word) (block mark : Bitmap) (limit cell n : Nat)
    (hn : limit ≤ (cell / 64 + n) * 64) :
    Finds (selected select block mark) cell limit (scanWords select block mark limit cell n) := by
  induction n generalizing cell with
  | zero =>
    intro c hc hlt
    omega
  | succ n ih =>
    unfold scanWords
    by_cases hcell : cell < limit
    · simp only [hcell, if_true]
      have hbit := getLsbD_selected select block mark cell
      have hpast := getLsbD_selected_past select block mark cell
      generalize select (block.word (cell / 64)) (mark.word (cell / 64)) >>> (cell % 64) = bits
        at hbit hpast ⊢
      by_cases hbits : bits = 0
      · -- no hit in this word: the search goes on at the start of the next one
        simp only [hbits, if_true]
        refine Finds.skip (fun c hc hlt _ => ?_) (by omega)
          (ih ((cell / 64 + 1) * 64) (by omega))
        have hc' : cell + (c - cell) = c := by omega
        rw [← hc', ← hbit (c - cell) (by omega), hbits]
        simp
      · simp only [hbits, if_false]
        obtain ⟨-, hset, hclear⟩ := Word.lowest_spec hbits
        have hword : cell % 64 + Word.lowest bits < 64 := by
          by_contra hge
          rw [hpast _ (by omega)] at hset
          cases hset
        have hbelow : ∀ d, cell ≤ d → d < cell + Word.lowest bits →
            selected select block mark d = false := by
          intro d hd hlt
          have hd' : cell + (d - cell) = d := by omega
          rw [← hd', ← hbit (d - cell) (by omega), hclear (d - cell) (by omega)]
        by_cases hlt : cell + Word.lowest bits < limit
        · rw [if_pos hlt]
          exact ⟨by omega, hlt, (hbit _ hword).symm.trans hset, hbelow⟩
        · rw [if_neg hlt]
          exact fun c hc hlt => hbelow c hc (by omega)
    · rw [if_neg hcell]
      intro c hc hlt
      omega

/-- A scan answers the least cell of its range whose selected bit is set, and nothing when
there is none. -/
theorem finds_scan_selected (select : Word → Word → Word) (block mark : Bitmap) (start limit : Nat)
    (hlimit : limit ≤ arenaCells) :
    Finds (selected select block mark) start limit (scan select block mark start limit) := by
  have hcells : arenaCells = bitmapWords * 64 := rfl
  exact finds_scanWords select block mark limit start bitmapWords (by omega)

theorem finds_scan (hsel : Bitwise select g) (block mark : Bitmap) (start limit : Nat)
    (hlimit : limit ≤ arenaCells) :
    Finds (fun c => g (block.get c) (mark.get c)) start limit
      (scan select block mark start limit) :=
  selected_eq hsel block mark ▸ finds_scan_selected select block mark start limit hlimit

end Bitmap

end Tricolor
