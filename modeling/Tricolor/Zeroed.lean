/-!
# Zeroed memory

Memory that is handed out zeroed: it reads as `default` wherever nothing has been
written. Only the part up to the highest write is stored, so reserving a large
block costs nothing. The view of a memory is `Zeroed.get`; each operation has one
lemma that says what it does to that view.
-/

namespace Tricolor

/-- An unbounded memory that starts out as `default` everywhere. -/
structure Zeroed (α : Type) where
  /-- what has been written; everything past its end is still `default` -/
  written : Array α

namespace Zeroed

variable {α : Type} [Inhabited α]

/-- Untouched memory. -/
def empty : Zeroed α := ⟨#[]⟩

instance : Inhabited (Zeroed α) := ⟨empty⟩

/-- The content at `i`. -/
def get (m : Zeroed α) (i : Nat) : α := m.written.getD i default

/-- Extends the stored part to at least `n` entries. -/
def reserve (m : Zeroed α) (n : Nat) : Zeroed α :=
  if n ≤ m.written.size then m
  else ⟨m.written ++ Array.replicate (n - m.written.size) default⟩

/-- Writes `a` at `i`. -/
def set (m : Zeroed α) (i : Nat) (a : α) : Zeroed α :=
  if i < m.written.size then ⟨m.written.setIfInBounds i a⟩
  else ⟨(m.reserve i).written.push a⟩

/-- Applies `f` to the content at `i`. -/
def modify (m : Zeroed α) (i : Nat) (f : α → α) : Zeroed α :=
  m.set i (f (m.get i))

/-- Writes `default` to `count` entries from `i` on, within the stored part. -/
def clearStored (m : Array α) (i : Nat) : Nat → Array α
  | 0 => m
  | count + 1 => clearStored (m.setIfInBounds i default) (i + 1) count

/-- Writes `default` to `count` entries from `i` on. -/
def clear (m : Zeroed α) (i count : Nat) : Zeroed α :=
  let stored := min count (m.written.size - i)
  ⟨clearStored m.written i stored⟩

/-- Writes the entries of `as` from `i` on. -/
def write (m : Zeroed α) (i : Nat) (as : List α) : Zeroed α :=
  match as with
  | [] => m
  | a :: rest => (m.set i a).write (i + 1) rest

/-- `total`, plus the values under `f` of `count` stored entries from `i` on. -/
def tallyStored (f : α → Nat) (m : Array α) (i total : Nat) : Nat → Nat
  | 0 => total
  | count + 1 => tallyStored f m (i + 1) (total + f (m.getD i default)) count

/-- The sum of the values under `f` of the `count` entries from `i` on. Untouched entries
are not visited. -/
def tally (f : α → Nat) (m : Zeroed α) (i count : Nat) : Nat :=
  let stored := min count (m.written.size - i)
  tallyStored f m.written i ((count - stored) * f default) stored

/-- The `count` entries from `i` on. -/
def read (m : Zeroed α) (i count : Nat) : List α :=
  (List.range' i count).map m.get

@[simp] theorem get_empty (i : Nat) : (empty : Zeroed α).get i = default := by
  simp [get, empty]

theorem get_reserve (m : Zeroed α) (n i : Nat) : (m.reserve n).get i = m.get i := by
  unfold reserve
  split
  · rfl
  · simp only [get, Array.getD_eq_getD_getElem?, Array.getElem?_append, Array.getElem?_replicate]
    split
    · rfl
    · rw [Array.getElem?_eq_none (by omega)]
      split <;> rfl

theorem size_reserve (m : Zeroed α) (n : Nat) :
    (m.reserve n).written.size = max n m.written.size := by
  unfold reserve
  split
  · omega
  · simp; omega

/-- A write is seen at its own place and nowhere else. -/
theorem get_set (m : Zeroed α) (i j : Nat) (a : α) :
    (m.set i a).get j = if i = j then a else m.get j := by
  unfold set
  split
  · next h =>
    simp only [get, Array.getD_eq_getD_getElem?, Array.getElem?_setIfInBounds]
    split <;> simp_all
  · next h =>
    have hs : (m.reserve i).written.size = i := by rw [size_reserve]; omega
    rw [← get_reserve m i j]
    simp only [get, Array.getD_eq_getD_getElem?, Array.getElem?_push, hs]
    grind

theorem get_modify (m : Zeroed α) (i j : Nat) (f : α → α) :
    (m.modify i f).get j = if i = j then f (m.get j) else m.get j := by
  simp only [modify, get_set]
  split <;> simp_all

theorem getElem?_clearStored (m : Array α) (i count j : Nat) :
    (clearStored m i count)[j]? =
      if i ≤ j ∧ j < i + count ∧ j < m.size then some default else m[j]? := by
  induction count generalizing m i with
  | zero =>
    rw [clearStored, if_neg (by omega)]
  | succ n ih =>
    simp only [clearStored, ih, Array.size_setIfInBounds, Array.getElem?_setIfInBounds]
    grind

/-- Clearing is seen exactly in the cleared range. -/
theorem get_clear (m : Zeroed α) (i count j : Nat) :
    (m.clear i count).get j = if i ≤ j ∧ j < i + count then default else m.get j := by
  simp only [clear, get, Array.getD_eq_getD_getElem?, getElem?_clearStored]
  by_cases hj : j < m.written.size
  · grind
  · rw [Array.getElem?_eq_none (by omega)]
    split <;> split <;> rfl

/-- Writing a list is seen exactly in the range that it covers. -/
theorem get_write (m : Zeroed α) (i : Nat) (as : List α) (j : Nat) :
    (m.write i as).get j =
      if i ≤ j ∧ j < i + as.length then as.getD (j - i) default else m.get j := by
  induction as generalizing m i with
  | nil => rw [write, List.length_nil, if_neg (by omega)]
  | cons a rest ih =>
    simp only [write, ih, get_set, List.length_cons]
    by_cases h : i = j
    · subst h
      rw [if_neg (by omega), if_pos rfl, if_pos (by omega), Nat.sub_self, List.getD_cons_zero]
    · by_cases h' : i < j
      · have : j - i = (j - (i + 1)) + 1 := by omega
        rw [this, List.getD_cons_succ]
        grind
      · grind

@[simp] theorem length_read (m : Zeroed α) (i count : Nat) : (m.read i count).length = count := by
  simp [read]

end Zeroed

end Tricolor
