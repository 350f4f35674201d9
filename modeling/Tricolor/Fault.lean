/-!
# Faults

A `Fault` is a broken precondition: an operation was asked to do something its
callers promise never to ask for, or a counter would leave its range. A fault
aborts the operation, so nothing is said about the state behind it. Failures
that callers have to expect (a refused allocation, a failing finalizer) are not
faults; they are ordinary results.

Counters are natural numbers with an explicit range: `checkedAdd` and
`checkedSub` fault outside it, `saturatingAdd` and `saturatingMul` stop at the
largest machine word.
-/

namespace Tricolor

/-- What can go wrong when a precondition is broken. -/
inductive Fault where
  /-- cell 0 was queued; it is metadata and heads no object -/
  | nullCell
  /-- a run of no cells was listed or requested -/
  | emptyRun
  /-- a cell outside the cells that the operation may touch -/
  | cellOutOfRange (cell : Nat)
  /-- the cell or block does not head an allocated object -/
  | notAllocated
  /-- a sum left the range of its counter -/
  | overflow
  /-- a difference fell below zero -/
  | underflow
  /-- the size of a huge block is not a whole number of cells -/
  | misalignedSize (size : Nat)
  /-- page 0 was used as the address of a block -/
  | nullPage
  /-- a block was registered at a page that already holds one -/
  | pageTaken (page : Nat)
  /-- a reference into a page that this heap does not hold -/
  | foreignPage (page : Nat)
  /-- no arena has this index -/
  | noArena (index : Nat)
  /-- a grey queue still holds objects -/
  | greyLeft
  /-- a finalizer register still holds objects -/
  | finalizersLeft
  /-- a buffer was asked for with more entries than memory can ever hold -/
  | bufferTooLong (capacity : Nat)
  /-- the store buffer still holds objects -/
  | storesLeft
  /-- the caller's idea of an object's size is wrong -/
  | wrongSize
  /-- an interned string was to be changed -/
  | immutableString
  /-- text was asked of an object that is no string -/
  | notAString
  /-- a run of the collector was longer than its caller allowed for -/
  | outOfFuel
  deriving DecidableEq, Repr

/-- The number of values of a 64-bit machine word. -/
def wordRange : Nat := 0x10000000000000000

/-- The largest machine word. -/
def maxWord : Nat := wordRange - 1

/-- The number of values of a 32-bit counter. -/
def halfWordRange : Nat := 0x100000000

/-- Faults with `fault` unless `p` holds. -/
def require (p : Prop) [Decidable p] (fault : Fault) : Except Fault Unit :=
  if p then .ok () else .error fault

/-- `a + b`, provided it is below `range`. -/
def checkedAdd (range a b : Nat) : Except Fault Nat :=
  if a + b < range then .ok (a + b) else .error .overflow

/-- `a * b`, provided it is below `range`. -/
def checkedMul (range a b : Nat) : Except Fault Nat :=
  if a * b < range then .ok (a * b) else .error .overflow

/-- `a - b`, provided `b` is not larger. -/
def checkedSub (a b : Nat) : Except Fault Nat :=
  if b ≤ a then .ok (a - b) else .error .underflow

/-- `a + b`, or the largest machine word when the sum is larger. -/
def saturatingAdd (a b : Nat) : Nat := min (a + b) maxWord

/-- `a * b`, or the largest machine word when the product is larger. -/
def saturatingMul (a b : Nat) : Nat := min (a * b) maxWord

/-- A sequence of two operations succeeds exactly if both do. -/
theorem bind_eq_ok_iff {α β : Type} {x : Except Fault α} {f : α → Except Fault β} {b : β} :
    x >>= f = .ok b ↔ ∃ a, x = .ok a ∧ f a = .ok b := by
  cases x with
  | error fault => simp [bind, Except.bind]
  | ok a => simp [bind, Except.bind]

/-- An alternative between two operations, with the same continuation. -/
theorem ite_bind_eq_ok_iff {α β : Type} {p : Prop} [Decidable p] {x y : Except Fault α}
    {f : α → Except Fault β} {b : β} :
    (if p then x >>= f else y >>= f) = .ok b ↔ ∃ a, (if p then x else y) = .ok a ∧ f a = .ok b := by
  split
  · exact bind_eq_ok_iff
  · exact bind_eq_ok_iff

/-- What every turn of a loop keeps, the loop keeps. -/
theorem foldlM_keeps {α β : Type} {P : β → Prop} {f : β → α → Except Fault β} {xs : List α} {b c : β} (hb : P b)
    (hf : ∀ {b c : β} {x : α}, x ∈ xs → P b → f b x = .ok c → P c) (hrun : xs.foldlM f b = .ok c) : P c := by
  induction xs generalizing b with
  | nil =>
    cases hrun
    exact hb
  | cons x rest ih =>
    rw [List.foldlM_cons] at hrun
    obtain ⟨d, hx, hrest⟩ := bind_eq_ok_iff.1 hrun
    exact ih (hf List.mem_cons_self hb hx) (fun hmem => hf (List.mem_cons_of_mem _ hmem)) hrest

theorem require_eq_ok_iff {p : Prop} [Decidable p] {fault : Fault} :
    require p fault = .ok () ↔ p := by
  unfold require; split <;> simp_all

theorem checkedAdd_eq_ok_iff {range a b c : Nat} :
    checkedAdd range a b = .ok c ↔ a + b < range ∧ c = a + b := by
  unfold checkedAdd; split <;> grind

theorem checkedMul_eq_ok_iff {range a b c : Nat} :
    checkedMul range a b = .ok c ↔ a * b < range ∧ c = a * b := by
  unfold checkedMul; split <;> grind

theorem checkedSub_eq_ok_iff {a b c : Nat} :
    checkedSub a b = .ok c ↔ b ≤ a ∧ c = a - b := by
  unfold checkedSub; split <;> grind

/-- What an operation that succeeds answers. -/
def answerOf {α : Type} (x : Except Fault α) (h : x.isOk = true) : α :=
  match x, h with
  | .ok a, _ => a

theorem eq_answerOf {α : Type} {x : Except Fault α} (h : x.isOk = true) : x = .ok (answerOf x h) := by
  cases x with
  | ok => rfl
  | error => cases h

theorem eq_answerOf_of_fst {α β : Type} {x : Except Fault (α × β)} {a : α} (h : x.isOk = true)
    (ha : (answerOf x h).1 = a) : x = .ok (a, (answerOf x h).2) := by
  rw [← ha]
  exact eq_answerOf h

end Tricolor
