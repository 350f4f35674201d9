import Tricolor.Fault

/-!
# Grey stacks

The cells of an arena that wait to be traversed, last in, first out. Cell 0 heads
no object, so it is never queued.
-/

namespace Tricolor

/-- Cells waiting to be traversed. -/
structure GreyStack where
  /-- the waiting cells, the next one to pop at the end -/
  cells : Array Nat

namespace GreyStack

/-- Nothing waits. -/
def empty : GreyStack := ⟨#[]⟩

instance : Inhabited GreyStack := ⟨empty⟩

/-- How many cells wait. -/
def size (s : GreyStack) : Nat := s.cells.size

/-- Whether no cell waits. -/
def isEmpty (s : GreyStack) : Bool := s.cells.isEmpty

/-- Queues `cell`. -/
def push (s : GreyStack) (cell : Nat) : Except Fault GreyStack := do
  require (cell ≠ 0) .nullCell
  return ⟨s.cells.push cell⟩

/-- Removes the cell queued last. -/
def pop? (s : GreyStack) : Option (Nat × GreyStack) :=
  match s.cells.back? with
  | none => none
  | some cell => some (cell, ⟨s.cells.pop⟩)

@[simp] theorem pop?_empty : empty.pop? = none := rfl

/-- The cell queued last is popped first, and leaves the stack as it was before. -/
theorem pop?_push {s t : GreyStack} {cell : Nat} (h : s.push cell = .ok t) :
    t.pop? = some (cell, s) := by
  obtain ⟨_, _, ht⟩ := bind_eq_ok_iff.1 h
  cases ht
  simp [pop?]

end GreyStack

end Tricolor
