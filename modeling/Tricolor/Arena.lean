import Tricolor.Object
import Tricolor.Bitmap
import Tricolor.FreeRuns
import Tricolor.GreyStack
import Tricolor.FinalizerRegister

/-!
# Arenas

An arena is one page of cells. Two bitmaps give the state of each cell:

| block | mark | state  |
|-------|------|--------|
| 0     | 0    | extent |
| 0     | 1    | free   |
| 1     | 0    | white  |
| 1     | 1    | black  |

Only the head cell of an object has its block bit set, and only the head cell of a
free run its mark bit alone; the cells after it up to the next set bit in either
bitmap are its extent. So the length of an object is read off the bitmaps.

Objects are placed at `top`, the start of the bump region, while there is room, and
into free runs after that. The bitmaps' first word covers cells that hold no
objects; in the block bitmap it stores the index of the arena in its heap.
-/

namespace Tricolor

/-- A page of cells. -/
structure Arena where
  /-- the page of the arena -/
  page : Page
  /-- the block bit of each cell -/
  block : Bitmap
  /-- the mark bit of each cell -/
  mark : Bitmap
  /-- the start of the bump region: no cell from here on is in use -/
  top : Nat
  /-- the number of cells in objects -/
  used : Nat
  /-- the free runs below `top` -/
  runs : FreeRuns
  /-- the links between free runs, stored in their head cells -/
  links : Links
  /-- the headers of the objects, stored in their head cells -/
  headers : Zeroed Header
  /-- the bytes of the payloads, by their offset in the arena -/
  bytes : Zeroed UInt8
  /-- the cells that wait to be traversed -/
  grey : GreyStack
  /-- the objects with a finalizer -/
  finalizers : FinalizerRegister
  /-- the objects that are never reclaimed -/
  fixed : Array Nat
  /-- no objects remain: the arena can be reused or released -/
  isEmpty : Bool
  /-- the arena awaits its sweep in the current cycle -/
  needsSweep : Bool

namespace Arena

/-- Stores the arena's index in its heap. -/
def setIndex (a : Arena) (index : Nat) : Arena :=
  { a with block := a.block.setWord 0 (BitVec.ofNat 64 index) }

/-- The arena's index in its heap, as stored in the arena. -/
def index (a : Arena) : Nat := (a.block.word 0).toNat

/-- A new arena at `page`, without objects. -/
def new (page : Page) (index : Nat) : Arena :=
  let a : Arena :=
    { page
      block := .zero
      mark := .zero
      top := firstCell
      used := 0
      runs := .empty firstCell
      links := .empty
      headers := .empty
      bytes := .empty
      grey := .empty
      finalizers := .empty
      fixed := #[]
      isEmpty := true
      needsSweep := false }
  a.setIndex index

instance : Inhabited Arena := ⟨new 0 0⟩

/-- The reference to the object headed by `cell`. -/
def object (a : Arena) (cell : Nat) : Ref := ⟨a.page, cell⟩

/-- The bytes in objects. -/
def usedBytes (a : Arena) : Nat := a.used * cellBytes

/-- The number of bitmap words that cover the cells below `top`. -/
def liveWords (a : Arena) : Nat := (a.top + 63) / 64

/-- The state of a cell. -/
def cellState (a : Arena) (cell : Nat) : Except Fault CellState := do
  require (cell < arenaCells) (.cellOutOfRange cell)
  return .ofBits (a.block.get cell) (a.mark.get cell)

/-- Whether the mark of `cell` is set. -/
def isMarked (a : Arena) (cell : Nat) : Except Fault Bool := do
  require (cell < arenaCells) (.cellOutOfRange cell)
  return a.mark.get cell

/-- Whether `cell` heads an object. -/
def isAllocated (a : Arena) (cell : Nat) : Bool :=
  firstCell ≤ cell && cell < a.top && a.block.get cell

/-- Sets the mark of `cell`. -/
def setMark (a : Arena) (cell : Nat) : Except Fault Arena := do
  require (cell < arenaCells) (.cellOutOfRange cell)
  return { a with mark := a.mark.set cell true }

/-- Clears the mark of `cell`. -/
def clearMark (a : Arena) (cell : Nat) : Except Fault Arena := do
  require (cell < arenaCells) (.cellOutOfRange cell)
  return { a with mark := a.mark.set cell false }

/-- The first cell from `start` on that heads an object or a free run, at most
`top`. -/
def nextBoundary (a : Arena) (start : Nat) : Nat :=
  (Bitmap.scan (· ||| ·) a.block a.mark start a.top).getD a.top

/-- The length of the object headed by `head`, read off the bitmaps. -/
def objectCells (a : Arena) (head : Nat) : Except Fault Nat := do
  require (a.isAllocated head = true) .notAllocated
  return a.nextBoundary (head + 1) - head

/-- Makes the `cells` cells from `head` on an object, marked if `black`. -/
def occupy (a : Arena) (head cells : Nat) (black : Bool) : Except Fault Arena := do
  require (head < arenaCells) (.cellOutOfRange head)
  let used ← checkedAdd halfWordRange a.used cells
  return { a with
    block := a.block.set head true
    mark := a.mark.set head black
    used
    isEmpty := false }

/-- Finds `cells` cells in a row, in the bump region or else in the shortest free run
that holds them; the rest of that run is listed again. -/
def claim (a : Arena) (cells : Nat) : Except Fault (Option Nat × Arena) := do
  let stop ← checkedAdd halfWordRange a.top cells
  if stop ≤ arenaCells then
    return (some a.top, { a with top := stop })
  else
    let (found, runs) ← a.runs.take a.links cells
    match found with
    | none => return (none, a)
    | some (head, run) =>
      if cells < run then
        let rest := head + cells
        require (rest < arenaCells) (.cellOutOfRange rest)
        let (runs, links) ← runs.push a.links rest (run - cells)
        return (some head, { a with mark := a.mark.set rest true, runs, links })
      else
        return (some head, { a with runs })

/-- Allocates an object of `cells` cells, already marked if `black`. Answers its head
cell, or nothing when no room is left. -/
def alloc (a : Arena) (cells : Nat) (black : Bool) : Except Fault (Option Nat × Arena) := do
  let (head?, a) ← a.claim cells
  match head? with
  | none => return (none, a)
  | some head => return (some head, ← a.occupy head cells black)

/-- Frees the object headed by `head` and answers its length. An object that reaches
the bump region joins it, any other becomes a free run. -/
def free (a : Arena) (head : Nat) : Except Fault (Nat × Arena) := do
  let cells ← a.objectCells head
  let used ← checkedSub a.used cells
  let a := { a with block := a.block.set head false, used }
  if head + cells = a.top then
    return (cells, { a with mark := a.mark.set head false, top := head })
  else
    let (runs, links) ← a.runs.push a.links head cells
    return (cells, { a with mark := a.mark.set head true, runs, links })

/-- Splits the finalizer registrations after marking: marked objects stay registered,
unmarked finalizable ones become pending, the rest are forgotten. Answers the
unmarked cells that were asked about and those of them that became pending, both in
the order of the register. -/
def selectFinalizers (a : Arena) (isFinalizable : Ref → Bool) :
    Except Fault (List Nat × List Nat × Arena) := do
  let idle := a.finalizers.entries.filterMap fun (cell, pending) => if pending then none else some cell
  idle.forM fun cell => require
    (cell < arenaCells ∧ (a.mark.get cell = true ∨ firstCell ≤ cell)) (.cellOutOfRange cell)
  let verdict (cell : Nat) : Verdict :=
    if a.mark.get cell then .keep
    else if isFinalizable (a.object cell) then .pending
    else .forget
  let (offered, finalizers) := a.finalizers.select verdict
  let asked := offered.filter fun cell => !a.mark.get cell
  let doomed := asked.filter fun cell => isFinalizable (a.object cell)
  let forgotten := asked.filter fun cell => !isFinalizable (a.object cell)
  let headers := forgotten.foldl
    (fun headers cell => headers.modify cell fun h => { h with hasFinalizer := false }) a.headers
  return (asked, doomed, { a with finalizers, headers })

end Arena

end Tricolor
