import Std.Data.TreeMap
import Tricolor.Arena.Sweep
import Tricolor.BlockTable

/-!
# Spaces

All memory of a heap: its arenas and its huge blocks. Arenas have an index, their
place in the list; the index is also stored in the arena itself, so that the arena
of an object is found through the object's page. Huge blocks are registered in the
block table, and their contents are kept by page.

This module has the type and what can be asked of a space; the modules below it
place, mark, register and reclaim objects.
-/

namespace Tricolor

/-- Why memory could not be had. Allocations are never retried. -/
inductive AllocError where
  /-- the memory supply did not provide `size` bytes -/
  | outOfMemory (size : Nat)
  /-- no object can have `size` bytes -/
  | tooLarge (size : Nat)
  deriving DecidableEq, Repr

/-- The text of an allocation error. -/
def AllocError.message : AllocError → String
  | outOfMemory size => s!"out of memory allocating {size} bytes"
  | tooLarge size => s!"allocation of {size} bytes exceeds the maximum object size"

/-- How the memory supply answers a request for a number of bytes: with the first page
of a zeroed region, or not at all. An operation asks at most once. -/
abbrev Supply := Nat → Option Page

/-- The contents of a huge block. -/
structure HugeBlock where
  /-- the header of the object -/
  header : Header
  /-- the bytes of its payload, by their offset in the block -/
  bytes : Zeroed UInt8
  deriving Inhabited

/-- A queue of objects that wait to be traversed. -/
inductive GreySource where
  /-- the grey stack of the arena with this index -/
  | arena (index : Nat)
  /-- the grey queue of the huge blocks -/
  | huge
  deriving DecidableEq, Repr

/-- All memory of a heap. -/
structure Space where
  /-- the arenas, each at its index -/
  arenas : Array Arena
  /-- the index of the arena at each page -/
  indices : Std.TreeMap Page Nat
  /-- the arena into which new objects are placed first -/
  current : Option Nat
  /-- the sizes and flags of the huge blocks -/
  blocks : BlockTable
  /-- the contents of the huge blocks -/
  contents : Std.TreeMap Page HugeBlock
  /-- the huge blocks that wait to be traversed, the next one at the end -/
  hugeGrey : Array Page
  /-- the huge blocks that are never reclaimed -/
  hugeFixed : Array Page
  /-- the huge blocks with a finalizer that is not due -/
  hugeFinalizers : Array Page
  /-- the huge blocks whose finalizers are due, the next one at the end -/
  hugePending : Array Page
  /-- the huge blocks await their sweep in the current cycle -/
  hugeNeedsSweep : Bool
  /-- the bytes in allocated objects, unreachable ones included -/
  total : Nat

namespace Space

/-- A space without memory. -/
def empty : Space where
  arenas := #[]
  indices := ∅
  current := none
  blocks := .empty
  contents := ∅
  hugeGrey := #[]
  hugeFixed := #[]
  hugeFinalizers := #[]
  hugePending := #[]
  hugeNeedsSweep := false
  total := 0

instance : Inhabited Space := ⟨empty⟩

/-! ## Arenas by index -/

/-- Takes the arena at `index` out of a list of arenas and leaves an empty one in its
place, so that nothing else refers to it. -/
@[noinline] def takeOut (arenas : Array Arena) (index : Nat) (h : index < arenas.size) :
    Arena × Array Arena :=
  (arenas[index], arenas.set index default)

/-- Runs `f` on the arena at `index` and puts the arena back that it answers. -/
def updateArena {α : Type} (s : Space) (index : Nat) (f : Arena → Except Fault (α × Arena)) :
    Except Fault (α × Space) :=
  match s with
  | ⟨arenas, indices, current, blocks, contents, grey, fixed, finalizers, pending, sweep, total⟩ =>
    if h : index < arenas.size then do
      let (arena, arenas) := takeOut arenas index h
      let (a, arena) ← f arena
      return (a, ⟨arenas.setIfInBounds index arena, indices, current, blocks, contents, grey,
        fixed, finalizers, pending, sweep, total⟩)
    else
      .error (.noArena index)

/-- Updating an arena succeeds exactly if the arena is there and `f` succeeds on it, and
changes nothing else. -/
theorem updateArena_eq_ok_iff {α : Type} {s t : Space} {index : Nat}
    {f : Arena → Except Fault (α × Arena)} {a : α} :
    s.updateArena index f = .ok (a, t) ↔
      ∃ (h : index < s.arenas.size) (arena : Arena),
        f s.arenas[index] = .ok (a, arena) ∧ t = { s with arenas := s.arenas.set index arena } := by
  have put (h : index < s.arenas.size) (arena : Arena) :
      (s.arenas.set index default).setIfInBounds index arena = s.arenas.set index arena := by
    rw [Array.setIfInBounds, dif_pos (by rwa [Array.size_set]), Array.set_set]
  unfold updateArena takeOut
  by_cases h : index < s.arenas.size
  · simp only [h, dif_pos, put, bind_eq_ok_iff]
    constructor
    · rintro ⟨⟨b, arena⟩, hf, ht⟩
      cases ht
      exact ⟨trivial, arena, hf, rfl⟩
    · rintro ⟨_, arena, hf, rfl⟩
      exact ⟨(a, arena), hf, rfl⟩
  · simp only [h, dif_neg, not_false_eq_true]
    constructor
    · intro hf
      cases hf
    · rintro ⟨hi, _⟩
      exact hi.elim

/-- Replaces the arena at `index` by what `f` makes of it. -/
def modifyArena (s : Space) (index : Nat) (f : Arena → Except Fault Arena) : Except Fault Space := do
  let (_, s) ← s.updateArena index fun arena => return ((), ← f arena)
  return s

/-- The arena at `index`. -/
def arenaAt (s : Space) (index : Nat) : Except Fault Arena :=
  match s.arenas[index]? with
  | some arena => .ok arena
  | none => .error (.noArena index)

/-- The index of the arena at `page`: the one stored in that arena, which has to be its
place in the list. -/
def indexOf (s : Space) (page : Page) : Except Fault Nat :=
  match s.indices[page]? with
  | none => .error (.foreignPage page)
  | some index =>
    match s.arenas[index]? with
    | none => .error (.noArena index)
    | some arena => if arena.index = index then .ok index else .error (.noArena arena.index)

/-- The arena of an object that is not a huge block. -/
def arenaOf (s : Space) (r : Ref) : Except Fault Arena := do
  s.arenaAt (← s.indexOf r.page)

/-- Replaces the arena of `r` by what `f` makes of it. -/
def modifyArenaOf (s : Space) (r : Ref) (f : Arena → Except Fault Arena) : Except Fault Space := do
  let index ← s.indexOf r.page
  s.modifyArena index f

/-! ## Sizes and counts -/

/-- The number of arenas. -/
def arenaCount (s : Space) : Nat := s.arenas.size

/-- The number of arenas without objects. -/
def emptyArenas (s : Space) : Nat := s.arenas.countP (·.isEmpty)

/-- The number of huge blocks. -/
def hugeCount (s : Space) : Nat := s.blocks.size

/-- The bytes in huge blocks. -/
def hugeBytes (s : Space) : Nat := s.blocks.bytes

/-! ## Objects -/

/-- Whether `address` lies in an arena or is the start of a huge block. Other addresses
in huge blocks are not recognized. -/
def owns (s : Space) (address : Nat) : Except Fault Bool := do
  let page := address / pageBytes
  if address % pageBytes = 0 then
    if page = 0 then return false else s.blocks.contains page
  else
    return s.indices.contains page

/-- Whether `r` is the head of an allocated object. -/
def isAllocated (s : Space) (r : Ref) : Bool :=
  if r.isHuge then
    match s.blocks.contains r.page with
    | .ok found => found
    | .error _ => false
  else
    match s.indices[r.page]? with
    | none => false
    | some index => (s.arenas[index]?).any (·.isAllocated r.cell)

/-- The header of an object. -/
def header (s : Space) (r : Ref) : Except Fault Header := do
  if r.isHuge then
    match s.contents[r.page]? with
    | some block => return block.header
    | none => throw (.foreignPage r.page)
  else
    return (← s.arenaOf r).headers.get r.cell

/-- Applies `f` to the header of an object. -/
def modifyHeader (s : Space) (r : Ref) (f : Header → Header) : Except Fault Space := do
  if r.isHuge then
    require (s.contents.contains r.page = true) (.foreignPage r.page)
    return { s with contents := s.contents.modify r.page fun b => { b with header := f b.header } }
  else
    s.modifyArenaOf r fun a => return { a with headers := a.headers.modify r.cell f }

/-- The bytes that an object occupies, as the bitmaps or the block table give them. -/
def objectSize (s : Space) (r : Ref) : Except Fault Nat := do
  if r.isHuge then
    return (← s.blocks.sizeOf? r.page).getD 0
  else
    let cells ← (← s.arenaOf r).objectCells r.cell
    return cells * cellBytes

/-- The state of the cell that an object starts at. A huge block is white or black. -/
def cellState (s : Space) (r : Ref) : Except Fault CellState := do
  if r.isHuge then
    return if (← s.blocks.flags r.page).isMarked then .black else .white
  else
    (← s.arenaOf r).cellState r.cell

/-- Whether an object is marked. -/
def isMarked (s : Space) (r : Ref) : Except Fault Bool := do
  if r.isHuge then
    return (← s.blocks.flags r.page).isMarked
  else
    let a ← s.arenaOf r
    require (a.isAllocated r.cell = true) .notAllocated
    return a.mark.get r.cell

/-- Whether the arena of an object, or the block table, awaits its sweep. -/
def needsSweep (s : Space) (r : Ref) : Except Fault Bool := do
  if r.isHuge then return s.hugeNeedsSweep
  else return (← s.arenaOf r).needsSweep

/-- Whether an object will be left by the sweep that its arena, or the block table,
awaits. -/
def survives (s : Space) (r : Ref) : Except Fault Bool := do
  if ← s.isMarked r then return true
  else return !(← s.needsSweep r)

end Space

end Tricolor
