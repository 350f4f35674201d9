import Tricolor.Space

/-!
# Placing objects

A small object goes into the current arena, else into any arena that holds objects
and has room, else into a spare empty arena, else into a new one. Objects placed into
an arena that awaits its sweep start out marked, so the sweep leaves them alone; the
same holds for huge blocks.
-/

namespace Tricolor

namespace Space

/-- The largest huge block that a memory layout can describe: its size rounded up to a
page is at most the largest signed word. -/
def maxBlockBytes : Nat := 0x8000000000000000 - pageBytes

/-- Counts `size` more bytes. -/
def grow (s : Space) (size : Nat) : Except Fault Space := do
  return { s with total := ← checkedAdd wordRange s.total size }

/-- Counts `size` bytes less. -/
def shrink (s : Space) (size : Nat) : Except Fault Space := do
  return { s with total := ← checkedSub s.total size }

/-! ## Small objects -/

/-- Adds an arena from the supply. Answers its index. -/
def addArena (s : Space) (supply : Supply) : Except AllocError Nat × Space :=
  match supply pageBytes with
  | none => (.error (.outOfMemory pageBytes), s)
  | some page =>
    let index := s.arenas.size
    (.ok index,
      { s with arenas := s.arenas.push (.new page index), indices := s.indices.insert page index })

/-- Places an object into the arena at `index`, if there is room. -/
def allocIn (s : Space) (index cells : Nat) : Except Fault (Option Ref × Space) := do
  let (r?, s) ← s.updateArena index fun arena => do
    let (cell?, arena) ← arena.alloc cells arena.needsSweep
    return (cell?.map arena.object, arena)
  match r? with
  | none => return (none, s)
  | some r => return (some r, ← s.grow (cells * cellBytes))

/-- The arenas to try after the current one: those with objects, then the empty ones. -/
def otherArenas (s : Space) : List Nat :=
  let others := (List.range s.arenas.size).filter fun index => s.current != some index
  let isEmpty (index : Nat) := (s.arenas[index]?).any (·.isEmpty)
  others.filter (!isEmpty ·) ++ others.filter isEmpty

/-- Places an object into the first of the given arenas that has room; that arena
becomes the current one. -/
def allocAmong (s : Space) (cells : Nat) : List Nat → Except Fault (Option Ref × Space)
  | [] => return (none, s)
  | index :: rest => do
    let (r?, s) ← s.allocIn index cells
    match r? with
    | some r => return (some r, { s with current := some index })
    | none => s.allocAmong cells rest

/-- Places an object of `cells` cells. -/
def allocCells (s : Space) (supply : Supply) (cells : Nat) :
    Except Fault (Except AllocError Ref × Space) := do
  let (r?, s) ← match s.current with
    | some index => s.allocIn index cells
    | none => pure (none, s)
  if let some r := r? then return (.ok r, s)
  let others := s.otherArenas
  let (r?, s) ← s.allocAmong cells others
  if let some r := r? then return (.ok r, s)
  match s.addArena supply with
  | (.error e, s) => return (.error e, s)
  | (.ok index, s) =>
    let (r?, s) ← { s with current := some index }.allocIn index cells
    match r? with
    | some r => return (.ok r, s)
    | none => return (.error (.tooLarge (cells * cellBytes)), s)

/-! ## Huge blocks -/

/-- Asks the supply for a region of `size` bytes. -/
def askBlock (supply : Supply) (size : Nat) : Option Page :=
  if size ≤ maxBlockBytes then supply size else none

/-- Allocates a huge block. -/
def allocHuge (s : Space) (supply : Supply) (size : Nat) :
    Except Fault (Except AllocError Ref × Space) := do
  match askBlock supply size with
  | none => return (.error (.outOfMemory size), s)
  | some page =>
    let blocks ← s.blocks.insert page size
    let blocks ← if s.hugeNeedsSweep then blocks.setFlags page .mark else pure blocks
    let s ← { s with blocks, contents := s.contents.insert page default }.grow size
    return (.ok (.huge page), s)

/-- Renames a page in a list of huge blocks. -/
def renamePage (old new : Page) (pages : Array Page) : Array Page :=
  pages.map fun page => if page = old then new else page

/-- Resizes a huge block. The block may move; its flags and registrations move with it,
and so do the bytes that both sizes have. -/
def resizeHuge (s : Space) (supply : Supply) (r : Ref) (size : Nat) :
    Except Fault (Except AllocError Ref × Space) := do
  let old := (← s.blocks.sizeOf? r.page).getD 0
  require (old ≠ 0) .notAllocated
  match askBlock supply size with
  | none => return (.error (.outOfMemory size), s)
  | some page =>
    let blocks ← s.blocks.replace r.page page size
    let block := s.contents.getD r.page default
    let kept := min old size
    let block := { block with bytes := block.bytes.clear kept (max old size - kept) }
    let total ← checkedSub s.total old
    let total ← checkedAdd wordRange total size
    return (.ok (.huge page), { s with
      blocks
      contents := (s.contents.erase r.page).insert page block
      hugeGrey := renamePage r.page page s.hugeGrey
      hugeFixed := renamePage r.page page s.hugeFixed
      hugeFinalizers := renamePage r.page page s.hugeFinalizers
      hugePending := renamePage r.page page s.hugePending
      total })

/-! ## Freeing -/

/-- Removes a page from a list of huge blocks. -/
def withoutPage (page : Page) (pages : Array Page) : Array Page := pages.filter (· != page)

/-- Frees a huge block and drops its registrations. Answers its size. -/
def freeHuge (s : Space) (r : Ref) : Except Fault (Nat × Space) := do
  let header ← s.header r
  let (size?, blocks) ← s.blocks.remove r.page
  let size := size?.getD 0
  require (size ≠ 0) .notAllocated
  let drop (registered : Bool) (pages : Array Page) :=
    if registered then withoutPage r.page pages else pages
  let s ← { s with
    blocks
    contents := s.contents.erase r.page
    hugeGrey := withoutPage r.page s.hugeGrey
    hugeFixed := drop header.isFixed s.hugeFixed
    hugeFinalizers := drop header.hasFinalizer s.hugeFinalizers
    hugePending := drop header.hasFinalizer s.hugePending }.shrink size
  return (size, s)

/-- Frees an object of an arena and drops its registrations. Answers its size. -/
def freeSmall (s : Space) (r : Ref) : Except Fault (Nat × Space) := do
  let index ← s.indexOf r.page
  let (cells, s) ← s.updateArena index fun arena => do
    let header := arena.headers.get r.cell
    let fixed := if header.isFixed then arena.fixed.filter (· != r.cell) else arena.fixed
    let finalizers :=
      if header.hasFinalizer then (arena.finalizers.remove r.cell).2 else arena.finalizers
    { arena with fixed, finalizers }.free r.cell
  let size := cells * cellBytes
  return (size, ← s.shrink size)

/-- Frees an object and drops its registrations. Answers the bytes freed. -/
def free (s : Space) (r : Ref) : Except Fault (Nat × Space) :=
  if r.isHuge then s.freeHuge r else s.freeSmall r

end Space

end Tricolor
