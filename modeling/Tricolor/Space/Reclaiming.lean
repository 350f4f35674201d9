import Tricolor.Space.Placement

/-!
# Reclaiming memory

Once marking is over, every arena that holds objects and the block table are flagged
as awaiting their sweep. Each is then swept on its own: what is not marked is gone,
and what is left is white. Arenas that end up empty are kept for reuse, up to a limit,
or released.
-/

namespace Tricolor

namespace Space

/-- Flags every arena that holds objects, and the block table, as awaiting its sweep. -/
def beginSweep (s : Space) : Space :=
  { s with
    arenas := s.arenas.map fun arena => if arena.isEmpty then arena else { arena with needsSweep := true }
    hugeNeedsSweep := true }

/-- The first arena from `start` on that awaits its sweep. -/
def nextUnswept (s : Space) (start : Nat) : Option Nat :=
  (List.range' start (s.arenas.size - start)).find? fun index => (s.arenas[index]?).any (·.needsSweep)

/-- Sweeps the arena at `index`, if it awaits its sweep. Answers the bytes reclaimed. -/
def sweepArena (s : Space) (index : Nat) : Except Fault (Nat × Space) := do
  let (freed, s) ← s.updateArena index fun arena => do
    let before := arena.usedBytes
    let arena ← arena.sweep
    return (← checkedSub before arena.usedBytes, arena)
  return (freed, ← s.shrink freed)

/-- Sweeps the huge blocks. Answers the bytes reclaimed. -/
def sweepHuge (s : Space) : Except Fault (Nat × Space) := do
  require (s.hugeGrey.isEmpty = true) .greyLeft
  let (dead, blocks) ← s.blocks.sweep
  let freed ← dead.foldlM (fun freed e => checkedAdd wordRange freed e.size) 0
  let contents := dead.foldl (fun contents e => contents.erase e.page) s.contents
  let s ← { s with blocks, contents, hugeNeedsSweep := false }.shrink freed
  return (freed, s)

/-- Releases the arena at `index`. The last arena takes its place. -/
def removeArena (s : Space) (index : Nat) : Space :=
  match s.arenas[index]? with
  | none => s
  | some gone =>
    let last := s.arenas.size - 1
    let indices := s.indices.erase gone.page
    if index < last then
      let moved := (s.arenas.getD last default).setIndex index
      { s with
        arenas := (s.arenas.setIfInBounds index moved).pop
        indices := indices.insert moved.page index
        current := if s.current = some last then some index else s.current }
    else
      { s with arenas := s.arenas.pop, indices }

/-- Releases empty arenas from `index` on, looking at `n` arenas, when `kept` were kept
and `released` were released before. -/
def releaseFrom (s : Space) (keep index kept released : Nat) : Nat → Nat × Space
  | 0 => (released, s)
  | n + 1 =>
    match s.arenas[index]? with
    | none => (released, s)
    | some arena =>
      if arena.isEmpty && s.current != some index then
        if kept < keep then
          releaseFrom s keep (index + 1) (kept + 1) released n
        else
          releaseFrom (s.removeArena index) keep index kept (released + 1) n
      else
        releaseFrom s keep (index + 1) kept released n

/-- Releases the empty arenas beyond the first `keep`, sparing the current one. Answers
how many were released. -/
def releaseSpareArenas (s : Space) (keep : Nat) : Nat × Space :=
  s.releaseFrom keep 0 0 0 s.arenas.size

end Space

end Tricolor
