import Tricolor.Space

/-!
# Marking objects

To mark an object is to set its mark and, unless it is a leaf, to queue it for
traversal: in the grey stack of its arena, or in the grey queue of the huge blocks. A
huge block carries a flag while it is queued, so that one that a barrier unmarked and
that is marked again is not queued twice.
-/

namespace Tricolor

namespace Space

/-- Marks a huge block. -/
def markHuge (s : Space) (r : Ref) (isLeaf : Bool) : Except Fault Space := do
  require ((← s.blocks.contains r.page) = true) .notAllocated
  let flags ← s.blocks.flags r.page
  if flags.isMarked then
    return s
  else if isLeaf || flags.isGrey then
    return { s with blocks := ← s.blocks.setFlags r.page .mark }
  else
    return { s with
      blocks := ← s.blocks.setFlags r.page (.mark ||| .grey)
      hugeGrey := s.hugeGrey.push r.page }

/-- Marks an object of an arena. -/
def markSmall (s : Space) (r : Ref) (isLeaf : Bool) : Except Fault Space :=
  s.modifyArenaOf r fun arena => do
    require (arena.isAllocated r.cell = true) .notAllocated
    if ← arena.isMarked r.cell then
      return arena
    else
      let arena ← arena.setMark r.cell
      if isLeaf then return arena
      else return { arena with grey := ← arena.grey.push r.cell }

/-- Marks an object as reachable and queues it for traversal unless it is a leaf. -/
def mark (s : Space) (r : Ref) : Except Fault Space := do
  let isLeaf := (← s.header r).kind.isLeaf
  if r.isHuge then s.markHuge r isLeaf else s.markSmall r isLeaf

/-- Sets the mark of an object without queueing it. -/
def setMark (s : Space) (r : Ref) : Except Fault Space := do
  if r.isHuge then return { s with blocks := ← s.blocks.setFlags r.page .mark }
  else s.modifyArenaOf r (·.setMark r.cell)

/-- Clears the mark of an object. -/
def clearMark (s : Space) (r : Ref) : Except Fault Space := do
  if r.isHuge then return { s with blocks := ← s.blocks.clearFlags r.page .mark }
  else s.modifyArenaOf r (·.clearMark r.cell)

end Space

/-! ## Tracing -/

/-- A reference that is reported while an object or the roots are traversed. -/
inductive Visit where
  /-- a reference that keeps its referent alive -/
  | strong (r : Ref)
  /-- the key of a table entry -/
  | key (r : Ref)
  /-- the value of a table entry -/
  | value (r : Ref)
  deriving DecidableEq, Repr

/-- The object that is referred to. -/
def Visit.target : Visit → Ref
  | .strong r | .key r | .value r => r

/-- Whether the reference stands on a weak side of a table with this mode. -/
def Visit.isWeak (mode : WeakMode) : Visit → Bool
  | .strong _ => false
  | .key _ => mode.weakKeys
  | .value _ => mode.weakValues

namespace Space

/-- Marks the object that a visit refers to, unless it stands on a weak side. Strings
are marked on weak sides too. -/
def visit (mode : WeakMode) (s : Space) (v : Visit) : Except Fault Space := do
  if v.isWeak mode then
    if (← s.header v.target).kind = .str then s.mark v.target else return s
  else
    s.mark v.target

/-! ## Grey queues -/

/-- The queues in order, each with the number of objects that wait in it. -/
def greyDepths (s : Space) : List (Nat × GreySource) :=
  (s.arenas.toList.zipIdx.map fun (arena, index) => (arena.grey.size, .arena index)) ++
    [(s.hugeGrey.size, .huge)]

/-- The number of entries in all queues. -/
def waiting (s : Space) : Nat := s.greyDepths.foldl (fun n depth => n + depth.1) 0

/-- The queue in which the most objects wait, the last one of several. -/
def deepestGrey (s : Space) : Option GreySource :=
  let deepest := s.greyDepths.foldl
    (fun best next => if best.1 ≤ next.1 then next else best) (0, .huge)
  if deepest.1 = 0 then none else some deepest.2

/-- Pops at most `n` cells of the grey stack of an arena, up to the first that heads an
object. -/
def popCell (arena : Arena) : Nat → Option Nat × Arena
  | 0 => (none, arena)
  | n + 1 =>
    match arena.grey.pop? with
    | none => (none, arena)
    | some (cell, grey) =>
      let arena := { arena with grey }
      if arena.isAllocated cell then (some cell, arena) else popCell arena n

/-- Pops at most `n` entries of the grey queue of the huge blocks, up to the first that
is registered. -/
def popPage (s : Space) : Nat → Except Fault (Option Page × Space)
  | 0 => return (none, s)
  | n + 1 => do
    match s.hugeGrey.back? with
    | none => return (none, s)
    | some page =>
      let s := { s with hugeGrey := s.hugeGrey.pop }
      if ← s.blocks.contains page then
        return (some page, { s with blocks := ← s.blocks.clearFlags page .grey })
      else
        s.popPage n

/-- The next object to traverse of a queue. Entries freed since they were queued are
skipped. -/
def popGrey (s : Space) (source : GreySource) : Except Fault (Option Ref × Space) := do
  match source with
  | .arena index =>
    s.updateArena index fun arena =>
      let (cell?, arena) := popCell arena arena.grey.size
      return (cell?.map arena.object, arena)
  | .huge =>
    let (page?, s) ← s.popPage s.hugeGrey.size
    return (page?.map .huge, s)

end Space

end Tricolor
