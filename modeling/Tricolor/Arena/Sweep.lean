import Tricolor.Arena

/-!
# Sweeping an arena

After marking, a bulk sweep updates the bitmaps a word at a time: black objects
turn white, and the heads of white objects become the heads of free runs. A harvest
then rebuilds the list of free runs from the bitmaps. When nothing survived, the
arena is reset instead.

The generational sweep keeps survivors black; turning them white afterwards gives
the same bitmaps as the bulk sweep.
-/

namespace Tricolor

namespace Arena

/-- The first bitmap word that covers cells of objects. -/
def firstWord : Nat := firstCell / 64

/-- Replaces the words of both bitmaps that cover the cells below `top`. -/
def combineWords (a : Arena) (newBlock newMark : Word → Word → Word) : Arena :=
  { a with
    block := a.block.combine firstWord a.liveWords newBlock a.mark
    mark := a.mark.combine firstWord a.liveWords (fun m b => newMark b m) a.block }

/-- The sweep is done: the flag falls, and a free run may start anywhere. -/
def endSweep (a : Arena) : Arena :=
  { a with needsSweep := false, runs := a.runs.lowerHint firstCell }

/-- Whether an object is left below `top`. -/
def anyObject (a : Arena) : Bool := a.block.anyWord firstWord a.liveWords

/-- Bulk sweep: survivors become white and dead heads become free. Answers whether
any object survived. -/
def majorSweep (a : Arena) : Bool × Arena :=
  let a := (a.combineWords (· &&& ·) (· ^^^ ·)).endSweep
  (a.anyObject, a)

/-- The generational sweep: survivors stay black and dead heads become free. Answers
whether any object survived. -/
def minorSweep (a : Arena) : Bool × Arena :=
  let a := (a.combineWords (· &&& ·) (· ||| ·)).endSweep
  (a.anyObject, a)

/-- Turns every black object white. Meant for an arena without white objects. -/
def flipToWhite (a : Arena) : Arena :=
  { a with mark := a.mark.combine firstWord a.liveWords (fun m b => m ^^^ b) a.block }

/-- Joins to a run the free runs that follow it: `stop` is where the run ends so far,
and at most `n` runs are joined. Answers where the run ends. -/
def joinRuns (a : Arena) (stop : Nat) : Nat → Nat × Arena
  | 0 => (stop, a)
  | n + 1 =>
    if stop < a.top && !a.block.get stop then
      let next := a.nextBoundary (stop + 1)
      joinRuns { a with mark := a.mark.set stop false } next n
    else
      (stop, a)

/-- Lists the free runs from `cursor` on, at most `n` of them, with `found` free cells
listed before. A run that reaches `top` is not listed; it will join the bump region.
Answers the new top and the number of free cells listed. -/
def harvestFrom (a : Arena) (cursor found : Nat) : Nat → Except Fault (Nat × Nat × Arena)
  | 0 => .ok (a.top, found, a)
  | n + 1 => do
    match Bitmap.scan (fun b m => m &&& ~~~b) a.block a.mark cursor a.top with
    | none => return (a.top, found, a)
    | some head =>
      let stop := a.nextBoundary (head + 1)
      let (stop, a) := a.joinRuns stop arenaCells
      if a.top ≤ stop then
        return (head, found, { a with mark := a.mark.set head false })
      else
        let (runs, links) ← a.runs.push a.links head (stop - head)
        harvestFrom { a with runs, links } stop (found + (stop - head)) n

/-- Rebuilds the list of free runs from the bitmaps after a sweep. Adjacent runs are
joined, and a run that reaches `top` is handed back to the bump region. Answers the
number of free cells listed. -/
def harvest (a : Arena) : Except Fault (Nat × Arena) := do
  let cursor := max a.runs.hint firstCell
  let (top, found, a) ← { a with runs := .empty a.top }.harvestFrom cursor 0 arenaCells
  let used ← checkedSub (top - firstCell) found
  return (found, { a with top, used })

/-- Forgets every object: the arena is as it was when it was new. -/
def reset (a : Arena) : Except Fault Arena := do
  require (a.grey.isEmpty = true) .greyLeft
  require (a.finalizers.isEmpty = true) .finalizersLeft
  let a := a.combineWords (fun _ _ => 0) (fun _ _ => 0)
  return { a with
    top := firstCell
    used := 0
    runs := .empty firstCell
    fixed := #[]
    isEmpty := true
    needsSweep := false }

/-- Sweeps the arena, if it awaits its sweep: only the marked objects are left, white,
and every other cell below the new top is in a listed free run. -/
def sweep (a : Arena) : Except Fault Arena := do
  if a.needsSweep then
    let (survived, a) := a.majorSweep
    if survived then
      return (← a.harvest).2
    else
      a.reset
  else
    return a

end Arena

end Tricolor
