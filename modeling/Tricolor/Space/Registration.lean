import Tricolor.Space.Marking

/-!
# Registering objects

Fixed objects are marked in every cycle. Objects with a finalizer stand in the
register of their arena, or in a list of huge blocks, until a cycle finds them
unreachable; then they are *pending* and kept alive until their finalizer has run. The
header of an object says where it is registered, so no object is registered twice.
-/

namespace Tricolor

namespace Space

/-- Keeps an object alive across every cycle. -/
def fix (s : Space) (r : Ref) : Except Fault Space := do
  if (← s.header r).isFixed then
    return s
  else
    let s ← s.modifyHeader r fun h => { h with isFixed := true }
    if r.isHuge then return { s with hugeFixed := s.hugeFixed.push r.page }
    else s.modifyArenaOf r fun a => return { a with fixed := a.fixed.push r.cell }

/-- Registers an object for finalization. -/
def registerFinalizer (s : Space) (r : Ref) : Except Fault Space := do
  if (← s.header r).hasFinalizer then
    return s
  else
    let s ← s.modifyHeader r fun h => { h with hasFinalizer := true }
    if r.isHuge then return { s with hugeFinalizers := s.hugeFinalizers.push r.page }
    else s.modifyArenaOf r fun a => return { a with finalizers := a.finalizers.push r.cell }

/-- The fixed objects and those whose finalizers are due, in the order in which they
are marked. -/
def fixedRoots (s : Space) : List Ref :=
  (s.arenas.toList.flatMap fun arena =>
    (arena.fixed.toList ++ arena.finalizers.pendingCells).map arena.object) ++
  (s.hugeFixed.toList ++ s.hugePending.toList).map .huge

/-- Marks every fixed object and every object whose finalizer is due. -/
def markFixed (s : Space) : Except Fault Space := s.fixedRoots.foldlM mark s

/-- The unmarked registered objects that were asked about, and those of them whose
finalizers are now due. -/
structure Selection where
  /-- the objects asked about, in order -/
  asked : List Ref
  /-- those that became pending, in order -/
  doomed : List Ref

/-- Selects finalizers in the arenas with the given indices. -/
def selectInArenas (isFinalizable : Ref → Bool) (s : Space) :
    List Nat → Except Fault (Selection × Space)
  | [] => return (⟨[], []⟩, s)
  | index :: rest => do
    let (here, s) ← s.updateArena index fun arena => do
      let (asked, doomed, arena) ← arena.selectFinalizers isFinalizable
      return (Selection.mk (asked.map arena.object) (doomed.map arena.object), arena)
    let (others, s) ← s.selectInArenas isFinalizable rest
    return (⟨here.asked ++ others.asked, here.doomed ++ others.doomed⟩, s)

/-- Selects finalizers among the huge blocks. -/
def selectHuge (isFinalizable : Ref → Bool) (s : Space) : Except Fault (Selection × Space) := do
  let unmarked ← s.hugeFinalizers.toList.filterM fun page => return !(← s.blocks.flags page).isMarked
  let (doomed, forgotten) := unmarked.partition fun page => isFinalizable (.huge page)
  let s := { s with
    hugeFinalizers := s.hugeFinalizers.filter (!unmarked.contains ·)
    hugePending := s.hugePending ++ doomed.toArray }
  let s ← forgotten.foldlM
    (fun s page => s.modifyHeader (.huge page) fun h => { h with hasFinalizer := false }) s
  return (⟨unmarked.map .huge, doomed.map .huge⟩, s)

/-- Makes every unmarked registered object pending if its finalizer still has to run,
and forgets the others. -/
def selectFinalizers (s : Space) (isFinalizable : Ref → Bool) : Except Fault (Selection × Space) := do
  let (small, s) ← s.selectInArenas isFinalizable (List.range s.arenas.size)
  let (huge, s) ← s.selectHuge isFinalizable
  return (⟨small.asked ++ huge.asked, small.doomed ++ huge.doomed⟩, s)

/-- Whether some finalizer is due. -/
def hasPendingFinalizers (s : Space) : Bool :=
  !s.hugePending.isEmpty || s.arenas.any (·.finalizers.hasPending)

/-- Unregisters an object of the arenas with the given indices whose finalizer is due. -/
def takePendingSmall (s : Space) : List Nat → Except Fault (Option Ref × Space)
  | [] => return (none, s)
  | index :: rest => do
    let (r?, s) ← s.updateArena index fun arena =>
      match arena.finalizers.takePending with
      | none => return (none, arena)
      | some (cell, finalizers) => return (some (arena.object cell), { arena with finalizers })
    match r? with
    | some r => return (some r, s)
    | none => s.takePendingSmall rest

/-- Unregisters a huge block whose finalizer is due. -/
def takePendingHuge (s : Space) : Option Ref × Space :=
  match s.hugePending.back? with
  | none => (none, s)
  | some page => (some (.huge page), { s with hugePending := s.hugePending.pop })

/-- Unregisters one object whose finalizer is due. -/
def takePendingFinalizer (s : Space) : Except Fault (Option Ref × Space) := do
  let (r?, s) ← s.takePendingSmall (List.range s.arenas.size)
  let (r?, s) := match r? with
    | some r => (some r, s)
    | none => s.takePendingHuge
  match r? with
  | none => return (none, s)
  | some r => return (some r, ← s.modifyHeader r fun h => { h with hasFinalizer := false })

end Space

end Tricolor
