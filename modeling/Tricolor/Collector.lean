import Tricolor.Mutator
import Tricolor.Heap.Barrier

/-!
# The collector

A cycle moves through its phases one bounded step at a time.

1. `pause`: the first step marks the roots and the fixed objects.
2. `propagate`: grey objects are traversed in batches, the deepest queue first.
3. `atomic`: one indivisible step marks the roots again, drains the store buffer,
   selects finalizers and clears weak tables.
4. `sweepStrings`: the intern table drops unmarked strings.
5. `sweep`: the current arena, the huge blocks, then one arena at a time.
6. `finalize`: one pending finalizer at a time.

A step answers its cost, or `stepBlocked` when it would run the atomic phase or a
finalizer while a compiled trace is active. The loops over steps take an explicit
bound, because a finalizer may itself run the collector and so keep it from ever
finishing; the loops inside a step compute a bound from the heap.
-/

namespace Tricolor

/-- Why a collection stopped. -/
inductive CollectError where
  /-- a full collection was requested while a compiled trace is running -/
  | traceActive
  /-- a finalizer failed; collection can go on -/
  | finalizer (cause : String)
  deriving DecidableEq, Repr

/-- The text of a collection error. -/
def CollectError.message : CollectError → String
  | traceActive => "cannot collect while a compiled trace is active"
  | finalizer _ => "finalizer failed"

/-- The cost answered by a step that cannot run while a compiled trace is active. -/
def stepBlocked : Nat := maxWord

/-- The cost of sweeping an arena or the huge blocks. -/
def sweepArenaCost : Nat := 1024

/-- The cost of sweeping one bucket of the intern table. -/
def sweepStringCost : Nat := 10

/-- The cost of running a finalizer. -/
def finalizeCost : Nat := 100

namespace Heap

/-- Enters a phase. -/
def enter (h : Heap) (phase : Phase) : Heap := { h with cycle := { h.cycle with phase } }

/-- Sets the number of allocated bytes at which the next step is due. -/
def setThreshold (h : Heap) (threshold : Nat) : Heap :=
  { h with cycle := { h.cycle with threshold } }

/-- Forgets the weak tables and the doomed objects of the last cycle. -/
def clearCycle (h : Heap) : Heap :=
  { h with cycle := { h.cycle with weakTables := [], doomed := [] } }

/-- The next step is due after another `stepSize` bytes. -/
def postponeStep (h : Heap) : Heap :=
  h.setThreshold (saturatingAdd h.space.total h.config.stepSize)

/-- Drains the store buffer unless it is empty. -/
def drainIfAny (h : Heap) : Except Fault Heap :=
  if h.stores.isEmpty then return h else h.drainStores

/-- A bound on the turns of the propagation loop: each turn pops a waiting object, or
finds a queue exhausted, or chooses the next queue, and an object is queued at most once
unless it was waiting before. -/
def propagationBound (h : Heap) : Nat :=
  4 * (h.space.waiting + h.stores.entries.size + h.space.total / cellBytes + 1)

/-- Whether weak tables have to drop their references to an object: it is no string,
and it is unmarked or only kept for its finalizer. -/
def isDead (h : Heap) (r : Ref) : Except Fault Bool := do
  if (← h.space.header r).kind = .str then return false
  else if ← h.space.isMarked r then return h.cycle.doomed.contains r
  else return true

/-! ## Steps that do not involve the mutator -/

/-- Sweeps the next buckets of the intern table. -/
def sweepStringsStep (h : Heap) : Except Fault (Nat × Heap) := do
  let start := h.cycle.stringsCursor
  let count := h.config.stringsPerStep
  let buckets := List.range' start (h.strings.sweepEnd start count - start)
  let _ ← (buckets.flatMap h.strings.chainObjects).mapM h.space.survives
  let survives (r : Ref) : Bool := match h.space.survives r with
    | .ok answer => answer
    | .error _ => true
  let (next, _, strings) := h.strings.sweep start count survives
  let cycle := { h.cycle with stringsCursor := next }
  let cycle := if strings.bucketCount ≤ next then
      { cycle with sweepCursor := .current, phase := .sweep }
    else cycle
  let cost ← checkedMul wordRange count sweepStringCost
  return (cost, { h with strings, cycle })

/-- Sweeps the current arena, the huge blocks or the next arena. -/
def sweepStep (h : Heap) : Except Fault (Nat × Heap) := do
  let proceed (space : Space) (sweepCursor : SweepCursor) : Heap :=
    { h with space, cycle := { h.cycle with sweepCursor } }
  match h.cycle.sweepCursor with
  | .current =>
    let space ← match h.space.current with
      | some index => Prod.snd <$> h.space.sweepArena index
      | none => pure h.space
    return (sweepArenaCost, proceed space .huge)
  | .huge =>
    let (_, space) ← h.space.sweepHuge
    return (sweepArenaCost, proceed space (.arenas 0))
  | .arenas start =>
    match h.space.nextUnswept start with
    | some index =>
      let (_, space) ← h.space.sweepArena index
      return (sweepArenaCost, proceed space (.arenas (index + 1)))
    | none => return (0, h.enter .finalize)

/-- Completes the cycle: spare arenas are released, and the next cycle is due when the
live bytes have grown by the configured percentage. -/
def enterPause (h : Heap) : Heap :=
  let h := h.clearCycle
  let (_, space) := h.space.releaseSpareArenas h.config.spareArenas
  let estimate := space.total
  { h with
    space
    cycle := { h.cycle with
      estimate
      threshold := saturatingMul (estimate / 100) h.config.pause
      completed := h.cycle.completed + 1
      phase := .pause } }

end Heap

namespace Machine

variable {σ : Type}

/-! ## Marking -/

/-- Marks the roots and the fixed objects. -/
def markRoots (mu : Mutator σ) (m : Machine σ) : Except Fault (Machine σ) := do
  let (roots, program) := mu.roots m.program
  let space ← roots.foldlM Space.mark m.heap.space
  let space ← space.markFixed
  return { program, heap := { m.heap with space } }

/-- Begins a cycle. -/
def startCycle (mu : Mutator σ) (m : Machine σ) : Except Fault (Machine σ) := do
  let m ← { m with heap := m.heap.clearCycle }.markRoots mu
  return { m with heap := m.heap.enter .propagate }

/-- Traverses an object: marks what it refers to, and remembers it if it is a weak
table. Answers the cost. -/
def traverse (mu : Mutator σ) (m : Machine σ) (r : Ref) : Except Fault (Nat × Machine σ) := do
  let kind := (← m.heap.space.header r).kind
  let mode := if kind = .table then mu.weakMode m.program r else .none
  let cycle := m.heap.cycle
  let cycle := if mode = .none then cycle else { cycle with weakTables := r :: cycle.weakTables }
  let (visits, program) := mu.visits m.program r kind mode
  let space ← visits.foldlM (Space.visit mode) m.heap.space
  return (mu.cost program r kind, { program, heap := { m.heap with space, cycle } })

/-- Traverses at most `n` objects of one queue, at a cost of `cost` so far. -/
def traverseBatch (mu : Mutator σ) (source : GreySource) (m : Machine σ) (cost : Nat) :
    Nat → Except Fault (Nat × Machine σ)
  | 0 => return (cost, m)
  | n + 1 => do
    let (r?, space) ← m.heap.space.popGrey source
    let m := { m with heap := { m.heap with space } }
    match r? with
    | none => return (cost, m)
    | some r =>
      let (more, m) ← m.traverse mu r
      traverseBatch mu source m (saturatingAdd cost more) n

/-- Traverses a batch of objects of the deepest queue. When no object waits, marking is
ready to be finished. -/
def propagateStep (mu : Mutator σ) (m : Machine σ) : Except Fault (Nat × Machine σ) := do
  let m := { m with heap := ← m.heap.drainIfAny }
  match m.heap.space.deepestGrey with
  | none => return (0, { m with heap := m.heap.enter .atomic })
  | some source =>
    m.traverseBatch mu source 0 m.heap.config.greyBatch

/-- Traverses objects until none waits, taking queue after queue. `source?` is the queue
in progress, `cost` the cost so far, and the last argument bounds the turns. -/
def propagateFrom (mu : Mutator σ) (m : Machine σ) (source? : Option GreySource) (cost : Nat) :
    Nat → Except Fault (Nat × Machine σ)
  | 0 => throw .outOfFuel
  | n + 1 => do
    match source? with
    | none =>
      let m := { m with heap := ← m.heap.drainIfAny }
      match m.heap.space.deepestGrey with
      | none => return (cost, m)
      | some source => propagateFrom mu m (some source) cost n
    | some source =>
      let (r?, space) ← m.heap.space.popGrey source
      let m := { m with heap := { m.heap with space } }
      match r? with
      | none => propagateFrom mu m none cost n
      | some r =>
        let (more, m) ← m.traverse mu r
        propagateFrom mu m (some source) (saturatingAdd cost more) n

/-- Traverses objects until none waits. Answers the cost. -/
def propagateAll (mu : Mutator σ) (m : Machine σ) : Except Fault (Nat × Machine σ) :=
  m.propagateFrom mu none 0 m.heap.propagationBound

/-! ## Finishing the marking -/

/-- Sorts tables by their address and drops repetitions. -/
def sortTables (tables : List Ref) : List Ref :=
  (tables.mergeSort fun r t => r.address ≤ t.address).eraseDups

/-- Lets the mutator drop the weak entries that refer to dead objects. -/
def clearWeakTables (mu : Mutator σ) (m : Machine σ) : Except Fault (Machine σ) := do
  let tables := sortTables m.heap.cycle.weakTables
  let heap := { m.heap with cycle := { m.heap.cycle with weakTables := tables } }
  let program ← tables.foldlM (fun program t => mu.clearWeak program t heap.isDead) m.program
  return { program, heap }

/-- Selects the objects whose finalizers must run and keeps them, and all that they
refer to, alive. Weak tables are cleared before and after. Answers the cost. -/
def finishMarking (mu : Mutator σ) (m : Machine σ) : Except Fault (Nat × Machine σ) := do
  let (selection, space) ← m.heap.space.selectFinalizers (mu.isFinalizable m.program)
  let doomed := selection.doomed
  let heap := { m.heap with space, cycle := { m.heap.cycle with doomed } }
  let m ← { m with heap }.clearWeakTables mu
  if doomed.isEmpty then
    return (0, m)
  else
    let space ← doomed.foldlM Space.mark m.heap.space
    let (cost, m) ← { m with heap := { m.heap with space } }.propagateAll mu
    return (cost, ← m.clearWeakTables mu)

/-- Finishes marking in one step and begins the sweep. Answers the cost. -/
def atomicStep (mu : Mutator σ) (m : Machine σ) : Except Fault (Nat × Machine σ) := do
  let m ← { m with heap := ← m.heap.drainStores }.markRoots mu
  let (cost, m) ← m.propagateAll mu
  let (more, m) ← m.finishMarking mu
  require (m.heap.stores.isEmpty = true) .storesLeft
  let heap := { m.heap with
    space := m.heap.space.beginSweep
    cycle := { m.heap.cycle with stringsCursor := 0, phase := .sweepStrings } }
  return (saturatingAdd cost more, { m with heap })

/-! ## Finalizing -/

/-- Runs one finalizer that is due, with the collector held off by the highest possible
threshold; when none is due, the cycle is complete. -/
def finalizeStep (mu : Mutator σ) (m : Machine σ) :
    Except Fault (Except CollectError Nat × Machine σ) := do
  let (r?, space) ← m.heap.space.takePendingFinalizer
  let heap := { m.heap with space }
  match r? with
  | none => return (.ok 0, { m with heap := heap.enterPause })
  | some r =>
    let threshold := heap.cycle.threshold
    let program := mu.suspendHooks m.program true
    let (result, program, heap) ← mu.runFinalizer program (heap.setThreshold maxWord) r
    let program := mu.suspendHooks program false
    let m := { program, heap := heap.setThreshold threshold }
    match result with
    | .error cause => return (.error (.finalizer cause), m)
    | .ok () => return (.ok finalizeCost, m)

/-! ## Steps -/

/-- Whether the next step is refused because a compiled trace is active. -/
def isBlocked (m : Machine σ) : Bool :=
  m.heap.cycle.traceActive && (m.heap.phase = .atomic || m.heap.phase = .finalize)

/-- Gives a step that cannot fail the form of one that can. -/
def succeed {α : Type} : α × Machine σ → Except CollectError α × Machine σ
  | (a, m) => (.ok a, m)

/-- Performs one bounded unit of work and answers its cost, or `stepBlocked`. -/
def singleStep (mu : Mutator σ) (m : Machine σ) :
    Except Fault (Except CollectError Nat × Machine σ) := do
  if m.isBlocked then
    return (.ok stepBlocked, m)
  else
    match m.heap.phase with
    | .pause => return (.ok 0, ← m.startCycle mu)
    | .propagate => succeed <$> m.propagateStep mu
    | .atomic => succeed <$> m.atomicStep mu
    | .sweepStrings =>
      let (cost, heap) ← m.heap.sweepStringsStep
      return (.ok cost, { m with heap })
    | .sweep =>
      let (cost, heap) ← m.heap.sweepStep
      return (.ok cost, { m with heap })
    | .finalize => m.finalizeStep mu

/-- Performs single steps, at most as many as the last argument says, until `budget` is
spent or the cycle completes, with `done` spent so far. -/
def stepFrom (mu : Mutator σ) (m : Machine σ) (budget done : Nat) :
    Nat → Except Fault (Except CollectError Nat × Machine σ)
  | 0 => throw .outOfFuel
  | n + 1 => do
    let (result, m) ← m.singleStep mu
    match result with
    | .error e => return (.error e, m)
    | .ok cost =>
      if cost = stepBlocked then
        return (.ok stepBlocked, { m with heap := m.heap.postponeStep })
      else
        let done := saturatingAdd done cost
        if m.heap.phase = .pause then
          return (.ok done, m)
        else if budget ≤ done then
          return (.ok done, { m with heap := m.heap.postponeStep })
        else
          stepFrom mu m budget done n

/-- Performs single steps until the step budget is spent or the cycle completes. Answers
the work done. -/
def step (mu : Mutator σ) (fuel : Nat) (m : Machine σ) :
    Except Fault (Except CollectError Nat × Machine σ) :=
  m.stepFrom mu m.heap.config.stepBudget 0 fuel

/-- Performs a step if the allocation threshold has been reached. Answers whether it
has. -/
def checkStep (mu : Mutator σ) (fuel : Nat) (m : Machine σ) :
    Except Fault (Except CollectError Bool × Machine σ) := do
  if m.heap.isStepDue then
    let (result, m) ← m.step mu fuel
    return (result.map fun _ => true, m)
  else
    return (.ok false, m)

/-- Performs single steps, at most as many as the last argument says, until no cycle is
in progress. -/
def finishCycle (mu : Mutator σ) (m : Machine σ) :
    Nat → Except Fault (Except CollectError Unit × Machine σ)
  | 0 => throw .outOfFuel
  | n + 1 => do
    if m.heap.phase = .pause then
      return (.ok (), m)
    else
      let (result, m) ← m.singleStep mu
      match result with
      | .error e => return (.error e, m)
      | .ok _ => finishCycle mu m n

/-- Finishes the cycle in progress, then runs one complete cycle. -/
def fullCollect (mu : Mutator σ) (fuel : Nat) (m : Machine σ) :
    Except Fault (Except CollectError Unit × Machine σ) := do
  if m.heap.cycle.traceActive then
    return (.error .traceActive, m)
  else
    let (result, m) ← m.finishCycle mu fuel
    let .ok () := result | return (result, m)
    let (result, m) ← m.singleStep mu
    match result with
    | .error e => return (.error e, m)
    | .ok _ => m.finishCycle mu fuel

end Machine

end Tricolor
