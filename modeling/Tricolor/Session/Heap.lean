import Tricolor.Session.World

/-!
# Sessions on a heap

A session runs commands on a heap and its mutator. Finalizers are scripts of commands,
so running a command may run further commands; the depth is bounded by an explicit
argument. Whenever a command is over, the mutator forgets the objects that are no longer
allocated.
-/

namespace Tricolor

namespace Session

/-- The outcome of a command: a reply or a refusal, and the machine after it. -/
abbrev Outcome := Except Fault (Except Refusal Reply × Machine World)

/-- The number of collector steps that one command may take. -/
def stepLimit : Nat := 0x4000000000000000

/-- The objects that one command may create. -/
def createLimit : Nat := 20000

/-- The strings that one command may intern in a row. -/
def internLimit : Nat := 5000

/-- Refuses a command. -/
def refuse (m : Machine World) (e : Refusal) : Outcome := return (.error e, m)

/-- Answers a command. -/
def answer (m : Machine World) (r : Reply) : Outcome := return (.ok r, m)

/-- Changes the mutator only. -/
def update (m : Machine World) (f : World → World) : Outcome :=
  let ⟨w, heap⟩ := m
  return (.ok .done, ⟨f w, heap⟩)

/-- Changes the heap only. -/
def perform (m : Machine World) (f : Heap → Except Fault Heap) : Outcome := do
  let ⟨w, heap⟩ := m
  return (.ok .done, ⟨w, ← f heap⟩)

/-- Carries out a command on a live object, given its number and its state. -/
def onObject (m : Machine World) (id : ObjectId)
    (f : ObjectId → ObjectState → Machine World → Outcome) : Outcome :=
  match m.program.findLive id with
  | .error e => refuse m e
  | .ok (id, o) => f id o m

/-! ## Barriers -/

/-- Calls a barrier for a store of `referent` into `writer`. -/
def callBarrier (choice : BarrierChoice) (heap : Heap) (writer referent : Ref) :
    Except Fault Heap := do
  match choice with
  | .none => return heap
  | .forward => heap.barrierForward writer referent
  | .back => heap.barrierBack writer
  | .slot => heap.barrierSlot writer referent
  | .auto =>
    let kind ← heap.kind writer
    if kind.isAggregate then heap.barrierBack writer
    else if kind = .upval then heap.barrierSlot writer referent
    else heap.barrierForward writer referent

/-- Stores a reference, and calls the barrier. -/
def store (choice : BarrierChoice) (m : Machine World) (writer referent : ObjectId × Ref) :
    Except Fault (Machine World) := do
  let ⟨w, heap⟩ := m
  let w := w.modifyObject writer.1 fun o => { o with slots := o.slots.push referent.1 }
  return ⟨w, ← callBarrier choice heap writer.2 referent.2⟩

/-! ## Creating objects -/

/-- Creates `n` more objects, after those in `made` of which `previous` is the last. -/
def createFrom (how : Creation) (m : Machine World) (made : Array (ObjectId × Place))
    (previous : Option (ObjectId × Ref)) : Nat → Outcome
  | 0 => answer m (.created made.toList)
  | n + 1 => do
    let ⟨w, heap⟩ := m
    let (supply, w) := w.supply
    let (r?, heap) ← heap.alloc supply how.kind how.size
    match r? with
    | .error e => refuse ⟨{ w with objects := w.objects.push .nothing }, heap⟩ (.alloc e)
    | .ok r =>
      let (id, w) := w.addObject r how.table
      let isRoot := how.asRoots && (!how.chained || previous.isNone)
      let w := if isRoot then { w with roots := w.roots.push id } else w
      let place := w.placeOf r
      let m ← match previous with
        | some previous =>
          if how.chained then store how.barrier ⟨w, heap⟩ previous (id, r) else pure ⟨w, heap⟩
        | none => pure ⟨w, heap⟩
      createFrom how m (made.push (id, place)) (some (id, r)) n

/-- Interns a string: whether it is new, the number of its object, and its place. -/
def internOne (m : Machine World) (bytes : List UInt8) :
    Except Fault (Except Refusal (Bool × ObjectId × Place) × Machine World) := do
  let ⟨w, heap⟩ := m
  let (supply, w) := w.supply
  let (r?, heap) ← heap.intern supply bytes
  match r? with
  | .error e => return (.error (.alloc e), ⟨w, heap⟩)
  | .ok r =>
    match w.names[r]? with
    | some id =>
      let place := w.placeOf r
      return (.ok (false, id, place), ⟨{ w with objects := w.objects.push (.alias id) }, heap⟩)
    | none =>
      let (id, w) := w.addObject r none
      let place := w.placeOf r
      return (.ok (true, id, place), ⟨w, heap⟩)

/-- Interns a string. One that is too long for any object cannot be linked yet, so it is
refused before its bytes are written out. -/
def intern (m : Machine World) (text : Pattern) : Outcome := do
  if halfWordRange ≤ text.size then refuse m (.alloc (.tooLarge text.size))
  else
    let (result, m) ← internOne m text.toList
    match result with
    | .error e => refuse m e
    | .ok (isNew, id, place) => answer m (.interned isNew id place)

/-- The decimal digits of a number. -/
def decimal (n : Nat) : List UInt8 := (Nat.toDigits 10 n).map fun c => c.val.toUInt8

/-- Interns `text` followed by each of `n` numbers from `i` on. -/
def internFrom (text : List UInt8) (asRoots : Bool) (m : Machine World) (new same i : Nat) :
    Nat → Outcome
  | 0 => answer m (.internedMany new same)
  | n + 1 => do
    let (result, m) ← internOne m (text ++ decimal i)
    match result with
    | .error e => refuse m e
    | .ok (true, id, _) =>
      let ⟨w, heap⟩ := m
      let w := if asRoots then { w with roots := w.roots.push id } else w
      internFrom text asRoots ⟨w, heap⟩ (new + 1) same (i + 1) n
    | .ok (false, _, _) => internFrom text asRoots m new (same + 1) (i + 1) n

/-! ## Objects -/

/-- Whether resizing would move a huge block while the collector is marking. -/
def movesMarkedBlock (heap : Heap) (r : Ref) (new : Nat) : Except Fault Bool := do
  if r.isHuge && heap.isMarking && new < halfWordRange then
    return heap.config.hugeThreshold < (← objectBytes new)
  else
    return false

/-- Resizes an object. -/
def realloc (m : Machine World) (id : ObjectId) (o : ObjectState) (new : Nat) (old : Option Nat) :
    Outcome := do
  if ← movesMarkedBlock m.heap o.ref new then refuse m .guarded
  else
    let ⟨w, heap⟩ := m
    let old ← match old with
      | some old => pure old
      | none => heap.payloadSize o.ref
    let (supply, w) := w.supply
    let (moved?, heap) ← heap.realloc supply o.ref old new
    match moved? with
    | .error e => refuse ⟨w, heap⟩ (.alloc e)
    | .ok moved =>
      let w := w.moveObject id o.ref moved
      let place := w.placeOf moved
      answer ⟨w, heap⟩ (.place place)

/-- Summarizes the payload of an object. -/
def summarize (heap : Heap) (r : Ref) : Except Fault PayloadSummary := do
  let size ← heap.payloadSize r
  let bytes ← heap.space.bytesOf r
  let start := r.payloadOffset
  let tailSize := min size 16
  return {
    size
    head := bytes.read start (min size 48)
    tail := bytes.read (start + size - tailSize) tailSize
    nonzero := bytes.tally (fun b => if b = 0 then 0 else 1) start size
    sum := bytes.tally UInt8.toNat start size }

/-- Writes into a payload, if the bytes fit. -/
def write (m : Machine World) (r : Ref) (start : Nat) (content : Pattern) : Outcome := do
  let kind ← m.heap.kind r
  require (kind ≠ .str) .immutableString
  let size ← m.heap.payloadSize r
  if start + content.size ≤ size then
    perform m fun heap => heap.writePayload r start content.toList
  else
    refuse m .outOfRange

/-- Registers an object, unless the pending sweep is about to reclaim it. -/
def registering (m : Machine World) (r : Ref) (f : Heap → Except Fault Heap) : Outcome := do
  let isDoomed ← if m.heap.isSweeping then
      pure ((← m.heap.space.cellState r) = .white : Bool)
    else pure false
  if isDoomed then refuse m .guarded else perform m f

/-- Describes an object. -/
def describe (m : Machine World) (r : Ref) : Outcome := do
  let info : ObjectInfo := {
    kind := ← m.heap.kind r
    payloadSize := ← m.heap.payloadSize r
    size := ← m.heap.objectSize r
    state := ← m.heap.space.cellState r
    place := m.program.placeOf r }
  answer m (.info info)

/-- The state of the cell at the address of an object that may be dead. -/
def stateAt (m : Machine World) (r : Ref) : Outcome := do
  let space := m.heap.space
  let isGone := if r.isHuge then !space.isAllocated r else !space.indices.contains r.page
  if isGone then answer m (.cellState none)
  else answer m (.cellState (some (← space.cellState r)))

/-- Asks whether the heap owns an address in the page of an object. -/
def ownsOffset (m : Machine World) (r : Ref) (offset : Nat) : Outcome := do
  let fits ← if r.isHuge then pure (offset < (← m.heap.space.objectSize r) : Bool)
    else pure (r.offset + offset < pageBytes : Bool)
  if fits then answer m (.flag (← m.heap.space.owns (r.address + offset)))
  else refuse m .outOfRange

/-- The live objects with the states of their cells. -/
def dump (m : Machine World) : Except Fault (List (ObjectId × CellState)) :=
  (m.program.objects.toList.zipIdx.filterMap fun (n, id) => match n with
    | .object o => if o.isAlive then some (id, o.ref) else none
    | _ => none).mapM fun (id, r) => return (id, ← m.heap.space.cellState r)

/-! ## References -/

/-- The live objects that numbers name. -/
def findAll (w : World) (ids : List ObjectId) : Except Refusal (List ObjectId) :=
  ids.mapM fun id => Prod.fst <$> w.findLive id

/-- Drops all references of an object, or the first to another one. -/
def unlink (m : Machine World) (writer : ObjectId) (referent : Option ObjectId) : Outcome :=
  match referent with
  | none => update m fun w => w.modifyObject writer fun o => { o with slots := #[] }
  | some id =>
    match m.program.find id with
    | .error e => refuse m e
    | .ok (target, _) =>
      update m fun w => w.modifyObject writer fun o => { o with slots := o.slots.erase target }

/-- Adds an entry to a table. -/
def insertEntry (m : Machine World) (choice : BarrierChoice) (t k v : ObjectId × Ref) : Outcome := do
  let ⟨w, heap⟩ := m
  let add (table : TableState) : TableState := { table with entries := table.entries ++ [(k.1, v.1)] }
  let w := w.modifyObject t.1 fun o => { o with table := o.table.map add }
  answer ⟨w, ← callBarrier choice heap t.2 v.2⟩ .done

/-! ## The collector -/

/-- Forgets the dead. -/
def forget (m : Machine World) : Machine World :=
  let ⟨w, heap⟩ := m
  ⟨w.forgetDead heap.space, heap⟩

/-- Performs a single step. Only sweeps and finalizers reclaim objects, so the dead are
forgotten after those. -/
def singleStep (mu : Mutator World) (m : Machine World) :
    Except Fault (Except CollectError Nat × Machine World) := do
  let phase := m.heap.phase
  let (result, m) ← m.singleStep mu
  return (result, if phase = .sweep || phase = .finalize then forget m else m)

/-- Performs `n` single steps. -/
def singleFrom (mu : Mutator World) (m : Machine World) (costs : Array Nat) : Nat → Outcome
  | 0 => answer m (.costs costs.toList)
  | n + 1 => do
    let (result, m) ← singleStep mu m
    match result with
    | .error e => refuse m (.collect e)
    | .ok cost => singleFrom mu m (costs.push cost) n

/-- Performs at most `n` single steps until a phase is reached. -/
def untilFrom (mu : Mutator World) (phase : Phase) (m : Machine World) (done : Nat) : Nat → Outcome
  | 0 => answer m (.steps done false)
  | n + 1 => do
    if m.heap.phase = phase then answer m (.steps done false)
    else
      let (result, m) ← singleStep mu m
      match result with
      | .error e => refuse m (.collect e)
      | .ok cost =>
        if cost = stepBlocked then answer m (.steps (done + 1) true)
        else untilFrom mu phase m (done + 1) n

/-- Answers with the result of the collector. -/
def collected {α : Type} (reply : α → Reply) : Except CollectError α × Machine World → Outcome
  | (.error e, m) => refuse m (.collect e)
  | (.ok a, m) => answer m (reply a)

/-! ## Commands -/

/-- Carries out a command with a given mutator. -/
def execute (mu : Mutator World) (m : Machine World) : Command → Outcome
  | .create how => createFrom how m #[] none (min how.count createLimit)
  | .intern text => intern m text
  | .internMany text start count asRoots =>
    internFrom text asRoots m 0 0 start (min count internLimit)
  | .free id size => onObject m id fun _ o m => do
    let size ← match size with
      | some size => pure size
      | none => m.heap.payloadSize o.ref
    perform m fun heap => heap.free o.ref size
  | .realloc id new old => onObject m id fun id o m => realloc m id o new old
  | .text id => onObject m id fun _ o m => do answer m (.bytes (← m.heap.text o.ref))
  | .payload id => onObject m id fun _ o m => do
    answer m (.payload (← summarize m.heap o.ref))
  | .write id start content => onObject m id fun _ o m => write m o.ref start content
  | .fix id => onObject m id fun _ o m => registering m o.ref fun heap => heap.fix o.ref
  | .register id =>
    onObject m id fun _ o m => registering m o.ref fun heap => heap.registerFinalizer o.ref
  | .info id => onObject m id fun _ o m => describe m o.ref
  | .isLive id =>
    match m.program.find id with
    | .error e => refuse m e
    | .ok (_, o) => answer m (.flag (m.heap.isLive o.ref))
  | .cellState id =>
    match m.program.find id with
    | .error e => refuse m e
    | .ok (_, o) => stateAt m o.ref
  | .owns id offset => onObject m id fun _ o m => ownsOffset m o.ref offset
  | .ownsNull => do answer m (.flags (← m.heap.space.owns 0) (← m.heap.space.owns 8))
  | .decline id => onObject m id fun id _ m =>
    update m fun w => w.modifyObject id fun o => { o with declined := true }
  | .failing id => onObject m id fun id _ m =>
    update m fun w => w.modifyObject id fun o => { o with failing := true }
  | .cost id n => onObject m id fun id _ m =>
    update m fun w => w.modifyObject id fun o => { o with cost := n }
  | .script id commands => onObject m id fun id _ m =>
    update m fun w => w.modifyObject id fun o => { o with script := commands }
  | .root id => onObject m id fun id _ m => update m fun w => { w with roots := w.roots.push id }
  | .unroot id =>
    match m.program.find id with
    | .error e => refuse m e
    | .ok (id, _) =>
      let position := m.program.roots.findIdx? (· == id)
      let ⟨w, heap⟩ := m
      answer ⟨{ w with roots := w.roots.erase id }, heap⟩ (.position position)
  | .unrootAll => update m fun w => { w with roots := #[], frames := #[] }
  | .frame shape refs =>
    match findAll m.program refs with
    | .error e => refuse m e
    | .ok refs => update m fun w => { w with frames := w.frames.push ⟨shape, refs⟩ }
  | .link writer referent barrier => onObject m writer fun writer o m =>
    onObject m referent fun referent p m => do
      answer (← store barrier m (writer, o.ref) (referent, p.ref)) .done
  | .unlink writer referent => onObject m writer fun writer _ m => unlink m writer referent
  | .insert table key value barrier => onObject m table fun table t m =>
    onObject m key fun key k m => onObject m value fun value v m =>
      if t.table.isSome then insertEntry m barrier (table, t.ref) (key, k.ref) (value, v.ref)
      else refuse m .notATable
  | .entries table => onObject m table fun _ t m =>
    match t.table with
    | some t => answer m (.entries t.entries)
    | none => refuse m .notATable
  | .barrier writer referent barrier => onObject m writer fun _ o m =>
    onObject m referent fun _ p m => perform m fun heap => callBarrier barrier heap o.ref p.ref
  | .single n => singleFrom mu m #[] n
  | .until phase max => untilFrom mu phase m 0 max
  | .step => do collected .cost (← m.step mu stepLimit)
  | .checkStep => do collected .flag (← m.checkStep mu stepLimit)
  | .full => do collected (fun () => .done) (← m.fullCollect mu stepLimit)
  | .traceActive on => perform m fun heap => return heap.setTraceActive on
  | .pause percent => perform m fun heap => return heap.setPause percent
  | .stepMultiplier percent =>
    let ⟨w, heap⟩ := m
    let heap := heap.setStepMultiplier percent
    answer ⟨w, heap⟩ (.budget heap.config.stepBudget)
  | .resurrect on => update m fun w => { w with resurrects := on }
  | .dump => do answer m (.dump (← dump m))
  | .stats => answer m (.stats m.heap.stats m.heap.phase m.heap.isStepDue
      m.heap.space.hasPendingFinalizers)
  | .malformed named =>
    match findAll m.program named with
    | .error e => refuse m e
    | .ok _ => refuse m .malformed

/-- Carries out a command. Finalizers nest at most as deep as the first argument says. -/
def run : Nat → Runner
  | 0, _, _ => .error .outOfFuel
  | depth + 1, c, m => execute (World.mutator (run depth)) m c

/-- How deep the finalizers of a session may nest. -/
def depthLimit : Nat := 10000

/-- Carries out a command from outside, after which the mutator forgets the dead. -/
def command (m : Machine World) (c : Command) : Outcome := do
  let (result, m) ← run depthLimit c m
  return (result, if c.mayReclaim then forget m else m)

/-- The hash of a string in a session: that of a multiplicative scheme over its bytes. -/
def hashOf (bytes : List UInt8) : Hash :=
  bytes.foldl (fun h b => (h ^^^ b.toUInt64) * 0x100000001b3) 0xcbf29ce484222325

/-- A session with a configuration, or with the default one. -/
def start (config : Option Config) (quiet : Bool) :
    Except Fault (Except ConfigError (Machine World)) := do
  let heap? ← match config with
    | some config => Heap.withConfig config hashOf
    | none => .ok <$> Heap.build {} hashOf
  return heap?.map (⟨.initial quiet, ·⟩)

end Session

end Tricolor
