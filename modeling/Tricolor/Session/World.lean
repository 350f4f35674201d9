import Tricolor.Session.Command

/-!
# The mutator of a session

A small program with numbered objects. It keeps roots, stack frames, the references of
each object, the entries of tables and a script for each finalizer, and it logs what
the collector asks of it. What is asked of it never changes its graph, except that weak
entries are dropped and that finalizers run their scripts.
-/

namespace Tricolor

/-- The entries of a table. -/
structure TableState where
  /-- which side is weak -/
  mode : WeakMode
  /-- the entries in order of insertion -/
  entries : List (ObjectId × ObjectId)

/-- What the mutator knows of an object. -/
structure ObjectState where
  /-- where the object is, or last was -/
  ref : Ref
  /-- the object is allocated, as far as is known -/
  isAlive : Bool
  /-- the references that it holds -/
  slots : Array ObjectId
  /-- its entries, if it is a table -/
  table : Option TableState
  /-- its finalizer need not run -/
  declined : Bool
  /-- its finalizer fails -/
  failing : Bool
  /-- the cost of traversing it -/
  cost : Nat
  /-- its finalizer -/
  script : List Command

namespace ObjectState

/-- The cost of traversing an object, unless another one is set. -/
def defaultCost : Nat := 24

/-- A new object. -/
def fresh (r : Ref) (table : Option WeakMode) : ObjectState where
  ref := r
  isAlive := true
  slots := #[]
  table := table.map (⟨·, []⟩)
  declined := false
  failing := false
  cost := defaultCost
  script := []

end ObjectState

/-- What a number stands for. -/
inductive Numbered where
  /-- an object -/
  | object (o : ObjectState)
  /-- another name of the object with this number -/
  | alias (id : ObjectId)
  /-- an object that could not be made -/
  | nothing

/-- A stack frame. -/
structure Frame where
  shape : FrameShape
  refs : List ObjectId

/-- The state of the mutator. -/
structure World where
  /-- what each number stands for -/
  objects : Array Numbered
  /-- the numbers of the live objects -/
  names : Std.HashMap Ref ObjectId
  /-- the roots -/
  roots : Array ObjectId
  /-- the stack frames -/
  frames : Array Frame
  /-- finalizers make their objects roots -/
  resurrects : Bool
  /-- traversals are counted instead of logged -/
  quiet : Bool
  /-- the number of traversals since the log was read -/
  traversals : Nat
  /-- the events since the log was read, without those of the open round -/
  events : Array Event
  /-- the clearings of the open round with the places of their tables -/
  round : Array (Place × Event)
  /-- the places of the tables that were cleared in the open round -/
  cleared : Std.HashSet Place
  /-- the numbers of the arenas -/
  arenaNumbers : Std.HashMap Page Nat
  /-- the numbers of the huge blocks -/
  hugeNumbers : Std.HashMap Page Nat
  /-- how many huge blocks were numbered -/
  hugeCount : Nat
  /-- where the next region of the supply starts -/
  nextPage : Page

namespace World

/-- A mutator without objects. -/
def initial (quiet : Bool) : World where
  objects := #[]
  names := ∅
  roots := #[]
  frames := #[]
  resurrects := false
  quiet
  traversals := 0
  events := #[]
  round := #[]
  cleared := ∅
  arenaNumbers := ∅
  hugeNumbers := ∅
  hugeCount := 0
  nextPage := 1

/-! ## Objects -/

/-- The number of the object that a number names. -/
def resolve (w : World) (id : ObjectId) : Option ObjectId :=
  match w.objects[id]? with
  | some (.object _) => some id
  | some (.alias id) => some id
  | _ => none

/-- The object with a number that is no alias. -/
def objectAt (w : World) (id : ObjectId) : Option ObjectState :=
  match w.objects[id]? with
  | some (.object o) => some o
  | _ => none

/-- The object that a number names, with its own number. -/
def find (w : World) (id : ObjectId) : Except Refusal (ObjectId × ObjectState) :=
  match w.resolve id with
  | none => .error .noObject
  | some id =>
    match w.objectAt id with
    | none => .error .noObject
    | some o => .ok (id, o)

/-- The live object that a number names, with its own number. -/
def findLive (w : World) (id : ObjectId) : Except Refusal (ObjectId × ObjectState) := do
  let (id, o) ← w.find id
  if o.isAlive then return (id, o) else throw .dead

/-- Applies `f` to an object. -/
def modifyObject (w : World) (id : ObjectId) (f : ObjectState → ObjectState) : World :=
  { w with objects := w.objects.modify id fun
      | .object o => .object (f o)
      | other => other }

/-- Where an object is. -/
def placeOf (w : World) (r : Ref) : Place :=
  if r.isHuge then .huge (w.hugeNumbers.getD r.page 0)
  else .arena (w.arenaNumbers.getD r.page 0) r.cell

/-- Numbers the arena or the huge block of a new object. -/
def number (w : World) (r : Ref) : World :=
  if r.isHuge then
    { w with hugeNumbers := w.hugeNumbers.insert r.page w.hugeCount, hugeCount := w.hugeCount + 1 }
  else
    { w with arenaNumbers := w.arenaNumbers.insertIfNew r.page w.arenaNumbers.size }

/-- Takes the next number for a new object. -/
def addObject (w : World) (r : Ref) (table : Option WeakMode) : ObjectId × World :=
  let id := w.objects.size
  let w := w.number r
  (id, { w with
    objects := w.objects.push (.object (.fresh r table))
    names := w.names.insert r id })

/-- Lets an object be at another place from now on. A huge block that was resized keeps
its number. -/
def moveObject (w : World) (id : ObjectId) (old new : Ref) : World :=
  let w := if new = old then w
    else if old.isHuge && new.isHuge then
      { w with hugeNumbers := w.hugeNumbers.insert new.page (w.hugeNumbers.getD old.page 0) }
    else w.number new
  { w with names := (w.names.erase old).insert new id }.modifyObject id fun o => { o with ref := new }

/-- The supply, and the mutator after it was asked: every request has a region of its own. -/
def supply (w : World) : Supply × World :=
  (supplyFrom w.nextPage, { w with nextPage := w.nextPage + regionPages })

/-! ## Forgetting the dead -/

/-- The live objects among the first `n` numbers that are no longer allocated, before
those in `dead`. -/
def dyingBelow (w : World) (space : Space) (dead : List ObjectId) : Nat → List ObjectId
  | 0 => dead
  | n + 1 =>
    match w.objects[n]? with
    | some (.object o) =>
      if o.isAlive && !space.isAllocated o.ref then w.dyingBelow space (n :: dead) n
      else w.dyingBelow space dead n
    | _ => w.dyingBelow space dead n

/-- The live objects that are no longer allocated. -/
def dying (w : World) (space : Space) : List ObjectId := w.dyingBelow space [] w.objects.size

/-- Drops from an object what refers to dead objects; a dead object drops everything. -/
def bury (dead : Std.HashSet ObjectId) (id : ObjectId) (o : ObjectState) : ObjectState :=
  if dead.contains id then
    { o with isAlive := false, slots := #[], table := none }
  else if o.slots.isEmpty && o.table.isNone then o
  else
    { o with
      slots := o.slots.filter (!dead.contains ·)
      table := o.table.map fun t =>
        { t with entries := t.entries.filter fun (k, v) => !dead.contains k && !dead.contains v } }

/-- Objects that are no longer allocated are dead for good: they are removed from the
roots, the frames, the slots and the tables. -/
def forgetDead (w : World) (space : Space) : World :=
  let dying := w.dying space
  if dying.isEmpty then w
  else
    let dead := Std.HashSet.ofList dying
    let names := dying.foldl (fun names id => match w.objectAt id with
      | some o => if names[o.ref]? = some id then names.erase o.ref else names
      | none => names) w.names
    { w with
      names
      objects := w.objects.mapIdx fun id n => match n with
        | .object o => .object (bury dead id o)
        | other => other
      roots := w.roots.filter (!dead.contains ·)
      frames := w.frames.map fun f => { f with refs := f.refs.filter (!dead.contains ·) } }

/-! ## The log -/

/-- Closes the open round of clearings, if there is one. They are logged in the order of
the places of their tables. -/
def closeRound (w : World) : World :=
  if w.round.isEmpty then w
  else
    let sorted := w.round.toList.mergeSort fun a b => !b.1.before a.1
    { w with events := w.events ++ sorted.map Prod.snd, round := #[], cleared := ∅ }

/-- Logs an event that is not the clearing of a table. It ends the open round. -/
def log (w : World) (e : Event) : World :=
  let w := w.closeRound
  { w with events := w.events.push e }

/-- Logs the clearing of a table. The tables are cleared in rounds, in which each of them
comes once. -/
def logClearing (w : World) (place : Place) (e : Event) : World :=
  let w := if w.cleared.contains place then w.closeRound else w
  { w with round := w.round.push (place, e), cleared := w.cleared.insert place }

/-- Reads the log and the number of traversals, and starts over. -/
def takeLog (w : World) : List Event × Nat × World :=
  let w := w.closeRound
  (w.events.toList, w.traversals, { w with events := #[], traversals := 0 })

/-! ## Answers to the collector -/

/-- The references of the given objects. -/
def refsOf (w : World) (ids : List ObjectId) : List Ref :=
  ids.filterMap fun id => (w.objectAt id).map (·.ref)

/-- The roots, then what each frame reports. -/
def rootRefs (w : World) : List Ref :=
  w.refsOf (w.roots.toList ++ w.frames.toList.flatMap fun f => f.shape.reported f.refs)

/-- The object at `r`. -/
def objectOf (w : World) (r : Ref) : Option ObjectState := w.names[r]?.bind w.objectAt

/-- The references that an object holds: its slots, then its entries. -/
def visitsOf (w : World) (o : ObjectState) : List Visit :=
  (w.refsOf o.slots.toList).map .strong ++
    (o.table.elim [] TableState.entries).flatMap fun (k, v) =>
      (w.refsOf [k]).map .key ++ (w.refsOf [v]).map .value

/-- Whether an entry of a weak table refers to something dead on a weak side. -/
def isStale (w : World) (mode : WeakMode) (isDead : Ref → Except Fault Bool)
    (entry : ObjectId × ObjectId) : Except Fault Bool := do
  let dead (id : ObjectId) : Except Fault Bool :=
    match w.objectAt id with
    | some o => isDead o.ref
    | none => return false
  let keyDead ← if mode.weakKeys then dead entry.1 else pure false
  if keyDead then return true
  else if mode.weakValues then dead entry.2
  else return false

/-- Drops the stale entries of a table. -/
def clearTable (w : World) (r : Ref) (isDead : Ref → Except Fault Bool) : Except Fault World := do
  match w.names[r]?, w.objectOf r with
  | some id, some o =>
    let table := o.table.getD ⟨.none, []⟩
    let removed ← table.entries.filterM (w.isStale table.mode isDead)
    let kept ← table.entries.filterM fun entry => return !(← w.isStale table.mode isDead entry)
    let w := w.modifyObject id fun o => { o with table := o.table.map ({ · with entries := kept }) }
    return w.logClearing (w.placeOf r) (.cleared (some id) removed)
  | _, _ => return w.logClearing (w.placeOf r) (.cleared none [])

/-- Logs or counts a traversal. A traversal that is only counted ends the open round as
well. -/
def logTraversal (w : World) (r : Ref) (kind : Kind) (mode : WeakMode) : World :=
  if w.quiet then
    let w := w.closeRound
    { w with traversals := w.traversals + 1 }
  else
    w.log (.traversed w.names[r]? kind mode)

end World

/-- What carries out a command. -/
abbrev Runner := Command → Machine World → Except Fault (Except Refusal Reply × Machine World)

namespace World

/-- Carries out the commands of a script, one after the other, whatever they answer. -/
def runScript (run : Runner) (m : Machine World) : List Command → Except Fault (Machine World)
  | [] => return m
  | c :: rest => do
    let (result, m) ← run c m
    let ⟨w, heap⟩ := m
    let w := if c.mayReclaim then w.forgetDead heap.space else w
    runScript run ⟨w.log (.performed result), heap⟩ rest

/-- Runs the finalizer of an object. -/
def finalize (run : Runner) (w : World) (heap : Heap) (r : Ref) :
    Except Fault (Except String Unit × World × Heap) := do
  let w := w.forgetDead heap.space
  let id? := w.names[r]?
  let w := w.log (.finalizing id? heap.cycle.threshold)
  let w := if w.resurrects then { w with roots := w.roots ++ id?.toList.toArray } else w
  let script := (w.objectOf r).elim [] ObjectState.script
  let ⟨w, heap⟩ ← runScript run ⟨w, heap⟩ script
  match id?.bind w.objectAt, id? with
  | some o, some id => return (if o.failing then .error s!"boom {id}" else .ok (), w, heap)
  | _, _ => return (.ok (), w, heap)

/-- The mutator of a session, whose finalizers are carried out by `run`. -/
def mutator (run : Runner) : Mutator World where
  roots w := (w.rootRefs, w.log .roots)
  visits w r kind mode :=
    (((w.objectOf r).map w.visitsOf).getD [], w.logTraversal r kind mode)
  cost w r _ := (w.objectOf r).elim ObjectState.defaultCost ObjectState.cost
  isFinalizable w r := (w.objectOf r).all (!·.declined)
  weakMode w r := ((w.objectOf r).bind ObjectState.table).elim .none TableState.mode
  clearWeak := clearTable
  suspendHooks w on := w.log (.hooks on)
  runFinalizer := finalize run

end World

end Tricolor
