import Std.Data.HashMap
import Tricolor.Space.Placement
import Tricolor.Space.Registration
import Tricolor.Space.Reclaiming

/-!
# Sessions on a space

A session drives a space by commands in which objects are numbered. Numbers are given
in the order of allocation. After every command, an object that is no longer allocated
is dead for good; a command that names it is refused. Regions come from a supply that
hands out no page twice, never runs dry, and refuses only what does not fit in a region.
-/

namespace Tricolor

/-- The number of an object in a session. -/
abbrev ObjectId := Nat

/-- How an object is traced. -/
inductive TraceForm where
  | key
  | value
  | strong
  | nothing
  deriving DecidableEq, Repr

/-- The visits that tracing an object consists of. -/
def TraceForm.visits (r : Ref) : TraceForm → List Visit
  | key => [.key r]
  | value => [.value r]
  | strong => [.strong r]
  | nothing => []

/-- A command on a space. -/
inductive SpaceCommand where
  /-- allocate `n` objects of `cells` cells -/
  | alloc (cells n : Nat) (kind : Kind)
  /-- allocate `n` huge blocks of `size` bytes -/
  | allocHuge (size n : Nat) (kind : Kind)
  /-- resize a huge block -/
  | resizeHuge (id : ObjectId) (size : Nat)
  /-- free an object -/
  | free (id : ObjectId)
  /-- describe an object -/
  | info (id : ObjectId)
  /-- mark an object -/
  | mark (id : ObjectId)
  /-- set the mark of an object -/
  | setMark (id : ObjectId)
  /-- clear the mark of an object -/
  | clearMark (id : ObjectId)
  /-- trace an object under a weak mode -/
  | trace (id : ObjectId) (mode : WeakMode) (form : TraceForm)
  /-- name the deepest grey queue -/
  | deepest
  /-- pop an object of a queue -/
  | pop (source : GreySource)
  /-- empty the grey queues, the deepest first -/
  | drain
  /-- fix an object -/
  | fix (id : ObjectId)
  /-- register an object for finalization -/
  | register (id : ObjectId)
  /-- mark the fixed objects -/
  | markFixed
  /-- select finalizers, save those of objects that are where an object of `decline` is or
  last was, and mark the doomed objects if asked to -/
  | select (decline : List ObjectId) (andMark : Bool)
  /-- ask whether a finalizer is due -/
  | hasPending
  /-- take an object whose finalizer is due -/
  | takePending
  /-- flag everything as awaiting its sweep -/
  | beginSweep
  /-- find an arena that awaits its sweep -/
  | nextUnswept (start : Nat)
  /-- sweep an arena -/
  | sweepArena (index : Nat)
  /-- sweep the huge blocks -/
  | sweepHuge
  /-- release spare arenas -/
  | release (keep : Nat)
  /-- list the live objects -/
  | live
  /-- a command that could not be read, but for the objects that it names first -/
  | malformed (named : List ObjectId)
  deriving Repr

/-- Where an object is: in an arena, at a cell, or in a huge block. -/
inductive Location where
  | arena (index cell : Nat)
  | huge
  deriving DecidableEq, Repr

/-- The description of an object. -/
structure SpaceInfo where
  location : Location
  size : Nat
  state : CellState
  isMarked : Bool
  needsSweep : Bool
  survives : Bool
  /-- the space owns the object's address -/
  ownsHead : Bool
  /-- the space owns the address one cell further -/
  ownsNext : Bool
  deriving Repr

/-- The answer to a command on a space. -/
inductive SpaceReply where
  | done
  | locations (ls : List Location)
  | number (n : Nat)
  | optional (n : Option Nat)
  | flag (b : Bool)
  | info (i : SpaceInfo)
  | source (s : Option GreySource)
  | object (id : Option ObjectId)
  | objects (ids : List (Option ObjectId))
  | selection (asked doomed : List (Option ObjectId))
  deriving Repr

/-- Whether a space has this queue. -/
def GreySource.isPresent (space : Space) : GreySource → Bool
  | .arena index => index < space.arenas.size
  | .huge => true

/-- Whether a command may leave dead objects behind: it reclaims some, or it allocates, for
an object of no cells is dead from the start. -/
def SpaceCommand.mayReclaim : SpaceCommand → Bool
  | .alloc .. | .free _ | .resizeHuge .. | .sweepArena _ | .sweepHuge | .release _ => true
  | _ => false

/-- Why a command on a space was not carried out. -/
inductive SpaceRefusal where
  /-- no object has this number -/
  | noObject
  /-- the object is dead -/
  | dead
  /-- the command would leave a registration of a reclaimed object behind -/
  | guarded
  /-- the command does not fit the object or the number of arenas -/
  | unusable
  /-- the command could not be read -/
  | malformed
  /-- memory could not be had -/
  | alloc (e : AllocError)
  deriving Repr

/-- The pages of a region. No object of a heap covers as many. -/
def regionPages : Nat := 0x2000

/-- The supply of a session whose next region starts at `page`: it provides what fits in a
region, and refuses anything larger. -/
def supplyFrom (page : Page) : Supply := fun size =>
  if size ≤ regionPages * pageBytes then some page else none

/-- What a session remembers of an object. -/
structure SpaceObject where
  /-- where the object is, or last was -/
  ref : Ref
  /-- the object is allocated -/
  isAlive : Bool

/-- A session on a space. -/
structure SpaceSession where
  /-- the space -/
  space : Space
  /-- the objects by their numbers, the dead ones included -/
  objects : Array SpaceObject
  /-- the numbers that were ever fixed or registered -/
  registered : List ObjectId
  /-- where the next region of the supply starts -/
  nextPage : Page

namespace SpaceSession

/-- A session on an empty space. -/
def start : SpaceSession := ⟨.empty, #[], [], 1⟩

/-- The outcome of a command: a reply or a refusal, and the session after it. -/
abbrev Outcome := Except Fault (Except SpaceRefusal SpaceReply × SpaceSession)

/-- The object with a number. -/
def lookup (s : SpaceSession) (id : ObjectId) : Except SpaceRefusal Ref :=
  match s.objects[id]? with
  | none => .error .noObject
  | some o => if o.isAlive then .ok o.ref else .error .dead

/-- Objects that are no longer allocated are dead for good. -/
def bury (s : SpaceSession) : SpaceSession :=
  let ⟨space, objects, registered, nextPage⟩ := s
  ⟨space, objects.map fun o => { o with isAlive := o.isAlive && space.isAllocated o.ref },
    registered, nextPage⟩

/-- The live objects with their numbers, in order. -/
def liveObjects (s : SpaceSession) : List (Ref × ObjectId) :=
  s.objects.toList.zipIdx.filterMap fun (o, id) => if o.isAlive then some (o.ref, id) else none

/-- Where the objects with the given numbers are, or last were. -/
def lastRefs (s : SpaceSession) (ids : List ObjectId) : List Ref :=
  ids.filterMap fun id => s.objects[id]?.map (·.ref)

/-- The live objects by their references; of two with the same reference the later one
counts. -/
def directory (s : SpaceSession) : Std.HashMap Ref ObjectId :=
  s.liveObjects.foldl (fun names (r, id) => names.insert r id) ∅

/-- The number of the last of the first `n` objects that is alive and at `r`. -/
def nameBelow (objects : Array SpaceObject) (r : Ref) : Nat → Option ObjectId
  | 0 => none
  | n + 1 =>
    if objects[n]?.any fun o => o.isAlive && o.ref == r then some n else nameBelow objects r n

/-- The number of the live object at `r`. Where many are asked for, `directory` is faster. -/
def nameAmong (objects : Array SpaceObject) (r : Ref) : Option ObjectId :=
  nameBelow objects r objects.size

/-- The number of the object at `r`. -/
def nameIn (names : Std.HashMap Ref ObjectId) (r : Ref) : Option ObjectId :=
  names[r]?

/-- Where an object is. -/
def locate (space : Space) (r : Ref) : Except Fault Location := do
  if r.isHuge then return .huge
  else return .arena (← space.arenaOf r).index r.cell

/-- Carries out a command on the space that answers nothing. -/
def perform (s : SpaceSession) (f : Space → Except Fault Space) : Outcome :=
  let ⟨space, objects, registered, nextPage⟩ := s
  return (.ok .done, ⟨← f space, objects, registered, nextPage⟩)

/-- Carries out a command on the space that answers something. -/
def query {α : Type} (s : SpaceSession) (reply : α → SpaceReply)
    (f : Space → Except Fault (α × Space)) : Outcome := do
  let ⟨space, objects, registered, nextPage⟩ := s
  let (a, space) ← f space
  return (.ok (reply a), ⟨space, objects, registered, nextPage⟩)

/-- Allocates `n` objects. Those that are made before an error keep their numbers. -/
def allocMany (alloc : Supply → Space → Except Fault (Except AllocError Ref × Space))
    (kind : Kind) (s : SpaceSession) (made : Array Location) : Nat → Outcome
  | 0 => return (.ok (.locations made.toList), s)
  | n + 1 => do
    let ⟨space, objects, registered, nextPage⟩ := s
    let (r?, space) ← alloc (supplyFrom nextPage) space
    match r? with
    | .error e => return (.error (.alloc e), ⟨space, objects, registered, nextPage + regionPages⟩)
    | .ok r =>
      let space ← space.modifyHeader r fun _ => .fresh kind 0
      let location ← locate space r
      allocMany alloc kind ⟨space, objects.push ⟨r, true⟩, registered, nextPage + regionPages⟩
        (made.push location) n

/-- Describes an object. -/
def describe (space : Space) (r : Ref) : Except Fault SpaceInfo := do
  return {
    location := ← locate space r
    size := ← space.objectSize r
    state := ← space.cellState r
    isMarked := ← space.isMarked r
    needsSweep := ← space.needsSweep r
    survives := ← space.survives r
    ownsHead := ← space.owns r.address
    ownsNext := ← space.owns (r.address + cellBytes) }

/-- Pops at most `n` objects, always of the deepest queue until it is empty. -/
def drainFrom (space : Space) (source? : Option GreySource) (popped : Array Ref) :
    Nat → Except Fault (List Ref × Space)
  | 0 => return (popped.toList, space)
  | n + 1 => do
    match source? with
    | none =>
      match space.deepestGrey with
      | none => return (popped.toList, space)
      | some source => drainFrom space (some source) popped n
    | some source =>
      let (r?, space) ← space.popGrey source
      match r? with
      | none => drainFrom space none popped n
      | some r => drainFrom space (some source) (popped.push r) n

/-- Whether sweeping the huge blocks would leave a registration behind: some live huge
block that was ever registered is unmarked. -/
def leavesRegistration (s : SpaceSession) : Except Fault Bool :=
  s.registered.anyM fun id =>
    match s.lookup id with
    | .error _ => return false
    | .ok r => if r.isHuge then return !(← s.space.isMarked r) else return false

/-- Carries out a command on an object, or refuses it. -/
def onObject (s : SpaceSession) (id : ObjectId) (f : Ref → SpaceSession → Outcome) : Outcome :=
  match s.lookup id with
  | .error e => return (.error e, s)
  | .ok r => f r s

/-- Remembers that an object was fixed or registered. -/
def remember (s : SpaceSession) (id : ObjectId) : SpaceSession :=
  { s with registered := id :: s.registered }

/-- Carries out a command, without burying the dead. -/
def execute (s : SpaceSession) : SpaceCommand → Outcome
  | .alloc cells n kind => allocMany (fun supply space => space.allocCells supply cells) kind s #[] n
  | .allocHuge size n kind => allocMany (fun supply space => space.allocHuge supply size) kind s #[] n
  | .resizeHuge id size => s.onObject id fun r s => do
    if r.isHuge then
      let ⟨space, objects, registered, nextPage⟩ := s
      let (moved?, space) ← space.resizeHuge (supplyFrom nextPage) r size
      match moved? with
      | .error e => return (.error (.alloc e), ⟨space, objects, registered, nextPage + regionPages⟩)
      | .ok moved =>
        return (.ok .done,
          ⟨space, objects.setIfInBounds id ⟨moved, true⟩, registered, nextPage + regionPages⟩)
    else
      return (.error .unusable, s)
  | .free id => s.onObject id fun r s => s.query .number fun space => space.free r
  | .info id => s.onObject id fun r s => do return (.ok (.info (← describe s.space r)), s)
  | .mark id => s.onObject id fun r s => s.perform fun space => space.mark r
  | .setMark id => s.onObject id fun r s => s.perform fun space => space.setMark r
  | .clearMark id => s.onObject id fun r s => s.perform fun space => space.clearMark r
  | .trace id mode form => s.onObject id fun r s => s.query .flag fun space => do
    let space ← (form.visits r).foldlM (Space.visit mode) space
    return (← space.isMarked r, space)
  | .deepest => return (.ok (.source s.space.deepestGrey), s)
  | .pop source =>
    if source.isPresent s.space then
      let objects := s.objects
      s.query (fun r? => .object (r?.bind (nameAmong objects))) fun space => space.popGrey source
    else
      return (.error .unusable, s)
  | .drain =>
    let names := s.directory
    s.query (fun rs => .objects (rs.map (nameIn names))) fun space =>
      drainFrom space none #[] (3 * space.waiting + 1)
  | .fix id => s.onObject id fun r s => (s.remember id).perform fun space => space.fix r
  | .register id =>
    s.onObject id fun r s => (s.remember id).perform fun space => space.registerFinalizer r
  | .markFixed => s.perform Space.markFixed
  | .select decline andMark =>
    let names := s.directory
    let declined := s.lastRefs decline
    s.query (fun (selection : Space.Selection) =>
        .selection (selection.asked.map (nameIn names)) (selection.doomed.map (nameIn names)))
      fun space => do
        let (selection, space) ← space.selectFinalizers (!declined.contains ·)
        if andMark then return (selection, ← selection.doomed.foldlM Space.mark space)
        else return (selection, space)
  | .hasPending => return (.ok (.flag s.space.hasPendingFinalizers), s)
  | .takePending =>
    let objects := s.objects
    s.query (fun r? => .object (r?.bind (nameAmong objects))) Space.takePendingFinalizer
  | .beginSweep => s.perform fun space => return space.beginSweep
  | .nextUnswept start => return (.ok (.optional (s.space.nextUnswept start)), s)
  | .sweepArena index =>
    if index < s.space.arenas.size then s.query .number fun space => space.sweepArena index
    else return (.error .unusable, s)
  | .sweepHuge => do
    if ← s.leavesRegistration then return (.error .guarded, s)
    else s.query .number Space.sweepHuge
  | .release keep => s.query .number fun space => return space.releaseSpareArenas keep
  | .live => return (.ok (.objects (s.liveObjects.map fun (_, id) => some id)), s)
  | .malformed named =>
    match named.mapM s.lookup with
    | .error e => return (.error e, s)
    | .ok _ => return (.error .malformed, s)

/-- Carries out a command. -/
def run (s : SpaceSession) (command : SpaceCommand) : Outcome := do
  let (reply, s) ← s.execute command
  return (reply, if command.mayReclaim then s.bury else s)

end SpaceSession

end Tricolor
