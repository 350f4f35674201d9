import Tricolor.Collector
import Tricolor.Session.Space

/-!
# Commands on a heap

The language in which a session drives a heap together with a small mutator: commands,
the events that the mutator observes while a command runs, and the answers. Finalizers
are scripts of commands.
-/

namespace Tricolor

/-- Which barrier follows a store. -/
inductive BarrierChoice where
  /-- the one that fits the kind of the writer -/
  | auto
  | forward
  | back
  | slot
  | none
  deriving DecidableEq, Repr

/-- The references of a stack frame that the frame reports as roots. -/
inductive FrameShape where
  /-- all of them -/
  | all
  /-- the first -/
  | first
  /-- the first two, or none when there are fewer -/
  | pair
  /-- the first, or none when there are fewer than two -/
  | half
  /-- none -/
  | hidden
  deriving DecidableEq, Repr

/-- The references that a frame of a given shape reports. -/
def FrameShape.reported {α : Type} : FrameShape → List α → List α
  | all, rs => rs
  | first, rs => rs.take 1
  | pair, r :: s :: _ => [r, s]
  | pair, _ => []
  | half, r :: _ :: _ => [r]
  | half, _ => []
  | hidden, _ => []

/-- Bytes that are repeated a number of times. -/
structure Pattern where
  /-- the bytes -/
  bytes : List UInt8
  /-- how often they come -/
  count : Nat

namespace Pattern

/-- How many bytes it makes. -/
def size (p : Pattern) : Nat := p.count * p.bytes.length

/-- The bytes that it makes. -/
def toList (p : Pattern) : List UInt8 :=
  if p.bytes.isEmpty then [] else (List.replicate p.count p.bytes).flatten

@[simp]
theorem length_toList (p : Pattern) : p.toList.length = p.size := by
  unfold toList size; split <;> simp_all

end Pattern

/-- How objects are created. -/
structure Creation where
  /-- the kind of the objects -/
  kind : Kind
  /-- the weak mode, for tables with entries -/
  table : Option WeakMode
  /-- the size of their payloads -/
  size : Nat
  /-- how many there are -/
  count : Nat
  /-- they become roots -/
  asRoots : Bool
  /-- each refers to the next, and only the first becomes a root -/
  chained : Bool
  /-- the barrier that follows each store of a chain -/
  barrier : BarrierChoice

/-- A command on a heap and its mutator. -/
inductive Command where
  /-- allocate objects -/
  | create (how : Creation)
  /-- intern a string -/
  | intern (text : Pattern)
  /-- intern a text followed by each of the numbers from `start` on -/
  | internMany (text : List UInt8) (start count : Nat) (asRoots : Bool)
  /-- free an object, with its size if it is not to be looked up -/
  | free (id : ObjectId) (size : Option Nat)
  /-- resize an object, with its old size if it is not to be looked up -/
  | realloc (id : ObjectId) (new : Nat) (old : Option Nat)
  /-- show the contents of a string -/
  | text (id : ObjectId)
  /-- summarize a payload -/
  | payload (id : ObjectId)
  /-- write into a payload -/
  | write (id : ObjectId) (start : Nat) (content : Pattern)
  /-- fix an object -/
  | fix (id : ObjectId)
  /-- register an object for finalization -/
  | register (id : ObjectId)
  /-- describe an object -/
  | info (id : ObjectId)
  /-- ask whether the object's address heads an allocated object -/
  | isLive (id : ObjectId)
  /-- ask for the state of the cell at the object's address -/
  | cellState (id : ObjectId)
  /-- ask whether the heap owns an address in the object's page -/
  | owns (id : ObjectId) (offset : Nat)
  /-- ask whether the heap owns the addresses 0 and 8 -/
  | ownsNull
  /-- let an object decline its finalizer -/
  | decline (id : ObjectId)
  /-- let an object's finalizer fail -/
  | failing (id : ObjectId)
  /-- set the cost of traversing an object -/
  | cost (id : ObjectId) (n : Nat)
  /-- set the finalizer of an object -/
  | script (id : ObjectId) (commands : List Command)
  /-- make an object a root -/
  | root (id : ObjectId)
  /-- drop the first root that is this object -/
  | unroot (id : ObjectId)
  /-- drop all roots and frames -/
  | unrootAll
  /-- push a stack frame -/
  | frame (shape : FrameShape) (refs : List ObjectId)
  /-- store a reference -/
  | link (writer referent : ObjectId) (barrier : BarrierChoice)
  /-- drop all references of an object, or the first one to another object -/
  | unlink (writer : ObjectId) (referent : Option ObjectId)
  /-- add an entry to a table -/
  | insert (table key value : ObjectId) (barrier : BarrierChoice)
  /-- list the entries of a table -/
  | entries (table : ObjectId)
  /-- call a barrier without a store -/
  | barrier (writer referent : ObjectId) (barrier : BarrierChoice)
  /-- perform single steps -/
  | single (n : Nat)
  /-- perform single steps until a phase is reached, at most `max` of them -/
  | until (phase : Phase) (max : Nat)
  /-- perform a step -/
  | step
  /-- perform a step if one is due -/
  | checkStep
  /-- run a full collection -/
  | full
  /-- declare that a compiled trace runs or no longer does -/
  | traceActive (on : Bool)
  /-- set the pause -/
  | pause (percent : Nat)
  /-- set the step multiplier -/
  | stepMultiplier (percent : Nat)
  /-- let finalizers make their objects roots -/
  | resurrect (on : Bool)
  /-- list the live objects with their colours -/
  | dump
  /-- summarize the heap -/
  | stats
  /-- a command that could not be read, but for the objects that it names first -/
  | malformed (named : List ObjectId)

/-- Whether a command may reclaim objects. Moving an object does not: its number moves along. -/
def Command.mayReclaim : Command → Bool
  | .free .. | .single _ | .until .. | .step | .checkStep | .full => true
  | _ => false

/-- Where an object is: arenas and huge blocks are numbered in order of their creation. -/
inductive Place where
  | arena (number cell : Nat)
  | huge (number : Nat)
  deriving DecidableEq, Repr, Hashable

/-- Places are ordered by arena and cell, huge blocks last. -/
def Place.before : Place → Place → Bool
  | arena n c, arena n' c' => n < n' || (n == n' && c < c')
  | arena .., huge _ => true
  | huge _, arena .. => false
  | huge n, huge n' => n < n'

/-- The description of an object. -/
structure ObjectInfo where
  kind : Kind
  payloadSize : Nat
  size : Nat
  state : CellState
  place : Place

/-- A summary of a payload. -/
structure PayloadSummary where
  size : Nat
  /-- the first bytes -/
  head : List UInt8
  /-- the last bytes -/
  tail : List UInt8
  /-- the number of bytes that are not zero -/
  nonzero : Nat
  /-- the sum of all bytes -/
  sum : Nat

/-- The answer to a command. -/
inductive Reply where
  | done
  | created (objects : List (ObjectId × Place))
  | interned (isNew : Bool) (id : ObjectId) (place : Place)
  | internedMany (new same : Nat)
  | place (p : Place)
  | bytes (bs : List UInt8)
  | payload (summary : PayloadSummary)
  | flag (b : Bool)
  | flags (a b : Bool)
  | info (i : ObjectInfo)
  /-- the state of a cell, nothing when its memory is gone -/
  | cellState (state : Option CellState)
  | position (n : Option Nat)
  | entries (es : List (ObjectId × ObjectId))
  | costs (ns : List Nat)
  | steps (n : Nat) (blocked : Bool)
  | cost (n : Nat)
  | budget (n : Nat)
  | dump (objects : List (ObjectId × CellState))
  | stats (s : Heap.Stats) (phase : Phase) (isDue hasPending : Bool)

/-- Why a command was not carried out. -/
inductive Refusal where
  /-- no object has this number -/
  | noObject
  /-- the object is dead -/
  | dead
  /-- the command would break a promise that mutators give -/
  | guarded
  /-- the object is not a table with entries -/
  | notATable
  /-- the bytes do not fit -/
  | outOfRange
  /-- the command could not be read -/
  | malformed
  /-- memory could not be had -/
  | alloc (e : AllocError)
  /-- the collection stopped -/
  | collect (e : CollectError)

/-- What the mutator observes. -/
inductive Event where
  /-- its roots were enumerated -/
  | roots
  /-- an object was traversed -/
  | traversed (id : Option ObjectId) (kind : Kind) (mode : WeakMode)
  /-- entries of a weak table were dropped -/
  | cleared (table : Option ObjectId) (removed : List (ObjectId × ObjectId))
  /-- hooks were suspended or resumed -/
  | hooks (suspended : Bool)
  /-- a finalizer was called, under this threshold -/
  | finalizing (id : Option ObjectId) (threshold : Nat)
  /-- a command of a finalizer was carried out -/
  | performed (result : Except Refusal Reply)

end Tricolor
