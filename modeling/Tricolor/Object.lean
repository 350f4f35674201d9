/-!
# Objects

What the collector knows of an object: its kind, whether it is registered for
anything, and the length of its payload. All of it stands in the `Header`;
liveness does not, it is kept in the bitmaps of the arenas.
-/

namespace Tricolor

/-- The category of an object. The set is closed: the collector has to know
which objects hold references, which ones are containers that turn grey again
when they are written to, and which ones are interned strings. -/
inductive Kind where
  /-- an interned string; a leaf -/
  | str
  /-- a captured variable with a single outgoing slot -/
  | upval
  /-- a coroutine or execution stack -/
  | thread
  /-- a function prototype -/
  | proto
  /-- a closure -/
  | func
  /-- a compiled trace -/
  | trace
  /-- foreign data without references; a leaf -/
  | cdata
  /-- a table, possibly weak -/
  | table
  /-- data of the embedding program -/
  | udata
  deriving DecidableEq, Repr, Inhabited

namespace Kind

/-- All kinds, in the order of their numbers. -/
def all : List Kind := [str, upval, thread, proto, func, trace, cdata, table, udata]

/-- The number that stands for the kind in a header. -/
def number : Kind → Nat
  | str => 0
  | upval => 1
  | thread => 2
  | proto => 3
  | func => 4
  | trace => 5
  | cdata => 6
  | table => 7
  | udata => 8

/-- Leaves never refer to other objects: they are marked without being queued. -/
def isLeaf : Kind → Bool
  | str | cdata => true
  | _ => false

/-- Aggregates have many slots and use the back barrier. -/
def isAggregate : Kind → Bool
  | table | thread => true
  | _ => false

end Kind

/-- Which side of a table does not keep its referents alive. -/
inductive WeakMode where
  | none
  | keys
  | values
  | both
  deriving DecidableEq, Repr, Inhabited

namespace WeakMode

/-- All modes, from the strongest to the weakest. -/
def all : List WeakMode := [none, keys, values, both]

/-- Whether keys do not keep their referents alive. -/
def weakKeys : WeakMode → Bool
  | keys | both => true
  | _ => false

/-- Whether values do not keep their referents alive. -/
def weakValues : WeakMode → Bool
  | values | both => true
  | _ => false

end WeakMode

/-- The header of an object. -/
structure Header where
  /-- the kind that the object was allocated with -/
  kind : Kind
  /-- the object is in its arena's, or the huge, list of fixed objects -/
  isFixed : Bool
  /-- the object is in its arena's, or the huge, finalizer register -/
  hasFinalizer : Bool
  /-- the length of the payload in bytes -/
  size : Nat
  deriving DecidableEq, Repr

namespace Header

/-- The header of a new object: registered nowhere. -/
def fresh (kind : Kind) (size : Nat) : Header := ⟨kind, false, false, size⟩

/-- What untouched memory reads as. -/
instance : Inhabited Header := ⟨fresh .str 0⟩

end Header

/-- The state of a cell, as its block and mark bits give it. -/
inductive CellState where
  /-- the cell continues the allocation or the run before it -/
  | extent
  /-- the cell heads a free run -/
  | free
  /-- the cell heads an object that this cycle has not reached -/
  | white
  /-- the cell heads an object that this cycle has reached -/
  | black
  deriving DecidableEq, Repr

/-- The state encoded by a block bit and a mark bit. -/
def CellState.ofBits : (block mark : Bool) → CellState
  | false, false => .extent
  | false, true => .free
  | true, false => .white
  | true, true => .black

end Tricolor
