import Tricolor.Config
import Tricolor.InternTable
import Tricolor.Space.Contents
import Tricolor.Space.Placement
import Tricolor.Space.Registration
import Tricolor.Space.Reclaiming

/-!
# Heaps

A heap is a space with an intern table, a store buffer for the write barriers and the
state of its collection cycle. This module has the type, and the operations of a
program that allocates, frees and resizes objects. None of them runs the collector.

How strings are hashed is up to whoever makes the heap; only equal bytes have to have
equal hashes.
-/

namespace Tricolor

/-- The phase of the current collection cycle. -/
inductive Phase where
  /-- no cycle is in progress -/
  | pause
  /-- grey objects are being traversed -/
  | propagate
  /-- marking is about to be finished in one indivisible step -/
  | atomic
  /-- unreachable interned strings are being unlinked -/
  | sweepStrings
  /-- unreachable objects are being reclaimed, one arena at a time -/
  | sweep
  /-- finalizers of unreachable objects are being run -/
  | finalize
  deriving DecidableEq, Repr

/-- Where the sweep goes on. -/
inductive SweepCursor where
  /-- with the current arena -/
  | current
  /-- with the huge blocks -/
  | huge
  /-- with the first unswept arena from an index on -/
  | arenas (start : Nat)
  deriving DecidableEq, Repr

/-- The state of the collector. -/
structure Cycle where
  /-- the phase of the cycle -/
  phase : Phase
  /-- the number of allocated bytes at which the next step is due -/
  threshold : Nat
  /-- the bytes that were live after the last completed cycle -/
  estimate : Nat
  /-- a compiled trace is running -/
  traceActive : Bool
  /-- the number of completed cycles -/
  completed : Nat
  /-- the bucket at which the sweep of the intern table goes on -/
  stringsCursor : Nat
  /-- where the sweep of the space goes on -/
  sweepCursor : SweepCursor
  /-- the weak tables that were traversed in this cycle -/
  weakTables : List Ref
  /-- the unreachable objects that this cycle keeps for their finalizers -/
  doomed : List Ref

namespace Cycle

/-- No cycle has begun; the first one is due at `threshold` bytes. -/
def initial (threshold : Nat) : Cycle where
  phase := .pause
  threshold
  estimate := 0
  traceActive := false
  completed := 0
  stringsCursor := 0
  sweepCursor := .current
  weakTables := []
  doomed := []

/-- Drops what the collector remembers of an object. -/
def forget (c : Cycle) (r : Ref) : Cycle :=
  { c with weakTables := c.weakTables.filter (· != r), doomed := c.doomed.filter (· != r) }

end Cycle

/-- The objects hit by write barriers, marked in batches. -/
structure StoreBuffer where
  /-- the recorded objects, the latest at the end -/
  entries : Array Ref
  /-- the number of entries at which the buffer is full -/
  capacity : Nat

namespace StoreBuffer

/-- The most entries that a buffer can have room for: at eight bytes each, they take no
more than the largest signed word of bytes. -/
def maxCapacity : Nat := 0x0FFFFFFFFFFFFFFF

/-- A buffer with room for `capacity` objects, in which none is recorded. The room is
reserved at once. -/
def withCapacity (capacity : Nat) : Except Fault StoreBuffer := do
  require (capacity ≤ maxCapacity) (.bufferTooLong capacity)
  return ⟨#[], capacity⟩

theorem withCapacity_eq_ok_iff {capacity : Nat} {b : StoreBuffer} :
    withCapacity capacity = .ok b ↔ capacity ≤ maxCapacity ∧ b = ⟨#[], capacity⟩ := by
  rw [withCapacity, bind_eq_ok_iff]
  exact ⟨fun ⟨_, hr, hb⟩ => ⟨require_eq_ok_iff.1 hr, (Except.ok.inj hb).symm⟩,
    fun ⟨hc, hb⟩ => ⟨(), require_eq_ok_iff.2 hc, hb ▸ rfl⟩⟩

/-- Whether no object is recorded. -/
def isEmpty (b : StoreBuffer) : Bool := b.entries.isEmpty

/-- Whether it is time to drain the buffer. -/
def isFull (b : StoreBuffer) : Bool := b.capacity ≤ b.entries.size

/-- Records an object. -/
def push (b : StoreBuffer) (r : Ref) : StoreBuffer := { b with entries := b.entries.push r }

/-- Drops an object. -/
def erase (b : StoreBuffer) (r : Ref) : StoreBuffer :=
  { b with entries := b.entries.filter (· != r) }

/-- Drops all objects. -/
def clear (b : StoreBuffer) : StoreBuffer := { b with entries := #[] }

end StoreBuffer

/-- A garbage-collected heap. -/
structure Heap where
  /-- the memory of the heap -/
  space : Space
  /-- the interned strings -/
  strings : InternTable Ref
  /-- the state of the collector -/
  cycle : Cycle
  /-- the objects hit by write barriers -/
  stores : StoreBuffer
  /-- the tuning parameters -/
  config : Config
  /-- the hash of a string -/
  hashOf : List UInt8 → Hash

namespace Heap

/-- The number of allocated bytes at which the first cycle is due. -/
def initialThreshold : Nat := 65536

/-- A heap without objects, for a configuration that is taken as it is. -/
def build (config : Config) (hashOf : List UInt8 → Hash) : Except Fault Heap := do
  return {
    space := .empty
    strings := .empty
    cycle := .initial initialThreshold
    stores := ← StoreBuffer.withCapacity config.storeBufferLength
    config
    hashOf }

/-- A heap without objects, if the configuration is usable. -/
def withConfig (config : Config) (hashOf : List UInt8 → Hash) :
    Except Fault (Except ConfigError Heap) := do
  match config.validate with
  | .error e => return .error e
  | .ok () => return .ok (← build config hashOf)

/-! ## What can be asked -/

/-- The phase of the current cycle. -/
def phase (h : Heap) : Phase := h.cycle.phase

/-- Whether `r` is the head of an allocated object. An unreachable object stays
allocated until it is swept. -/
def isLive (h : Heap) (r : Ref) : Bool := h.space.isAllocated r

/-- Faults unless `r` is allocated. -/
def requireLive (h : Heap) (r : Ref) : Except Fault Unit :=
  require (h.isLive r = true) .notAllocated

/-- The kind of an object. -/
def kind (h : Heap) (r : Ref) : Except Fault Kind := do
  h.requireLive r
  return (← h.space.header r).kind

/-- The length of an object's payload. -/
def payloadSize (h : Heap) (r : Ref) : Except Fault Nat := do
  h.requireLive r
  return (← h.space.header r).size

/-- The bytes that an object occupies, its header included. -/
def objectSize (h : Heap) (r : Ref) : Except Fault Nat := do
  h.requireLive r
  h.space.objectSize r

/-- The payload of an object. -/
def payload (h : Heap) (r : Ref) : Except Fault (List UInt8) := do
  h.requireLive r
  h.space.payload r

/-- The text of an interned string. -/
def text (h : Heap) (r : Ref) : Except Fault (List UInt8) := do
  let kind ← h.kind r
  require (kind = .str) .notAString
  h.payload r

/-- Whether the allocation threshold has been reached. -/
def isStepDue (h : Heap) : Bool := h.cycle.threshold ≤ h.space.total

/-- A summary of a heap. -/
structure Stats where
  /-- the bytes in allocated objects, unreachable ones included -/
  total : Nat
  /-- the number of allocated bytes at which the next step is due -/
  threshold : Nat
  /-- the bytes that were live after the last completed cycle -/
  estimate : Nat
  /-- the number of arenas -/
  arenas : Nat
  /-- the number of arenas without objects -/
  emptyArenas : Nat
  /-- the number of huge blocks -/
  hugeBlocks : Nat
  /-- the bytes in huge blocks -/
  hugeBytes : Nat
  /-- the number of interned strings -/
  strings : Nat
  /-- the number of completed cycles -/
  cycles : Nat
  deriving DecidableEq, Repr

/-- A summary of the heap. -/
def stats (h : Heap) : Stats where
  total := h.space.total
  threshold := h.cycle.threshold
  estimate := h.cycle.estimate
  arenas := h.space.arenaCount
  emptyArenas := h.space.emptyArenas
  hugeBlocks := h.space.hugeCount
  hugeBytes := h.space.hugeBytes
  strings := h.strings.size
  cycles := h.cycle.completed

/-! ## Settings -/

/-- Declares that a compiled trace runs, or no longer does. -/
def setTraceActive (h : Heap) (active : Bool) : Heap :=
  { h with cycle := { h.cycle with traceActive := active } }

/-- Sets how far the heap grows before the next cycle, in percent of what is live. -/
def setPause (h : Heap) (percent : Nat) : Heap :=
  { h with config := { h.config with pause := percent } }

/-- Sets the work done in one step, in percent of the step size. -/
def setStepMultiplier (h : Heap) (percent : Nat) : Heap :=
  { h with config := { h.config with stepMultiplier := percent } }

/-! ## Allocation -/

/-- Places the `total` bytes of an object: in an arena, or as a huge block when they
are more than the threshold. The bytes are zero. -/
def place (h : Heap) (supply : Supply) (total : Nat) :
    Except Fault (Except AllocError Ref × Heap) := do
  if h.config.hugeThreshold < total then
    let (r?, space) ← h.space.allocHuge supply total
    return (r?, { h with space })
  else
    let (r?, space) ← h.space.allocCells supply (total / cellBytes)
    match r? with
    | .error e => return (.error e, { h with space })
    | .ok r => return (.ok r, { h with space := ← space.clearObject r total })

/-- Allocates an object with a zeroed payload of `size` bytes. -/
def alloc (h : Heap) (supply : Supply) (kind : Kind) (size : Nat) :
    Except Fault (Except AllocError Ref × Heap) := do
  if halfWordRange ≤ size then
    return (.error (.tooLarge size), h)
  else
    let total ← objectBytes size
    let (r?, h) ← h.place supply total
    match r? with
    | .error e => return (.error e, h)
    | .ok r => return (.ok r, { h with space := ← h.space.modifyHeader r fun _ => .fresh kind size })

/-- Frees an object and drops everything that refers to it: its place in the intern
table, in the store buffer, in the collector's lists and in the registers. -/
def release (h : Heap) (r : Ref) : Except Fault Heap := do
  let header ← h.space.header r
  let strings ← if header.kind = .str then
      let hash := h.hashOf (← h.space.payload r)
      pure (h.strings.remove hash r).2
    else pure h.strings
  let (_, space) ← h.space.free r
  return { h with
    space
    strings
    stores := h.stores.erase r
    cycle := h.cycle.forget r }

/-- Frees an object with a payload of `size` bytes. -/
def free (h : Heap) (r : Ref) (size : Nat) : Except Fault Heap := do
  h.requireLive r
  let actual ← h.space.objectSize r
  let expected ← objectBytes size
  require (actual = expected) .wrongSize
  h.release r

/-! ## Resizing -/

/-- Whether marks that are set now belong to the cycle in progress. -/
def isMarking (h : Heap) : Bool := h.phase = .propagate || h.phase = .atomic

/-- Moves an object to a new place with a payload of `size` bytes: the part of the
payload that fits is copied, the registrations are renewed, and the mark is kept while
the collector is marking. -/
def moveObject (h : Heap) (supply : Supply) (r : Ref) (header : Header) (size : Nat) :
    Except Fault (Except AllocError Ref × Heap) := do
  let (moved?, h) ← h.alloc supply header.kind size
  match moved? with
  | .error e => return (.error e, h)
  | .ok moved =>
    let kept := (← h.space.bytesOf r).read r.payloadOffset (min header.size size)
    let space ← h.space.writePayload moved 0 kept
    let space ← if header.isFixed then space.fix moved else pure space
    let space ← if header.hasFinalizer then space.registerFinalizer moved else pure space
    let marked ← if h.isMarking then space.isMarked r else pure false
    let space ← if marked then space.mark moved else pure space
    return (.ok moved, ← { h with space }.release r)

/-- Gives an object that stays in its place, or was moved as a block, its new payload
size; bytes that it gains are zero. -/
def finishResize (h : Heap) (r : Ref) (header : Header) (size : Nat) : Except Fault Heap := do
  let space ← if header.size < size then
      h.space.clearPayload r header.size (size - header.size)
    else pure h.space
  return { h with space := ← space.modifyHeader r fun _ => { header with size } }

/-- Resizes the payload of an object from `old` to `new` bytes. An object that keeps its
number of cells stays in its place, a huge block that stays huge is resized as a block,
and any other object is moved. Answers the reference to use from now on. -/
def realloc (h : Heap) (supply : Supply) (r : Ref) (old new : Nat) :
    Except Fault (Except AllocError Ref × Heap) := do
  h.requireLive r
  if halfWordRange ≤ new then
    return (.error (.tooLarge new), h)
  else
    let total ← objectBytes new
    let header ← h.space.header r
    require (header.size = old) .wrongSize
    require (header.kind ≠ .str) .immutableString
    if r.isHuge && h.config.hugeThreshold < total then
      let (moved?, space) ← h.space.resizeHuge supply r total
      match moved? with
      | .error e => return (.error e, { h with space })
      | .ok moved => return (.ok moved, ← { h with space }.finishResize moved header new)
    else if !r.isHuge && total == (← h.space.objectSize r) then
      return (.ok r, ← h.finishResize r header new)
    else
      h.moveObject supply r header new

/-- Writes `bytes` into the payload of an object that is no string, from the byte at
`start` on. -/
def writePayload (h : Heap) (r : Ref) (start : Nat) (bytes : List UInt8) : Except Fault Heap := do
  let kind ← h.kind r
  require (kind ≠ .str) .immutableString
  return { h with space := ← h.space.writePayload r start bytes }

/-! ## Interning -/

/-- The string with the contents `bytes`: the one that is linked in the intern table,
or a new one. A linked string that the pending sweep would reclaim is revived. -/
def intern (h : Heap) (supply : Supply) (bytes : List UInt8) :
    Except Fault (Except AllocError Ref × Heap) := do
  let hash := h.hashOf bytes
  let matching (r : Ref) : Bool :=
    match h.space.payload r with
    | .ok found => found == bytes
    | .error _ => false
  match h.strings.find hash matching with
  | some found =>
    if ← h.space.survives found then
      return (.ok found, h)
    else
      return (.ok found, { h with space := ← h.space.setMark found })
  | none =>
    let (r?, h) ← h.alloc supply .str bytes.length
    match r? with
    | .error e => return (.error e, h)
    | .ok r =>
      let ⟨space, strings, cycle, stores, config, hashOf⟩ := h
      let space ← space.writePayload r 0 bytes
      let strings := strings.insert hash r (cycle.phase ≠ .sweepStrings)
      return (.ok r, ⟨space, strings, cycle, stores, config, hashOf⟩)

/-! ## Registration -/

/-- Keeps an object alive across every cycle. -/
def fix (h : Heap) (r : Ref) : Except Fault Heap := do
  h.requireLive r
  return { h with space := ← h.space.fix r }

/-- Registers an object for finalization: once it is found unreachable its finalizer
runs, unless the mutator declines at that time. -/
def registerFinalizer (h : Heap) (r : Ref) : Except Fault Heap := do
  h.requireLive r
  return { h with space := ← h.space.registerFinalizer r }

end Heap

end Tricolor
