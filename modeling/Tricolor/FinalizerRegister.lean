import Tricolor.Fault

/-!
# Finalizer registers

The objects of one arena that carry a finalizer, in chunks of up to 26
registrations. New registrations go to the newest chunk. A registration is either
idle or *pending*: its object was found unreachable and its finalizer is due. Each
chunk keeps one bit for each of its entries, set while the entry is pending.

An entry is removed by moving the last entry of its chunk, with its bit, into the
hole; a chunk that runs empty is unlinked.
-/

namespace Tricolor

/-- The registrations that one chunk holds. -/
def chunkCapacity : Nat := 26

/-- What becomes of a registration when finalizers are selected. -/
inductive Verdict where
  /-- the object is still reachable -/
  | keep
  /-- the object is unreachable and its finalizer must run -/
  | pending
  /-- the object is unreachable and has nothing left to finalize -/
  | forget
  deriving DecidableEq, Repr

/-- Up to 26 registrations. -/
structure Chunk where
  /-- the registered cells -/
  cells : Array Nat
  /-- bit `i` is set while the finalizer of `cells[i]` is due -/
  pending : BitVec chunkCapacity

namespace Chunk

/-- A chunk without registrations. -/
def empty : Chunk := ⟨#[], 0⟩

/-- Whether there is no room left. -/
def isFull (c : Chunk) : Bool := c.cells.size == chunkCapacity

/-- Whether the entry at `i` is pending. -/
def isPending (c : Chunk) (i : Nat) : Bool := c.pending.getLsbD i

/-- The bits `bits` with the one at `i` set to `bit`. -/
def withBit (bits : BitVec chunkCapacity) (i : Nat) (bit : Bool) : BitVec chunkCapacity :=
  if bit then bits ||| BitVec.twoPow chunkCapacity i else bits &&& ~~~ BitVec.twoPow chunkCapacity i

/-- The place of `cell` in the chunk. -/
def position? (c : Chunk) (cell : Nat) : Option Nat := c.cells.findIdx? (· == cell)

/-- The entries, each with whether it is pending. -/
def entries (c : Chunk) : List (Nat × Bool) :=
  c.cells.toList.zipIdx.map fun (cell, i) => (cell, c.isPending i)

/-- Marks the entry at `i` as pending. -/
def schedule (c : Chunk) (i : Nat) : Chunk := { c with pending := withBit c.pending i true }

/-- Removes the entry at `i` by moving the last one, with its bit, into its place. -/
def swapRemove (c : Chunk) (i : Nat) : Chunk :=
  let last := c.cells.size - 1
  let moved := withBit c.pending i (c.isPending last)
  { cells := (c.cells.setIfInBounds i (c.cells.getD last 0)).pop
    pending := withBit moved last false }

/-- The place of the first pending entry among the `n` from place `i` on. -/
def firstPendingFrom (c : Chunk) (i : Nat) : Nat → Option Nat
  | 0 => none
  | n + 1 => if c.isPending i then some i else firstPendingFrom c (i + 1) n

/-- The place of the first pending entry. -/
def firstPending? (c : Chunk) : Option Nat := c.firstPendingFrom 0 chunkCapacity

/-- Offers the entries from place `i` on that are not pending to `verdict`, at
most `n` of them. Answers the offered cells in order and the chunk that is left.
A forgotten entry leaves its place to the last one, which is offered next. -/
def selectFrom (verdict : Nat → Verdict) (c : Chunk) (i : Nat) : Nat → List Nat × Chunk
  | 0 => ([], c)
  | n + 1 =>
    if h : i < c.cells.size then
      if c.isPending i then
        c.selectFrom verdict (i + 1) n
      else
        let cell := c.cells[i]
        let (offered, c) :=
          match verdict cell with
          | .keep => c.selectFrom verdict (i + 1) n
          | .pending => (c.schedule i).selectFrom verdict (i + 1) n
          | .forget => (c.swapRemove i).selectFrom verdict i n
        (cell :: offered, c)
    else
      ([], c)

/-- Offers every entry that is not pending to `verdict`. -/
def select (verdict : Nat → Verdict) (c : Chunk) : List Nat × Chunk :=
  c.selectFrom verdict 0 c.cells.size

end Chunk

/-- The objects of one arena that carry a finalizer. -/
structure FinalizerRegister where
  /-- the chunks, the newest first -/
  chunks : List Chunk
  /-- the number of registrations -/
  size : Nat

namespace FinalizerRegister

/-- No registration. -/
def empty : FinalizerRegister := ⟨[], 0⟩

instance : Inhabited FinalizerRegister := ⟨empty⟩

/-- Whether there is no registration. -/
def isEmpty (r : FinalizerRegister) : Bool := r.size == 0

/-- The registrations, each with whether it is pending, newest chunk first. -/
def entries (r : FinalizerRegister) : List (Nat × Bool) := r.chunks.flatMap Chunk.entries

/-- Registers `cell`. -/
def push (r : FinalizerRegister) (cell : Nat) : FinalizerRegister :=
  let chunks :=
    match r.chunks with
    | [] => [⟨#[cell], 0⟩]
    | c :: rest =>
      if c.isFull then ⟨#[cell], 0⟩ :: c :: rest
      else { c with cells := c.cells.push cell } :: rest
  ⟨chunks, r.size + 1⟩

/-- Unlinks the chunks that are empty. -/
def prune (r : FinalizerRegister) : FinalizerRegister :=
  { r with chunks := r.chunks.filter fun c => !c.cells.isEmpty }

/-- Removes the entry for which `place?` first gives a place, chunk by chunk:
the removed cell and the chunks left, the emptied ones included. -/
def removeFirst (place? : Chunk → Option Nat) : List Chunk → Option (Nat × List Chunk)
  | [] => none
  | c :: rest =>
    match place? c with
    | some i => some (c.cells.getD i 0, c.swapRemove i :: rest)
    | none => (removeFirst place? rest).map fun (cell, others) => (cell, c :: others)

/-- Drops the registration of `cell`, pending or not. Answers whether there was one. -/
def remove (r : FinalizerRegister) (cell : Nat) : Bool × FinalizerRegister :=
  match removeFirst (·.position? cell) r.chunks with
  | none => (false, r)
  | some (_, chunks) => (true, prune ⟨chunks, r.size - 1⟩)

/-- Applies `verdict` to every registration that is not pending. Answers the cells
that were offered, in order. -/
def select (r : FinalizerRegister) (verdict : Nat → Verdict) : List Nat × FinalizerRegister :=
  let results := r.chunks.map (Chunk.select verdict)
  let offered := results.flatMap Prod.fst
  let forgotten := offered.countP fun cell => verdict cell == .forget
  (offered, prune ⟨results.map Prod.snd, r.size - forgotten⟩)

/-- Whether some finalizer is due. -/
def hasPending (r : FinalizerRegister) : Bool := r.chunks.any fun c => c.pending != 0

/-- The cells whose finalizers are due. -/
def pendingCells (r : FinalizerRegister) : List Nat :=
  r.entries.filterMap fun (cell, pending) => if pending then some cell else none

/-- Unregisters one cell whose finalizer is due. -/
def takePending (r : FinalizerRegister) : Option (Nat × FinalizerRegister) :=
  match removeFirst Chunk.firstPending? r.chunks with
  | none => none
  | some (cell, chunks) => some (cell, prune ⟨chunks, r.size - 1⟩)

end FinalizerRegister

end Tricolor
