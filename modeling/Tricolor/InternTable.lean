/-!
# Intern tables

A chained hash table from hashes to objects. The nodes of all chains live in one
array and are recycled through a stack of vacant places. New objects are linked at
the head of their chain. The number of buckets doubles once there are more objects
than buckets, unless the caller asks for it not to: a sweep in progress walks the
buckets by number and must not see them move.

The objects are of any type `α`; whoever looks up an object says which ones match.
-/

namespace Tricolor

/-- The hash of a string. -/
abbrev Hash := UInt64

/-- A place in a chain. -/
structure InternNode (α : Type) where
  /-- the hash under which the object was linked -/
  hash : Hash
  /-- the object, nothing while the place is vacant -/
  object? : Option α
  /-- the next place of the chain -/
  next : Option Nat

/-- A chained hash table of interned objects. -/
structure InternTable (α : Type) where
  /-- the first place of each chain -/
  heads : Array (Option Nat)
  /-- the places of all chains, the vacant ones included -/
  nodes : Array (InternNode α)
  /-- the vacant places, the next one to use first -/
  vacant : List Nat
  /-- the number of linked objects -/
  size : Nat

namespace InternTable

variable {α : Type}

/-- The number of buckets of a new table. -/
def initialBuckets : Nat := 64

/-- No object is linked. -/
def empty : InternTable α := ⟨Array.replicate initialBuckets none, #[], [], 0⟩

instance : Inhabited (InternTable α) := ⟨empty⟩

/-- The number of buckets. -/
def bucketCount (t : InternTable α) : Nat := t.heads.size

/-- The bucket of a hash among `count` buckets. -/
def bucketOf (count : Nat) (hash : Hash) : Nat := hash.toNat % count

/-- The places of a chain from `link` on, at most `n` of them. -/
def placesFrom (nodes : Array (InternNode α)) (link : Option Nat) : Nat → List Nat
  | 0 => []
  | n + 1 =>
    match link with
    | none => []
    | some i =>
      match nodes[i]? with
      | none => []
      | some node => i :: placesFrom nodes node.next n

/-- The places of the chain of `bucket`, in order. -/
def places (t : InternTable α) (bucket : Nat) : List Nat :=
  placesFrom t.nodes (t.heads.getD bucket none) t.nodes.size

/-- The nodes of the chain of `bucket`, in order. -/
def chain (t : InternTable α) (bucket : Nat) : List (InternNode α) :=
  (t.places bucket).filterMap (t.nodes[·]?)

/-- The objects in the chain of `bucket`, in order. -/
def chainObjects (t : InternTable α) (bucket : Nat) : List α :=
  (t.chain bucket).filterMap (·.object?)

/-- The objects linked under `hash`, the one linked last first. -/
def candidates (t : InternTable α) (hash : Hash) : List α :=
  ((t.chain (bucketOf t.heads.size hash)).filter (·.hash == hash)).filterMap (·.object?)

/-- An object linked under `hash` that matches. -/
def find (t : InternTable α) (hash : Hash) (matching : α → Bool) : Option α :=
  (t.candidates hash).find? matching

/-- Links the occupied place `i` at the head of its chain. -/
def relink (t : InternTable α) (i : Nat) : InternTable α :=
  match t.nodes[i]? with
  | none => t
  | some node =>
    if node.object?.isNone then t
    else
      let bucket := bucketOf t.heads.size node.hash
      let next := t.heads.getD bucket none
      { t with
        nodes := t.nodes.setIfInBounds i { node with next }
        heads := t.heads.setIfInBounds bucket (some i) }

/-- Spreads the objects over `count` buckets, in the order of their places. -/
def resize (t : InternTable α) (count : Nat) : InternTable α :=
  (List.range t.nodes.size).foldl relink { t with heads := Array.replicate count none }

/-- Links `a` under `hash`. With `mayGrow`, the number of buckets doubles when
there are more objects than buckets. -/
def insert (t : InternTable α) (hash : Hash) (a : α) (mayGrow : Bool) : InternTable α :=
  let bucket := bucketOf t.heads.size hash
  let node : InternNode α := ⟨hash, some a, t.heads.getD bucket none⟩
  let (i, nodes, vacant) :=
    match t.vacant with
    | i :: rest => (i, t.nodes.setIfInBounds i node, rest)
    | [] => (t.nodes.size, t.nodes.push node, [])
  let t : InternTable α :=
    ⟨t.heads.setIfInBounds bucket (some i), nodes, vacant, t.size + 1⟩
  if mayGrow && t.heads.size < t.size then t.resize (t.heads.size * 2) else t

/-- Points the link before a chain's rest to `next`: that of the place `before`, or
the head of `bucket` when there is none. -/
def setLink (t : InternTable α) (bucket : Nat) (before : Option Nat) (next : Option Nat) :
    InternTable α :=
  match before with
  | none => { t with heads := t.heads.setIfInBounds bucket next }
  | some i => { t with nodes := t.nodes.modify i fun node => { node with next } }

/-- Vacates the place `i`. -/
def vacate (t : InternTable α) (i : Nat) : InternTable α :=
  { t with
    nodes := t.nodes.modify i fun node => { node with object? := none, next := none }
    vacant := i :: t.vacant
    size := t.size - 1 }

/-- Unlinks those of the given places of `bucket` whose objects are to be removed,
walking from the place `before`. Answers how many there were. -/
def unlinkPlaces (removing : α → Bool) (bucket : Nat) (t : InternTable α) (before : Option Nat) :
    List Nat → Nat × InternTable α
  | [] => (0, t)
  | i :: rest =>
    match t.nodes[i]? with
    | none => (0, t)
    | some node =>
      if node.object?.any removing then
        let (n, t) := unlinkPlaces removing bucket ((t.setLink bucket before node.next).vacate i) before rest
        (n + 1, t)
      else
        unlinkPlaces removing bucket t (some i) rest

/-- Unlinks the objects of `bucket` that are to be removed. Answers how many there
were. -/
def unlinkIn (t : InternTable α) (bucket : Nat) (removing : α → Bool) : Nat × InternTable α :=
  t.unlinkPlaces removing bucket none (t.places bucket)

/-- Unlinks `a`, linked under `hash`. Answers whether it was. -/
def remove [BEq α] (t : InternTable α) (hash : Hash) (a : α) : Bool × InternTable α :=
  let (n, t) := t.unlinkIn (bucketOf t.heads.size hash) (· == a)
  (n != 0, t)

/-- The bucket at which a sweep of up to `count` buckets from `start` on stops. -/
def sweepEnd (t : InternTable α) (start count : Nat) : Nat := min (start + count) t.heads.size

/-- Sweeps up to `count` buckets from `start` on, unlinking the objects that are
not live. Answers the bucket to resume from and the number of objects unlinked; the
sweep is complete once it reaches `bucketCount`. -/
def sweep (t : InternTable α) (start count : Nat) (isLive : α → Bool) :
    Nat × Nat × InternTable α :=
  let stop := t.sweepEnd start count
  let (removed, t) := (List.range' start (stop - start)).foldl
    (fun (removed, t) bucket =>
      let (n, t) := t.unlinkIn bucket fun a => !isLive a
      (removed + n, t))
    (0, t)
  (stop, removed, t)

end InternTable

end Tricolor
