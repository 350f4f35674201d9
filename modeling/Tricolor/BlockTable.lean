import Tricolor.Layout

/-!
# The table of huge blocks

An open-addressed table with linear probing that maps the page of each huge block
to its size and its flags. The home slot of a page comes from multiplicative
hashing with the golden ratio. The table doubles before it would be more than
three quarters full, so a probe always ends at an empty slot; removal shifts later
entries of the probed stretch back over the hole, so no tombstones are needed.

Page 0 stands for no block: it is never looked up, and registering it leaves no entry.
-/

namespace Tricolor

/-- The flags of a block: bit 0 is its mark, bit 1 says that it waits in the grey
queue. -/
abbrev BlockFlags := BitVec 4

namespace BlockFlags

/-- The block was reached in this cycle. -/
def mark : BlockFlags := 1

/-- The block waits in the grey queue. -/
def grey : BlockFlags := 2

/-- Whether the mark is set. -/
def isMarked (f : BlockFlags) : Bool := f &&& mark != 0

/-- Whether the block waits in the grey queue. -/
def isGrey (f : BlockFlags) : Bool := f &&& grey != 0

end BlockFlags

/-- A registered block. -/
structure BlockEntry where
  /-- the page at which the block starts -/
  page : Page
  /-- its size in bytes -/
  size : Nat
  /-- its flags -/
  flags : BlockFlags
  deriving DecidableEq, Repr

/-- The table of huge blocks. -/
structure BlockTable where
  /-- the slots, a power of two of them -/
  slots : Array (Option BlockEntry)
  /-- the logarithm of the number of slots -/
  bits : Nat
  /-- the number of registered blocks -/
  size : Nat
  /-- the sum of the sizes of the registered blocks -/
  bytes : Nat

namespace BlockTable

/-- The logarithm of the number of slots of a new table. -/
def initialBits : Nat := 4

/-- No block is registered. -/
def empty : BlockTable := ⟨Array.replicate (1 <<< initialBits) none, initialBits, 0, 0⟩

instance : Inhabited BlockTable := ⟨empty⟩

/-- 2⁶⁴ divided by the golden ratio. -/
def goldenRatio : Nat := 0x9E3779B97F4A7C15

/-- The home slot of `page` in a table of `1 <<< bits` slots: the top `bits` bits of its
product with `goldenRatio`. -/
def home (bits : Nat) (page : Page) : Nat :=
  (page * goldenRatio % wordRange) >>> (64 - bits)

/-- The slot after the one at `i`, round the end of the table. -/
def after (slots : Array (Option BlockEntry)) (i : Nat) : Nat := (i + 1) % slots.size

/-- The entry in the slot at `i`. -/
def entryAt (slots : Array (Option BlockEntry)) (i : Nat) : Option BlockEntry := slots.getD i none

/-- Probes at most `n` slots from the one at `i` on for `page`. -/
def probe (slots : Array (Option BlockEntry)) (page : Page) (i : Nat) : Nat → Option Nat
  | 0 => none
  | n + 1 =>
    match entryAt slots i with
    | none => none
    | some e => if e.page = page then some i else probe slots page (after slots i) n

/-- The slot that holds `page`. -/
def find (t : BlockTable) (page : Page) : Except Fault (Option Nat) := do
  require (page ≠ 0) .nullPage
  return probe t.slots page (home t.bits page) t.slots.size

/-- Probes at most `n` slots from the one at `i` on for the block that starts at the byte `address`. -/
def probeAt (slots : Array (Option BlockEntry)) (address i : Nat) : Nat → Option Nat
  | 0 => none
  | n + 1 =>
    match entryAt slots i with
    | none => none
    | some e => if e.page * pageBytes = address then some i else probeAt slots address (after slots i) n

/-- The slot of the block that starts at the byte `address`, which is looked for from the home of
the address's page on. -/
def findAt (t : BlockTable) (address : Nat) : Except Fault (Option Nat) := do
  require (address ≠ 0) .nullPage
  return probeAt t.slots address (home t.bits (address / pageBytes)) t.slots.size

/-- The entry of `page`. -/
def lookup (t : BlockTable) (page : Page) : Except Fault (Option BlockEntry) := do
  let place ← t.find page
  return place.bind (entryAt t.slots)

/-- Puts `e` into the first empty slot among the `n` from the one at `i` on. -/
def placeFrom (slots : Array (Option BlockEntry)) (e : BlockEntry) (i : Nat) :
    Nat → Except Fault (Array (Option BlockEntry))
  | 0 => .ok slots
  | n + 1 =>
    match entryAt slots i with
    | none => .ok (slots.setIfInBounds i (some e))
    | some other =>
      if other.page = e.page then .error (.pageTaken e.page)
      else placeFrom slots e (after slots i) n

/-- Puts `e` into the first empty slot from its home on. An entry for page 0 would say
that its slot is empty, so the slots stay as they are. -/
def place (bits : Nat) (slots : Array (Option BlockEntry)) (e : BlockEntry) :
    Except Fault (Array (Option BlockEntry)) :=
  if e.page = 0 then .ok slots else placeFrom slots e (home bits e.page) slots.size

/-- Doubles the number of slots, placing the entries anew in the order of their
old slots. -/
def grow (t : BlockTable) : Except Fault BlockTable := do
  let bits := t.bits + 1
  let slots ← (t.slots.toList.filterMap id).foldlM (place bits) (Array.replicate (1 <<< bits) none)
  return { t with slots, bits }

/-- Registers the block of `size` bytes at `page`, with no flag set. -/
def insert (t : BlockTable) (page : Page) (size : Nat) : Except Fault BlockTable := do
  require (size % cellBytes = 0) (.misalignedSize size)
  let t ← if t.slots.size * 3 < (t.size + 1) * 4 then t.grow else .ok t
  let slots ← place t.bits t.slots ⟨page, size, 0⟩
  let bytes ← checkedAdd wordRange t.bytes size
  return { t with slots, size := t.size + 1, bytes }

/-- Closes the hole at `hole` by moving back the entries that may stand there,
looking at no more than `n` slots from the one at `i` on. -/
def closeHole (bits : Nat) (slots : Array (Option BlockEntry)) (hole i : Nat) :
    Nat → Array (Option BlockEntry)
  | 0 => slots.setIfInBounds hole none
  | n + 1 =>
    match entryAt slots i with
    | none => slots.setIfInBounds hole none
    | some e =>
      let distance (start : Nat) := (i + slots.size - start) % slots.size
      if distance hole ≤ distance (home bits e.page) then
        closeHole bits (slots.setIfInBounds hole (some e)) i (after slots i) n
      else
        closeHole bits slots hole (after slots i) n

/-- Unregisters `page`. Answers the size of its block. -/
def remove (t : BlockTable) (page : Page) : Except Fault (Option Nat × BlockTable) := do
  let some i ← t.find page | return (none, t)
  let some e := entryAt t.slots i | return (none, t)
  let bytes ← checkedSub t.bytes e.size
  let slots := closeHole t.bits t.slots i (after t.slots i) t.slots.size
  return (some e.size, { t with slots, size := t.size - 1, bytes })

/-- The size of the block at `page`. -/
def sizeOf? (t : BlockTable) (page : Page) : Except Fault (Option Nat) := do
  return (← t.lookup page).map BlockEntry.size

/-- Whether a block is registered at `page`. -/
def contains (t : BlockTable) (page : Page) : Except Fault Bool := do
  return (← t.find page).isSome

/-- The flags of the block at `page`, none when there is no such block. -/
def flags (t : BlockTable) (page : Page) : Except Fault BlockFlags := do
  return (← t.lookup page).elim 0 BlockEntry.flags

/-- Applies `f` to the flags of the block at `page`, if there is one. -/
def updateFlags (t : BlockTable) (page : Page) (f : BlockFlags → BlockFlags) :
    Except Fault BlockTable := do
  let some i ← t.find page | return t
  return { t with slots := t.slots.modify i (Option.map fun e => { e with flags := f e.flags }) }

/-- Sets the given flags of the block at `page`. -/
def setFlags (t : BlockTable) (page : Page) (flags : BlockFlags) : Except Fault BlockTable :=
  t.updateFlags page (· ||| flags)

/-- Clears the given flags of the block at `page`. -/
def clearFlags (t : BlockTable) (page : Page) (flags : BlockFlags) : Except Fault BlockTable :=
  t.updateFlags page (· &&& ~~~flags)

/-- Registers the block at `old` anew at `page` with `size` bytes and the flags
that it had. -/
def replace (t : BlockTable) (old page : Page) (size : Nat) : Except Fault BlockTable := do
  let flags ← t.flags old
  let (_, t) ← t.remove old
  let t ← t.insert page size
  t.setFlags page flags

/-- The registered blocks in the order of their slots. -/
def entries (t : BlockTable) : List BlockEntry := t.slots.toList.filterMap id

/-- Unregisters every block without a mark and clears the flags of the others.
Answers the dead blocks in the order of their slots. -/
def sweep (t : BlockTable) : Except Fault (List BlockEntry × BlockTable) := do
  let dead := t.entries.filter fun e => !e.flags.isMarked
  let cleared := { t with slots := t.slots.map (Option.map fun e => { e with flags := 0 }) }
  let t ← dead.foldlM (fun t e => return (← t.remove e.page).2) cleared
  return (dead, t)

end BlockTable

end Tricolor
