import Tricolor.Layout
import Tricolor.Zeroed

/-!
# Free runs

The free runs of one arena below its bump region. Runs of up to eight cells are
kept in bins of one length each: a bin holds the head of the run pushed last, and
every run stores the head of the next one in its own first cell. Longer runs are
packed into words `cells * 65536 + head` and kept in ascending order, so that the
first one that is long enough is the shortest such run and, of equally long ones,
the one with the lowest head.

The links live in the memory of the arena and are passed to each operation.
-/

namespace Tricolor

/-- Runs of up to this many cells are kept in bins. -/
def binCount : Nat := 8

/-- The links between binned runs: at the head cell of a run, the head of the
next run of the same bin. Cell 0 ends a bin. -/
abbrev Links := Zeroed Nat

namespace Links

/-- The cells in whose memory a link can be stored. -/
def Holds (cell : Nat) : Prop := firstCell ≤ cell ∧ cell < arenaCells

instance (cell : Nat) : Decidable (Holds cell) := inferInstanceAs (Decidable (_ ∧ _))

/-- Reads the link stored at `cell`. -/
def next (links : Links) (cell : Nat) : Except Fault Nat := do
  require (Holds cell) (.cellOutOfRange cell)
  return links.get cell

/-- Stores the link `target` at `cell`. -/
def store (links : Links) (cell target : Nat) : Except Fault Links := do
  require (Holds cell) (.cellOutOfRange cell)
  return links.set cell target

end Links

/-- A run too long for the bins, packed into one word. -/
abbrev PackedRun := BitVec 32

namespace PackedRun

/-- Packs a run. -/
def pack (head cells : Nat) : PackedRun :=
  BitVec.ofNat 32 cells <<< 16 ||| BitVec.ofNat 32 head

/-- The head of a packed run. -/
def head (r : PackedRun) : Nat := r.toNat % 65536

/-- The length of a packed run. -/
def cells (r : PackedRun) : Nat := r.toNat / 65536

/-- Inserts a run into an ascending list, before the first that is not smaller. -/
def insert (r : PackedRun) : List PackedRun → List PackedRun
  | [] => [r]
  | s :: rest => if s.toNat < r.toNat then s :: insert r rest else r :: s :: rest

/-- Removes the first run of at least `n` cells. -/
def takeFit (n : Nat) : List PackedRun → Option (PackedRun × List PackedRun)
  | [] => none
  | s :: rest =>
    if n ≤ s.cells then some (s, rest)
    else (takeFit n rest).map fun (r, others) => (r, s :: others)

end PackedRun

/-- The free runs of an arena. -/
structure FreeRuns where
  /-- the run pushed last into each bin, 0 when the bin is empty; the bin at `i`
  holds runs of `i + 1` cells -/
  bins : Vector Nat binCount
  /-- the longer runs, ascending -/
  oversized : List PackedRun
  /-- no free run starts below this cell -/
  hint : Nat

namespace FreeRuns

/-- No run, with a given hint. -/
def empty (hint : Nat) : FreeRuns := ⟨Vector.replicate binCount 0, [], hint⟩

/-- Lets the hint fall to `cell`. -/
def lowerHint (runs : FreeRuns) (cell : Nat) : FreeRuns :=
  { runs with hint := min runs.hint cell }

/-- Whether no run is listed. -/
def isEmpty (runs : FreeRuns) : Bool :=
  runs.bins.all (· == 0) && runs.oversized.isEmpty

/-- The head of the run pushed last into the bin at `i`. -/
def bin (runs : FreeRuns) (i : Nat) : Nat := runs.bins.toArray.getD i 0

/-- Lists the run of `cells` cells that starts at `head`. -/
def push (runs : FreeRuns) (links : Links) (head cells : Nat) :
    Except Fault (FreeRuns × Links) := do
  require (0 < cells) .emptyRun
  if cells ≤ binCount then
    let links ← links.store head (runs.bin (cells - 1))
    return ({ runs with bins := runs.bins.setIfInBounds (cells - 1) head }.lowerHint head, links)
  else
    let oversized := PackedRun.insert (.pack head cells) runs.oversized
    return ({ runs with oversized }.lowerHint head, links)

/-- The first of the `n` bins from the one at `i` on that is not empty. -/
def firstBin (runs : FreeRuns) (i : Nat) : Nat → Option Nat
  | 0 => none
  | n + 1 => if runs.bin i != 0 then some i else firstBin runs (i + 1) n

/-- Removes the shortest run of at least `cells` cells: its head and length. Of
equally long runs, the bins give the one pushed last and the packed runs the one
with the lowest head. -/
def take (runs : FreeRuns) (links : Links) (cells : Nat) :
    Except Fault (Option (Nat × Nat) × FreeRuns) := do
  require (0 < cells) .emptyRun
  match runs.firstBin (cells - 1) (binCount + 1 - cells) with
  | some i =>
    let head := runs.bin i
    let next ← links.next head
    return (some (head, i + 1), { runs with bins := runs.bins.setIfInBounds i next })
  | none =>
    match PackedRun.takeFit cells runs.oversized with
    | some (run, oversized) => return (some (run.head, run.cells), { runs with oversized })
    | none => return (none, runs)

end FreeRuns

end Tricolor
