import Tricolor.Fault

/-!
# Layout of the heap

Memory is handed out in pages of one mebibyte, aligned to their size. A page is
either an *arena*, cut into cells of sixteen bytes, or the start of a *huge
block*. The first cells of an arena hold its two bitmaps, so an object in an
arena never starts at offset 0, and a reference whose offset is 0 is a huge
block.

Sizes are rounded up to whole cells by `cellsFor`; an object is an eight-byte
header followed by its payload.
-/

namespace Tricolor

/-- Bytes in a page, and so in an arena. -/
def pageBytes : Nat := 0x100000

/-- The bits of an address that give the offset in its page. -/
def pageMask : Nat := pageBytes - 1

/-- Bytes in a cell, the unit of allocation in an arena. -/
def cellBytes : Nat := 16

/-- Cells in an arena, its bitmaps included. -/
def arenaCells : Nat := pageBytes / cellBytes

/-- Words of 64 bits in one bitmap of an arena: one bit for each cell. -/
def bitmapWords : Nat := arenaCells / 64

/-- The first cell that can hold an object. Lower cells hold the two bitmaps. -/
def firstCell : Nat := 2 * (bitmapWords * 8) / cellBytes

/-- Cells of an arena that can hold objects. -/
def usableCells : Nat := arenaCells - firstCell

/-- Bytes of the header that starts every object. -/
def headerBytes : Nat := 8

/-- The whole cells that `size` bytes occupy, provided there is room for one more cell
behind them. -/
def cellsFor (size : Nat) : Except Fault Nat := do
  let padded ← checkedAdd wordRange size cellBytes
  return (padded - 1) / cellBytes

/-- The bytes that an object with a payload of `size` bytes occupies. -/
def objectBytes (size : Nat) : Except Fault Nat := do
  let unrounded ← checkedAdd wordRange headerBytes size
  let cells ← cellsFor unrounded
  checkedMul wordRange cells cellBytes

/-- The number of a page: its address divided by the page size. -/
abbrev Page := Nat

/-- The page `n` mebibytes above address 0, in an address space of 64 bits. -/
def pageAt (n : Nat) : Page := n % (wordRange / pageBytes)

/-- The address of an object: a page and a cell in it. Cell 0 stands for the
huge block that starts at the page. -/
structure Ref where
  /-- the page that holds the object -/
  page : Page
  /-- the head cell of the object, 0 for a huge block -/
  cell : Nat
  deriving DecidableEq, Repr, Inhabited, Hashable

namespace Ref

/-- The reference to the huge block at `page`. -/
def huge (page : Page) : Ref := ⟨page, 0⟩

/-- A reference to the start of a page is a huge block. -/
def isHuge (r : Ref) : Bool := r.cell == 0

/-- The byte address of the object's header. -/
def address (r : Ref) : Nat := r.page * pageBytes + r.cell * cellBytes

end Ref

end Tricolor
