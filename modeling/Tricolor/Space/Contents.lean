import Tricolor.Space

/-!
# Contents of objects

The bytes of an object start with its header; the payload follows. Bytes are kept by
their offset in the page of the object, for arenas and for huge blocks alike.
-/

namespace Tricolor

/-- The offset of an object in its page. -/
def Ref.offset (r : Ref) : Nat := r.cell * cellBytes

/-- The offset of an object's payload in its page. -/
def Ref.payloadOffset (r : Ref) : Nat := r.offset + headerBytes

namespace Space

/-- The bytes of the page of `r`. -/
def bytesOf (s : Space) (r : Ref) : Except Fault (Zeroed UInt8) := do
  if r.isHuge then
    match s.contents[r.page]? with
    | some block => return block.bytes
    | none => throw (.foreignPage r.page)
  else
    return (← s.arenaOf r).bytes

/-- Applies `f` to the bytes of the page of `r`. -/
def modifyBytes (s : Space) (r : Ref) (f : Zeroed UInt8 → Zeroed UInt8) : Except Fault Space := do
  if r.isHuge then
    require (s.contents.contains r.page = true) (.foreignPage r.page)
    return { s with contents := s.contents.modify r.page fun b => { b with bytes := f b.bytes } }
  else
    s.modifyArenaOf r fun a => return { a with bytes := f a.bytes }

/-- The payload of an object. -/
def payload (s : Space) (r : Ref) : Except Fault (List UInt8) := do
  let size := (← s.header r).size
  return (← s.bytesOf r).read r.payloadOffset size

/-- Writes `bytes` into the payload of an object, from the byte at `start` on. -/
def writePayload (s : Space) (r : Ref) (start : Nat) (bytes : List UInt8) : Except Fault Space :=
  s.modifyBytes r (·.write (r.payloadOffset + start) bytes)

/-- Zeroes `count` bytes of the payload of an object, from the byte at `start` on. -/
def clearPayload (s : Space) (r : Ref) (start count : Nat) : Except Fault Space :=
  s.modifyBytes r (·.clear (r.payloadOffset + start) count)

/-- Zeroes the first `count` bytes of an object, its header included. -/
def clearObject (s : Space) (r : Ref) (count : Nat) : Except Fault Space :=
  s.modifyBytes r (·.clear r.offset count)

end Space

end Tricolor
