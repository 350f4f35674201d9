import Tricolor.Heap

/-!
# Write barriers

While the collector is marking, storing a reference to a white object into a black one
would hide the white object. A barrier restores the invariant, either by recording the
referent in the store buffer or by turning the writer grey again. While a sweep is
pending, a barrier saves the referent from it.
-/

namespace Tricolor

namespace Heap

/-- Whether a sweep is pending. -/
def isSweeping (h : Heap) : Bool := h.phase = .sweepStrings || h.phase = .sweep

/-- Marks every recorded object. -/
def drainStores (h : Heap) : Except Fault Heap := do
  let entries := h.stores.entries
  let space ← entries.foldlM
    (fun space r => do if ← space.isMarked r then return space else space.mark r) h.space
  return { h with space, stores := h.stores.clear }

/-- Records an object, and drains the store buffer when that fills it. -/
def record (h : Heap) (r : Ref) : Except Fault Heap :=
  let h := { h with stores := h.stores.push r }
  if h.stores.isFull then h.drainStores else return h

/-- Whether a store of `referent` into `writer` needs a barrier: only if a marked object
would refer to an unmarked one. -/
def hidesReferent (h : Heap) (writer referent : Ref) : Except Fault Bool := do
  if ← h.space.isMarked writer then return !(← h.space.isMarked referent)
  else return false

/-- Saves an object from a pending sweep. -/
def saveFromSweep (h : Heap) (r : Ref) : Except Fault Heap := do
  if h.isSweeping then
    if ← h.space.needsSweep r then return { h with space := ← h.space.setMark r }
    else return h
  else
    return h

/-- To be called after `referent` was stored into `writer`: the referent is recorded. -/
def barrierForward (h : Heap) (writer referent : Ref) : Except Fault Heap := do
  if ← h.hidesReferent writer referent then
    if h.isMarking then h.record referent else h.saveFromSweep referent
  else
    return h

/-- To be called after any reference was stored into the aggregate `container`: a black
container is turned grey again and recorded, so that further stores cost nothing until
it has been traversed again. -/
def barrierBack (h : Heap) (container : Ref) : Except Fault Heap := do
  if h.isMarking then
    if ← h.space.isMarked container then
      let space ← h.space.clearMark container
      Heap.record { h with space } container
    else
      return h
  else
    return h

/-- To be called after `referent` was stored into the single slot of `writer`: the
referent is marked at once. -/
def barrierSlot (h : Heap) (writer referent : Ref) : Except Fault Heap := do
  if ← h.hidesReferent writer referent then
    if h.isMarking then return { h with space := ← h.space.mark referent }
    else h.saveFromSweep referent
  else
    return h

end Heap

end Tricolor
