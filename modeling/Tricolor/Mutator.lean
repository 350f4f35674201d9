import Tricolor.Heap

/-!
# Mutators

The program whose objects a heap manages. A heap knows the kinds, sizes and liveness
of objects; everything else it asks of the mutator: where its roots are, which
references an object holds, whether a finalizer still has to run. The mutator has a
state of its own, of type `σ`, which its answers may change.

References are reported as a list of visits, which are marked in order.
-/

namespace Tricolor

/-- A program that uses a heap, with a state of type `σ`. -/
structure Mutator (σ : Type) where
  /-- the roots: stacks, registries, globals -/
  roots : σ → List Ref × σ
  /-- the references held by an object, traversed under a weak mode -/
  visits : σ → Ref → Kind → WeakMode → List Visit × σ
  /-- the cost of traversing an object, charged against the step budget -/
  cost : σ → Ref → Kind → Nat
  /-- whether an unreachable registered object still needs its finalizer to run -/
  isFinalizable : σ → Ref → Bool
  /-- the weak mode of a table -/
  weakMode : σ → Ref → WeakMode
  /-- removes the entries of a weak table whose weak key or value is dead -/
  clearWeak : σ → Ref → (Ref → Except Fault Bool) → Except Fault σ
  /-- suspends or resumes hooks and trace recording around finalizers -/
  suspendHooks : σ → Bool → σ
  /-- runs the finalizer of an object, which stays valid meanwhile and may be made
  reachable again; an error is handed on by the step that ran the finalizer -/
  runFinalizer : σ → Heap → Ref → Except Fault (Except String Unit × σ × Heap)

/-- A mutator with its state and its heap. -/
structure Machine (σ : Type) where
  /-- the state of the mutator -/
  program : σ
  /-- its heap -/
  heap : Heap

end Tricolor
