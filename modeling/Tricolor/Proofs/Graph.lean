import Mathlib.Logic.Relation
import Tricolor.Collector
import Tricolor.Proofs.Space.Traversal

/-!
# The references of a program

A program and its heap make a graph: the roots, and for every object what it refers to.
`Mutator.graph` is what a program would report if it was asked now. A reference is *strong*
unless it stands on a weak side of a table; strings count as strong on weak sides too, since
they are marked there as well.

`Mutator.Faithful` is the contract of the queries: being asked changes nothing, leaves refer to
nothing, and clearing a weak table leaves no entry in it with a dead weak side.
-/

namespace Tricolor

/-- What a program refers to. -/
@[ext] structure Graph where
  /-- the roots -/
  root : Ref → Prop
  /-- what an object of a kind refers to -/
  refers : Ref → Kind → Visit → Prop
  /-- the weak modes of the tables -/
  weakMode : Ref → WeakMode

namespace Graph

variable {g g' : Graph} {s s' : Space} {r t : Ref} {v : Visit}

/-- The weak mode under which an object of a kind is traversed. -/
def mode (g : Graph) (r : Ref) (kind : Kind) : WeakMode :=
  if kind = .table then g.weakMode r else .none

/-- An allocated object refers to another, on whichever side. -/
def Edge (g : Graph) (s : Space) (r : Ref) (v : Visit) : Prop :=
  ∃ e, (s.slot r).entity? = some e ∧ g.refers r e.header.kind v

/-- A reference of an object of a kind that keeps its referent alive. -/
def Holds (g : Graph) (s : Space) (r : Ref) (kind : Kind) (v : Visit) : Prop :=
  v.isWeak (g.mode r kind) = false ∨ s.isString v.target = true

/-- An allocated object refers to another one and keeps it alive. -/
def Strong (g : Graph) (s : Space) (r : Ref) (v : Visit) : Prop :=
  ∃ e, (s.slot r).entity? = some e ∧ g.refers r e.header.kind v ∧ g.Holds s r e.header.kind v

/-- The objects that are reached from some over strong references. -/
inductive Reaches (g : Graph) (s : Space) (start : Ref → Prop) : Ref → Prop where
  | start {r : Ref} : start r → Reaches g s start r
  | step {r : Ref} {v : Visit} : Reaches g s start r → g.Strong s r v → Reaches g s start v.target

theorem Strong.edge (h : g.Strong s r v) : g.Edge s r v := by
  obtain ⟨e, he, hv, -⟩ := h
  exact ⟨e, he, hv⟩

/-- A set that has the starting points and is closed under strong references has all that is
reached. -/
theorem Reaches.subset {start P : Ref → Prop} (hr : g.Reaches s start r) (hstart : ∀ r, start r → P r)
    (hstep : ∀ r v, P r → g.Strong s r v → P v.target) : P r := by
  induction hr with
  | start hr => exact hstart _ hr
  | step _ hv ih => exact hstep _ _ ih hv

/-- What is reached from what is reached is reached. -/
theorem Reaches.trans {start start' : Ref → Prop} (hr : g.Reaches s start r)
    (hstart : ∀ r, start r → g.Reaches s start' r) : g.Reaches s start' r :=
  hr.subset hstart fun _ _ hr hv => hr.step hv

/-- What clearing the weak table `t` makes of a graph: entries of `t` are dropped, and no entry
is left in it with a dead weak side. -/
structure Cleared (g : Graph) (t : Ref) (isDead : Ref → Except Fault Bool) (g' : Graph) : Prop where
  root : g'.root = g.root
  weakMode : g'.weakMode = g.weakMode
  others : ∀ r, r ≠ t → g'.refers r = g.refers r
  fewer : ∀ {kind v}, g'.refers t kind v → g.refers t kind v
  alive : ∀ {v}, g'.refers t .table v → v.isWeak (g.weakMode t) = true → isDead v.target = .ok false

end Graph

namespace Mutator

variable {σ : Type} {mu : Mutator σ}

/-- What a program refers to: what it would report if it was asked. -/
def graph (mu : Mutator σ) (program : σ) : Graph where
  root r := r ∈ (mu.roots program).1
  refers r kind v := v ∈
    (mu.visits program r kind (if kind = .table then mu.weakMode program r else .none)).1
  weakMode := mu.weakMode program

/-- The contract of the queries that a heap makes to its program. -/
structure Faithful (mu : Mutator σ) : Prop where
  roots : ∀ program, mu.graph (mu.roots program).2 = mu.graph program
  visits : ∀ program r kind mode, mu.graph (mu.visits program r kind mode).2 = mu.graph program
  suspendHooks : ∀ program suspended, mu.graph (mu.suspendHooks program suspended) = mu.graph program
  leaf : ∀ {program r kind v}, (mu.graph program).refers r kind v → kind.isLeaf = false
  clearWeak : ∀ {program t isDead program'}, mu.clearWeak program t isDead = .ok program' →
    (mu.graph program).Cleared t isDead (mu.graph program')

/-- The program has answered some queries. -/
inductive Asks (mu : Mutator σ) (program : σ) : σ → Prop where
  | refl : Asks mu program program
  | roots {p : σ} : Asks mu program p → Asks mu program (mu.roots p).2
  | visits {p : σ} (r : Ref) (kind : Kind) (mode : WeakMode) : Asks mu program p →
      Asks mu program (mu.visits p r kind mode).2

theorem Asks.trans {p q r : σ} (h : mu.Asks p q) (h' : mu.Asks q r) : mu.Asks p r := by
  induction h' with
  | refl => exact h
  | roots _ ih => exact ih.roots
  | visits r kind mode _ ih => exact ih.visits r kind mode

/-- Queries leave a faithful program its references. -/
theorem Asks.graph (hmu : mu.Faithful) {p q : σ} (h : mu.Asks p q) : mu.graph q = mu.graph p := by
  induction h with
  | refl => rfl
  | roots _ ih => exact (hmu.roots _).trans ih
  | visits r kind mode _ ih => exact (hmu.visits _ r kind mode).trans ih

end Mutator

end Tricolor
