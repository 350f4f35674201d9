import Mathlib.Logic.Relation
import Tricolor.Proofs.Cycle.Run

/-!
# Calls of a program

What a program can ask of its heap in one call: an operation on the heap, a single step, a
step, a step if one is due, or a full collection. If its finalizers only operate on the heap,
every call leads from a reachable machine to a reachable one, so whatever holds of all
reachable machines holds after every call, and at every step inside it.

`Ends` says how the loop over single steps comes out, which answers if it may take enough of them.
-/

namespace Tricolor

namespace Machine

variable {σ : Type} {mu : Mutator σ} {allowed : Heap.Resizings} {config : Config}
  {hashOf : List UInt8 → Hash} {m m' : Machine σ}

/-- The finalizers of a program do nothing to the heap but operate on it. -/
def FinalizersOperate (mu : Mutator σ) (allowed : Heap.Resizings) (config : Config)
    (hashOf : List UInt8 → Hash) : Prop :=
  ∀ ⦃program program' : σ⦄ ⦃h h' : Heap⦄ ⦃r : Ref⦄ ⦃result : Except String Unit⦄,
    Reachable mu allowed config hashOf ⟨program, h⟩ →
    mu.runFinalizer program h r = .ok (result, program', h') →
    Relation.ReflTransGen (Heap.Operation allowed) h h'

/-- One call of a program. -/
inductive Call (mu : Mutator σ) (allowed : Heap.Resizings) (m : Machine σ) : Machine σ → Prop where
  | operate {h : Heap} (program : σ) : Heap.Operation allowed m.heap h → Call mu allowed m { program, heap := h }
  | singleStep {result : Except CollectError Nat} {m' : Machine σ} :
      m.singleStep mu = .ok (result, m') → Call mu allowed m m'
  | step {fuel : Nat} {result : Except CollectError Nat} {m' : Machine σ} :
      m.step mu fuel = .ok (result, m') → Call mu allowed m m'
  | checkStep {fuel : Nat} {result : Except CollectError Bool} {m' : Machine σ} :
      m.checkStep mu fuel = .ok (result, m') → Call mu allowed m m'
  | fullCollect {fuel : Nat} {result : Except CollectError Unit} {m' : Machine σ} :
      m.fullCollect mu fuel = .ok (result, m') → Call mu allowed m m'

/-- Operations lead from reachable machines to reachable ones. -/
theorem Reachable.operates {program : σ} {h h' : Heap}
    (hm : Reachable mu allowed config hashOf ⟨program, h⟩)
    (hops : Relation.ReflTransGen (Heap.Operation allowed) h h') :
    Reachable mu allowed config hashOf ⟨program, h'⟩ := by
  induction hops with
  | refl => exact hm
  | tail _ hop ih => exact ih.step (.operate hop)

theorem FinalizersOperate.behaved (hmu : FinalizersOperate mu allowed config hashOf) :
    Behaved mu allowed config hashOf := fun {_ program' _ _ _ _} hm hrun =>
  (hm.operates (hmu hm hrun)).step (.compute program')

/-- A call leads from a reachable machine to a reachable one. -/
theorem Behaved.call (hmu : Behaved mu allowed config hashOf) (hm : Reachable mu allowed config hashOf m)
    (hcall : Call mu allowed m m') : Reachable mu allowed config hashOf m' := by
  have hkept := (Behaved.kept hmu).stepwise
  cases hcall with
  | operate program hop => exact (hm.step (.operate hop)).step (.compute program)
  | singleStep hrun => exact hkept.singleStep hm hrun
  | step hrun => exact hkept.step hm hrun
  | checkStep hrun => exact hkept.checkStep hm hrun
  | fullCollect hrun => exact hkept.fullCollect hm hrun

theorem Reachable.call (hmu : FinalizersOperate mu allowed config hashOf)
    (hm : Reachable mu allowed config hashOf m) (hcall : Call mu allowed m m') :
    Reachable mu allowed config hashOf m' :=
  Behaved.call (FinalizersOperate.behaved hmu) hm hcall

/-- Performs `n` single steps. -/
def singleSteps (mu : Mutator σ) (m : Machine σ) : Nat → Except Fault (Machine σ)
  | 0 => return m
  | n + 1 => do
    let (_, m) ← m.singleStep mu
    m.singleSteps mu n

theorem Reachable.singleSteps (hmu : FinalizersOperate mu allowed config hashOf) :
    ∀ {n : Nat} {m m' : Machine σ}, Reachable mu allowed config hashOf m →
      m.singleSteps mu n = .ok m' → Reachable mu allowed config hashOf m'
  | 0, _, _, hm, hrun => by
    cases hrun
    exact hm
  | n + 1, _, _, hm, hrun => by
    obtain ⟨⟨result, m₁⟩, hsingle, hrun⟩ := bind_eq_ok_iff.1 hrun
    exact (hm.call hmu (.singleStep hsingle)).singleSteps hmu hrun

/-- Single steps lead from a machine to the end of the cycle in progress, or to a step that fails. -/
inductive Ends (mu : Mutator σ) : Machine σ → Except CollectError Unit → Machine σ → Prop where
  | pause {m : Machine σ} : m.heap.phase = .pause → Ends mu m (.ok ()) m
  | failed {m m' : Machine σ} {error : CollectError} : m.heap.phase ≠ .pause →
      m.singleStep mu = .ok (.error error, m') → Ends mu m (.error error) m'
  | step {m m₁ m' : Machine σ} {cost : Nat} {result : Except CollectError Unit} : m.heap.phase ≠ .pause →
      m.singleStep mu = .ok (.ok cost, m₁) → Ends mu m₁ result m' → Ends mu m result m'

/-- The loop over the steps answers, given enough fuel. -/
theorem Ends.finishCycle {result : Except CollectError Unit} (h : Ends mu m result m') :
    ∃ n, ∀ fuel, n ≤ fuel → m.finishCycle mu fuel = .ok (result, m') := by
  induction h with
  | pause hp =>
    refine ⟨1, fun fuel hfuel => ?_⟩
    obtain ⟨k, rfl⟩ := Nat.exists_eq_add_of_le' hfuel
    rw [Machine.finishCycle, if_pos hp]
    rfl
  | failed hp hrun =>
    refine ⟨1, fun fuel hfuel => ?_⟩
    obtain ⟨k, rfl⟩ := Nat.exists_eq_add_of_le' hfuel
    rw [Machine.finishCycle, if_neg hp]
    exact bind_eq_ok_iff.2 ⟨_, hrun, rfl⟩
  | step hp hrun _ ih =>
    obtain ⟨n, hn⟩ := ih
    refine ⟨n + 1, fun fuel hfuel => ?_⟩
    obtain ⟨k, rfl⟩ := Nat.exists_eq_add_of_le' hfuel
    rw [← Nat.add_assoc, Machine.finishCycle, if_neg hp]
    exact bind_eq_ok_iff.2 ⟨_, hrun, hn (k + n) (Nat.le_add_left _ _)⟩

end Machine

end Tricolor
