import Mathlib.Logic.Relation
import Tricolor.Proofs.Cycle.Run

/-!
# What the steps of a cycle depend on

Marking asks a program for its roots, for what its objects refer to, for the cost of that and for the
modes of its tables; sweeping asks it nothing. Neither asks whether a trace is active. So until the atomic
step, and from the sweep to the finalizers, a cycle takes the same steps with a trace as without one, and
for all programs that answer the questions of the marking alike.
-/

namespace Tricolor

/-- The phases in which a cycle goes on during a trace. -/
def Phase.IsOpen (p : Phase) : Prop := p ≠ .atomic ∧ p ≠ .finalize

instance (p : Phase) : Decidable p.IsOpen := inferInstanceAs (Decidable (_ ∧ _))

/-- What an open step can lead to: it stays in its phase, or goes on to the next one. -/
inductive Phase.Opens : Phase → Phase → Prop where
  | begins : Opens .pause .propagate
  | marked : Opens .propagate .atomic
  | sweptStrings : Opens .sweepStrings .sweep
  | swept : Opens .sweep .finalize

/-- No phase is left in which a trace holds a cycle up. -/
theorem Phase.eq_of_opens {p q : Phase} (hp : ¬ p.IsOpen) (h : Relation.ReflTransGen Phase.Opens p q) : q = p := by
  induction h with
  | refl => rfl
  | tail _ hopens ih =>
    subst ih
    cases hopens <;> exact absurd (by decide) hp

theorem Phase.ne_pause_of_opens {p q : Phase} (hp : p ≠ .pause) (h : Relation.ReflTransGen Phase.Opens p q) :
    q ≠ .pause := by
  cases h with
  | refl => exact hp
  | tail _ hopens => cases hopens <;> exact Phase.noConfusion

/-- Two programs answer alike what they are asked during marking. What they do when weak tables are cleared
and finalizers are selected or run is up to each of them. -/
structure Mutator.MarksAlike {σ : Type} (mu mu' : Mutator σ) : Prop where
  roots : mu'.roots = mu.roots
  visits : mu'.visits = mu.visits
  cost : mu'.cost = mu.cost
  weakMode : mu'.weakMode = mu.weakMode

namespace Heap

variable {h h' : Heap} {cost : Nat} (active : Bool)

theorem setTraceActive_ite {p : Prop} [Decidable p] (strings : InternTable Ref) (space : Space) (c c' : Cycle) :
    ({ h with strings, space, cycle := if p then c else c' } : Heap).setTraceActive active =
      { h with
        strings
        space
        cycle := if p then { c with traceActive := active } else { c' with traceActive := active } } := by
  split
  · rfl
  · rfl

theorem drainStores_setTraceActive (hrun : h.drainStores = .ok h') :
    (h.setTraceActive active).drainStores = .ok (h'.setTraceActive active) := by
  obtain ⟨s, hmark, hret⟩ := bind_eq_ok_iff.1 hrun
  cases hret
  exact bind_eq_ok_iff.2 ⟨s, hmark, rfl⟩

theorem drainIfAny_setTraceActive (hrun : h.drainIfAny = .ok h') :
    (h.setTraceActive active).drainIfAny = .ok (h'.setTraceActive active) := by
  rw [drainIfAny] at hrun ⊢
  split at hrun
  · next hempty =>
    cases hrun
    exact if_pos hempty
  · next hempty =>
    exact (if_neg hempty).trans (drainStores_setTraceActive active hrun)

theorem sweepStringsStep_setTraceActive (hrun : h.sweepStringsStep = .ok (cost, h')) :
    (h.setTraceActive active).sweepStringsStep = .ok (cost, h'.setTraceActive active) := by
  rw [sweepStringsStep] at hrun ⊢
  obtain ⟨answers, hanswers, hrun⟩ := bind_eq_ok_iff.1 hrun
  obtain ⟨cost', hcost, hret⟩ := bind_eq_ok_iff.1 hrun
  refine bind_eq_ok_iff.2 ⟨answers, hanswers, bind_eq_ok_iff.2 ⟨cost', hcost, ?_⟩⟩
  cases hret
  refine congrArg (fun h' => Except.ok (cost, h')) ?_
  rw [setTraceActive_ite]
  rfl

theorem sweepStep_setTraceActive (hrun : h.sweepStep = .ok (cost, h')) :
    (h.setTraceActive active).sweepStep = .ok (cost, h'.setTraceActive active) := by
  have hcursor : (h.setTraceActive active).cycle.sweepCursor = h.cycle.sweepCursor := rfl
  have hspace : (h.setTraceActive active).space = h.space := rfl
  rw [sweepStep] at hrun ⊢
  simp only [hcursor, hspace]
  cases hcase : h.cycle.sweepCursor with
  | current =>
    simp only [hcase] at hrun
    cases hcurrent : h.space.current with
    | none =>
      simp only [hcurrent] at hrun
      cases hrun
      rfl
    | some index =>
      simp only [hcurrent] at hrun
      obtain ⟨s, hsweep, hret⟩ := bind_eq_ok_iff.1 hrun
      cases hret
      exact bind_eq_ok_iff.2 ⟨s, hsweep, rfl⟩
  | huge =>
    simp only [hcase] at hrun
    obtain ⟨p, hsweep, hret⟩ := bind_eq_ok_iff.1 hrun
    cases hret
    exact bind_eq_ok_iff.2 ⟨p, hsweep, rfl⟩
  | arenas start =>
    simp only [hcase] at hrun
    cases hnext : h.space.nextUnswept start with
    | none =>
      simp only [hnext] at hrun ⊢
      cases hrun
      rfl
    | some index =>
      simp only [hnext] at hrun ⊢
      obtain ⟨p, hsweep, hret⟩ := bind_eq_ok_iff.1 hrun
      cases hret
      exact bind_eq_ok_iff.2 ⟨p, hsweep, rfl⟩

theorem phase_drainIfAny (hrun : h.drainIfAny = .ok h') : h'.phase = h.phase := by
  rw [drainIfAny] at hrun
  split at hrun
  · cases hrun
    rfl
  · obtain ⟨s, -, hret⟩ := bind_eq_ok_iff.1 hrun
    cases hret
    rfl

theorem phase_sweepStringsStep (hrun : h.sweepStringsStep = .ok (cost, h')) :
    h'.phase = .sweep ∨ h'.phase = h.phase := by
  rw [sweepStringsStep_eq_ok hrun, sweptStrings, phase]
  simp only
  split
  · exact .inl rfl
  · exact .inr rfl

theorem phase_sweepStep (hrun : h.sweepStep = .ok (cost, h')) : h'.phase = .finalize ∨ h'.phase = h.phase := by
  rw [sweepStep] at hrun
  split at hrun
  · split at hrun
    · obtain ⟨s, -, hret⟩ := bind_eq_ok_iff.1 hrun
      cases hret
      exact .inr rfl
    · cases hrun
      exact .inr rfl
  · obtain ⟨⟨freed, s⟩, -, hret⟩ := bind_eq_ok_iff.1 hrun
    cases hret
    exact .inr rfl
  · split at hrun
    · obtain ⟨⟨freed, s⟩, -, hret⟩ := bind_eq_ok_iff.1 hrun
      cases hret
      exact .inr rfl
    · cases hrun
      exact .inl rfl

end Heap

namespace Machine

variable {σ : Type} {mu mu' : Mutator σ} {m m' : Machine σ} {cost : Nat}

/-- A trace is active from now on, or not any longer. -/
def setTraceActive (m : Machine σ) (active : Bool) : Machine σ :=
  { m with heap := m.heap.setTraceActive active }

variable (active : Bool)

theorem markRoots_alike (hmu : mu.MarksAlike mu') (hrun : m.markRoots mu = .ok m') :
    (m.setTraceActive active).markRoots mu' = .ok (m'.setTraceActive active) := by
  rw [markRoots, hmu.roots]
  obtain ⟨s₁, hroots, hrun⟩ := bind_eq_ok_iff.1 hrun
  obtain ⟨s₂, hfixed, hret⟩ := bind_eq_ok_iff.1 hrun
  cases hret
  exact bind_eq_ok_iff.2 ⟨s₁, hroots, bind_eq_ok_iff.2 ⟨s₂, hfixed, rfl⟩⟩

theorem startCycle_alike (hmu : mu.MarksAlike mu') (hrun : m.startCycle mu = .ok m') :
    (m.setTraceActive active).startCycle mu' = .ok (m'.setTraceActive active) := by
  obtain ⟨m₁, hroots, hret⟩ := bind_eq_ok_iff.1 hrun
  cases hret
  exact bind_eq_ok_iff.2 ⟨_, markRoots_alike active hmu hroots, rfl⟩

theorem traverse_alike (hmu : mu.MarksAlike mu') {r : Ref} (hrun : m.traverse mu r = .ok (cost, m')) :
    (m.setTraceActive active).traverse mu' r = .ok (cost, m'.setTraceActive active) := by
  rw [traverse, hmu.visits, hmu.cost, hmu.weakMode]
  obtain ⟨header, hheader, hrun⟩ := bind_eq_ok_iff.1 hrun
  obtain ⟨s, hvisit, hret⟩ := bind_eq_ok_iff.1 hrun
  refine bind_eq_ok_iff.2 ⟨header, hheader, bind_eq_ok_iff.2 ⟨s, hvisit, ?_⟩⟩
  cases hret
  exact congrArg (fun h => Except.ok (mu.cost _ r header.kind, (⟨_, h⟩ : Machine σ)))
    (Heap.setTraceActive_ite active m.heap.strings s m.heap.cycle
      { m.heap.cycle with weakTables := r :: m.heap.cycle.weakTables }).symm

theorem traverseBatch_alike (hmu : mu.MarksAlike mu') {source : GreySource} :
    ∀ {n cost done : Nat} {m m' : Machine σ}, m.traverseBatch mu source done n = .ok (cost, m') →
      (m.setTraceActive active).traverseBatch mu' source done n = .ok (cost, m'.setTraceActive active) := by
  intro n
  induction n with
  | zero =>
    intro cost done m m' hrun
    cases hrun
    rfl
  | succ n ih =>
    intro cost done m m' hrun
    rw [traverseBatch] at hrun ⊢
    obtain ⟨⟨r?, s⟩, hpop, hrun⟩ := bind_eq_ok_iff.1 hrun
    refine bind_eq_ok_iff.2 ⟨(r?, s), hpop, ?_⟩
    cases r? with
    | none =>
      cases hrun
      rfl
    | some r =>
      obtain ⟨⟨more, m₁⟩, htraverse, hrun⟩ := bind_eq_ok_iff.1 hrun
      exact bind_eq_ok_iff.2 ⟨_, traverse_alike active hmu htraverse, ih hrun⟩

theorem propagateStep_alike (hmu : mu.MarksAlike mu') (hrun : m.propagateStep mu = .ok (cost, m')) :
    (m.setTraceActive active).propagateStep mu' = .ok (cost, m'.setTraceActive active) := by
  rw [propagateStep] at hrun ⊢
  obtain ⟨h, hdrain, hrun⟩ := bind_eq_ok_iff.1 hrun
  refine bind_eq_ok_iff.2 ⟨_, Heap.drainIfAny_setTraceActive active hdrain, ?_⟩
  have hspace : (h.setTraceActive active).space = h.space := rfl
  simp only [hspace]
  cases hdeepest : h.space.deepestGrey with
  | none =>
    simp only [hdeepest] at hrun
    cases hrun
    rfl
  | some source =>
    simp only [hdeepest] at hrun
    exact traverseBatch_alike active hmu hrun

/-! ## Open steps -/

/-- A single step of an open phase. -/
inductive OpenStep (mu : Mutator σ) (m : Machine σ) : Nat → Machine σ → Prop where
  | started {m' : Machine σ} : m.heap.phase = .pause → m.startCycle mu = .ok m' → OpenStep mu m 0 m'
  | propagated {cost : Nat} {m' : Machine σ} : m.heap.phase = .propagate →
      m.propagateStep mu = .ok (cost, m') → OpenStep mu m cost m'
  | sweptStrings {cost : Nat} {h : Heap} : m.heap.phase = .sweepStrings →
      m.heap.sweepStringsStep = .ok (cost, h) → OpenStep mu m cost { m with heap := h }
  | swept {cost : Nat} {h : Heap} : m.heap.phase = .sweep → m.heap.sweepStep = .ok (cost, h) →
      OpenStep mu m cost { m with heap := h }

theorem isBlocked_iff : m.isBlocked = true ↔ m.heap.cycle.traceActive = true ∧ ¬ m.heap.phase.IsOpen := by
  rw [isBlocked, Phase.IsOpen]
  cases m.heap.phase <;> simp

/-- In an open phase, single steps are open steps. -/
theorem singleStep_eq_ok_iff (hopen : m.heap.phase.IsOpen) {result : Except CollectError Nat} :
    m.singleStep mu = .ok (result, m') ↔ ∃ cost, result = .ok cost ∧ OpenStep mu m cost m' := by
  have hfree : ¬ m.isBlocked = true := fun hblocked => (isBlocked_iff.1 hblocked).2 hopen
  constructor
  · intro hrun
    rw [singleStep, if_neg hfree] at hrun
    cases hp : m.heap.phase with
    | pause =>
      simp only [hp] at hrun
      obtain ⟨m₁, hstart, hret⟩ := bind_eq_ok_iff.1 hrun
      cases hret
      exact ⟨0, rfl, .started hp hstart⟩
    | propagate =>
      simp only [hp] at hrun
      obtain ⟨cost, rfl, hstep⟩ := succeed_eq_ok hrun
      exact ⟨cost, rfl, .propagated hp hstep⟩
    | sweepStrings =>
      simp only [hp] at hrun
      obtain ⟨⟨cost, h⟩, hstep, hret⟩ := bind_eq_ok_iff.1 hrun
      cases hret
      exact ⟨cost, rfl, .sweptStrings hp hstep⟩
    | sweep =>
      simp only [hp] at hrun
      obtain ⟨⟨cost, h⟩, hstep, hret⟩ := bind_eq_ok_iff.1 hrun
      cases hret
      exact ⟨cost, rfl, .swept hp hstep⟩
    | atomic => exact absurd hp hopen.1
    | finalize => exact absurd hp hopen.2
  · rintro ⟨cost, rfl, hstep⟩
    rw [singleStep, if_neg hfree]
    cases hstep with
    | started hp hstart =>
      simp only [hp]
      exact bind_eq_ok_iff.2 ⟨_, hstart, rfl⟩
    | propagated hp hstep =>
      simp only [hp, hstep]
      rfl
    | sweptStrings hp hstep =>
      simp only [hp]
      exact bind_eq_ok_iff.2 ⟨_, hstep, rfl⟩
    | swept hp hstep =>
      simp only [hp]
      exact bind_eq_ok_iff.2 ⟨_, hstep, rfl⟩

/-- An open step is the same with and without a trace, and asks only what is asked during marking. -/
theorem OpenStep.alike (hmu : mu.MarksAlike mu') (hstep : OpenStep mu m cost m') :
    OpenStep mu' (m.setTraceActive active) cost (m'.setTraceActive active) := by
  cases hstep with
  | started hp hstart => exact .started hp (startCycle_alike active hmu hstart)
  | propagated hp hstep => exact .propagated hp (propagateStep_alike active hmu hstep)
  | sweptStrings hp hstep => exact .sweptStrings hp (Heap.sweepStringsStep_setTraceActive active hstep)
  | swept hp hstep => exact .swept hp (Heap.sweepStep_setTraceActive active hstep)

theorem OpenStep.isOpen (hstep : OpenStep mu m cost m') : m.heap.phase.IsOpen := by
  cases hstep with
  | started hp | propagated hp | sweptStrings hp | swept hp => rw [hp]; decide

theorem OpenStep.run (hstep : OpenStep mu m cost m') : m.singleStep mu = .ok (.ok cost, m') :=
  (singleStep_eq_ok_iff hstep.isOpen).2 ⟨cost, rfl, hstep⟩

/-- Marking stays in its phase. -/
theorem stable_phase (p : Phase) : Stable mu fun m => m.heap.phase = p where
  drain hm hrun := (Heap.phase_drainIfAny hrun).trans hm
  exhaust hm _ := hm
  traverse {m m' source r s cost} hm _ hrun := by
    obtain ⟨header, -, hrun⟩ := bind_eq_ok_iff.1 hrun
    obtain ⟨s, -, hret⟩ := bind_eq_ok_iff.1 hrun
    cases hret
    have hcycle : ∀ mode : WeakMode, (if mode = .none then m.heap.cycle
        else { m.heap.cycle with weakTables := r :: m.heap.cycle.weakTables }).phase = p := by
      intro mode
      split
      · exact hm
      · exact hm
    exact hcycle _

theorem phase_propagateStep (hrun : m.propagateStep mu = .ok (cost, m')) :
    m'.heap.phase = .atomic ∨ m'.heap.phase = m.heap.phase := by
  cases propagateStep_eq_ok hrun with
  | ready => exact .inl rfl
  | @batch h _ _ _ hdrain _ hrun =>
    exact .inr ((stable_phase m.heap.phase).traverseBatch (m := ⟨m.program, h⟩) (Heap.phase_drainIfAny hdrain) hrun)

/-- An open step leads to the next phase at most. -/
theorem OpenStep.phase (hstep : OpenStep mu m cost m') :
    Relation.ReflTransGen Phase.Opens m.heap.phase m'.heap.phase := by
  cases hstep with
  | started hp hstart =>
    obtain ⟨m₁, -, hret⟩ := bind_eq_ok_iff.1 hstart
    cases hret
    rw [hp]
    exact .single .begins
  | propagated hp hrun =>
    rcases phase_propagateStep hrun with hphase | hphase
    · rw [hp, hphase]
      exact .single .marked
    · rw [hphase]
  | sweptStrings hp hrun =>
    rcases Heap.phase_sweepStringsStep hrun with hphase | hphase
    · rw [hp, show Heap.phase _ = _ from hphase]
      exact .single .sweptStrings
    · rw [show Heap.phase _ = _ from hphase]
  | swept hp hrun =>
    rcases Heap.phase_sweepStep hrun with hphase | hphase
    · rw [hp, show Heap.phase _ = _ from hphase]
      exact .single .swept
    · rw [show Heap.phase _ = _ from hphase]

theorem OpenStep.ne_pause (hstep : OpenStep mu m cost m') : m'.heap.phase ≠ .pause := by
  by_cases hp : m.heap.phase = .pause
  · cases hstep with
    | started _ hstart =>
      obtain ⟨m₁, -, hret⟩ := bind_eq_ok_iff.1 hstart
      cases hret
      exact Phase.noConfusion
    | propagated hq | sweptStrings hq | swept hq =>
      rw [hp] at hq
      cases hq
  · exact Phase.ne_pause_of_opens hp hstep.phase

end Machine

end Tricolor
