import Tricolor.Proofs.Cycle.OpenSteps
import Tricolor.Proofs.Cycle.Work
import Tricolor.Proofs.Integrity

/-!
# Pacing

When a cycle is complete, the next one is due once the live bytes have grown by the configured percentage.
A call that ends in a pause leaves the heap paced that way if its last step completed the cycle. But a
finalizer may run the collector and complete the cycle itself. The threshold that this set is then
overwritten: the step that ran the finalizer sets the threshold from before again.

Nothing is assumed of the program: a finalizer may return any heap.
-/

namespace Tricolor

/-- The next cycle is due as the end of the last one decided. -/
structure Heap.Paced (h : Heap) : Prop where
  estimate : h.cycle.estimate = h.space.total
  threshold : h.cycle.threshold = saturatingMul (h.cycle.estimate / 100) h.config.pause

theorem Heap.paced_enterPause (h : Heap) : h.enterPause.Paced := ⟨rfl, rfl⟩

namespace Machine

variable {σ : Type} {mu : Mutator σ} {m m' m₁ : Machine σ} {result : Except CollectError Nat}

/-- No finalizer is due, and the cycle is completed. -/
def Completes (m m' : Machine σ) : Prop :=
  ∃ s, m.heap.space.takePendingFinalizer = .ok (none, s) ∧
    m' = { m with heap := Heap.enterPause { m.heap with space := s } }

/-- A finalizer returns with no cycle in progress. The threshold is the one from before it. -/
def Overtakes (mu : Mutator σ) (m : Machine σ) (r : Ref) (m' : Machine σ) : Prop :=
  ∃ result program h, Runs mu m r result program h ∧ h.phase = .pause ∧
    m' = { program := mu.suspendHooks program false, heap := h.setThreshold m.heap.cycle.threshold }

theorem Completes.paced (h : Completes m m') : m'.heap.Paced := by
  obtain ⟨s, -, rfl⟩ := h
  exact Heap.paced_enterPause _

/-! ## The last step -/

theorem phase_atomicStep {cost : Nat} (hrun : m.atomicStep mu = .ok (cost, m')) :
    m'.heap.phase = .sweepStrings := by
  obtain ⟨h, -, hrun⟩ := bind_eq_ok_iff.1 hrun
  obtain ⟨m₁, -, hrun⟩ := bind_eq_ok_iff.1 hrun
  obtain ⟨⟨cost₁, m₂⟩, -, hrun⟩ := bind_eq_ok_iff.1 hrun
  obtain ⟨⟨cost₂, m₃⟩, -, hrun⟩ := bind_eq_ok_iff.1 hrun
  obtain ⟨_, -, hret⟩ := bind_eq_ok_iff.1 hrun
  cases hret
  rfl

theorem finalizeStep_pauses (hrun : m.finalizeStep mu = .ok (result, m')) (hp : m'.heap.phase = .pause) :
    result ≠ .ok stepBlocked ∧ (Completes m m' ∨ ∃ r, Overtakes mu m r m') := by
  rw [finalizeStep] at hrun
  obtain ⟨⟨r?, s⟩, htake, hrun⟩ := bind_eq_ok_iff.1 hrun
  cases r? with
  | none =>
    cases hrun
    exact ⟨by decide, .inl ⟨s, htake, rfl⟩⟩
  | some r =>
    obtain ⟨⟨answer, program, h⟩, hfinalizer, hret⟩ := bind_eq_ok_iff.1 hrun
    cases answer with
    | error cause =>
      cases hret
      exact ⟨fun heq => (by cases heq), .inr ⟨r, _, program, h, ⟨s, htake, hfinalizer⟩, hp, rfl⟩⟩
    | ok =>
      cases hret
      exact ⟨by decide, .inr ⟨r, _, program, h, ⟨s, htake, hfinalizer⟩, hp, rfl⟩⟩

/-- Only in the last phase does a single step end a cycle. -/
theorem singleStep_pauses (hrun : m.singleStep mu = .ok (result, m')) (hp : m'.heap.phase = .pause) :
    result ≠ .ok stepBlocked ∧ (Completes m m' ∨ ∃ r, Overtakes mu m r m') := by
  by_cases hopen : m.heap.phase.IsOpen
  · obtain ⟨cost, -, hstep⟩ := (singleStep_eq_ok_iff hopen).1 hrun
    exact absurd hp hstep.ne_pause
  · cases singleStep_eq_ok hrun with
    | blocked => exact absurd (hp ▸ by decide) hopen
    | finished _ hatomic =>
      rw [phase_atomicStep hatomic] at hp
      cases hp
    | finalized _ hfinalize => exact finalizeStep_pauses hfinalize hp
    | started hq | propagated hq | sweptStrings hq | swept hq => exact absurd (hq ▸ by decide) hopen

/-! ## Calls -/

/-- A single step that does not fail. -/
def Stepped (mu : Mutator σ) (m m' : Machine σ) : Prop := ∃ cost, m.singleStep mu = .ok (.ok cost, m')

/-- A single step is the last one, and may fail. -/
def Arrives (mu : Mutator σ) (m m' : Machine σ) : Prop :=
  ∃ m₁ result, Relation.ReflTransGen (Stepped mu) m m₁ ∧ m₁.singleStep mu = .ok (result, m')

theorem Arrives.after (hbefore : Relation.ReflTransGen (Stepped mu) m m₁) (h : Arrives mu m₁ m') :
    Arrives mu m m' := by
  obtain ⟨m₂, result, hsteps, hrun⟩ := h
  exact ⟨m₂, result, hbefore.trans hsteps, hrun⟩

/-- Steps, if there are any, have a last one. -/
theorem arrives_of_steps (h : Relation.ReflTransGen (Stepped mu) m m') : m' = m ∨ Arrives mu m m' := by
  rcases Relation.ReflTransGen.cases_tail h with heq | ⟨m₁, hsteps, cost, hrun⟩
  · exact .inl heq
  · exact .inr ⟨m₁, _, hsteps, hrun⟩

theorem stepFrom_arrives {budget : Nat} : ∀ {n done : Nat} {m m' : Machine σ} {result : Except CollectError Nat},
    m.stepFrom mu budget done n = .ok (result, m') → m'.heap.phase = .pause → Arrives mu m m' := by
  intro n
  induction n with
  | zero =>
    intro done m m' result hrun
    cases hrun
  | succ n ih =>
    intro done m m' result hrun hp
    rw [stepFrom] at hrun
    obtain ⟨⟨result₁, m₁⟩, hsingle, hrest⟩ := bind_eq_ok_iff.1 hrun
    cases result₁ with
    | error e =>
      cases hrest
      exact ⟨m, _, .refl, hsingle⟩
    | ok cost =>
      simp only at hrest
      split at hrest
      · next hblocked =>
        -- the next step is put off, but a blocked step ends no cycle
        cases hrest
        exact absurd (congrArg Except.ok hblocked) (singleStep_pauses hsingle hp).1
      · split at hrest
        · cases hrest
          exact ⟨m, _, .refl, hsingle⟩
        · next hnot =>
          split at hrest
          · cases hrest
            exact absurd hp hnot
          · exact (ih hrest hp).after (.single ⟨cost, hsingle⟩)

theorem finishCycle_arrives : ∀ {n : Nat} {m m' : Machine σ} {result : Except CollectError Unit},
    m.finishCycle mu n = .ok (result, m') →
      match result with
      | .ok () => Relation.ReflTransGen (Stepped mu) m m'
      | .error _ => Arrives mu m m' := by
  intro n
  induction n with
  | zero =>
    intro m m' result hrun
    cases hrun
  | succ n ih =>
    intro m m' result hrun
    rw [finishCycle] at hrun
    split at hrun
    · cases hrun
      exact .refl
    · obtain ⟨⟨result₁, m₁⟩, hsingle, hrest⟩ := bind_eq_ok_iff.1 hrun
      cases result₁ with
      | error e =>
        cases hrest
        exact ⟨m, _, .refl, hsingle⟩
      | ok cost =>
        have hstep : Stepped mu m m₁ := ⟨cost, hsingle⟩
        have harrives := ih hrest
        cases result with
        | ok => exact .head hstep harrives
        | error e => exact Arrives.after (.single hstep) harrives

/-- A call that ends in a pause has done nothing, or ended with a single step that led there. -/
theorem CollectorCall.arrives (hcall : CollectorCall mu m m') (hp : m'.heap.phase = .pause) :
    m' = m ∨ Arrives mu m m' := by
  cases hcall with
  | singleStep hrun => exact .inr ⟨m, _, .refl, hrun⟩
  | step hrun => exact .inr (stepFrom_arrives hrun hp)
  | checkStep hrun =>
    rw [Machine.checkStep] at hrun
    split at hrun
    · obtain ⟨⟨result₁, m₁⟩, hstep, hret⟩ := bind_eq_ok_iff.1 hrun
      cases hret
      exact .inr (stepFrom_arrives hstep hp)
    · cases hrun
      exact .inl rfl
  | @fullCollect fuel result m' hrun =>
    rw [Machine.fullCollect] at hrun
    split at hrun
    · cases hrun
      exact .inl rfl
    · obtain ⟨⟨result₁, m₁⟩, hfinish, hrest⟩ := bind_eq_ok_iff.1 hrun
      have hfirst := finishCycle_arrives hfinish
      cases result₁ with
      | error e =>
        cases hrest
        exact .inr hfirst
      | ok =>
        obtain ⟨⟨result₂, m₂⟩, hsingle, hlast⟩ := bind_eq_ok_iff.1 hrest
        cases result₂ with
        | error e =>
          cases hlast
          exact .inr ⟨m₁, _, hfirst, hsingle⟩
        | ok cost =>
          have hbegun := hfirst.tail ⟨cost, hsingle⟩
          have hsecond := finishCycle_arrives hlast
          cases result with
          | ok => exact arrives_of_steps (hbegun.trans hsecond)
          | error e => exact .inr (hsecond.after hbegun)

/-- A call that ends in a pause has done nothing, or its last step completed the cycle, and the next cycle is due
when the live bytes have grown by the configured percentage. Or the last step ran a finalizer that ended the
cycle itself. Then the threshold is the one from before the finalizer, whatever that set. -/
theorem ended_cycles_are_paced (hcall : CollectorCall mu m m') (hp : m'.heap.phase = .pause) :
    (m' = m ∨ ∃ m₁, Relation.ReflTransGen (Stepped mu) m m₁ ∧
      (Completes m₁ m' ∧ m'.heap.Paced ∨
        ∃ r, Overtakes mu m₁ r m' ∧ m'.heap.cycle.threshold = m₁.heap.cycle.threshold)) ∧
    ((∀ m₁ r m₂, Relation.ReflTransGen (Stepped mu) m m₁ → ¬ Overtakes mu m₁ r m₂) →
      m' = m ∨ m'.heap.Paced) := by
  have hlast : m' = m ∨ ∃ m₁, Relation.ReflTransGen (Stepped mu) m m₁ ∧
      (Completes m₁ m' ∨ ∃ r, Overtakes mu m₁ r m') :=
    (hcall.arrives hp).imp_right fun ⟨m₁, _, hsteps, hrun⟩ => ⟨m₁, hsteps, (singleStep_pauses hrun hp).2⟩
  refine ⟨hlast.imp_right ?_, fun hnever => hlast.imp_right ?_⟩
  · rintro ⟨m₁, hsteps, hcompletes | ⟨r, hovertakes⟩⟩
    · exact ⟨m₁, hsteps, .inl ⟨hcompletes, hcompletes.paced⟩⟩
    · refine ⟨m₁, hsteps, .inr ⟨r, hovertakes, ?_⟩⟩
      obtain ⟨_, _, _, -, -, rfl⟩ := hovertakes
      rfl
  · rintro ⟨m₁, hsteps, hcompletes | ⟨r, hovertakes⟩⟩
    · exact hcompletes.paced
    · exact absurd hovertakes (hnever m₁ r m' hsteps)

/-- A program whose finalizers run a full collection. -/
def collecting (mu : Mutator σ) (fuel : Nat) : Mutator σ :=
  { mu with
    runFinalizer := fun program h _ => do
      let (_, m) ← Machine.fullCollect mu fuel ⟨program, h⟩
      return (.ok (), m.program, m.heap) }

/-- A finalizer completes two cycles. The heap is left with a threshold that neither of them set: the live bytes
and the pause ask for 2000. -/
theorem finalizer_that_collects_leaves_old_threshold : ∃ m m' : Machine Ledger,
    m.fullCollect (collecting Ledger.mutator 20) 20 = .ok (.ok (), m') ∧ m'.heap.phase = .pause ∧
      m.heap.cycle.completed = 0 ∧ m'.heap.cycle.completed = 2 ∧ m'.heap.cycle.estimate = 1008 ∧
      m'.heap.config.pause = 200 ∧ m'.heap.cycle.threshold = 65536 ∧ ¬ m'.heap.Paced ∧
      ∃ m₁ r, Relation.ReflTransGen (Stepped (collecting Ledger.mutator 20)) m m₁ ∧
        Overtakes (collecting Ledger.mutator 20) m₁ r m' := by
  let config : Config := { hugeThreshold := 16 }
  let program : Ledger := { roots := [.huge 5] }
  obtain ⟨start, large, small, registered, m', hstart, hlarge, hsmall, hregistered, hcollect, hphase, hbefore,
      hcompleted, hestimate, hpause, hthreshold⟩ :
      ∃ (start large small registered : Heap) (m' : Machine Ledger), Heap.build config (fun _ => 0) = .ok start ∧
        start.alloc (.page 5) .udata 1000 = .ok (.ok (.huge 5), large) ∧
        large.alloc (.page 6) .udata 24 = .ok (.ok (.huge 6), small) ∧
        small.registerFinalizer (.huge 6) = .ok registered ∧
        fullCollect (collecting Ledger.mutator 20) 20 ⟨program, registered⟩ = .ok (.ok (), m') ∧
        m'.heap.phase = .pause ∧ registered.cycle.completed = 0 ∧ m'.heap.cycle.completed = 2 ∧
        m'.heap.cycle.estimate = 1008 ∧ m'.heap.config.pause = 200 ∧ m'.heap.cycle.threshold = 65536 :=
    ⟨_, _, _, _, _, eq_answerOf (by decide +kernel), eq_answerOf_of_fst (by decide +kernel) (by decide +kernel),
      eq_answerOf_of_fst (by decide +kernel) (by decide +kernel), eq_answerOf (by decide +kernel),
      eq_answerOf_of_fst (by decide +kernel) (by decide +kernel), by decide +kernel, by decide +kernel,
      by decide +kernel, by decide +kernel, by decide +kernel, by decide +kernel⟩
  have hunpaced : ¬ m'.heap.Paced := fun hpaced => by
    have hthreshold' := hpaced.threshold
    rw [hestimate, hpause, hthreshold] at hthreshold'
    revert hthreshold'
    decide
  obtain ⟨hends, -⟩ := ended_cycles_are_paced (.fullCollect hcollect) hphase
  refine ⟨⟨program, registered⟩, m', hcollect, hphase, hbefore, hcompleted, hestimate, hpause, hthreshold,
    hunpaced, ?_⟩
  rcases hends with rfl | ⟨m₁, hsteps, ⟨-, hpaced⟩ | ⟨r, hovertakes, -⟩⟩
  · rw [hbefore] at hcompleted
    cases hcompleted
  · exact absurd hpaced hunpaced
  · exact ⟨m₁, r, hsteps, hovertakes⟩

end Machine

end Tricolor
