import Tricolor.Proofs.Cycle.Terms
import Tricolor.Proofs.Pacing
import Tricolor.Proofs.Termination

/-!
# The budget of a step

A step performs single steps until the cycle is complete, a trace holds it up, a finalizer fails or the budget
is spent, and no longer. The threshold at which the next step is due is written in four places. The one that
comes last decides, so each way out has a threshold of its own.
-/

namespace Tricolor

namespace Machine

variable {σ : Type} {mu : Mutator σ} {m m' m₁ : Machine σ} {config : Config} {hashOf : List UInt8 → Hash}
  {result : Except CollectError Nat} {budget done cost : Nat} {costs : List Nat}

/-- Single steps one after the other, with their costs. None of them is blocked. -/
inductive Spends (mu : Mutator σ) : Machine σ → List Nat → Machine σ → Prop where
  | nil {m : Machine σ} : Spends mu m [] m
  | cons {m m₁ m' : Machine σ} {cost : Nat} {costs : List Nat} : m.isBlocked = false →
      m.singleStep mu = .ok (.ok cost, m₁) → Spends mu m₁ costs m' → Spends mu m (cost :: costs) m'

/-- The costs together, with `done` spent before. -/
def spent (done : Nat) (costs : List Nat) : Nat := costs.foldl saturatingAdd done

/-- After every single step but the last one, a cycle is in progress and less than the budget is spent. -/
def Unfinished (mu : Mutator σ) (m : Machine σ) (budget done : Nat) (costs : List Nat) : Prop :=
  ∀ before m₁, before <+: costs → before ≠ [] → Spends mu m before m₁ →
    m₁.heap.phase ≠ .pause ∧ spent done before < budget

/-- The last single step of a step, with `done` spent before it. -/
inductive Stops (mu : Mutator σ) (budget done : Nat) (m : Machine σ) :
    Except CollectError Nat → Machine σ → Prop where
  /-- a trace is active, and nothing is done -/
  | blocked : m.isBlocked = true → Stops mu budget done m (.ok stepBlocked) { m with heap := m.heap.postponeStep }
  | paused {cost : Nat} {m₁ : Machine σ} : m.isBlocked = false → m.singleStep mu = .ok (.ok cost, m₁) →
      m₁.heap.phase = .pause → Stops mu budget done m (.ok (saturatingAdd done cost)) m₁
  | spent {cost : Nat} {m₁ : Machine σ} : m.isBlocked = false → m.singleStep mu = .ok (.ok cost, m₁) →
      m₁.heap.phase ≠ .pause → budget ≤ saturatingAdd done cost →
      Stops mu budget done m (.ok (saturatingAdd done cost)) { m₁ with heap := m₁.heap.postponeStep }
  | failed {r : Ref} {cause : String} {m₁ : Machine σ} : m.isBlocked = false → Fails mu m r cause m₁ →
      Stops mu budget done m (.error (.finalizer cause)) m₁

/-! ## The loop -/

theorem Spends.of_cons (h : Spends mu m (cost :: costs) m') (hrun : m.singleStep mu = .ok (result, m₁)) :
    Spends mu m₁ costs m' := by
  cases h with
  | cons _ hrun' hrest =>
    rw [hrun] at hrun'
    cases hrun'
    exact hrest

/-- One more single step that is not the last one. -/
theorem Unfinished.cons (hrun : m.singleStep mu = .ok (.ok cost, m₁)) (hp : m₁.heap.phase ≠ .pause)
    (hleft : saturatingAdd done cost < budget) (h : Unfinished mu m₁ budget (saturatingAdd done cost) costs) :
    Unfinished mu m budget done (cost :: costs) := by
  intro before m₂ hbefore hne hspends
  rcases List.prefix_cons_iff.1 hbefore with rfl | ⟨rest, rfl, hrest⟩
  · exact absurd rfl hne
  · have hspends := hspends.of_cons hrun
    by_cases hempty : rest = []
    · subst hempty
      cases hspends
      exact ⟨hp, hleft⟩
    · exact h rest m₂ hrest hempty hspends

/-- Only finalizers fail. -/
theorem fails_of_singleStep {error : CollectError} (hrun : m.singleStep mu = .ok (.error error, m')) :
    ∃ r cause, error = .finalizer cause ∧ Fails mu m r cause m' := by
  cases singleStep_eq_ok hrun with
  | finalized hp hfinalize =>
    rw [finalizeStep] at hfinalize
    obtain ⟨⟨r?, s⟩, htake, hrest⟩ := bind_eq_ok_iff.1 hfinalize
    cases r? with
    | none => cases hrest
    | some r =>
      obtain ⟨⟨answer, program, h⟩, hfinalizer, hret⟩ := bind_eq_ok_iff.1 hrest
      cases answer with
      | error cause =>
        cases hret
        exact ⟨r, cause, rfl, hp, program, h, ⟨s, htake, hfinalizer⟩, rfl⟩
      | ok => cases hret

theorem Fails.run {r : Ref} {cause : String} (hfails : Fails mu m r cause m') (hfree : m.isBlocked = false) :
    m.singleStep mu = .ok (.error (.finalizer cause), m') := by
  obtain ⟨hp, program, h, ⟨s, htake, hfinalizer⟩, rfl⟩ := hfails
  rw [singleStep_of_finalize hfree hp]
  exact bind_eq_ok_iff.2 ⟨_, htake, bind_eq_ok_iff.2 ⟨_, hfinalizer, rfl⟩⟩

theorem stepFrom_spends (hbudget : budget ≤ maxWord) :
    ∀ {n done : Nat} {m m' : Machine σ} {result : Except CollectError Nat},
      m.stepFrom mu budget done n = .ok (result, m') → ∃ costs last, Spends mu m costs last ∧
        Unfinished mu m budget done costs ∧ Stops mu budget (spent done costs) last result m' := by
  intro n
  induction n with
  | zero =>
    intro done m m' result hrun
    cases hrun
  | succ n ih =>
    intro done m m' result hrun
    have hnone : Unfinished mu m budget done [] := fun before _ hbefore hne _ =>
      absurd (List.prefix_nil.1 hbefore) hne
    rw [stepFrom] at hrun
    obtain ⟨⟨result₁, m₁⟩, hsingle, hrest⟩ := bind_eq_ok_iff.1 hrun
    cases hblocked : m.isBlocked with
    | true =>
      rw [singleStep_of_isBlocked hblocked] at hsingle
      cases hsingle
      cases hrest
      exact ⟨[], m, .nil, hnone, .blocked hblocked⟩
    | false =>
      cases result₁ with
      | error error =>
        cases hrest
        obtain ⟨r, cause, rfl, hfails⟩ := fails_of_singleStep hsingle
        exact ⟨[], m, .nil, hnone, .failed hblocked hfails⟩
      | ok cost =>
        simp only at hrest
        split at hrest
        · next hcost =>
          -- work that costs as much as a blocked step is counted as such, and spends any budget
          cases hrest
          have hp : m₁.heap.phase ≠ .pause := fun hp =>
            (singleStep_pauses hsingle hp).1 (congrArg Except.ok hcost)
          have hspent : saturatingAdd done cost = stepBlocked := by
            rw [hcost, saturatingAdd, stepBlocked]
            omega
          have hstops := Stops.spent hblocked hsingle hp (hspent ▸ hbudget : budget ≤ saturatingAdd done cost)
          rw [hspent] at hstops
          exact ⟨[], m, .nil, hnone, hstops⟩
        · split at hrest
          · next hp =>
            cases hrest
            exact ⟨[], m, .nil, hnone, .paused hblocked hsingle hp⟩
          · next hp =>
            split at hrest
            · next hspent =>
              cases hrest
              exact ⟨[], m, .nil, hnone, .spent hblocked hsingle hp hspent⟩
            · next hleft =>
              obtain ⟨costs, last, hspends, hunfinished, hstops⟩ := ih hrest
              exact ⟨cost :: costs, last, .cons hblocked hsingle hspends,
                hunfinished.cons hsingle hp (not_le.1 hleft), hstops⟩

/-! ## The threshold -/

/-- A single step leaves the threshold as it is, unless it completes the cycle. -/
theorem threshold_singleStep (hrun : m.singleStep mu = .ok (result, m')) (hp : m'.heap.phase ≠ .pause) :
    m'.heap.cycle.threshold = m.heap.cycle.threshold := by
  by_cases hfinalize : m.heap.phase = .finalize
  · rcases (singleStep_eq_ok hrun).of_finalize hfinalize with rfl | hrun
    · rfl
    · rw [finalizeStep] at hrun
      obtain ⟨⟨r?, s⟩, -, hrest⟩ := bind_eq_ok_iff.1 hrun
      cases r? with
      | none =>
        cases hrest
        exact absurd rfl hp
      | some r =>
        obtain ⟨⟨answer, program, h⟩, -, hret⟩ := bind_eq_ok_iff.1 hrest
        cases answer <;> cases hret <;> rfl
  · exact congrArg Terms.threshold (terms_singleStep hfinalize hrun)

/-- So the threshold is the one from before until the last single step. -/
theorem Spends.threshold (h : Spends mu m costs m') :
    ∀ {done : Nat}, Unfinished mu m budget done costs → m'.heap.cycle.threshold = m.heap.cycle.threshold := by
  induction h with
  | nil => exact fun _ => rfl
  | @cons m m₁ m' cost costs hblocked hrun hrest ih =>
    intro done hunfinished
    have hfirst : m₁.heap.phase ≠ .pause := (hunfinished [cost] m₁ (List.prefix_cons_inj cost |>.2 List.nil_prefix)
      (List.cons_ne_nil _ _) (.cons hblocked hrun .nil)).1
    have hrest : Unfinished mu m₁ budget (saturatingAdd done cost) costs := fun before m₂ hbefore _ hspends =>
      hunfinished (cost :: before) m₂ (List.prefix_cons_inj cost |>.2 hbefore) (List.cons_ne_nil _ _)
        (.cons hblocked hrun hspends)
    exact (ih hrest).trans (threshold_singleStep hrun hfirst)

theorem Reachable.spends {allowed : Heap.Resizings} (hmu : FinalizersOperate mu allowed config hashOf)
    (hm : Reachable mu allowed config hashOf m) (h : Spends mu m costs m') :
    Reachable mu allowed config hashOf m' := by
  induction h with
  | nil => exact hm
  | cons _ hrun _ ih => exact ih (hm.call hmu (.singleStep hrun))

/-- From the heap `start` with which a finalizer begins to the heap `h` that it leaves, it only operates, and the
threshold is the highest possible one all the time. -/
def HeldOff (allowed : Heap.Resizings) (start h : Heap) : Prop :=
  Relation.ReflTransGen (Heap.Operation allowed) start h ∧
    ∀ h₁, Relation.ReflTransGen (Heap.Operation allowed) start h₁ → h₁.cycle.threshold = maxWord

theorem Reachable.heldOff {allowed : Heap.Resizings} {r : Ref} {answer : Except String Unit} {program : σ}
    {h : Heap} (hmu : FinalizersOperate mu allowed config hashOf) (hm : Reachable mu allowed config hashOf m)
    (hp : m.heap.phase = .finalize) (hruns : Runs mu m r answer program h) :
    h.phase = .finalize ∧ ∃ s, m.heap.space.takePendingFinalizer = .ok (some r, s) ∧
      HeldOff allowed (Heap.setThreshold { m.heap with space := s } maxWord) h := by
  obtain ⟨s, htake, hfinalizer⟩ := hruns
  have hbegun := ((hm.step (.finalize hp htake)).step (.compute (mu.suspendHooks m.program true))).step
    (.setThreshold maxWord)
  have hops := hmu hbegun hfinalizer
  exact ⟨(Heap.Operation.run_standsStill hbegun.sound hops).2.phase.trans hp, s, htake, hops,
    fun h₁ hops => (Heap.Operation.run_standsStill hbegun.sound hops).2.threshold⟩

/-- No cycle ends in another phase. -/
theorem finalize_of_pauses (hrun : m.singleStep mu = .ok (result, m')) (hp : m'.heap.phase = .pause) :
    m.heap.phase = .finalize := by
  by_cases hopen : m.heap.phase.IsOpen
  · obtain ⟨cost, -, hstep⟩ := (singleStep_eq_ok_iff hopen).1 hrun
    exact absurd hp hstep.ne_pause
  · cases singleStep_eq_ok hrun with
    | blocked => exact absurd (hp ▸ by decide) hopen
    | finished _ hatomic =>
      rw [phase_atomicStep hatomic] at hp
      cases hp
    | finalized hfinalize => exact hfinalize
    | started hq | propagated hq | sweptStrings hq | swept hq => exact absurd (hq ▸ by decide) hopen

/-- If finalizers only operate on the heap, none of them ends a cycle. -/
theorem Reachable.completes {allowed : Heap.Resizings} (hmu : FinalizersOperate mu allowed config hashOf)
    (hm : Reachable mu allowed config hashOf m) (hrun : m.singleStep mu = .ok (result, m'))
    (hp : m'.heap.phase = .pause) : Completes m m' := by
  refine (singleStep_pauses hrun hp).2.resolve_right ?_
  rintro ⟨r, answer, program, h, hruns, hpause, rfl⟩
  rw [(hm.heldOff hmu (finalize_of_pauses hrun hp) hruns).1] at hpause
  cases hpause

/-! ## Calls -/

/-- How a step goes that answers. -/
structure Budgeted (mu : Mutator σ) (allowed : Heap.Resizings) (m : Machine σ) (costs : List Nat)
    (last : Machine σ) (result : Except CollectError Nat) (m' : Machine σ) : Prop where
  steps : Spends mu m costs last
  unfinished : Unfinished mu m m.heap.config.stepBudget 0 costs
  stops : Stops mu m.heap.config.stepBudget (spent 0 costs) last result m'
  /-- the next step is put off by so many bytes -/
  postponed : ∀ answer, result = .ok answer → m'.heap.phase ≠ .pause →
    m'.heap.cycle.threshold = saturatingAdd m'.heap.space.total m'.heap.config.stepSize
  completed : m'.heap.phase = .pause → Completes last m' ∧ m'.heap.Paced
  /-- the threshold is the one from before the call -/
  failed : ∀ error, result = .error error → m'.heap.cycle.threshold = m.heap.cycle.threshold
  heldOff : ∀ before m₁ r answer program h, before <+: costs → Spends mu m before m₁ →
    m₁.heap.phase = .finalize → Runs mu m₁ r answer program h →
    ∃ s, m₁.heap.space.takePendingFinalizer = .ok (some r, s) ∧
      HeldOff allowed (Heap.setThreshold { m₁.heap with space := s } maxWord) h

theorem Config.stepBudget_le (config : Config) : config.stepBudget ≤ maxWord :=
  (Nat.div_le_self _ _).trans (Nat.min_le_right _ _)

/-- A step performs single steps until the cycle is complete, a trace holds it up, a finalizer fails or the budget is
spent, and none after that. The threshold that it leaves is the one that goes with its end. -/
theorem step_keeps_to_budget (hmu : FinalizersOperate mu Heap.anyResizing config hashOf)
    (hm : Reachable mu Heap.anyResizing config hashOf m) {fuel : Nat}
    (hrun : m.step mu fuel = .ok (result, m')) :
    ∃ costs last, Budgeted mu Heap.anyResizing m costs last result m' := by
  obtain ⟨costs, last, hspends, hunfinished, hstops⟩ := stepFrom_spends (Config.stepBudget_le _) hrun
  have hlast := hm.spends hmu hspends
  refine ⟨costs, last, hspends, hunfinished, hstops, fun answer hanswer hp => ?_, fun hp => ?_,
    fun error herror => ?_, fun before m₁ r answer program h _ hbefore hfinalize hruns => ?_⟩
  · cases hstops with
    | blocked | spent => rfl
    | paused _ _ hpause => exact absurd hpause hp
    | failed => cases hanswer
  · have hcompletes : Completes last m' := by
      cases hstops with
      | blocked hblocked =>
        exact absurd (show last.heap.phase.IsOpen from (show last.heap.phase = .pause from hp) ▸ by decide)
          (isBlocked_iff.1 hblocked).2
      | paused _ hsingle => exact hlast.completes hmu hsingle hp
      | spent _ _ hnot => exact absurd hp hnot
      | failed _ hfails =>
        obtain ⟨hfinalize, program, h, hruns, rfl⟩ := hfails
        exact absurd ((hlast.heldOff hmu hfinalize hruns).1.symm.trans hp) (by decide)
    exact ⟨hcompletes, hcompletes.paced⟩
  · cases hstops with
    | failed _ hfails =>
      obtain ⟨-, program, h, -, rfl⟩ := hfails
      exact hspends.threshold hunfinished
    | blocked | paused | spent => cases herror
  · exact ((hm.spends hmu hbefore).heldOff hmu hfinalize hruns).2

/-- A finalizer fails in a step that would have had budget left for the rest of the cycle. -/
theorem failing_finalizer_ends_step : ∃ m m' : Machine Unit,
    m.heap.phase = .pause ∧ m.step insistent 9 = .ok (.error (.finalizer "again"), m') ∧
      m'.heap.phase = .finalize ∧ m'.heap.cycle.threshold = 65536 ∧
      ∃ costs last, Budgeted insistent Heap.anyResizing m costs last (.error (.finalizer "again")) m' := by
  let config : Config := { hugeThreshold := 1, stepSize := 10000 }
  let start := answerOf (Heap.build config fun _ => 0) (by decide +kernel)
  have hstart : Heap.withConfig config (fun _ => 0) = .ok (.ok start) := rfl
  obtain ⟨placed, registered, m', hplaced, hlive, hregistered, hpause, hstep, hphase, hthreshold⟩ :
      ∃ placed registered m', start.alloc (.page 5) .udata 24 = .ok (.ok (.huge 5), placed) ∧
        placed.Live (.huge 5) ∧ placed.registerFinalizer (.huge 5) = .ok registered ∧
        registered.phase = .pause ∧
        step insistent 9 ⟨(), registered⟩ = .ok (.error (.finalizer "again"), m') ∧
        m'.heap.phase = .finalize ∧ m'.heap.cycle.threshold = 65536 :=
    ⟨_, _, _, eq_answerOf_of_fst (by decide +kernel) (by decide +kernel), ⟨by decide +kernel, by decide +kernel⟩,
      eq_answerOf (by decide +kernel), by decide +kernel,
      eq_answerOf_of_fst (by decide +kernel) (by decide +kernel), by decide +kernel, by decide +kernel⟩
  have hreach : Reachable insistent Heap.anyResizing config (fun _ => 0) ⟨(), registered⟩ :=
    ((Reachable.initial () hstart).step
      (.operate (.alloc (Supply.page_fresh (by decide) rfl (by decide +kernel) 0) hplaced))).step
      (.operate (.registerFinalizer hlive hregistered))
  have hmu : FinalizersOperate insistent Heap.anyResizing config fun _ => 0 :=
    fun _ _ _ _ _ _ _ hrun => (insistent_operates hrun).1
  obtain ⟨costs, last, hbudgeted⟩ := step_keeps_to_budget hmu hreach hstep
  exact ⟨⟨(), registered⟩, m', hpause, hstep, hphase, hthreshold, costs, last, hbudgeted⟩

end Machine

end Tricolor
