import Tricolor.Proofs.Budget

/-!
# What a program charges for a step

A step that traverses objects answers what the program charges for them, added up to at most the largest word.
That word is also the answer of a step that is blocked by a trace. So a step that is charged for that much, or
more, looks blocked when it has done its work, and the loop over single steps stops after it as if it were.
Any smaller answer is a cost, and nothing but a trace blocks a step that is charged for less.

The charges are read off a meter, in a run of the same program that adds them up beside its own state.
-/

namespace Tricolor

/-- A program that adds up what it charges for the objects that are traversed. -/
def Mutator.metered {σ : Type} (mu : Mutator σ) : Mutator (σ × Nat) where
  roots s :=
    let (roots, program) := mu.roots s.1
    (roots, program, s.2)
  visits s r kind mode :=
    let (visits, program) := mu.visits s.1 r kind mode
    (visits, program, s.2 + mu.cost program r kind)
  cost s := mu.cost s.1
  isFinalizable s := mu.isFinalizable s.1
  weakMode s := mu.weakMode s.1
  clearWeak s t isDead := do return (← mu.clearWeak s.1 t isDead, s.2)
  suspendHooks s suspended := (mu.suspendHooks s.1 suspended, s.2)
  runFinalizer s h r := do
    let (result, program, h) ← mu.runFinalizer s.1 h r
    return (result, (program, s.2), h)

theorem saturatingAdd_zero {a : Nat} (h : a ≤ maxWord) : saturatingAdd a 0 = a := by
  rw [saturatingAdd]
  omega

theorem saturatingAdd_saturatingAdd (a b c : Nat) :
    saturatingAdd (saturatingAdd a b) c = saturatingAdd a (b + c) := by
  simp only [saturatingAdd]
  omega

theorem saturatingAdd_le (a b : Nat) : saturatingAdd a b ≤ maxWord := Nat.min_le_right _ _

namespace Heap

variable {h h' : Heap} {cost : Nat}

/-- The largest word is no multiple of ten. -/
theorem cost_sweepStringsStep (hrun : h.sweepStringsStep = .ok (cost, h')) : cost ≠ maxWord := by
  obtain ⟨_, -, hrun⟩ := bind_eq_ok_iff.1 hrun
  obtain ⟨cost', hcost, hret⟩ := bind_eq_ok_iff.1 hrun
  cases hret
  obtain ⟨-, rfl⟩ := checkedMul_eq_ok_iff.1 hcost
  simp only [sweepStringCost, maxWord, wordRange]
  omega

theorem cost_sweepStep (hrun : h.sweepStep = .ok (cost, h')) : cost ≤ sweepArenaCost := by
  rw [sweepStep] at hrun
  split at hrun
  · split at hrun
    · obtain ⟨s, -, hret⟩ := bind_eq_ok_iff.1 hrun
      cases hret
      exact le_rfl
    · cases hrun
      exact le_rfl
  · obtain ⟨⟨freed, s⟩, -, hret⟩ := bind_eq_ok_iff.1 hrun
    cases hret
    exact le_rfl
  · split at hrun
    · obtain ⟨⟨freed, s⟩, -, hret⟩ := bind_eq_ok_iff.1 hrun
      cases hret
      exact le_rfl
    · cases hrun
      exact Nat.zero_le _

end Heap

namespace Machine

variable {σ : Type} {mu : Mutator σ} {m m' : Machine σ} {cost done n : Nat}

/-- The same machine with a meter that stands at `n`. -/
def metered (m : Machine σ) (n : Nat) : Machine (σ × Nat) := { program := (m.program, n), heap := m.heap }

/-! ## Marking with a meter -/

theorem markRoots_metered (hrun : m.markRoots mu = .ok m') :
    (m.metered n).markRoots mu.metered = .ok (m'.metered n) := by
  obtain ⟨s₁, hroots, hrun⟩ := bind_eq_ok_iff.1 hrun
  obtain ⟨s₂, hfixed, hret⟩ := bind_eq_ok_iff.1 hrun
  cases hret
  exact bind_eq_ok_iff.2 ⟨s₁, hroots, bind_eq_ok_iff.2 ⟨s₂, hfixed, rfl⟩⟩

theorem startCycle_metered (hrun : m.startCycle mu = .ok m') :
    (m.metered n).startCycle mu.metered = .ok (m'.metered n) := by
  obtain ⟨m₁, hroots, hret⟩ := bind_eq_ok_iff.1 hrun
  cases hret
  exact bind_eq_ok_iff.2 ⟨_, markRoots_metered hroots, rfl⟩

/-- The meter goes on by what traversing an object costs. -/
theorem traverse_metered {r : Ref} (hrun : m.traverse mu r = .ok (cost, m')) :
    (m.metered n).traverse mu.metered r = .ok (cost, m'.metered (n + cost)) := by
  obtain ⟨header, hheader, hrun⟩ := bind_eq_ok_iff.1 hrun
  obtain ⟨s, hvisit, hret⟩ := bind_eq_ok_iff.1 hrun
  cases hret
  exact bind_eq_ok_iff.2 ⟨header, hheader, bind_eq_ok_iff.2 ⟨s, hvisit, rfl⟩⟩

theorem traverseBatch_metered {source : GreySource} : ∀ {k done cost : Nat} {m m' : Machine σ}, done ≤ maxWord →
    m.traverseBatch mu source done k = .ok (cost, m') → ∃ charged, cost = saturatingAdd done charged ∧
      ∀ n, (m.metered n).traverseBatch mu.metered source done k = .ok (cost, m'.metered (n + charged)) := by
  intro k
  induction k with
  | zero =>
    intro done cost m m' hdone hrun
    cases hrun
    exact ⟨0, (saturatingAdd_zero hdone).symm, fun n => rfl⟩
  | succ k ih =>
    intro done cost m m' hdone hrun
    rw [traverseBatch] at hrun
    obtain ⟨⟨r?, s⟩, hpop, hrun⟩ := bind_eq_ok_iff.1 hrun
    cases r? with
    | none =>
      cases hrun
      refine ⟨0, (saturatingAdd_zero hdone).symm, fun n => ?_⟩
      rw [traverseBatch]
      exact bind_eq_ok_iff.2 ⟨_, hpop, rfl⟩
    | some r =>
      obtain ⟨⟨more, m₁⟩, htraverse, hrest⟩ := bind_eq_ok_iff.1 hrun
      obtain ⟨charged, rfl, hcharged⟩ := ih (saturatingAdd_le done more) hrest
      refine ⟨more + charged, saturatingAdd_saturatingAdd .., fun n => ?_⟩
      rw [traverseBatch, ← Nat.add_assoc]
      exact bind_eq_ok_iff.2 ⟨_, hpop, bind_eq_ok_iff.2 ⟨_, traverse_metered htraverse, hcharged _⟩⟩

theorem propagateFrom_metered : ∀ {k done cost : Nat} {m m' : Machine σ} {source? : Option GreySource},
    done ≤ maxWord → m.propagateFrom mu source? done k = .ok (cost, m') →
      ∃ charged, cost = saturatingAdd done charged ∧
        ∀ n, (m.metered n).propagateFrom mu.metered source? done k = .ok (cost, m'.metered (n + charged)) := by
  intro k
  induction k with
  | zero =>
    intro done cost m m' source? _ hrun
    cases hrun
  | succ k ih =>
    intro done cost m m' source? hdone hrun
    cases source? with
    | none =>
      rw [propagateFrom] at hrun
      obtain ⟨h, hdrain, hrun⟩ := bind_eq_ok_iff.1 hrun
      cases hsource : h.space.deepestGrey with
      | none =>
        simp only [hsource] at hrun
        cases hrun
        refine ⟨0, (saturatingAdd_zero hdone).symm, fun n => ?_⟩
        rw [propagateFrom]
        exact bind_eq_ok_iff.2 ⟨h, hdrain, by simp only [hsource]; rfl⟩
      | some source =>
        simp only [hsource] at hrun
        obtain ⟨charged, hcost, hcharged⟩ := ih hdone hrun
        refine ⟨charged, hcost, fun n => ?_⟩
        rw [propagateFrom]
        exact bind_eq_ok_iff.2 ⟨h, hdrain, by simp only [hsource]; exact hcharged n⟩
    | some source =>
      rw [propagateFrom] at hrun
      obtain ⟨⟨r?, s⟩, hpop, hrun⟩ := bind_eq_ok_iff.1 hrun
      cases r? with
      | none =>
        obtain ⟨charged, hcost, hcharged⟩ := ih hdone hrun
        refine ⟨charged, hcost, fun n => ?_⟩
        rw [propagateFrom]
        exact bind_eq_ok_iff.2 ⟨_, hpop, hcharged n⟩
      | some r =>
        obtain ⟨⟨more, m₁⟩, htraverse, hrest⟩ := bind_eq_ok_iff.1 hrun
        obtain ⟨charged, rfl, hcharged⟩ := ih (saturatingAdd_le done more) hrest
        refine ⟨more + charged, saturatingAdd_saturatingAdd .., fun n => ?_⟩
        rw [propagateFrom, ← Nat.add_assoc]
        exact bind_eq_ok_iff.2 ⟨_, hpop, bind_eq_ok_iff.2 ⟨_, traverse_metered htraverse, hcharged _⟩⟩

theorem propagateAll_metered (hrun : m.propagateAll mu = .ok (cost, m')) : ∃ charged, cost = saturatingAdd 0 charged ∧
    ∀ n, (m.metered n).propagateAll mu.metered = .ok (cost, m'.metered (n + charged)) :=
  propagateFrom_metered (Nat.zero_le _) hrun

theorem propagateStep_metered (hrun : m.propagateStep mu = .ok (cost, m')) :
    ∃ charged, cost = saturatingAdd 0 charged ∧
      ∀ n, (m.metered n).propagateStep mu.metered = .ok (cost, m'.metered (n + charged)) := by
  rw [propagateStep] at hrun
  obtain ⟨h, hdrain, hrun⟩ := bind_eq_ok_iff.1 hrun
  cases hsource : h.space.deepestGrey with
  | none =>
    simp only [hsource] at hrun
    cases hrun
    refine ⟨0, rfl, fun n => ?_⟩
    rw [propagateStep]
    exact bind_eq_ok_iff.2 ⟨h, hdrain, by simp only [hsource]; rfl⟩
  | some source =>
    simp only [hsource] at hrun
    obtain ⟨charged, hcost, hcharged⟩ := traverseBatch_metered (Nat.zero_le _) hrun
    refine ⟨charged, hcost, fun n => ?_⟩
    rw [propagateStep]
    exact bind_eq_ok_iff.2 ⟨h, hdrain, by simp only [hsource]; exact hcharged n⟩

theorem clearWeakTables_metered (hrun : m.clearWeakTables mu = .ok m') :
    (m.metered n).clearWeakTables mu.metered = .ok (m'.metered n) := by
  have hfold : ∀ {isDead : Ref → Except Fault Bool} {tables : List Ref} {program program' : σ},
      tables.foldlM (fun program t => mu.clearWeak program t isDead) program = .ok program' →
      tables.foldlM (fun s t => mu.metered.clearWeak s t isDead) (program, n) = .ok (program', n) := by
    intro isDead tables
    induction tables with
    | nil =>
      intro program program' hrun
      cases hrun
      rfl
    | cons t rest ih =>
      intro program program' hrun
      obtain ⟨program₁, hclear, hrest⟩ := bind_eq_ok_iff.1 hrun
      exact bind_eq_ok_iff.2 ⟨(program₁, n), bind_eq_ok_iff.2 ⟨program₁, hclear, rfl⟩, ih hrest⟩
  obtain ⟨program, rfl, hclear⟩ := clearWeakTables_eq_ok hrun
  exact bind_eq_ok_iff.2 ⟨(program, n), hfold hclear, rfl⟩

theorem finishMarking_metered (hrun : m.finishMarking mu = .ok (cost, m')) :
    ∃ charged, cost = saturatingAdd 0 charged ∧
      ∀ n, (m.metered n).finishMarking mu.metered = .ok (cost, m'.metered (n + charged)) := by
  rw [finishMarking] at hrun
  obtain ⟨⟨selection, s⟩, hselect, hrun⟩ := bind_eq_ok_iff.1 hrun
  obtain ⟨m₁, hclear, hrun⟩ := bind_eq_ok_iff.1 hrun
  split at hrun
  · next hempty =>
    cases hrun
    refine ⟨0, rfl, fun n => ?_⟩
    rw [finishMarking]
    refine bind_eq_ok_iff.2 ⟨(selection, s), hselect, bind_eq_ok_iff.2 ⟨m'.metered n, ?_, ?_⟩⟩
    · simpa only [metered] using clearWeakTables_metered (n := n) hclear
    · exact if_pos hempty
  · next hsome =>
    obtain ⟨s', hmark, hrun⟩ := bind_eq_ok_iff.1 hrun
    obtain ⟨⟨cost', m₂⟩, hpropagate, hrun⟩ := bind_eq_ok_iff.1 hrun
    obtain ⟨m₃, hclear', hret⟩ := bind_eq_ok_iff.1 hrun
    cases hret
    obtain ⟨charged, hcost, hcharged⟩ := propagateAll_metered hpropagate
    refine ⟨charged, hcost, fun n => ?_⟩
    rw [finishMarking]
    refine bind_eq_ok_iff.2 ⟨(selection, s), hselect, bind_eq_ok_iff.2 ⟨m₁.metered n, ?_, ?_⟩⟩
    · simpa only [metered] using clearWeakTables_metered (n := n) hclear
    · refine (if_neg hsome).trans (bind_eq_ok_iff.2 ⟨s', hmark, bind_eq_ok_iff.2 ⟨_, hcharged n, ?_⟩⟩)
      exact bind_eq_ok_iff.2 ⟨_, clearWeakTables_metered hclear', rfl⟩

/-- The atomic step is charged for all that it traverses, before and after the finalizers are selected. -/
theorem atomicStep_metered (hrun : m.atomicStep mu = .ok (cost, m')) : ∃ charged, cost = saturatingAdd 0 charged ∧
    ∀ n, (m.metered n).atomicStep mu.metered = .ok (cost, m'.metered (n + charged)) := by
  rw [atomicStep] at hrun
  obtain ⟨h₁, hdrain, hrun⟩ := bind_eq_ok_iff.1 hrun
  obtain ⟨m₂, hroots, hrun⟩ := bind_eq_ok_iff.1 hrun
  obtain ⟨⟨cost₃, m₃⟩, hpropagate, hrun⟩ := bind_eq_ok_iff.1 hrun
  obtain ⟨⟨cost₄, m₄⟩, hfinish, hrun⟩ := bind_eq_ok_iff.1 hrun
  obtain ⟨_, hstores, hret⟩ := bind_eq_ok_iff.1 hrun
  cases hret
  obtain ⟨charged₃, rfl, hcharged₃⟩ := propagateAll_metered hpropagate
  obtain ⟨charged₄, rfl, hcharged₄⟩ := finishMarking_metered hfinish
  refine ⟨charged₃ + charged₄, ?_, fun n => ?_⟩
  · simp only [saturatingAdd]
    omega
  · rw [atomicStep, ← Nat.add_assoc]
    exact bind_eq_ok_iff.2 ⟨h₁, hdrain, bind_eq_ok_iff.2 ⟨_, markRoots_metered hroots, bind_eq_ok_iff.2
      ⟨_, hcharged₃ n, bind_eq_ok_iff.2 ⟨_, hcharged₄ _, bind_eq_ok_iff.2 ⟨_, hstores, rfl⟩⟩⟩⟩⟩

theorem finalizeStep_metered {result : Except CollectError Nat} (hrun : m.finalizeStep mu = .ok (result, m')) :
    (m.metered n).finalizeStep mu.metered = .ok (result, m'.metered n) := by
  rw [finalizeStep] at hrun ⊢
  obtain ⟨⟨r?, s⟩, htake, hrun⟩ := bind_eq_ok_iff.1 hrun
  refine bind_eq_ok_iff.2 ⟨_, htake, ?_⟩
  cases r? with
  | none =>
    cases hrun
    rfl
  | some r =>
    obtain ⟨⟨answer, program, h⟩, hfinalizer, hret⟩ := bind_eq_ok_iff.1 hrun
    refine bind_eq_ok_iff.2 ⟨_, bind_eq_ok_iff.2 ⟨_, hfinalizer, rfl⟩, ?_⟩
    cases answer <;> cases hret <;> rfl

/-! ## Single steps -/

theorem not_isOpen_iff : ¬ m.heap.phase.IsOpen ↔ m.heap.phase = .atomic ∨ m.heap.phase = .finalize := by
  rw [Phase.IsOpen]
  cases m.heap.phase <;> decide

theorem cost_finalizeStep (hrun : m.finalizeStep mu = .ok (.ok cost, m')) : cost ≤ finalizeCost := by
  rw [finalizeStep] at hrun
  obtain ⟨⟨r?, s⟩, -, hrun⟩ := bind_eq_ok_iff.1 hrun
  cases r? with
  | none =>
    cases hrun
    exact Nat.zero_le _
  | some r =>
    obtain ⟨⟨answer, program, h⟩, -, hret⟩ := bind_eq_ok_iff.1 hrun
    cases answer with
    | error => cases hret
    | ok =>
      cases hret
      exact le_rfl

/-- What has been added up is the largest word if that much was charged. -/
theorem saturatingAdd_eq_stepBlocked_iff {charged : Nat} :
    saturatingAdd 0 charged = stepBlocked ↔ maxWord ≤ charged := by
  rw [saturatingAdd, stepBlocked]
  omega

/-- An open step with a meter. -/
theorem OpenStep.metered (hstep : OpenStep mu m cost m') :
    ∃ charged, (∀ n, OpenStep mu.metered (m.metered n) cost (m'.metered (n + charged))) ∧
      (cost = stepBlocked ↔ maxWord ≤ charged) := by
  cases hstep with
  | started hp hstart => exact ⟨0, fun n => .started hp (startCycle_metered hstart), by decide⟩
  | propagated hp hrun =>
    obtain ⟨charged, rfl, hcharged⟩ := propagateStep_metered hrun
    exact ⟨charged, fun n => .propagated hp (hcharged n), saturatingAdd_eq_stepBlocked_iff⟩
  | sweptStrings hp hrun =>
    exact ⟨0, fun n => .sweptStrings hp hrun, iff_of_false (Heap.cost_sweepStringsStep hrun) (by decide)⟩
  | swept hp hrun =>
    have hless : sweepArenaCost < stepBlocked := by decide
    have hcost := Heap.cost_sweepStep hrun
    exact ⟨0, fun n => .swept hp hrun, iff_of_false (by omega) (by decide)⟩

/-- A single step that is blocked is not charged for anything. Any other one answers what it is charged for, or
the largest word if it is charged for that much, and runs the same beside a meter. -/
theorem singleStep_metered {result : Except CollectError Nat} (hrun : m.singleStep mu = .ok (result, m')) :
    ∃ charged, (∀ n, (m.metered n).singleStep mu.metered = .ok (result, m'.metered (n + charged))) ∧
      (result = .ok stepBlocked ↔ m.isBlocked = true ∨ maxWord ≤ charged) := by
  by_cases hopen : m.heap.phase.IsOpen
  · obtain ⟨cost, rfl, hstep⟩ := (singleStep_eq_ok_iff hopen).1 hrun
    obtain ⟨charged, hcharged, hiff⟩ := hstep.metered
    refine ⟨charged, fun n => (hcharged n).run, ?_⟩
    rw [Except.ok.injEq, hiff, isBlocked_iff]
    exact ⟨.inr, fun hor => hor.resolve_left fun hblocked => hblocked.2 hopen⟩
  · cases hblocked : m.isBlocked with
    | true =>
      have hmetered : ∀ n, (m.metered n).isBlocked = true := fun _ => hblocked
      rw [singleStep_of_isBlocked hblocked] at hrun
      cases hrun
      exact ⟨0, fun n => singleStep_of_isBlocked (hmetered n) mu.metered, iff_of_true rfl (.inl rfl)⟩
    | false =>
      have hmetered : ∀ n, (m.metered n).isBlocked = false := fun _ => hblocked
      rcases not_isOpen_iff.1 hopen with hp | hp
      · rw [singleStep_of_atomic hblocked hp] at hrun
        obtain ⟨cost, rfl, hstep⟩ := succeed_eq_ok hrun
        obtain ⟨charged, rfl, hcharged⟩ := atomicStep_metered hstep
        refine ⟨charged, fun n => ?_, ?_⟩
        · rw [singleStep_of_atomic (hmetered n) hp, hcharged n]
          rfl
        · rw [Except.ok.injEq, saturatingAdd_eq_stepBlocked_iff]
          exact ⟨.inr, fun hor => hor.resolve_left Bool.false_ne_true⟩
      · rw [singleStep_of_finalize hblocked hp] at hrun
        refine ⟨0, fun n => ?_, iff_of_false (fun hresult => ?_) fun hor => ?_⟩
        · rw [singleStep_of_finalize (hmetered n) hp]
          exact finalizeStep_metered hrun
        · have hcost := cost_finalizeStep (hresult ▸ hrun)
          revert hcost
          decide
        · exact hor.elim Bool.false_ne_true (by decide)

/-! ## Calls -/

/-- What the answer of a single step is about: `charged` is what the program charges for it. The largest word is
answered if the step is refused because of a trace, or if it was charged for that much. -/
def Signals (mu : Mutator σ) (m : Machine σ) (result : Except CollectError Nat) (m' : Machine σ) : Prop :=
  ∃ charged, (∀ n, (m.metered n).singleStep mu.metered = .ok (result, m'.metered (n + charged))) ∧
    (result = .ok stepBlocked ↔
      m.heap.cycle.traceActive = true ∧ (m.heap.phase = .atomic ∨ m.heap.phase = .finalize) ∨ maxWord ≤ charged)

theorem signals_of_singleStep {result : Except CollectError Nat} (hrun : m.singleStep mu = .ok (result, m')) :
    Signals mu m result m' := by
  obtain ⟨charged, hcharged, hiff⟩ := singleStep_metered hrun
  refine ⟨charged, hcharged, hiff.trans (or_congr_left ?_)⟩
  rw [isBlocked_iff, not_isOpen_iff]

/-- The last single step of a step, and what it answers. -/
theorem Stops.receives {budget : Nat} {result : Except CollectError Nat} (hstops : Stops mu budget done m result m') :
    ∃ received m₁, m.singleStep mu = .ok (received, m₁) ∧
      (received = .ok stepBlocked → result = .ok stepBlocked ∧ m' = { m₁ with heap := m₁.heap.postponeStep }) := by
  cases hstops with
  | blocked hblocked => exact ⟨.ok stepBlocked, m, singleStep_of_isBlocked hblocked mu, fun _ => ⟨rfl, rfl⟩⟩
  | paused _ hrun hp => exact ⟨_, _, hrun, fun hreceived => absurd hreceived (singleStep_pauses hrun hp).1⟩
  | @spent cost m₁ _ hrun =>
    refine ⟨_, _, hrun, fun hreceived => ⟨congrArg Except.ok ?_, rfl⟩⟩
    rw [Except.ok.inj hreceived, saturatingAdd, stepBlocked]
    omega
  | failed hfree hfails => exact ⟨_, _, hfails.run hfree, fun hreceived => by cases hreceived⟩

/-- A single step answers that it is blocked if a trace refuses it, and also if it did work that it was charged the
largest word for, or more. So if a step is stopped by that answer, it was refused, or it did such work last. -/
theorem blocked_or_charged_in_full (mu : Mutator σ) (m : Machine σ) :
    (∀ result m', m.singleStep mu = .ok (result, m') → Signals mu m result m') ∧
      ∀ fuel result m', m.step mu fuel = .ok (result, m') → ∃ costs last received m₁,
        Spends mu m costs last ∧ Unfinished mu m m.heap.config.stepBudget 0 costs ∧
        last.singleStep mu = .ok (received, m₁) ∧ Signals mu last received m₁ ∧
        (received = .ok stepBlocked → result = .ok stepBlocked ∧ m' = { m₁ with heap := m₁.heap.postponeStep }) := by
  refine ⟨fun _ _ => signals_of_singleStep, fun fuel result m' hrun => ?_⟩
  obtain ⟨costs, last, hspends, hunfinished, hstops⟩ := stepFrom_spends (Config.stepBudget_le _) hrun
  obtain ⟨received, m₁, hsingle, hreceived⟩ := hstops.receives
  exact ⟨costs, last, received, m₁, hspends, hunfinished, hsingle, signals_of_singleStep hsingle, hreceived⟩

/-- A ledger that charges the largest word for every object. -/
def dear : Mutator Ledger := { Ledger.mutator with cost := fun _ _ _ => maxWord }

/-- No trace is active, and there is nothing left to mark but a block. A single step marks it, and looks blocked; so
does a step, which puts the next one off. -/
theorem charged_step_looks_blocked : ∃ m m₁ m' : Machine Ledger,
    m.heap.cycle.traceActive = false ∧ m.heap.phase = .propagate ∧
      m.singleStep dear = .ok (.ok stepBlocked, m₁) ∧ m.heap.space.waiting = 1 ∧ m₁.heap.space.waiting = 0 ∧
      m.step dear 3 = .ok (.ok stepBlocked, m') ∧ m'.heap.phase = .propagate ∧
      m'.heap.cycle.threshold = m'.heap.space.total + 1024 ∧ Signals dear m (.ok stepBlocked) m₁ := by
  let config : Config := { hugeThreshold := 1 }
  let start := answerOf (Heap.build config fun _ => 0) (by decide +kernel)
  let program : Ledger := { roots := [.huge 5] }
  obtain ⟨placed, begun, m₁, m', hplaced, hbegun, htrace, hphase, hsingle, hbefore, hafter, hstep, hphase',
      hthreshold⟩ :
      ∃ (placed : Heap) (begun m₁ m' : Machine Ledger),
        start.alloc (.page 5) .udata 24 = .ok (.ok (.huge 5), placed) ∧
        singleSteps dear ⟨program, placed⟩ 1 = .ok begun ∧ begun.heap.cycle.traceActive = false ∧
        begun.heap.phase = .propagate ∧ begun.singleStep dear = .ok (.ok stepBlocked, m₁) ∧
        begun.heap.space.waiting = 1 ∧ m₁.heap.space.waiting = 0 ∧
        begun.step dear 3 = .ok (.ok stepBlocked, m') ∧ m'.heap.phase = .propagate ∧
        m'.heap.cycle.threshold = m'.heap.space.total + 1024 :=
    ⟨_, _, _, _, eq_answerOf_of_fst (by decide +kernel) (by decide +kernel), eq_answerOf (by decide +kernel),
      by decide +kernel, by decide +kernel, eq_answerOf_of_fst (by decide +kernel) (by decide +kernel),
      by decide +kernel, by decide +kernel, eq_answerOf_of_fst (by decide +kernel) (by decide +kernel),
      by decide +kernel, by decide +kernel⟩
  have hsignals := (blocked_or_charged_in_full dear begun).1 _ _ hsingle
  exact ⟨begun, m₁, m', htrace, hphase, hsingle, hbefore, hafter, hstep, hphase', hthreshold, hsignals⟩

end Machine

end Tricolor
