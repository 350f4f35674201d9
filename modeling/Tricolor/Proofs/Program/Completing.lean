import Tricolor.Proofs.Cycle.OpenSteps
import Tricolor.Proofs.Program.Quiet

/-!
# Cycles get completed

When a program is quiet, a machine that is `Ready` for collections stays ready with each step that
the collector takes, and no step fails. Each phase comes to its end: there is less to mark after every
step, fewer buckets and arenas are left to sweep, fewer finalizers are due. So a cycle in progress
`Finishes`, and the loop over its steps answers, given enough fuel.
-/

namespace Tricolor

/-! ## Steps of a quiet program -/

namespace Machine

variable {σ : Type} {mu : Mutator σ} {m m' m₁ : Machine σ} {config : Config} {hashOf : List UInt8 → Hash}
  {result : Except CollectError Nat}

/-- What a step does when finalizers do nothing. -/
inductive Proceeds (mu : Mutator σ) (m : Machine σ) : Machine σ → Prop where
  | collected {m' : Machine σ} : m.heap.phase ≠ .finalize → Collects mu m m' → Proceeds mu m m'
  | finalized {r : Ref} {s : Space} {program : σ} : m.heap.phase = .finalize → (m.heap.space.slot r).pending →
      m.heap.space.Revises s r (m.heap.space.slot r).taken → mu.graph program = mu.graph m.program →
      Proceeds mu m { program, heap := { m.heap with space := s } }
  | completed : m.heap.phase = .finalize → (∀ t, ¬ (m.heap.space.slot t).pending) →
      Proceeds mu m { m with heap := m.heap.enterPause }

/-- A machine on which collections can be carried out. -/
structure Ready (mu : Mutator σ) (config : Config) (hashOf : List UInt8 → Hash) (m : Machine σ) : Prop where
  reachable : Stage.Reachable mu config hashOf ⟨m, Stage.nothing⟩
  inactive : m.heap.cycle.traceActive = false
  stringsPerStep : m.heap.config.stringsPerStep ≤ maxWord / sweepStringCost

namespace Ready

variable (hmu : mu.Quiet) (hm : Ready mu config hashOf m)

include hm

theorem valid (hmu : mu.Faithful) : Stage.Valid mu config hashOf ⟨m, Stage.nothing⟩ := hm.reachable.valid hmu

theorem sound (hmu : mu.Faithful) : m.heap.Sound := (hm.valid hmu).sound

theorem apt (hmu : mu.Faithful) (hp : m.heap.phase.IsMarking) : Apt mu m where
  sound := hm.sound hmu
  marking := hp
  closed := (hm.valid hmu).closed
  recorded := (hm.valid hmu).reachable.recorded
  remembers := hm.reachable.remembers hmu hp

theorem isBlocked : m.isBlocked = false := by
  rw [Machine.isBlocked, hm.inactive, Bool.false_and]

include hmu

/-- One finalizer that is due is taken, and nothing else happens; or none is due, and the cycle ends. -/
theorem finalizeStep (hp : m.heap.phase = .finalize) : ∃ cost m',
    m.finalizeStep mu = .ok (.ok cost, m') ∧ Proceeds mu m m' := by
  have hs := hm.sound hmu.toFaithful
  obtain ⟨r?, s, htake, hspec⟩ := Space.takePendingFinalizer_spec hs.wf fun t ht => hs.listed t (.inr (.inr ht))
  cases r? with
  | none =>
    obtain ⟨rfl, hnone⟩ := hspec
    exact ⟨0, _, bind_eq_ok_iff.2 ⟨_, htake, rfl⟩, .completed hp hnone⟩
  | some r =>
    obtain ⟨program, hrun, hgraph⟩ := hmu.finalizers (mu.suspendHooks m.program true)
      (Heap.setThreshold { m.heap with space := s } maxWord) r
    refine ⟨finalizeCost, _, bind_eq_ok_iff.2 ⟨_, htake, bind_eq_ok_iff.2 ⟨_, hrun, rfl⟩⟩,
      .finalized hp hspec.1 hspec.2 ?_⟩
    rw [hmu.suspendHooks, hgraph, hmu.suspendHooks]

/-- A step leads to a machine on which collections can be carried out. -/
theorem next (hrun : m.singleStep mu = .ok (result, m')) : Proceeds mu m m' ∧ Ready mu config hashOf m' := by
  have hs := hm.sound hmu.toFaithful
  -- a step that runs a finalizer is not one step of a run, but a call
  by_cases hp : m.heap.phase = .finalize
  · obtain ⟨cost, m₁, hrun₁, hproceeds⟩ := hm.finalizeStep hmu hp
    have hstep : m.singleStep mu = m.finalizeStep mu := singleStep_of_finalize hm.isBlocked hp
    rw [hstep, hrun₁] at hrun
    cases hrun
    obtain ⟨l, hpass⟩ := (hmu.orderly config hashOf).call hm.reachable (.singleStep (hstep.trans hrun₁))
    refine ⟨hproceeds, hm.reachable.passes hpass, ?_, ?_⟩
    · cases hproceeds with
      | collected hnot => exact absurd hp hnot
      | finalized | completed => exact hm.inactive
    · cases hproceeds with
      | collected hnot => exact absurd hp hnot
      | finalized | completed => exact hm.stringsPerStep
  · have hcollects := collects_singleStep hmu.toFaithful hs hp (hm.valid hmu.toFaithful).closed hrun
    obtain ⟨hconfig, htrace⟩ := hcollects.settings hs
    exact ⟨.collected hp hcollects, hm.reachable.step (.collect hp hrun), htrace.trans hm.inactive,
      hconfig ▸ hm.stringsPerStep⟩

/-- A cycle begins. -/
theorem starts (hp : m.heap.phase = .pause) : ∃ m', m.singleStep mu = .ok (.ok 0, m') ∧ m'.heap.phase = .propagate := by
  have hs := hm.sound hmu.toFaithful
  obtain ⟨m₁, hroots⟩ := @markRoots_spec _ mu { m with heap := m.heap.clearCycle }
    (hs.congr rfl rfl rfl rfl rfl rfl rfl hs.config) fun r hr => ((hm.valid hmu.toFaithful).closed.root hr).holds
  have hstep := OpenStep.started hp (bind_eq_ok_iff.2 ⟨m₁, hroots, rfl⟩)
  exact ⟨_, hstep.run, rfl⟩

/-- A step of the marking succeeds. -/
theorem propagates (hp : m.heap.phase = .propagate) : ∃ cost m', m.singleStep mu = .ok (.ok cost, m') ∧
    (m'.heap.phase = .atomic ∨ m'.heap.phase = .propagate ∧ m'.heap.space.load < m.heap.space.load) := by
  obtain ⟨cost, m', hrun, hor⟩ := (Apt.sustains hmu.toFaithful).propagatesStep (hm.apt hmu.toFaithful (.inl hp))
  exact ⟨cost, m', (OpenStep.propagated hp hrun).run, hp ▸ hor⟩

/-- The atomic step succeeds. -/
theorem atomic (hp : m.heap.phase = .atomic) : ∃ cost m', m.singleStep mu = .ok (.ok cost, m') ∧
    m'.heap.phase = .sweepStrings := by
  obtain ⟨cost, m', hrun⟩ := (Apt.concludes hmu).atomicStep (hm.apt hmu.toFaithful (.inr hp))
  refine ⟨cost, m', ?_, (atomicStep_eq_ok (hm.sound hmu.toFaithful) hp hrun).2⟩
  rw [singleStep_of_atomic hm.isBlocked hp, hrun]
  rfl

/-- Sweeping strings succeeds. -/
theorem sweepsStrings (hp : m.heap.phase = .sweepStrings) : ∃ cost,
    m.singleStep mu = .ok (.ok cost, { m with heap := m.heap.sweptStrings }) := by
  obtain ⟨cost, hrun⟩ := (hm.sound hmu.toFaithful).sweepStringsStep_spec hm.stringsPerStep
  exact ⟨cost, (OpenStep.sweptStrings hp hrun).run⟩

/-- Sweeping the space succeeds. -/
theorem sweeps (hp : m.heap.phase = .sweep) : ∃ cost h, m.singleStep mu = .ok (.ok cost, { m with heap := h }) ∧
    (h.phase = .finalize ∨ h.phase = .sweep ∧ h.sweepsLeft < m.heap.sweepsLeft) := by
  have hs := hm.sound hmu.toFaithful
  obtain ⟨cost, h, hrun, -⟩ := Heap.sweepStep_spec hs hp
  exact ⟨cost, h, (OpenStep.swept hp hrun).run, hs.sweepsLeft_lt hp hrun⟩

end Ready

/-! ## Cycles in progress -/

/-- Single steps lead from a machine to the end of the cycle in progress, if there is one. -/
abbrev Finishes (mu : Mutator σ) (m m' : Machine σ) : Prop := Ends mu m (.ok ()) m'

/-- What each step keeps holds at the end of the cycle. -/
theorem Finishes.induction {P : Machine σ → Prop} (hmu : mu.Quiet) (h : Finishes mu m m')
    (hm : Ready mu config hashOf m) (hstart : P m)
    (hstep : ∀ m m₁, Ready mu config hashOf m → m.heap.phase ≠ .pause → P m → Proceeds mu m m₁ → P m₁) :
    Ready mu config hashOf m' ∧ m'.heap.phase = .pause ∧ P m' := by
  rw [Finishes] at h
  generalize hok : Except.ok () = result at h
  induction h with
  | pause hp => exact ⟨hm, hp, hstart⟩
  | failed => cases hok
  | step hp hrun _ ih =>
    obtain ⟨hproceeds, hm₁⟩ := hm.next hmu hrun
    exact ih hm₁ (hstep _ _ hm hp hstart hproceeds) hok

namespace Ready

/-- A phase ends if every step of it leaves less to do or leads to the next phase. -/
theorem finishes_of_lt (left : Machine σ → Nat) {p q : Phase} (hp : p ≠ .pause)
    (hnext : ∀ {m}, Ready mu config hashOf m → m.heap.phase = q → ∃ m', Finishes mu m m')
    (hstep : ∀ {m}, Ready mu config hashOf m → m.heap.phase = p → ∃ cost m₁,
      m.singleStep mu = .ok (.ok cost, m₁) ∧ (m₁.heap.phase = q ∨ m₁.heap.phase = p ∧ left m₁ < left m))
    (hmu : mu.Quiet) : ∀ {n : Nat} {m : Machine σ}, left m < n → Ready mu config hashOf m → m.heap.phase = p →
      ∃ m', Finishes mu m m' := by
  intro n
  induction n with
  | zero => exact fun hn => absurd hn (Nat.not_lt_zero _)
  | succ n ih =>
    intro m hn hm hphase
    obtain ⟨cost, m₁, hrun, hor⟩ := hstep hm hphase
    have hm₁ := (hm.next hmu hrun).2
    have hrest : ∃ m', Finishes mu m₁ m' := by
      rcases hor with hq | ⟨hsame, hlt⟩
      · exact hnext hm₁ hq
      · exact ih (by omega) hm₁ hsame
    obtain ⟨m', hfinishes⟩ := hrest
    exact ⟨m', .step (hphase ▸ hp) hrun hfinishes⟩

/-- Finalizers that are due become fewer, until none is. -/
theorem finishes_finalize (hmu : mu.Quiet) : ∀ {n : Nat} {m : Machine σ} (due : List Ref), due.length < n →
    (∀ t, (m.heap.space.slot t).pending → t ∈ due) → Ready mu config hashOf m → m.heap.phase = .finalize →
    ∃ m', Finishes mu m m' := by
  intro n
  induction n with
  | zero => exact fun _ hn => absurd hn (Nat.not_lt_zero _)
  | succ n ih =>
    intro m due hn hdue hm hp
    obtain ⟨cost, m₁, hrun, hproceeds⟩ := hm.finalizeStep hmu hp
    have hrun := (singleStep_of_finalize hm.isBlocked hp).trans hrun
    have hm₁ := (hm.next hmu hrun).2
    have hne : m.heap.phase ≠ .pause := by
      rw [hp]
      exact Phase.noConfusion
    cases hproceeds with
    | collected hnot => exact absurd hp hnot
    | completed => exact ⟨_, .step hne hrun (.pause rfl)⟩
    | @finalized r s program _ hpending hrev _ =>
      have hmem := hdue r hpending
      have hfewer : (due.erase r).length < n := by
        have hpos := List.length_pos_of_mem hmem
        rw [List.length_erase_of_mem hmem]
        omega
      -- the object that was taken is not due any more, and the others still are
      have hrest : ∀ t, (s.slot t).pending → t ∈ due.erase r := by
        intro t ht
        by_cases htr : t = r
        · rw [htr, hrev.slot_self] at ht
          exact ht.elim
        · rw [hrev.slot_ne htr] at ht
          exact (List.mem_erase_of_ne htr).2 (hdue t ht)
      obtain ⟨m', hfinishes⟩ := ih (due.erase r) hfewer hrest hm₁ hp
      exact ⟨m', .step hne hrun hfinishes⟩

/-- Whatever cycle is in progress, single steps lead to its end. -/
theorem finishes (hmu : mu.Quiet) (hm : Ready mu config hashOf m) : ∃ m', Finishes mu m m' := by
  -- the last phase first, as each phase leads to the next one
  have hfinalize : ∀ {m : Machine σ}, Ready mu config hashOf m → m.heap.phase = .finalize →
      ∃ m', Finishes mu m m' := fun {m} hm hp => by
    have hs := hm.sound hmu.toFaithful
    exact finishes_finalize hmu m.heap.space.objects (Nat.lt_succ_self _)
      (fun t ht => (Space.mem_objects hs.wf).2 (hs.listed t (.inr (.inr ht)))) hm hp
  have hsweep : ∀ {m : Machine σ}, Ready mu config hashOf m → m.heap.phase = .sweep → ∃ m', Finishes mu m m' :=
    fun hm hp => finishes_of_lt (fun m => m.heap.sweepsLeft) Phase.noConfusion hfinalize
      (fun hm hp => by
        obtain ⟨cost, h, hrun, hor⟩ := hm.sweeps hmu hp
        exact ⟨cost, _, hrun, hor⟩) hmu (Nat.lt_succ_self _) hm hp
  have hstrings : ∀ {m : Machine σ}, Ready mu config hashOf m → m.heap.phase = .sweepStrings →
      ∃ m', Finishes mu m m' :=
    fun hm hp => finishes_of_lt (fun m => m.heap.strings.bucketCount - m.heap.cycle.stringsCursor)
      Phase.noConfusion hsweep
      (fun hm hp => by
        obtain ⟨cost, hrun⟩ := hm.sweepsStrings hmu hp
        exact ⟨cost, _, hrun, (hm.sound hmu.toFaithful).bucketsLeft_lt hp⟩) hmu (Nat.lt_succ_self _) hm hp
  have hatomic : ∀ {m : Machine σ}, Ready mu config hashOf m → m.heap.phase = .atomic → ∃ m', Finishes mu m m' :=
    fun hm hp => finishes_of_lt (fun _ => 0) Phase.noConfusion hstrings
      (fun hm hp => by
        obtain ⟨cost, m₁, hrun, hphase⟩ := hm.atomic hmu hp
        exact ⟨cost, m₁, hrun, .inl hphase⟩) hmu (Nat.lt_succ_self _) hm hp
  cases hp : m.heap.phase with
  | pause => exact ⟨m, .pause hp⟩
  | propagate =>
    exact finishes_of_lt (fun m => m.heap.space.load) Phase.noConfusion hatomic
      (fun hm hp => hm.propagates hmu hp) hmu (Nat.lt_succ_self _) hm hp
  | atomic => exact hatomic hm hp
  | sweepStrings => exact hstrings hm hp
  | sweep => exact hsweep hm hp
  | finalize => exact hfinalize hm hp

end Ready

end Machine

end Tricolor
