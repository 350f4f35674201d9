import Tricolor.Proofs.Cycle.Finishing
import Tricolor.Proofs.Cycle.Sweeping

/-!
# Runs of a machine

A machine is reachable if operations of the program and steps of the collector lead to it, in
any order. A finalizer is itself a piece of the run: it begins when the object is taken from
those that are due, and ends when the threshold is set again, so operations and steps inside
finalizers are covered as well.
-/

namespace Tricolor

namespace Heap

variable {h : Heap}

/-- A configuration that was accepted has the settings on which the collector relies. -/
theorem usable_of_validate {config : Config} (hv : config.validate = .ok ()) : config.Usable := by
  rw [Config.validate] at hv
  split at hv
  · cases hv
  · next hnone =>
    have hpos : ∀ setting ∈ Setting.all, 0 < setting.value config := by
      intro setting hmem
      have := List.find?_eq_none.1 hnone setting hmem
      exact Nat.pos_of_ne_zero (by simpa using this)
    split at hv
    · cases hv
    · next hle =>
      exact ⟨hpos .greyBatch (by decide), hpos .stringsPerStep (by decide), not_lt.1 hle⟩

/-- A heap that a configuration is accepted for. -/
theorem eq_of_withConfig {config : Config} {hashOf : List UInt8 → Hash}
    (hh : Heap.withConfig config hashOf = .ok (.ok h)) :
    config.validate = .ok () ∧ h =
      { space := .empty
        strings := .empty
        cycle := .initial initialThreshold
        stores := ⟨#[], config.storeBufferLength⟩
        config
        hashOf } := by
  rw [withConfig] at hh
  split at hh
  · cases hh
  · next hvalidate =>
    obtain ⟨h₀, hbuild, hret⟩ := bind_eq_ok_iff.1 hh
    cases hret
    rw [build] at hbuild
    obtain ⟨stores, hstores, hret⟩ := bind_eq_ok_iff.1 hbuild
    cases hret
    obtain ⟨-, rfl⟩ := StoreBuffer.withCapacity_eq_ok_iff.1 hstores
    exact ⟨hvalidate, rfl⟩

/-- A heap without objects is sound. -/
theorem sound_of_withConfig {config : Config} {hashOf : List UInt8 → Hash}
    (hh : Heap.withConfig config hashOf = .ok (.ok h)) :
    h.Sound ∧ h.phase = .pause ∧ h.stores.entries = #[] ∧ h.config = config ∧
      ∀ r, h.space.slot r = .blank := by
  obtain ⟨hvalidate, rfl⟩ := eq_of_withConfig hh
  have hblank : ∀ r, Space.empty.slot r = .blank := Space.slot_empty
  refine ⟨?_, rfl, rfl, rfl, hblank⟩
  exact
    { wf := Space.wf_empty
      admits := fun r => by
        show Phase.Admits _ (Space.empty.slot r)
        rw [hblank]
        exact
          { size := fun {e} he => by cases he
            fixed := fun {e} he => by cases he
            registered := fun {e} he => by cases he
            listed := fun hor => by rcases hor with hf | hi | hp <;> exact False.elim ‹_›
            queued := fun hq => hq.elim
            marked := fun {e} he => by cases he }
      strings := InternTable.wf_empty
      linked := fun {hash r} hmem => by cases hmem
      flags :=
        { idle := fun _ => ⟨rfl, fun _ => rfl⟩
          huge := fun hor => by rcases hor with hq | ⟨hq, -⟩ <;> cases hq
          passed := fun hq => by cases hq }
      stores := fun _ => rfl
      config := usable_of_validate hvalidate }

/-! ## Beginning a cycle -/

/-- Outside marking nothing is recorded. -/
theorem Sound.recorded (hs : h.Sound) (hp : ¬ h.phase.IsMarking) : h.Recorded :=
  ⟨fun r hr => absurd (hs.stores hp ▸ hr) (Array.not_mem_empty r), fun hmarking => absurd hmarking hp⟩

/-- A cycle can begin. -/
theorem Sound.begins (hs : h.Sound) (hp : h.phase = .pause) : (h.clearCycle.enter .propagate).Sound := by
  refine hs.setCycle (fun _ => .inl rfl) (by rw [hp]; exact Phase.noConfusion) ?_
  refine
    { idle := fun _ => hs.flags.idle (by rw [show h.cycle.phase = .pause from hp]; decide)
      huge := fun hor => by rcases hor with hq | ⟨hq, -⟩ <;> cases hq
      passed := fun hq => by cases hq }

/-- Marking goes on to its last step. -/
theorem Sound.enterAtomic (hs : h.Sound) (hp : h.phase.IsMarking) : (h.enter .atomic).Sound := by
  refine hs.setCycle (fun _ => .inr rfl) (by rintro hq; rw [hq] at hp; revert hp; decide) ?_
  refine
    { idle := fun _ => hs.flags.idle (Phase.not_isSweeping hp)
      huge := fun hor => by rcases hor with hq | ⟨hq, -⟩ <;> cases hq
      passed := fun hq => by cases hq }

theorem Sound.setThreshold (hs : h.Sound) (threshold : Nat) : (h.setThreshold threshold).Sound :=
  hs.congr rfl rfl rfl rfl rfl rfl rfl hs.config

end Heap

namespace Machine

variable {σ : Type} {mu : Mutator σ} {allowed : Heap.Resizings} {m m' m'' : Machine σ} {cost : Nat}

/-- The first step of a cycle marks the roots, and the objects that are fixed or due. -/
theorem startCycle_eq_ok (hs : m.heap.Sound) (hp : m.heap.phase = .pause) (hrun : m.startCycle mu = .ok m') :
    ∃ s', m' = { program := (mu.roots m.program).2
                 heap := { (m.heap.clearCycle.enter .propagate) with space := s' } } ∧
      m'.heap.Sound ∧ m.heap.space.Shades ((mu.roots m.program).1 ++ m.heap.space.fixedRoots) s' ∧
      ∀ r ∈ (mu.roots m.program).1, m.heap.space.Holds r := by
  rw [startCycle] at hrun
  obtain ⟨m₁, hroots, hret⟩ := bind_eq_ok_iff.1 hrun
  cases hret
  obtain ⟨s', rfl, hshades, hall⟩ := markRoots_eq_ok (m := { m with heap := m.heap.clearCycle }) hs.wf
    (fun t ht => hs.listed t (ht.imp_right .inr)) hroots
  exact ⟨s', rfl, (hs.begins hp).shades (.inl rfl) hshades, hshades, hall⟩

/-- What one step of the marking makes of a machine: objects are traversed, or nothing waits
and marking is ready to be finished. -/
inductive Propagates (mu : Mutator σ) (m : Machine σ) : Machine σ → Prop where
  | ready {h : Heap} : m.heap.drainIfAny = .ok h → h.space.waiting = 0 →
      Propagates mu m { m with heap := h.enter .atomic }
  | batch {h : Heap} {source : GreySource} {cost : Nat} {m' : Machine σ} : m.heap.drainIfAny = .ok h →
      h.space.deepestGrey = some source →
      traverseBatch mu source { m with heap := h } 0 h.config.greyBatch = .ok (cost, m') →
      Propagates mu m m'

theorem propagateStep_eq_ok (hrun : m.propagateStep mu = .ok (cost, m')) : Propagates mu m m' := by
  rw [propagateStep] at hrun
  obtain ⟨h, hdrain, hrun⟩ := bind_eq_ok_iff.1 hrun
  have hdeepest := Space.deepestGrey_spec h.space
  cases hsource : h.space.deepestGrey with
  | none =>
    simp only [hsource] at hrun hdeepest
    cases hrun
    exact .ready hdrain hdeepest
  | some source =>
    simp only [hsource] at hrun
    exact .batch hdrain hsource hrun

/-- The steps of a cycle, phase by phase. -/
inductive SingleSteps (mu : Mutator σ) (m : Machine σ) :
    Except CollectError Nat → Machine σ → Prop where
  | blocked : SingleSteps mu m (.ok stepBlocked) m
  | started {m' : Machine σ} : m.heap.phase = .pause → m.startCycle mu = .ok m' →
      SingleSteps mu m (.ok 0) m'
  | propagated {cost : Nat} {m' : Machine σ} : m.heap.phase = .propagate →
      m.propagateStep mu = .ok (cost, m') → SingleSteps mu m (.ok cost) m'
  | finished {cost : Nat} {m' : Machine σ} : m.heap.phase = .atomic →
      m.atomicStep mu = .ok (cost, m') → SingleSteps mu m (.ok cost) m'
  | sweptStrings {cost : Nat} {h : Heap} : m.heap.phase = .sweepStrings →
      m.heap.sweepStringsStep = .ok (cost, h) → SingleSteps mu m (.ok cost) { m with heap := h }
  | swept {cost : Nat} {h : Heap} : m.heap.phase = .sweep → m.heap.sweepStep = .ok (cost, h) →
      SingleSteps mu m (.ok cost) { m with heap := h }
  | finalized {result : Except CollectError Nat} {m' : Machine σ} : m.heap.phase = .finalize →
      m.finalizeStep mu = .ok (result, m') → SingleSteps mu m result m'

theorem succeed_eq_ok {x : Except Fault (Nat × Machine σ)} {result : Except CollectError Nat}
    (hx : succeed <$> x = .ok (result, m')) : ∃ cost, result = .ok cost ∧ x = .ok (cost, m') := by
  cases x with
  | error => cases hx
  | ok p =>
    cases hx
    exact ⟨p.1, rfl, rfl⟩

theorem singleStep_eq_ok {result : Except CollectError Nat} (hrun : m.singleStep mu = .ok (result, m')) :
    SingleSteps mu m result m' := by
  rw [singleStep] at hrun
  split at hrun
  · cases hrun
    exact .blocked
  · split at hrun
    · next hp =>
      obtain ⟨m₁, hstart, hret⟩ := bind_eq_ok_iff.1 hrun
      cases hret
      exact .started hp hstart
    · next hp =>
      obtain ⟨cost, rfl, hx⟩ := succeed_eq_ok hrun
      exact .propagated hp hx
    · next hp =>
      obtain ⟨cost, rfl, hx⟩ := succeed_eq_ok hrun
      exact .finished hp hx
    · next hp =>
      obtain ⟨⟨cost, h⟩, hstep, hret⟩ := bind_eq_ok_iff.1 hrun
      cases hret
      exact .sweptStrings hp hstep
    · next hp =>
      obtain ⟨⟨cost, h⟩, hstep, hret⟩ := bind_eq_ok_iff.1 hrun
      cases hret
      exact .swept hp hstep
    · next hp => exact .finalized hp hrun

/-- A step that is blocked does nothing. -/
theorem singleStep_of_isBlocked (hblocked : m.isBlocked = true) (mu : Mutator σ) :
    m.singleStep mu = .ok (.ok stepBlocked, m) := by
  rw [singleStep, if_pos hblocked]
  rfl

theorem singleStep_of_atomic (hfree : m.isBlocked = false) (hp : m.heap.phase = .atomic) :
    m.singleStep mu = succeed <$> m.atomicStep mu := by
  rw [singleStep, hfree, hp]
  rfl

theorem singleStep_of_finalize (hfree : m.isBlocked = false) (hp : m.heap.phase = .finalize) :
    m.singleStep mu = m.finalizeStep mu := by
  rw [singleStep, hfree, hp]
  rfl

/-- In the last phase a step is blocked, or runs a finalizer or completes the cycle. -/
theorem SingleSteps.of_finalize {result : Except CollectError Nat} (h : SingleSteps mu m result m')
    (hp : m.heap.phase = .finalize) : m' = m ∨ m.finalizeStep mu = .ok (result, m') := by
  cases h with
  | blocked => exact .inl rfl
  | finalized _ hrun => exact .inr hrun
  | started hq => rw [hp] at hq; cases hq
  | propagated hq => rw [hp] at hq; cases hq
  | finished hq => rw [hp] at hq; cases hq
  | sweptStrings hq => rw [hp] at hq; cases hq
  | swept hq => rw [hp] at hq; cases hq

/-! ## Runs -/

/-- One step of a run: the program computes or changes its heap, or the collector does a step. -/
inductive Step (mu : Mutator σ) (allowed : Heap.Resizings) (m : Machine σ) : Machine σ → Prop where
  | compute (program : σ) : Step mu allowed m { m with program }
  | operate {h : Heap} : Heap.Operation allowed m.heap h → Step mu allowed m { m with heap := h }
  | setThreshold (threshold : Nat) : Step mu allowed m { m with heap := m.heap.setThreshold threshold }
  | collect {result : Except CollectError Nat} {m' : Machine σ} : m.heap.phase ≠ .finalize →
      m.singleStep mu = .ok (result, m') → Step mu allowed m m'
  /-- a finalizer begins -/
  | finalize {r : Ref} {s : Space} : m.heap.phase = .finalize →
      m.heap.space.takePendingFinalizer = .ok (some r, s) →
      Step mu allowed m { m with heap := { m.heap with space := s } }
  | complete {s : Space} : m.heap.phase = .finalize → m.heap.space.takePendingFinalizer = .ok (none, s) →
      Step mu allowed m { m with heap := Heap.enterPause { m.heap with space := s } }

/-- The machines that runs lead to. -/
inductive Reachable (mu : Mutator σ) (allowed : Heap.Resizings) (config : Config)
    (hashOf : List UInt8 → Hash) : Machine σ → Prop where
  | initial (program : σ) {h : Heap} : Heap.withConfig config hashOf = .ok (.ok h) →
      Reachable mu allowed config hashOf { program, heap := h }
  | step {m m' : Machine σ} : Reachable mu allowed config hashOf m → Step mu allowed m m' →
      Reachable mu allowed config hashOf m'

/-- What a step keeps: the heap is sound, no finalizer is due before marking has ended, and if
the allowed resizings strand nothing, what is recorded is allocated. -/
structure Keeps (allowed : Heap.Resizings) (m m' : Machine σ) : Prop where
  sound : m'.heap.Sound
  undue : m.heap.Undue → m'.heap.Undue
  recorded : (∀ h r size moved, allowed h r size moved → ¬ Heap.Strands h r size moved) →
    m.heap.Recorded → m'.heap.Recorded

/-- A step to a phase in which nothing is marked. -/
theorem Keeps.of_sound (hs : m'.heap.Sound) (hp : ¬ m'.heap.phase.IsMarking)
    (hpause : m'.heap.phase = .pause → ∀ t, ¬ (m'.heap.space.slot t).pending) : Keeps allowed m m' where
  sound := hs
  undue _ hor := hor.elim hpause fun hmarking => absurd hmarking hp
  recorded _ _ := hs.recorded hp

theorem Keeps.of_maintains (hm : m.heap.Maintains m'.heap) : Keeps allowed m m' where
  sound := hm.sound
  undue := hm.toKeeps.undue
  recorded _ := hm.recorded

theorem Propagates.keeps (hs : m.heap.Sound) (hp : m.heap.phase = .propagate) (hstep : Propagates mu m m') :
    Keeps allowed m m' := by
  have hmarking : m.heap.phase.IsMarking := .inl hp
  cases hstep with
  | @ready h hdrain _ =>
    obtain ⟨hm, hempty⟩ := Heap.Marks.drainIfAny hs hmarking hdrain
    have hstores : h.stores.entries = #[] := Array.isEmpty_iff.1 hempty
    have hp₁ : h.phase.IsMarking := hm.phase ▸ hmarking
    refine ⟨hm.sound.enterAtomic hp₁, fun hundue _ => hm.toKeeps.undue hundue (.inr hp₁), fun _ hr => ?_⟩
    exact ⟨(hm.recorded hr).1, fun _ => (hm.recorded hr).2 hp₁⟩
  | @batch h source cost m' hdrain hsource hrun =>
    obtain ⟨hm, -⟩ := Heap.Marks.drainIfAny hs hmarking hdrain
    exact .of_maintains ((stable_marks hmarking).traverseBatch (m := ⟨m.program, h⟩) hm hrun).toMaintains

/-- What the phases of a cycle keep. -/
theorem SingleSteps.keeps {result : Except CollectError Nat} (hs : m.heap.Sound)
    (hp : m.heap.phase ≠ .finalize) (hstep : SingleSteps mu m result m') : Keeps allowed m m' := by
  cases hstep with
  | blocked => exact .of_maintains (.refl hs)
  | started hpause hstart =>
    obtain ⟨s', rfl, hs', hshades, -⟩ := startCycle_eq_ok hs hpause hstart
    refine ⟨hs', fun hundue _ t => ?_, fun _ hr => ⟨fun r hmem => ?_, fun _ r hmem => by cases hmem⟩⟩
    · rw [hshades.advances.pending]
      exact hundue (.inl hpause) t
    · exact hshades.holds.2 (hr.1 r hmem)
  | propagated hpropagate hrun => exact (propagateStep_eq_ok hrun).keeps hs hpropagate
  | finished hatomic hrun =>
    obtain ⟨hs', hphase⟩ := atomicStep_eq_ok hs hatomic hrun
    exact .of_sound hs' (by rw [hphase]; decide) (by rw [hphase]; exact Phase.noConfusion)
  | @sweptStrings cost h hstrings hrun =>
    have hs' := hs.sweptStrings hstrings
    have hphase : h.phase.IsSweeping := by
      rw [Heap.sweepStringsStep_eq_ok hrun, Heap.phase, hs.cycle_sweptStrings]
      split
      · exact .inr rfl
      · exact .inl hstrings
    rw [← Heap.sweepStringsStep_eq_ok hrun] at hs'
    refine .of_sound hs' (fun hmarking => Heap.Phase.not_isSweeping hmarking hphase) fun hpause => ?_
    rw [show h.phase = .pause from hpause] at hphase
    exact absurd hphase (by decide)
  | @swept cost h hsweep hrun =>
    obtain ⟨_, _, hrun', hsweeps⟩ := Heap.sweepStep_spec hs hsweep
    rw [hrun] at hrun'
    cases hrun'
    have hs' := hsweeps.sound hs hsweep
    have hphase : h.phase = .sweep ∨ h.phase = .finalize := by
      cases hsweeps with
      | swept => exact .inl hsweep
      | finished => exact .inr rfl
    refine .of_sound hs' (fun hmarking => ?_) fun hpause => ?_
    · rcases hphase with hq | hq <;> rw [show h.phase = _ from hq] at hmarking <;> revert hmarking <;> decide
    · rcases hphase with hq | hq <;> rw [show h.phase = _ from hq] at hpause <;> cases hpause
  | finalized hfinalize => exact absurd hfinalize hp

/-- What one step of a run keeps. -/
theorem Step.keeps (hs : m.heap.Sound) (hstep : Step mu allowed m m') : Keeps allowed m m' := by
  have hlisted : ∀ t, (m.heap.space.slot t).pending → m.heap.space.Holds t :=
    fun t ht => hs.listed t (.inr (.inr ht))
  cases hstep with
  | compute => exact .of_maintains (.refl hs)
  | operate hop =>
    obtain ⟨hk, hrec⟩ := hop.keeps hs
    exact ⟨hk.sound, hk.undue, fun hallowed => hrec (hallowed m.heap)⟩
  | setThreshold threshold =>
    exact .of_maintains ⟨⟨hs.setThreshold threshold, rfl, fun t ht => ⟨t, ht⟩⟩, id⟩
  | collect hp hrun => exact (singleStep_eq_ok hrun).keeps hs hp
  | finalize hp hrun =>
    obtain ⟨r?, s', hrun', hspec⟩ := Space.takePendingFinalizer_spec hs.wf hlisted
    rw [hrun] at hrun'
    cases hrun'
    refine .of_sound (hs.taken hspec.1 hspec.2) (fun hmarking => ?_) fun hpause => ?_
    · have hmarking : m.heap.phase.IsMarking := hmarking
      rw [hp] at hmarking
      exact absurd hmarking (by decide)
    · rw [show m.heap.phase = .pause from hpause] at hp
      cases hp
  | complete hp hrun =>
    obtain ⟨r?, s', hrun', hspec⟩ := Space.takePendingFinalizer_spec hs.wf hlisted
    rw [hrun] at hrun'
    cases hrun'
    obtain ⟨rfl, hnone⟩ := hspec
    obtain ⟨hs', hrel⟩ := hs.enterPause hp
    exact .of_sound hs' (by rintro (hq | hq) <;> cases hq) fun _ t => by rw [hrel.slot]; exact hnone t

variable {config : Config} {hashOf : List UInt8 → Hash}

/-- The invariant of a run. -/
theorem Reachable.keeps (hm : Reachable mu allowed config hashOf m) : m.heap.Sound ∧ m.heap.Undue ∧
    ((∀ h r size moved, allowed h r size moved → ¬ Heap.Strands h r size moved) → m.heap.Recorded) := by
  induction hm with
  | initial _ hh =>
    obtain ⟨hs, hp, -, -, hblank⟩ := Heap.sound_of_withConfig hh
    have hnot : ∀ {h : Heap}, h.phase = .pause → ¬ h.phase.IsMarking := fun hp => by rw [hp]; decide
    refine ⟨hs, fun _ t ht => ?_, fun _ => hs.recorded (hnot hp)⟩
    rw [hblank] at ht
    exact ht
  | step _ hstep ih =>
    obtain ⟨hs, hundue, hrec⟩ := ih
    have hk := hstep.keeps hs
    exact ⟨hk.sound, hk.undue hundue, fun hallowed => hk.recorded hallowed (hrec hallowed)⟩

theorem Reachable.sound (hm : Reachable mu allowed config hashOf m) : m.heap.Sound := hm.keeps.1

theorem Reachable.undue (hm : Reachable mu allowed config hashOf m) : m.heap.Undue := hm.keeps.2.1

theorem Reachable.recorded (hm : Reachable mu Heap.unstranded config hashOf m) : m.heap.Recorded :=
  hm.keeps.2.2 fun _ _ _ _ => id

/-! ## The calls of a program -/

/-- A property that holds through a collection if its steps and the finalizers keep it. -/
structure Kept (mu : Mutator σ) (P : Machine σ → Prop) : Prop where
  collect : ∀ {m m' : Machine σ} {result : Except CollectError Nat}, P m → m.heap.phase ≠ .finalize →
    m.singleStep mu = .ok (result, m') → P m'
  finalize : ∀ {m : Machine σ} {r : Ref} {s : Space} {result : Except String Unit} {program : σ} {h : Heap},
    P m → m.heap.phase = .finalize → m.heap.space.takePendingFinalizer = .ok (some r, s) →
    mu.runFinalizer (mu.suspendHooks m.program true) (Heap.setThreshold { m.heap with space := s } maxWord) r =
      .ok (result, program, h) →
    P { program := mu.suspendHooks program false, heap := h.setThreshold m.heap.cycle.threshold }
  complete : ∀ {m : Machine σ} {s : Space}, P m → m.heap.phase = .finalize →
    m.heap.space.takePendingFinalizer = .ok (none, s) →
    P { m with heap := Heap.enterPause { m.heap with space := s } }
  setThreshold : ∀ {m : Machine σ} (threshold : Nat), P m →
    P { m with heap := m.heap.setThreshold threshold }

/-- A property that holds through a collection if its single steps keep it, whatever they do, and
putting off the next step does. -/
structure Stepwise (mu : Mutator σ) (P : Machine σ → Prop) : Prop where
  singleStep : ∀ {m m' : Machine σ} {result : Except CollectError Nat}, P m →
    m.singleStep mu = .ok (result, m') → P m'
  setThreshold : ∀ {m : Machine σ} (threshold : Nat), P m →
    P { m with heap := m.heap.setThreshold threshold }

variable {P : Machine σ → Prop}

theorem Stepwise.stepFrom (hP : Stepwise mu P) {budget : Nat} :
    ∀ {n done : Nat} {m m' : Machine σ} {result : Except CollectError Nat}, P m →
      m.stepFrom mu budget done n = .ok (result, m') → P m' := by
  intro n
  induction n with
  | zero =>
    intro done m m' result _ hrun
    cases hrun
  | succ n ih =>
    intro done m m' result hm hrun
    rw [Machine.stepFrom] at hrun
    obtain ⟨⟨result₁, m₁⟩, hsingle, hrun⟩ := bind_eq_ok_iff.1 hrun
    have hm₁ := hP.singleStep hm hsingle
    cases result₁ with
    | error e =>
      cases hrun
      exact hm₁
    | ok cost =>
      simp only at hrun
      split at hrun
      · cases hrun
        exact hP.setThreshold _ hm₁
      · split at hrun
        · cases hrun
          exact hm₁
        · split at hrun
          · cases hrun
            exact hP.setThreshold _ hm₁
          · exact ih hm₁ hrun

theorem Stepwise.step (hP : Stepwise mu P) (hm : P m) {fuel : Nat} {result : Except CollectError Nat}
    (hrun : m.step mu fuel = .ok (result, m')) : P m' :=
  hP.stepFrom hm hrun

theorem Stepwise.checkStep (hP : Stepwise mu P) (hm : P m) {fuel : Nat} {result : Except CollectError Bool}
    (hrun : m.checkStep mu fuel = .ok (result, m')) : P m' := by
  rw [Machine.checkStep] at hrun
  split at hrun
  · obtain ⟨⟨result₁, m₁⟩, hstep, hret⟩ := bind_eq_ok_iff.1 hrun
    cases hret
    exact hP.step hm hstep
  · cases hrun
    exact hm

theorem Stepwise.finishCycle (hP : Stepwise mu P) :
    ∀ {n : Nat} {m m' : Machine σ} {result : Except CollectError Unit}, P m →
      m.finishCycle mu n = .ok (result, m') → P m' := by
  intro n
  induction n with
  | zero =>
    intro m m' result _ hrun
    cases hrun
  | succ n ih =>
    intro m m' result hm hrun
    rw [Machine.finishCycle] at hrun
    split at hrun
    · cases hrun
      exact hm
    · obtain ⟨⟨result₁, m₁⟩, hsingle, hrun⟩ := bind_eq_ok_iff.1 hrun
      have hm₁ := hP.singleStep hm hsingle
      cases result₁ with
      | error e =>
        cases hrun
        exact hm₁
      | ok => exact ih hm₁ hrun

theorem Stepwise.fullCollect (hP : Stepwise mu P) (hm : P m) {fuel : Nat} {result : Except CollectError Unit}
    (hrun : m.fullCollect mu fuel = .ok (result, m')) : P m' := by
  rw [Machine.fullCollect] at hrun
  split at hrun
  · cases hrun
    exact hm
  · obtain ⟨⟨result₁, m₁⟩, hfinish, hrun⟩ := bind_eq_ok_iff.1 hrun
    have hm₁ := hP.finishCycle hm hfinish
    cases result₁ with
    | error e =>
      cases hrun
      exact hm₁
    | ok =>
      obtain ⟨⟨result₂, m₂⟩, hsingle, hrun⟩ := bind_eq_ok_iff.1 hrun
      have hm₂ := hP.singleStep hm₁ hsingle
      cases result₂ with
      | error e =>
        cases hrun
        exact hm₂
      | ok => exact hP.finishCycle hm₂ hrun

theorem Kept.finalizeStep (hP : Kept mu P) (hm : P m) (hp : m.heap.phase = .finalize)
    {result : Except CollectError Nat} (hrun : m.finalizeStep mu = .ok (result, m')) : P m' := by
  rw [Machine.finalizeStep] at hrun
  obtain ⟨⟨r?, s⟩, htake, hrun⟩ := bind_eq_ok_iff.1 hrun
  cases r? with
  | none =>
    cases hrun
    exact hP.complete hm hp htake
  | some r =>
    obtain ⟨⟨result', program, h⟩, hfinalizer, hrun⟩ := bind_eq_ok_iff.1 hrun
    have hm' := hP.finalize hm hp htake hfinalizer
    cases result' with
    | error cause =>
      cases hrun
      exact hm'
    | ok =>
      cases hrun
      exact hm'

/-- Whatever the steps before the finalizers and the finalizers keep, all single steps keep. -/
theorem Kept.stepwise (hP : Kept mu P) : Stepwise mu P where
  singleStep {m m' result} hm hrun := by
    by_cases hp : m.heap.phase = .finalize
    · rcases (singleStep_eq_ok hrun).of_finalize hp with rfl | hrun
      · exact hm
      · exact hP.finalizeStep hm hp hrun
    · exact hP.collect hm hp hrun
  setThreshold := hP.setThreshold

/-- The finalizers of a program change the heap only by steps of a run. -/
def Behaved (mu : Mutator σ) (allowed : Heap.Resizings) (config : Config) (hashOf : List UInt8 → Hash) : Prop :=
  ∀ {program program' : σ} {h h' : Heap} {r : Ref} {result : Except String Unit},
    Reachable mu allowed config hashOf ⟨program, h⟩ →
    mu.runFinalizer program h r = .ok (result, program', h') →
    Reachable mu allowed config hashOf ⟨program', h'⟩

/-- With such finalizers, the calls of the collector lead from reachable machines to reachable
ones. -/
theorem Behaved.kept (hmu : Behaved mu allowed config hashOf) :
    Kept mu (Reachable mu allowed config hashOf) where
  collect hm hp hrun := .step hm (.collect hp hrun)
  finalize {m r s result program h} hm hp htake hfinalizer := by
    have hbegun := ((hm.step (.finalize hp htake)).step (.compute (mu.suspendHooks m.program true))).step
      (.setThreshold maxWord)
    exact ((hmu hbegun hfinalizer).step (.compute (mu.suspendHooks program false))).step (.setThreshold _)
  complete hm hp htake := .step hm (.complete hp htake)
  setThreshold threshold hm := .step hm (.setThreshold threshold)

end Machine

end Tricolor
