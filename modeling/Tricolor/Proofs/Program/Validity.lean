import Tricolor.Proofs.Program.Collecting

/-!
# The invariant of a run

A stage of a run is `Valid`: its machine is reachable, its graph is closed, what is at hand
outlives the pending sweep, and while objects are being marked their references are treated as
promised. Every step keeps that, so it holds at every stage that runs lead to.
-/

namespace Tricolor

namespace Stage

variable {σ : Type} {mu : Mutator σ} {config : Config} {hashOf : List UInt8 → Hash} {c d : Stage σ}

/-- The invariant of a run. -/
structure Valid (mu : Mutator σ) (config : Config) (hashOf : List UInt8 → Hash) (c : Stage σ) : Prop where
  reachable : Machine.Reachable mu Heap.unstranded config hashOf c.machine
  closed : (c.graph mu).Closed c.space
  hands : ∀ t, c.hands t → c.space.Survives t
  treated : c.heap.phase.IsMarking → (c.graph mu).Treated c.heap

theorem Valid.sound (hc : Valid mu config hashOf c) : c.heap.Sound := hc.reachable.sound

theorem Valid.undue (hc : Valid mu config hashOf c) : c.heap.Undue := hc.reachable.undue

/-- Runs begin at a valid stage. -/
theorem Valid.initial (hc : Initial mu config hashOf c) : Valid mu config hashOf c := by
  obtain @⟨program, h, hh, hroot⟩ := hc
  obtain ⟨hs, hp, -, -, hblank⟩ := Heap.sound_of_withConfig hh
  exact
    { reachable := .initial _ hh
      closed :=
        { root := fun hr => absurd hr (hroot _)
          edge := fun {r v} hr => by
            obtain ⟨e, he, -⟩ := hr
            have he : (h.space.slot r).entity? = some e := he
            rw [hblank] at he
            cases he }
      hands := fun _ => False.elim
      treated := fun hmarking => by
        have hmarking : h.phase.IsMarking := hmarking
        rw [hp] at hmarking
        exact absurd hmarking (by decide) }

/-- What a program does keeps a stage valid. -/
theorem Valid.act (hmu : mu.Faithful) (hc : Valid mu config hashOf c) (hact : Act mu c d) :
    Valid mu config hashOf d := by
  obtain ⟨used, fresh, gone, stored, heffect⟩ := hact.effect hc.sound hc.hands
  exact
    { reachable := .step (hc.reachable.operates heffect.operates) (.compute d.machine.program)
      closed := heffect.closed hc.sound hmu hc.closed hc.hands
      hands := heffect.hands hc.sound hc.closed hc.hands
      treated := fun hp => by
        have hp : c.heap.phase.IsMarking := heffect.alters.phase ▸ hp
        exact heffect.treated hc.sound hmu hc.closed hp (hc.treated hp) }

end Stage

namespace Machine.Collects

variable {σ : Type} {mu : Mutator σ} {m m' : Machine σ}

/-- A step of the collector makes no object. -/
theorem inherits (hs : m.heap.Sound) (h : Collects mu m m') : m.heap.space.Inherits m'.heap.space := by
  cases h with
  | blocked => exact .of_slot rfl
  | began hpause _ htraces _ =>
    exact (htraces.marks (hs.begins hpause) (.inl rfl)).advances.inherits
  | propagated hp _ htracing => exact (htracing.marks hs (.inl hp)).advances.inherits
  | ready hp htracing => exact (htracing.marks hs (.inl hp)).advances.inherits
  | finished hp hfinish => exact hfinish.inherits_start hs (.inr hp)
  | sweptStrings => exact .of_slot rfl
  | swept _ hsweeps =>
    cases hsweeps with
    | swept hsweeps _ => exact hsweeps.inherits
    | finished => exact .of_slot rfl

/-- A step of the collector leaves a closed graph. -/
theorem closed (hmu : mu.Faithful) (hs : m.heap.Sound) (hclosed : (mu.graph m.program).Closed m.heap.space)
    (htreated : m.heap.phase.IsMarking → (mu.graph m.program).Treated m.heap) (h : Collects mu m m') :
    (mu.graph m'.program).Closed m'.heap.space := by
  cases h with
  | blocked => exact hclosed
  | began hpause hasks htraces _ =>
    rw [hasks.graph hmu]
    have hs' := hs.begins hpause
    exact Graph.Closed.marks (h := m.heap.clearCycle.enter .propagate) hclosed hs' (.inl rfl)
      (htraces.marks hs' (.inl rfl))
  | propagated hp hasks htracing =>
    rw [hasks.graph hmu]
    exact hclosed.marks hs (.inl hp) (htracing.marks hs (.inl hp))
  | @ready h hp htracing =>
    have hmarked := hclosed.marks hs (.inl hp) (htracing.marks hs (.inl hp))
    exact hmarked
  | finished hp hfinish => exact hfinish.closed hmu hs (.inr hp) hclosed (htreated (.inr hp))
  | sweptStrings => exact hclosed
  | swept _ hsweeps =>
    cases hsweeps with
    | swept hsweeps _ => exact hclosed.sweeps hsweeps
    | finished => exact hclosed

/-- A step of the collector keeps the promise of the marks. -/
theorem treated (hmu : mu.Faithful) (hs : m.heap.Sound) (hclosed : (mu.graph m.program).Closed m.heap.space)
    (htreated : m.heap.phase.IsMarking → (mu.graph m.program).Treated m.heap) (h : Collects mu m m')
    (hp : m'.heap.phase.IsMarking) : (mu.graph m'.program).Treated m'.heap := by
  cases h with
  | blocked => exact htreated hp
  | began hpause hasks htraces _ =>
    rw [hasks.graph hmu]
    -- before the cycle nothing is marked, so there is nothing to promise
    have hwhite : ∀ {r e}, (m.heap.space.slot r).entity? = some e → ¬ e.marked = true := fun he =>
      Bool.eq_false_iff.1 (hs.unmarked (by rw [hpause]; decide) (by rw [hpause]; decide) he)
    refine Graph.Treated.traces (h := m.heap.clearCycle.enter .propagate)
      ⟨fun hblack => ?_, fun he hm => absurd hm (hwhite he)⟩ (hs.begins hpause) (.inl rfl) hclosed
      (fun hv => hmu.leaf hv) htraces
    obtain ⟨e, he, hm⟩ := hblack
    exact absurd hm (hwhite he)
  | propagated hphase hasks htracing =>
    rw [hasks.graph hmu]
    exact (htreated (.inl hphase)).tracing hs (.inl hphase) hclosed (fun hv => hmu.leaf hv) htracing
  | ready hphase htracing =>
    have ht := (htreated (.inl hphase)).tracing hs (.inl hphase) hclosed (fun hv => hmu.leaf hv) htracing
    exact ⟨ht.noted, ht.weak⟩
  | finished _ hfinish =>
    rw [hfinish.eq] at hp
    exact absurd (show Phase.IsMarking .sweepStrings from hp) (by decide)
  | sweptStrings hphase =>
    have hsweeping : m.heap.sweptStrings.phase.IsSweeping := by
      rw [Heap.phase, hs.cycle_sweptStrings]
      split
      · exact .inr rfl
      · exact .inl hphase
    exact absurd hsweeping (Heap.Phase.not_isSweeping hp)
  | swept hphase hsweeps =>
    cases hsweeps with
    | swept =>
      have hp : m.heap.phase.IsMarking := hp
      rw [hphase] at hp
      exact absurd hp (by decide)
    | finished => exact absurd (show Phase.IsMarking .finalize from hp) (by decide)

end Machine.Collects

namespace Stage

variable {σ : Type} {mu : Mutator σ} {config : Config} {hashOf : List UInt8 → Hash} {c d : Stage σ}

/-- Taking a finalizer that is due changes the place of its object only. -/
theorem Valid.taken (hc : Valid mu config hashOf c) {r : Ref} {s : Space}
    (htake : c.space.takePendingFinalizer = .ok (some r, s)) :
    (c.space.slot r).pending ∧ c.space.Revises s r (c.space.slot r).taken := by
  obtain ⟨_, _, htake', hspec⟩ := Space.takePendingFinalizer_spec hc.sound.wf fun t ht =>
    hc.sound.listed t (.inr (.inr ht))
  rw [show c.heap.space.takePendingFinalizer = _ from htake] at htake'
  cases htake'
  exact hspec

/-- When no finalizer is due any more, the cycle ends and no place changes. -/
theorem Valid.completed (hc : Valid mu config hashOf c) {s : Space} (hp : c.heap.phase = .finalize)
    (htake : c.space.takePendingFinalizer = .ok (none, s)) : s = c.space ∧
      (Heap.enterPause { c.heap with space := s }).space.slot = c.space.slot ∧
      ∀ t, ¬ (c.space.slot t).pending := by
  obtain ⟨_, _, htake', hspec⟩ := Space.takePendingFinalizer_spec hc.sound.wf fun t ht =>
    hc.sound.listed t (.inr (.inr ht))
  rw [show c.heap.space.takePendingFinalizer = _ from htake] at htake'
  cases htake'
  obtain ⟨rfl, hnone⟩ := hspec
  exact ⟨rfl, (hc.sound.enterPause hp).2.slot, hnone⟩

/-- Every step keeps a stage valid. -/
theorem Valid.step (hmu : mu.Faithful) (hc : Valid mu config hashOf c) (hstep : Step mu c d) :
    Valid mu config hashOf d := by
  cases hstep with
  | act hact => exact hc.act hmu hact
  | setThreshold threshold =>
    exact
      { reachable := .step hc.reachable (.setThreshold threshold)
        closed := hc.closed
        hands := hc.hands
        treated := fun hp => ⟨(hc.treated hp).noted, (hc.treated hp).weak⟩ }
  | collect hp hrun =>
    have hcollects := Machine.collects_singleStep hmu hc.sound hp hc.closed hrun
    exact
      { reachable := .step hc.reachable (.collect hp hrun)
        closed := hcollects.closed hmu hc.sound hc.closed hc.treated
        hands := fun _ => False.elim
        treated := hcollects.treated hmu hc.sound hc.closed hc.treated }
  | @finalize r s hp htake =>
    obtain ⟨hpending, hrev⟩ := hc.taken htake
    have hsurvives : ∀ t, s.Survives t ↔ c.space.Survives t := fun t => hrev.survives_taken t
    exact
      { reachable := .step hc.reachable (.finalize hp htake)
        closed := hc.closed.congr hsurvives hrev.inherits_taken
        hands := fun t ht => by
          subst ht
          exact (hsurvives t).2 ((hc.sound.admits t).listed (.inr (.inr hpending)))
        treated := fun hmarking => by
          have hmarking : c.heap.phase.IsMarking := hmarking
          rw [hp] at hmarking
          exact absurd hmarking (by decide) }
  | @complete s hp htake =>
    exact
      { reachable := .step hc.reachable (.complete hp htake)
        closed := hc.closed.of_slot (hc.completed hp htake).2.1
        hands := fun _ => False.elim
        treated := fun hmarking => absurd (show Phase.IsMarking .pause from hmarking) (by decide) }

/-- Every stage that runs lead to is valid. -/
theorem Reachable.valid (hmu : mu.Faithful) (hc : Reachable mu config hashOf c) : Valid mu config hashOf c :=
  hc.induction (fun _ => .initial) fun _ _ _ hc hstep => hc.step hmu hstep

/-- A run leads from a valid stage to valid stages. -/
theorem Valid.passes (hmu : mu.Faithful) (hc : Valid mu config hashOf c) {l : List (Stage σ)}
    (hrun : Passes mu c l d) : Valid mu config hashOf d := by
  induction hrun with
  | refl => exact hc
  | step _ hlast ih => exact ih.step hmu hlast

end Stage

end Tricolor
