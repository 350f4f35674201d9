import Mathlib.Data.Prod.Lex
import Mathlib.Data.Set.Card
import Mathlib.Order.WellFounded
import Tricolor.Proofs.Cycle.OpenSteps
import Tricolor.Proofs.Cycle.Work

/-!
# Every collection comes to its end

A step of a cycle in progress always succeeds on a steady machine, and it takes off what is `left` of the
cycle: it leads to a later phase, or leaves less to do in the same one. That is less to mark, fewer
buckets or fewer arenas to sweep, or fewer finalizers that are due, although finalizers may register
further objects, since those become due in the next cycle only. So single steps lead to the end of the
cycle, and a full collection returns, unless a finalizer fails in it.
-/

namespace Tricolor

/-- How many phases are left of a cycle. -/
def Phase.left : Phase → Nat
  | .pause => 0
  | .finalize => 1
  | .sweep => 2
  | .sweepStrings => 3
  | .atomic => 4
  | .propagate => 5

namespace Heap

variable {h h' : Heap}

/-- The objects whose finalizers are due. -/
def due (h : Heap) : Set Ref := fun t => (h.space.slot t).pending

/-- What is left to do in a phase. -/
noncomputable def work (h : Heap) : Nat :=
  match h.phase with
  | .propagate => h.space.load
  | .sweepStrings => h.strings.bucketCount - h.cycle.stringsCursor
  | .sweep => h.sweepsLeft
  | .finalize => h.due.ncard
  | .pause | .atomic => 0

/-- What is left of a cycle. -/
noncomputable def left (h : Heap) : ℕ ×ₗ ℕ := toLex (h.phase.left, h.work)

theorem left_lt_of_phase (hp : h'.phase.left < h.phase.left) : h'.left < h.left :=
  Prod.Lex.toLex_lt_toLex.2 (.inl hp)

theorem left_lt_of_work (hp : h'.phase = h.phase) (hlt : h'.work < h.work) : h'.left < h.left :=
  Prod.Lex.toLex_lt_toLex.2 (.inr ⟨congrArg Phase.left hp, hlt⟩)

theorem Sound.finite_due (hs : h.Sound) : h.due.Finite :=
  h.space.objects.finite_toSet.subset fun t ht => (Space.mem_objects hs.wf).2 (hs.listed t (.inr (.inr ht)))

end Heap

namespace Machine

variable {σ : Type} {mu : Mutator σ} {m m' m₁ : Machine σ} {config : Config} {hashOf : List UInt8 → Hash}

/-- The finalizer fails that a step runs. -/
def Fails (mu : Mutator σ) (m : Machine σ) (r : Ref) (cause : String) (m' : Machine σ) : Prop :=
  m.heap.phase = .finalize ∧ ∃ program h, Runs mu m r (.error cause) program h ∧
    m' = { program := mu.suspendHooks program false, heap := h.setThreshold m.heap.cycle.threshold }

/-- What a step of a cycle in progress leads to. -/
structure Nears (mu : Mutator σ) (m : Machine σ) (result : Except CollectError Nat) (m' : Machine σ) : Prop where
  run : m.singleStep mu = .ok (result, m')
  left : m'.heap.left < m.heap.left
  completed : m'.heap.cycle.completed = m.heap.cycle.completed + if m'.heap.phase = .pause then 1 else 0
  /-- only a finalizer can fail, which will not run again in this cycle -/
  failed : ∀ error, result = .error error → ∃ r cause, error = .finalizer cause ∧ Fails mu m r cause m' ∧
    m'.heap.phase = .finalize ∧ r ∉ m'.heap.due

/-- A step before the finalizers run. -/
theorem Nears.of_singleStep {cost : Nat} (hp : m.heap.phase ≠ .finalize)
    (hrun : m.singleStep mu = .ok (.ok cost, m')) (hleft : m'.heap.left < m.heap.left)
    (hp' : m'.heap.phase ≠ .pause) : Nears mu m (.ok cost) m' where
  run := hrun
  left := hleft
  completed := by
    rw [if_neg hp']
    exact congrArg (fun settings : Config × Bool × Nat => settings.2.2) (settings_singleStep hp hrun)
  failed _ herror := by cases herror

/-- A cycle begins. -/
theorem Steady.begins (hm : Steady mu m) (hp : m.heap.phase = .pause) : ∃ m',
    m.singleStep mu = .ok (.ok 0, m') ∧ m'.heap.phase = .propagate ∧
      m'.heap.cycle.completed = m.heap.cycle.completed := by
  have hs := hm.sound
  obtain ⟨m₁, hroots⟩ := @markRoots_spec _ mu { m with heap := m.heap.clearCycle }
    (hs.congr rfl rfl rfl rfl rfl rfl rfl hs.config)
    fun r hr => hs.isLive_iff.1 (hm.trusted.honest.roots (.inl hp) r hr)
  have hrun : m.singleStep mu = .ok (.ok 0, { m₁ with heap := m₁.heap.enter .propagate }) :=
    (OpenStep.started hp (bind_eq_ok_iff.2 ⟨m₁, hroots, rfl⟩)).run
  exact ⟨_, hrun, rfl, congrArg (fun settings : Config × Bool × Nat => settings.2.2)
    (settings_singleStep (by rw [hp]; decide) hrun)⟩

/-- There is less to mark after a step of the marking. -/
theorem Steady.propagates (hm : Steady mu m) (hp : m.heap.phase = .propagate) : ∃ result m', Nears mu m result m' := by
  obtain ⟨cost, m', hstep, hor⟩ := Steady.sustains.propagatesStep ⟨hm, .inl hp⟩
  have hrun := (OpenStep.propagated hp hstep).run
  refine ⟨_, m', Nears.of_singleStep (by rw [hp]; decide) hrun ?_ ?_⟩
  · rcases hor with hatomic | ⟨hsame, hlt⟩
    · exact Heap.left_lt_of_phase (by rw [hatomic, hp]; decide)
    · refine Heap.left_lt_of_work hsame ?_
      rw [Heap.work, Heap.work, hsame, hp]
      exact hlt
  · rcases hor with hatomic | ⟨hsame, -⟩
    · rw [hatomic]
      decide
    · rw [hsame, hp]
      decide

/-- The atomic step ends the marking. -/
theorem Steady.atomic (hm : Steady mu m) (hp : m.heap.phase = .atomic) : ∃ result m', Nears mu m result m' := by
  obtain ⟨cost, m', hstep⟩ := Steady.concludes.atomicStep ⟨hm, hp⟩
  have hphase := (atomicStep_eq_ok hm.sound hp hstep).2
  have hrun : m.singleStep mu = .ok (.ok cost, m') := by
    rw [singleStep_of_atomic hm.isBlocked hp, hstep]
    rfl
  exact ⟨_, m', Nears.of_singleStep (by rw [hp]; decide) hrun (Heap.left_lt_of_phase (by rw [hphase, hp]; decide))
    (by rw [hphase]; decide)⟩

/-- Fewer buckets are left after some have been swept; no step adds any. -/
theorem Steady.sweepsStrings (hm : Steady mu m) (hp : m.heap.phase = .sweepStrings) :
    ∃ result m', Nears mu m result m' := by
  obtain ⟨cost, hstep⟩ := hm.sound.sweepStringsStep_spec hm.stringsPerStep
  have hopen : OpenStep mu m cost { m with heap := m.heap.sweptStrings } := .sweptStrings hp hstep
  refine ⟨_, _, Nears.of_singleStep (by rw [hp]; decide) hopen.run ?_ ?_⟩
  · rcases hm.sound.bucketsLeft_lt hp with hsweep | ⟨hsame, hlt⟩
    · exact Heap.left_lt_of_phase (by rw [hsweep, hp]; decide)
    · refine Heap.left_lt_of_work (hsame.trans hp.symm) ?_
      rw [Heap.work, Heap.work, hsame, hp]
      exact hlt
  · rcases hm.sound.bucketsLeft_lt hp with hsweep | ⟨hsame, -⟩
    · exact fun hq => Phase.noConfusion (hsweep.symm.trans hq)
    · exact fun hq => Phase.noConfusion (hsame.symm.trans hq)

/-- Fewer arenas are left after one has been swept. -/
theorem Steady.sweeps (hm : Steady mu m) (hp : m.heap.phase = .sweep) : ∃ result m', Nears mu m result m' := by
  obtain ⟨cost, h, hstep, -⟩ := Heap.sweepStep_spec hm.sound hp
  have hopen : OpenStep mu m cost { m with heap := h } := .swept hp hstep
  refine ⟨_, _, Nears.of_singleStep (by rw [hp]; decide) hopen.run ?_ ?_⟩
  · rcases hm.sound.sweepsLeft_lt hp hstep with hfinalize | ⟨hsame, hlt⟩
    · exact Heap.left_lt_of_phase (by rw [hfinalize, hp]; decide)
    · refine Heap.left_lt_of_work (hsame.trans hp.symm) ?_
      rw [Heap.work, Heap.work, hsame, hp]
      exact hlt
  · rcases hm.sound.sweepsLeft_lt hp hstep with hfinalize | ⟨hsame, -⟩
    · exact fun hq => Phase.noConfusion (hfinalize.symm.trans hq)
    · exact fun hq => Phase.noConfusion (hsame.symm.trans hq)

/-- One finalizer less is due after it has run, or none was due, and the cycle is complete. -/
theorem Steady.finalizes (hm : Steady mu m) (hp : m.heap.phase = .finalize) : ∃ result m', Nears mu m result m' := by
  obtain ⟨result, m', hstep, hfinalizes⟩ := hm.finalizeStep hp
  have hrun := (singleStep_of_finalize hm.isBlocked hp).trans hstep
  refine ⟨result, m', ?_⟩
  cases hfinalizes with
  | done =>
    have hlt : m.heap.enterPause.left < m.heap.left := Heap.left_lt_of_phase (by rw [hp]; exact Nat.zero_lt_one)
    exact ⟨hrun, hlt, rfl, fun _ herror => by cases herror⟩
  | @ran r result program h hruns hs hpending hnot hu =>
    have hphase : h.phase = .finalize := hu.phase.trans hp
    have hsubset : h.due ⊂ m.heap.due := by
      refine Set.ssubset_iff_of_subset (fun t ht => hu.pending t ht) |>.2 ⟨r, hpending, fun hr => hnot r hr rfl⟩
    have hfewer := Set.ncard_lt_ncard hsubset hm.sound.finite_due
    refine ⟨hrun, Heap.left_lt_of_work hu.phase ?_, ?_, fun error herror => ?_⟩
    · show (h.setThreshold m.heap.cycle.threshold).work < m.heap.work
      rw [Heap.work, Heap.work, show (h.setThreshold m.heap.cycle.threshold).phase = .finalize from hphase, hp]
      exact hfewer
    · have hne : h.phase ≠ .pause := by
        rw [hphase]
        decide
      show h.cycle.completed = m.heap.cycle.completed + if h.phase = .pause then 1 else 0
      rw [if_neg hne]
      exact hu.completed
    · cases result with
      | ok => cases herror
      | error cause =>
        cases herror
        exact ⟨r, cause, rfl, ⟨hp, program, h, hruns, rfl⟩, hphase, fun hr => hnot r hr rfl⟩

/-- Every step of a cycle in progress succeeds, and brings its end nearer. -/
theorem Steady.next (hm : Steady mu m) (hp : m.heap.phase ≠ .pause) : ∃ result m', Nears mu m result m' := by
  cases hphase : m.heap.phase with
  | pause => exact absurd hphase hp
  | propagate => exact hm.propagates hphase
  | atomic => exact hm.atomic hphase
  | sweepStrings => exact hm.sweepsStrings hphase
  | sweep => exact hm.sweeps hphase
  | finalize => exact hm.finalizes hphase

theorem Steady.nears_of_run (hm : Steady mu m) (hp : m.heap.phase ≠ .pause) {result : Except CollectError Nat}
    (hrun : m.singleStep mu = .ok (result, m')) : Nears mu m result m' := by
  obtain ⟨_, _, hnears⟩ := hm.next hp
  have hsame := hnears.run
  rw [hrun] at hsame
  cases hsame
  exact hnears

/-- Single steps lead to the end of the cycle, whether or not finalizers fail. -/
theorem Steady.pauses (hm : Steady mu m) : ∃ n m', m.singleSteps mu n = .ok m' ∧ m'.heap.phase = .pause := by
  induction hleft : m.heap.left using WellFoundedLT.induction generalizing m with
  | ind left ih =>
    by_cases hp : m.heap.phase = .pause
    · exact ⟨0, m, rfl, hp⟩
    · obtain ⟨result, m₁, hnears⟩ := hm.next hp
      obtain ⟨n, m', hrest, hp'⟩ := ih _ (hleft ▸ hnears.left) (hm.works (.stepped hnears.run)) rfl
      exact ⟨n + 1, m', bind_eq_ok_iff.2 ⟨_, hnears.run, hrest⟩, hp'⟩

/-! ## Full collections -/

theorem Steady.ends (hm : Steady mu m) : ∃ result m', Ends mu m result m' := by
  induction hleft : m.heap.left using WellFoundedLT.induction generalizing m with
  | ind left ih =>
    by_cases hp : m.heap.phase = .pause
    · exact ⟨_, m, .pause hp⟩
    · obtain ⟨result, m₁, hnears⟩ := hm.next hp
      cases result with
      | error error => exact ⟨_, m₁, .failed hp hnears.run⟩
      | ok cost =>
        obtain ⟨result, m', hends⟩ := ih _ (hleft ▸ hnears.left) (hm.works (.stepped hnears.run)) rfl
        exact ⟨result, m', .step hp hnears.run hends⟩

/-- How a collection comes out that is to complete so many cycles: it completes them, or a finalizer
has failed, while finalizers were running, and is not due any more. -/
inductive Outcome (mu : Mutator σ) (m : Machine σ) (cycles : Nat) : Except CollectError Unit → Machine σ → Prop where
  | completed {m' : Machine σ} : m'.heap.phase = .pause →
      m'.heap.cycle.completed = m.heap.cycle.completed + cycles → Outcome mu m cycles (.ok ()) m'
  | failed {m₁ m' : Machine σ} {r : Ref} {cause : String} : Relation.ReflTransGen (Works mu) m m₁ →
      Fails mu m₁ r cause m' → m'.heap.phase = .finalize → ¬ (m'.heap.space.slot r).pending →
      Outcome mu m cycles (.error (.finalizer cause)) m'

theorem Outcome.after {n k : Nat} {result : Except CollectError Unit} (h : Outcome mu m₁ n result m')
    (hworks : Relation.ReflTransGen (Works mu) m m₁)
    (hcompleted : m₁.heap.cycle.completed = m.heap.cycle.completed + k) : Outcome mu m (k + n) result m' := by
  cases h with
  | completed hp hcount => exact .completed hp (by omega)
  | failed hrun hfails hp hdue => exact .failed (hworks.trans hrun) hfails hp hdue

theorem Ends.works {result : Except CollectError Unit} (h : Ends mu m result m') :
    Relation.ReflTransGen (Works mu) m m' := by
  induction h with
  | pause => exact .refl
  | failed _ hrun => exact .single (.stepped hrun)
  | step _ hrun _ ih => exact .head (.stepped hrun) ih

/-- Only the cycle in progress gets completed. -/
theorem Ends.outcome {result : Except CollectError Unit} (h : Ends mu m result m') (hm : Steady mu m) :
    Outcome mu m (if m.heap.phase = .pause then 0 else 1) result m' := by
  induction h with
  | pause hp =>
    rw [if_pos hp]
    exact .completed hp rfl
  | failed hp hrun =>
    obtain ⟨r, cause, rfl, hfails, hp', hdue⟩ := (hm.nears_of_run hp hrun).failed _ rfl
    exact .failed .refl hfails hp' hdue
  | @step m m₁ m' cost result hp hrun _ ih =>
    have hworks : Works mu m m₁ := .stepped hrun
    have hafter := (ih (hm.works hworks)).after (.single hworks) (hm.nears_of_run hp hrun).completed
    rw [if_neg hp]
    by_cases hp₁ : m₁.heap.phase = .pause
    · rwa [if_pos hp₁, if_pos hp₁] at hafter
    · rwa [if_neg hp₁, if_neg hp₁] at hafter

/-- From the end of one cycle, single steps lead to the end of the next one. -/
theorem Steady.pauses_again (hm : Steady mu m) :
    ∃ n m', 0 < n ∧ m.singleSteps mu n = .ok m' ∧ m'.heap.phase = .pause := by
  by_cases hp : m.heap.phase = .pause
  · obtain ⟨m₁, hrun, -, -⟩ := hm.begins hp
    obtain ⟨n, m', hrest, hp'⟩ := (hm.works (.stepped hrun)).pauses
    exact ⟨n + 1, m', Nat.succ_pos n, bind_eq_ok_iff.2 ⟨_, hrun, hrest⟩, hp'⟩
  · obtain ⟨n, m', hrun, hp'⟩ := hm.pauses
    refine ⟨n, m', Nat.pos_of_ne_zero ?_, hrun, hp'⟩
    rintro rfl
    cases hrun
    exact hp hp'

/-- A whole cycle: it begins, and then either gets completed or a finalizer fails. -/
theorem Steady.cycles (hm : Steady mu m) (hp : m.heap.phase = .pause) : ∃ m₁ result m',
    m.singleStep mu = .ok (.ok 0, m₁) ∧ Ends mu m₁ result m' ∧ Outcome mu m 1 result m' := by
  obtain ⟨m₁, hrun, hp₁, hcount⟩ := hm.begins hp
  have hworks : Works mu m m₁ := .stepped hrun
  have hm₁ := hm.works hworks
  obtain ⟨result, m', hends⟩ := hm₁.ends
  have hne : m₁.heap.phase ≠ .pause := by
    rw [hp₁]
    decide
  have houtcome := hends.outcome hm₁
  rw [if_neg hne] at houtcome
  exact ⟨m₁, result, m', hrun, hends, houtcome.after (.single hworks) hcount⟩

/-- A full collection completes the cycle in progress and another one, unless a finalizer fails. -/
theorem Steady.collects (hm : Steady mu m) : ∃ result m',
    (∃ n, ∀ fuel, n ≤ fuel → m.fullCollect mu fuel = .ok (result, m')) ∧
      Outcome mu m ((if m.heap.phase = .pause then 0 else 1) + 1) result m' := by
  have hcollect : ∀ fuel, m.fullCollect mu fuel = _ := fun _ => if_neg (by rw [hm.inactive]; decide)
  obtain ⟨result₀, m₀, hends₀⟩ := hm.ends
  obtain ⟨n₀, hn₀⟩ := hends₀.finishCycle
  cases hends₀.outcome hm with
  | failed hworks hfails hp hdue =>
    refine ⟨_, m₀, ⟨n₀, fun fuel hfuel => ?_⟩, .failed hworks hfails hp hdue⟩
    rw [hcollect]
    exact bind_eq_ok_iff.2 ⟨_, hn₀ fuel hfuel, rfl⟩
  | completed hp₀ hcount₀ =>
    obtain ⟨m₁, result, m', hrun₁, hends, houtcome⟩ := (hm.run hends₀.works).cycles hp₀
    obtain ⟨n, hn⟩ := hends.finishCycle
    refine ⟨result, m', ⟨max n₀ n, fun fuel hfuel => ?_⟩, houtcome.after hends₀.works hcount₀⟩
    rw [hcollect]
    exact bind_eq_ok_iff.2 ⟨_, hn₀ fuel (le_of_max_le_left hfuel), bind_eq_ok_iff.2 ⟨_, hrun₁,
      hn fuel (le_of_max_le_right hfuel)⟩⟩

/-- If operations and steps of the collector led to a machine, without any resizing, and its program is
trusted from there on, then single steps lead to the end of a cycle, and a full collection returns: it
has completed the cycle in progress, if there is one, and another one, or a finalizer has failed. -/
theorem collections_come_to_an_end (hm : Reachable mu Heap.noResizing config hashOf m)
    (hsteps : config.stringsPerStep ≤ maxWord / sweepStringCost) (htrace : m.heap.cycle.traceActive = false)
    (htrusted : Trusted mu m) :
    (∃ n m', 0 < n ∧ m.singleSteps mu n = .ok m' ∧ m'.heap.phase = .pause) ∧
      ∃ result m', (∃ n, ∀ fuel, n ≤ fuel → m.fullCollect mu fuel = .ok (result, m')) ∧
        Outcome mu m (if m.heap.phase = .pause then 1 else 2) result m' := by
  have hsteady : Steady mu m :=
    { sound := hm.sound
      recorded := hm.keeps.2.2 fun _ _ _ _ => False.elim
      inactive := htrace
      stringsPerStep := hm.stringsPerStep.trans_le hsteps
      trusted := htrusted }
  have hcollects := hsteady.collects
  refine ⟨hsteady.pauses_again, ?_⟩
  split at hcollects
  · next hp => rwa [if_pos hp]
  · next hp => rwa [if_neg hp]

/-- A program without references whose finalizers register their objects again, and then fail. -/
def insistent : Mutator Unit where
  roots _ := ([], ())
  visits _ _ _ _ := ([], ())
  cost _ _ _ := 0
  isFinalizable _ _ := true
  weakMode _ _ := .none
  clearWeak _ _ _ := .ok ()
  suspendHooks _ _ := ()
  runFinalizer _ h r :=
    .ok (.error "again", (), if h.isLive r ∧ h.space.survives r = .ok true then
      (h.registerFinalizer r).toOption.getD h else h)

/-- Its finalizers do no more than that. -/
theorem insistent_operates {program program' : Unit} {allowed : Heap.Resizings} {h h' : Heap} {r : Ref}
    {result : Except String Unit} (hrun : insistent.runFinalizer program h r = .ok (result, program', h')) :
    Relation.ReflTransGen (Heap.Operation allowed) h h' ∧ h'.cycle.traceActive = h.cycle.traceActive := by
  cases hrun
  split
  · next hlive =>
    cases hregister : h.registerFinalizer r with
    | ok h₁ =>
      refine ⟨.single (.registerFinalizer hlive hregister), ?_⟩
      obtain ⟨_, -, hregister⟩ := bind_eq_ok_iff.1 hregister
      obtain ⟨_, -, hret⟩ := bind_eq_ok_iff.1 hregister
      cases hret
      rfl
    | error => exact ⟨.refl, rfl⟩
  · exact ⟨.refl, rfl⟩

/-- It reports nothing, so it is honest whatever the collector has done. -/
theorem insistent_honest (m : Machine Unit) : Honest insistent m where
  roots _ r hr := by cases hr
  visits _ source r s _ v hv := by
    obtain ⟨e, -, hv⟩ := hv
    cases hv
  clears _ t _ isDead _ := ⟨(), rfl⟩
  finalizes _ r s htake := by
    obtain ⟨hops, htrace⟩ := @insistent_operates () () _ (Heap.setThreshold { m.heap with space := s } maxWord) _ r _ rfl
    exact ⟨_, (), _, ⟨s, htake, rfl⟩, hops, htrace⟩

/-- A block with a finalizer that fails and registers it again: the full collection fails, and single
steps still lead to the end of the cycle. -/
theorem failing_finalizer_comes_to_an_end : ∃ m m' : Machine Unit,
    m.heap.phase = .pause ∧ m.heap.isLive (.huge 5) = true ∧
      m.fullCollect insistent 9 = .ok (.error (.finalizer "again"), m') ∧
      (∃ n m', 0 < n ∧ m.singleSteps insistent n = .ok m' ∧ m'.heap.phase = .pause) ∧
      ∃ result m', (∃ n, ∀ fuel, n ≤ fuel → m.fullCollect insistent fuel = .ok (result, m')) ∧
        Outcome insistent m 1 result m' := by
  let config : Config := { hugeThreshold := 1 }
  let start := answerOf (Heap.build config fun _ => 0) (by decide +kernel)
  have hstart : Heap.withConfig config (fun _ => 0) = .ok (.ok start) := rfl
  obtain ⟨placed, registered, m', hplaced, hlive, hregistered, hpause, htrace, hlive', hcollect⟩ :
      ∃ placed registered m', start.alloc (.page 5) .udata 24 = .ok (.ok (.huge 5), placed) ∧
        placed.Live (.huge 5) ∧ placed.registerFinalizer (.huge 5) = .ok registered ∧
        registered.phase = .pause ∧ registered.cycle.traceActive = false ∧ registered.isLive (.huge 5) = true ∧
        fullCollect insistent 9 ⟨(), registered⟩ = .ok (.error (.finalizer "again"), m') :=
    ⟨_, _, _, eq_answerOf_of_fst (by decide +kernel) (by decide +kernel), ⟨by decide +kernel, by decide +kernel⟩,
      eq_answerOf (by decide +kernel), by decide +kernel, by decide +kernel, by decide +kernel,
      eq_answerOf_of_fst (by decide +kernel) (by decide +kernel)⟩
  have hreach : Reachable insistent Heap.noResizing config (fun _ => 0) ⟨(), registered⟩ :=
    ((Reachable.initial () hstart).step
      (.operate (.alloc (Supply.page_fresh (by decide) rfl (by decide +kernel) 0) hplaced))).step
      (.operate (.registerFinalizer hlive hregistered))
  have hends := collections_come_to_an_end hreach (by decide) htrace fun m _ => insistent_honest m
  rw [if_pos hpause] at hends
  exact ⟨⟨(), registered⟩, m', hpause, hlive', hcollect, hends⟩

end Machine

end Tricolor
