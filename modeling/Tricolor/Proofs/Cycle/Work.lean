import Tricolor.Proofs.Cycle.Progress
import Tricolor.Proofs.Cycle.Terms
import Tricolor.Proofs.Program.Registrations

/-!
# The work of the collector

`Works` has the pieces of work at which the collector asks its program, or has asked it: whole steps, and
what is done inside a step of the marking and inside the atomic step. A program is `Trusted` from some
machine on if at every machine that such work leads to, it is `Honest`: it reports only objects that are
allocated, perhaps others each time, it returns when it is asked to clear a table, and its finalizers
return and do nothing to the heap but operate on it, without resizing anything. Nothing more is asked of
it, so its references may change at any time.

A machine that is `Steady` stays so through all of that, and everything that is marked can be marked.
-/

namespace Tricolor

/-! ## What operations and collections leave alone -/

namespace Heap

variable {h h' h'' : Heap} {r : Ref}

/-- What a collection does not touch until it is complete: the configuration, whether a trace runs, and
the number of completed cycles. -/
def settings (h : Heap) : Config × Bool × Nat := (h.config, h.cycle.traceActive, h.cycle.completed)

theorem settings_of_terms (hterms : h'.terms = h.terms) : h'.settings = h.settings :=
  congrArg (fun s : Terms => (s.config, s.traceActive, s.completed)) hterms

/-- What operations that resize nothing do not touch. -/
structure Undisturbed (h h' : Heap) : Prop where
  phase : h'.phase = h.phase
  /-- no finalizer becomes due -/
  pending : ∀ t, (h'.space.slot t).pending → (h.space.slot t).pending
  completed : h'.cycle.completed = h.cycle.completed
  stringsPerStep : h'.config.stringsPerStep = h.config.stringsPerStep

theorem Undisturbed.refl (h : Heap) : h.Undisturbed h := ⟨rfl, fun _ => id, rfl, rfl⟩

theorem Undisturbed.trans (h₁ : h.Undisturbed h') (h₂ : h'.Undisturbed h'') : h.Undisturbed h'' where
  phase := h₂.phase.trans h₁.phase
  pending t ht := h₁.pending t (h₂.pending t ht)
  completed := h₂.completed.trans h₁.completed
  stringsPerStep := h₂.stringsPerStep.trans h₁.stringsPerStep

/-- No finalizer becomes due: an operation that resizes nothing lists the same objects, unless it frees an object
or registers one. -/
theorem Operation.pending (hs : h.Sound) (hop : Operation noResizing h h') {t : Ref}
    (ht : (h'.space.slot t).pending) : (h.space.slot t).pending := by
  have hsame : h.space.Lists h'.space → (h.space.slot t).pending := fun hlists => (hlists t).2 ▸ ht
  cases hop with
  | @alloc _ _ _ result _ hfresh hrun =>
    obtain ⟨s, rfl, herror, hok⟩ := alloc_eq_ok hs hfresh hrun
    cases result with
    | error error => exact hsame (.of_slot (herror error rfl).slot)
    | ok r =>
      obtain ⟨e, ha⟩ := hok r rfl
      exact hsame (.revise ha.revises rfl rfl)
  | @intern _ _ result _ hfresh hrun =>
    obtain ⟨herror, hok⟩ := intern_eq_ok hs hfresh hrun
    cases result with
    | error error =>
      obtain ⟨s, rfl, halike⟩ := herror error rfl
      exact hsame (.of_slot halike.slot)
    | ok r => exact hsame (hok r rfl).lists
  | @free r _ _ _ hrun =>
    have hrev := (free_eq_ok hs hrun).2.revises
    by_cases htr : t = r
    · rw [htr, hrev.slot_self] at ht
      exact ht.elim
    · rwa [hrev.slot_ne htr] at ht
  | @realloc _ _ _ _ result _ _ hfresh hrun hallowed =>
    obtain ⟨e, -, hr⟩ := realloc_eq_ok hs hfresh hrun
    cases hr with
    | refused halike => exact hsame (.of_slot halike.slot)
    | resized | moved => exact (hallowed _ rfl).elim
  | writePayload _ hfits hrun =>
    obtain ⟨e, content, s, -, -, rfl, hrev⟩ := writePayload_eq_ok hs hfits hrun
    exact hsame (.revise hrev rfl rfl)
  | fix _ hrun =>
    obtain ⟨e, s, -, rfl, hrev⟩ := fix_eq_ok hs hrun
    exact hsame (.revise hrev rfl rfl)
  | @registerFinalizer r _ _ hrun =>
    obtain ⟨e, s, -, rfl, hrev⟩ := registerFinalizer_eq_ok hs hrun
    by_cases htr : t = r
    · subst htr
      rw [show (Heap.space { h with space := s }).slot t = _ from hrev.slot_self] at ht
      split at ht <;> exact ht
    · rwa [show (Heap.space { h with space := s }).slot t = _ from hrev.slot_ne htr] at ht
  | barrierForward hwriter hreferent hrun =>
    obtain ⟨e, he, -⟩ := hs.live_iff.1 hwriter
    obtain ⟨x, hx, -⟩ := hs.live_iff.1 hreferent
    exact hsame (Forwards.lists Records.lists (barrierForward_eq_ok hs he hx hrun).2)
  | barrierBack hcontainer hrun =>
    obtain ⟨e, he, -⟩ := hs.live_iff.1 hcontainer
    exact hsame (barrierBack_eq_ok hs he hrun).2.lists
  | barrierSlot hwriter hreferent hrun =>
    obtain ⟨e, he, -⟩ := hs.live_iff.1 hwriter
    obtain ⟨x, hx, -⟩ := hs.live_iff.1 hreferent
    refine hsame (Forwards.lists (fun hrec => ?_) (barrierSlot_eq_ok hs he hx hrun).2)
    obtain ⟨s, rfl, hshades⟩ := hrec
    exact hshades.advances.lists
  | setTraceActive | setPause | setStepMultiplier => exact ht

theorem Operation.undisturbed (hs : h.Sound) (hop : Operation noResizing h h') : h.Undisturbed h' :=
  have hstill := hop.standsStill hs
  ⟨hstill.phase, fun _ => hop.pending hs, hstill.completed, hstill.stringsPerStep⟩

/-- What a finalizer does that resizes nothing. -/
theorem Operation.run (hs : h.Sound) (hops : Relation.ReflTransGen (Operation noResizing) h h') :
    h'.Sound ∧ (h.Recorded → h'.Recorded) ∧ h.Undisturbed h' := by
  induction hops with
  | refl => exact ⟨hs, id, .refl h⟩
  | tail _ hop ih =>
    obtain ⟨hs₁, hrec, hu⟩ := ih
    obtain ⟨hk, hrec₁⟩ := hop.keeps hs₁
    exact ⟨hk.sound, fun hr => hrec₁ (fun _ _ _ => False.elim) (hrec hr), hu.trans (hop.undisturbed hs₁)⟩

end Heap

namespace Machine

variable {σ : Type} {mu : Mutator σ} {m m' : Machine σ} {cost : Nat} {config : Config} {hashOf : List UInt8 → Hash}

theorem stable_settings (settings : Config × Bool × Nat) : Stable mu fun m => m.heap.settings = settings where
  drain hm hrun := (Heap.settings_of_terms (Heap.terms_drainIfAny hrun)).trans hm
  exhaust hm _ := hm
  traverse hm _ hrun := (Heap.settings_of_terms (terms_traverse hrun)).trans hm

/-- No step before the finalizers changes a setting. -/
theorem settings_singleStep (hp : m.heap.phase ≠ .finalize) {result : Except CollectError Nat}
    (hrun : m.singleStep mu = .ok (result, m')) : m'.heap.settings = m.heap.settings :=
  Heap.settings_of_terms (terms_singleStep hp hrun)

/-! ## The pieces of work -/

/-- What the collector does between two questions to its program. -/
inductive Works (mu : Mutator σ) (m : Machine σ) : Machine σ → Prop where
  | stepped {result : Except CollectError Nat} {m' : Machine σ} : m.singleStep mu = .ok (result, m') →
      Works mu m m'
  | drained {h : Heap} : m.heap.phase.IsMarking → m.heap.drainStores = .ok h → Works mu m { m with heap := h }
  | exhausted {source : GreySource} {s : Space} : m.heap.phase.IsMarking →
      m.heap.space.popGrey source = .ok (none, s) → Works mu m { m with heap := { m.heap with space := s } }
  | traversed {source : GreySource} {r : Ref} {s : Space} {cost : Nat} {m' : Machine σ} :
      m.heap.phase.IsMarking → m.heap.space.popGrey source = .ok (some r, s) →
      Machine.traverse mu { m with heap := { m.heap with space := s } } r = .ok (cost, m') → Works mu m m'
  | rooted {m' : Machine σ} : m.heap.phase = .atomic → m.markRoots mu = .ok m' → Works mu m m'
  | selected {selection : Space.Selection} {s : Space} : m.heap.phase = .atomic →
      m.heap.space.selectFinalizers (mu.isFinalizable m.program) = .ok (selection, s) →
      Works mu m { m with heap := { m.heap with
        space := s
        cycle := { m.heap.cycle with doomed := selection.doomed } } }
  | sorted : m.heap.phase = .atomic → Works mu m { m with heap := { m.heap with
      cycle := { m.heap.cycle with weakTables := sortTables m.heap.cycle.weakTables } } }
  | cleared {t : Ref} {program : σ} : m.heap.phase = .atomic → t ∈ m.heap.cycle.weakTables →
      mu.clearWeak m.program t m.heap.isDead = .ok program → Works mu m { m with program }
  | doomed {s : Space} : m.heap.phase = .atomic →
      m.heap.cycle.doomed.foldlM Space.mark m.heap.space = .ok s →
      Works mu m { m with heap := { m.heap with space := s } }

/-- A finalizer that is due is taken, and runs with the collector held off. -/
def Runs (mu : Mutator σ) (m : Machine σ) (r : Ref) (result : Except String Unit) (program : σ) (h : Heap) : Prop :=
  ∃ s, m.heap.space.takePendingFinalizer = .ok (some r, s) ∧
    mu.runFinalizer (mu.suspendHooks m.program true) (Heap.setThreshold { m.heap with space := s } maxWord) r =
      .ok (result, program, h)

/-- What a program must keep to if the collector is to finish: it reports only allocated objects. Its
other answers are up to it, and its references may change whenever it is asked. -/
structure Honest (mu : Mutator σ) (m : Machine σ) : Prop where
  roots : m.heap.phase = .pause ∨ m.heap.phase = .atomic → ∀ r, (mu.graph m.program).root r →
    m.heap.isLive r = true
  /-- what the object refers to that is traversed next -/
  visits : m.heap.phase.IsMarking → ∀ source r s, m.heap.space.popGrey source = .ok (some r, s) →
    ∀ v, (mu.graph m.program).Edge m.heap.space r v → m.heap.isLive v.target = true
  /-- it may ask of any allocated object whether it is dead -/
  clears : m.heap.phase = .atomic → ∀ t ∈ m.heap.cycle.weakTables, ∀ isDead : Ref → Except Fault Bool,
    (∀ r, m.heap.isLive r = true → ∃ dead, isDead r = .ok dead) →
    ∃ program, mu.clearWeak m.program t isDead = .ok program
  /-- finalizers return, and do nothing to the heap but operate on it -/
  finalizes : m.heap.phase = .finalize → ∀ r s, m.heap.space.takePendingFinalizer = .ok (some r, s) →
    ∃ result program h, Runs mu m r result program h ∧
      Relation.ReflTransGen (Heap.Operation Heap.noResizing)
        (Heap.setThreshold { m.heap with space := s } maxWord) h ∧
      h.cycle.traceActive = m.heap.cycle.traceActive

/-- The program is honest whatever the collector has done. -/
def Trusted (mu : Mutator σ) (m : Machine σ) : Prop :=
  ∀ m', Relation.ReflTransGen (Works mu) m m' → Honest mu m'

theorem Trusted.honest (hm : Trusted mu m) : Honest mu m := hm m .refl

theorem Trusted.works (hm : Trusted mu m) (hworks : Works mu m m') : Trusted mu m' := fun m'' hrun =>
  hm m'' (.head hworks hrun)

/-! ## Steady machines -/

/-- A machine on which the collector can go on. -/
structure Steady (mu : Mutator σ) (m : Machine σ) : Prop where
  sound : m.heap.Sound
  recorded : m.heap.Recorded
  inactive : m.heap.cycle.traceActive = false
  stringsPerStep : m.heap.config.stringsPerStep ≤ maxWord / sweepStringCost
  trusted : Trusted mu m

theorem Steady.of_settings (hm : Steady mu m) (hs : m'.heap.Sound) (hrec : m'.heap.Recorded)
    (hsettings : m'.heap.settings = m.heap.settings) (hworks : Works mu m m') : Steady mu m' where
  sound := hs
  recorded := hrec
  inactive := (congrArg (fun settings : Config × Bool × Nat => settings.2.1) hsettings).trans hm.inactive
  stringsPerStep := by
    have hconfig : m'.heap.config = m.heap.config := congrArg Prod.fst hsettings
    exact hconfig ▸ hm.stringsPerStep
  trusted := hm.trusted.works hworks

theorem Steady.of_marks (hm : Steady mu m) (hmarks : m.heap.Marks m'.heap)
    (hsettings : m'.heap.settings = m.heap.settings) (hworks : Works mu m m') : Steady mu m' :=
  hm.of_settings hmarks.sound (hmarks.recorded hm.recorded) hsettings hworks

/-- What a step does while finalizers run, and what a finalizer leaves that runs in it. -/
inductive Finalizes (mu : Mutator σ) (m : Machine σ) : Except CollectError Nat → Machine σ → Prop where
  | done : (∀ t, ¬ (m.heap.space.slot t).pending) → Finalizes mu m (.ok 0) { m with heap := m.heap.enterPause }
  | ran {r : Ref} {result : Except String Unit} {program : σ} {h : Heap} : Runs mu m r result program h →
      h.Sound → (m.heap.space.slot r).pending → (∀ t, (h.space.slot t).pending → t ≠ r) →
      m.heap.Undisturbed h → h.cycle.traceActive = m.heap.cycle.traceActive →
      Finalizes mu m ((result.mapError .finalizer).map fun _ => finalizeCost)
        { program := mu.suspendHooks program false, heap := h.setThreshold m.heap.cycle.threshold }

theorem Steady.finalizeStep (hm : Steady mu m) (hp : m.heap.phase = .finalize) :
    ∃ result m', m.finalizeStep mu = .ok (result, m') ∧ Finalizes mu m result m' := by
  have hs := hm.sound
  obtain ⟨r?, s, htake, hspec⟩ := Space.takePendingFinalizer_spec hs.wf fun t ht => hs.listed t (.inr (.inr ht))
  cases r? with
  | none =>
    obtain ⟨rfl, hnone⟩ := hspec
    exact ⟨_, _, bind_eq_ok_iff.2 ⟨_, htake, rfl⟩, .done hnone⟩
  | some r =>
    obtain ⟨hpending, hrev⟩ := hspec
    obtain ⟨result, program, h, ⟨s', htake', hrun⟩, hops, htrace⟩ := hm.trusted.honest.finalizes hp r s htake
    rw [htake] at htake'
    cases htake'
    have htaken : Heap.Sound (Heap.setThreshold { m.heap with space := s } maxWord) :=
      (hs.taken hpending hrev).setThreshold maxWord
    obtain ⟨hsound, -, hu⟩ := Heap.Operation.run htaken hops
    -- the object is not due any more, and the others still are
    have hbefore : ∀ t, (h.space.slot t).pending → t ≠ r ∧ (m.heap.space.slot t).pending := by
      intro t ht
      have ht : (s.slot t).pending := hu.pending t ht
      by_cases htr : t = r
      · rw [htr, hrev.slot_self] at ht
        exact ht.elim
      · rw [hrev.slot_ne htr] at ht
        exact ⟨htr, ht⟩
    have hfinalizes := Finalizes.ran ⟨s, htake, hrun⟩ hsound hpending (fun t ht => (hbefore t ht).1)
      ⟨hu.phase, fun t ht => (hbefore t ht).2, hu.completed, hu.stringsPerStep⟩ htrace
    refine ⟨_, _, bind_eq_ok_iff.2 ⟨_, htake, bind_eq_ok_iff.2 ⟨_, hrun, ?_⟩⟩, hfinalizes⟩
    cases result <;> rfl

theorem Steady.isBlocked (hm : Steady mu m) : m.isBlocked = false := by
  rw [Machine.isBlocked, hm.inactive, Bool.false_and]

/-- Every piece of work leaves the machine steady. -/
theorem Steady.works (hm : Steady mu m) (hworks : Works mu m m') : Steady mu m' := by
  have hs := hm.sound
  cases id hworks with
  | @stepped result _ hrun =>
    by_cases hp : m.heap.phase = .finalize
    · rw [singleStep_of_finalize hm.isBlocked hp] at hrun
      obtain ⟨_, _, hrun', hfinalizes⟩ := hm.finalizeStep hp
      rw [hrun'] at hrun
      cases hrun
      cases hfinalizes with
      | done =>
        obtain ⟨hs', -⟩ := hs.enterPause hp
        exact ⟨hs', hs'.recorded (show ¬ Phase.IsMarking .pause by decide), hm.inactive, hm.stringsPerStep,
          hm.trusted.works hworks⟩
      | @ran r result program h _ hs' _ _ hu htrace =>
        have hp' : ¬ h.phase.IsMarking := by
          rw [hu.phase, hp]
          decide
        exact
          { sound := hs'.setThreshold _
            recorded := (hs'.setThreshold _).recorded hp'
            inactive := htrace.trans hm.inactive
            stringsPerStep := hu.stringsPerStep.trans_le hm.stringsPerStep
            trusted := hm.trusted.works hworks }
    · have hk : Keeps Heap.noResizing m _ := (singleStep_eq_ok hrun).keeps hs hp
      exact hm.of_settings hk.sound (hk.recorded (fun _ _ _ _ => False.elim) hm.recorded)
        (settings_singleStep hp hrun) hworks
  | drained hp hrun =>
    exact hm.of_marks (Heap.Marks.drained hs hp hrun).1
      (Heap.settings_of_terms (Heap.terms_drainStores hrun)) hworks
  | exhausted hp hpop => exact hm.of_marks (.popped hs (Space.popGrey_eq_ok hs.wf hpop)) rfl hworks
  | traversed hp hpop hrun =>
    exact hm.of_marks ((stable_marks hp).traverse (.refl hs) hpop hrun)
      ((stable_settings _).traverse rfl hpop hrun) hworks
  | rooted hp hrun =>
    obtain ⟨s, rfl, hshades, -⟩ := markRoots_eq_ok hs.wf (fun t ht => hs.listed t (ht.imp_right .inr)) hrun
    exact hm.of_marks (.shades hs (.inr hp) hshades) rfl hworks
  | selected hp hselect =>
    obtain ⟨_, _, hselect', hwf, hunswept, hhuge, hselected, -, -⟩ :=
      Space.selectFinalizers_spec hs.wf (mu.isFinalizable m.program) fun t ht => hs.listed t (.inr (.inl ht))
    rw [hselect] at hselect'
    cases hselect'
    have hs' := hs.selects (.inr hp) hwf hunswept hhuge hselected
    exact hm.of_settings (hs'.congr rfl rfl rfl rfl rfl rfl rfl hs.config) (hm.recorded.selects hselected rfl rfl rfl) rfl hworks
  | sorted hp =>
    exact hm.of_settings (hs.setWeakTables _) (hm.recorded.mono rfl (fun _ => id) (fun _ => id) fun t =>
      mem_sortTables.1) rfl hworks
  | cleared => exact hm.of_marks (.refl hs) rfl hworks
  | doomed hp hmark =>
    exact hm.of_marks (.shades hs (.inr hp) (Space.foldlM_mark_eq_ok hs.wf hmark).2) rfl hworks

theorem Steady.run (hm : Steady mu m) (hworks : Relation.ReflTransGen (Works mu) m m') : Steady mu m' := by
  induction hworks with
  | refl => exact hm
  | tail _ hstep ih => exact ih.works hstep

/-- Marking goes on as long as the machine is steady. -/
theorem Steady.sustains : Sustains mu fun m => Steady mu m ∧ m.heap.phase.IsMarking where
  drain {m h} hm hrun := by
    obtain ⟨hm, hp⟩ := hm
    rw [Heap.drainIfAny_eq] at hrun
    have hmarks := (Heap.Marks.drained hm.sound hp hrun).1
    exact ⟨hm.works (.drained hp hrun), hmarks.phase ▸ hp⟩
  exhaust {m source s} hm hpop := ⟨hm.1.works (.exhausted hm.2 hpop), hm.2⟩
  traverse {m m' source r s cost} hm hpop hrun := by
    obtain ⟨hm, hp⟩ := hm
    have hphase := ((stable_marks hp).traverse (.refl hm.sound) hpop hrun).phase
    exact ⟨hm.works (.traversed hp hpop hrun), hphase ▸ hp⟩
  sound hm := hm.1.sound
  marking hm := hm.2
  recorded hm := hm.1.recorded
  visits {m source r s v} hm hpop hv :=
    hm.1.sound.isLive_iff.1 (hm.1.trusted.honest.visits hm.2 source r s hpop v hv)

/-- Weak tables can be cleared, one after the other. -/
theorem Steady.foldlM_clearWeak {heap : Heap} (hp : heap.phase = .atomic) :
    ∀ {tables : List Ref} {program : σ}, (∀ t ∈ tables, t ∈ heap.cycle.weakTables) →
      Steady mu ⟨program, heap⟩ → ∃ program', tables.foldlM
        (fun program t => mu.clearWeak program t heap.isDead) program = .ok program' ∧
          Steady mu ⟨program', heap⟩ := by
  intro tables
  induction tables with
  | nil => exact fun {program} _ hm => ⟨program, rfl, hm⟩
  | cons t rest ih =>
    intro program htables hm
    have ht := htables t List.mem_cons_self
    obtain ⟨program₁, hclear⟩ := hm.trusted.honest.clears hp t ht heap.isDead fun r hr => by
      obtain ⟨e, he⟩ := hm.sound.isLive_iff.1 hr
      exact ⟨_, Heap.isDead_eq hm.sound.wf he⟩
    obtain ⟨program', hrest, hm'⟩ := ih (fun x hx => htables x (List.mem_cons_of_mem _ hx))
      (hm.works (.cleared hp ht hclear))
    exact ⟨program', bind_eq_ok_iff.2 ⟨program₁, hclear, hrest⟩, hm'⟩

/-- Marking comes to its end as long as the machine is steady. -/
theorem Steady.concludes : Concludes mu fun m => Steady mu m ∧ m.heap.phase = .atomic where
  drain {m h} hm hrun := by
    have hm' := Steady.sustains.drain ⟨hm.1, .inr hm.2⟩ hrun
    rw [Heap.drainIfAny_eq] at hrun
    exact ⟨hm'.1, (Heap.Marks.drained hm.1.sound (.inr hm.2) hrun).1.phase.trans hm.2⟩
  exhaust {m source s} hm hpop := ⟨(Steady.sustains.exhaust ⟨hm.1, .inr hm.2⟩ hpop).1, hm.2⟩
  traverse {m m' source r s cost} hm hpop hrun :=
    ⟨(Steady.sustains.traverse ⟨hm.1, .inr hm.2⟩ hpop hrun).1,
      ((stable_marks (.inr hm.2)).traverse (.refl hm.1.sound) hpop hrun).phase.trans hm.2⟩
  sound hm := hm.1.sound
  marking hm := .inr hm.2
  recorded hm := hm.1.recorded
  visits hm := Steady.sustains.visits ⟨hm.1, .inr hm.2⟩
  roots hm r hr := hm.1.sound.isLive_iff.1 (hm.1.trusted.honest.roots (.inr hm.2) r hr)
  rooted {m m'} hm hrun := by
    have hphase : m'.heap.phase = m.heap.phase := by
      obtain ⟨s, rfl, -⟩ := markRoots_eq_ok hm.1.sound.wf
        (fun t ht => hm.1.sound.listed t (ht.imp_right .inr)) hrun
      rfl
    exact ⟨hm.1.works (.rooted hm.2 hrun), hphase.trans hm.2⟩
  selects hm hselect := ⟨hm.1.works (.selected hm.2 hselect), hm.2⟩
  clears {m} hm := by
    obtain ⟨hm, hp⟩ := hm
    obtain ⟨program, hfold, hm'⟩ := @Steady.foldlM_clearWeak _ _ { m.heap with
        cycle := { m.heap.cycle with weakTables := sortTables m.heap.cycle.weakTables } } hp
      _ m.program (fun _ => id) (hm.works (.sorted hp))
    exact ⟨_, bind_eq_ok_iff.2 ⟨program, hfold, rfl⟩, hm', hp⟩
  dooms hm hmark := ⟨hm.1.works (.doomed hm.2 hmark), hm.2⟩

end Machine

end Tricolor
