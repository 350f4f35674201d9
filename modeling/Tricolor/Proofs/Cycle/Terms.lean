import Mathlib.Logic.Relation
import Tricolor.Proofs.Cycle.Run

/-!
# What a cycle leaves as it stands

The threshold, the estimate, the number of completed cycles and the configuration stay as they are until the
cycle is complete. Only around a finalizer is the threshold another one. A program that operates on its heap
changes less: it may declare traces and set the pause and the multiplier.
-/

namespace Tricolor

/-- What the steps of a cycle leave as it stands. -/
structure Terms where
  threshold : Nat
  estimate : Nat
  completed : Nat
  traceActive : Bool
  config : Config

namespace Heap

variable {h h' h'' : Heap} {r : Ref} {cost : Nat} {allowed : Resizings}

/-- What the next step of a cycle finds as the last one left it. -/
def terms (h : Heap) : Terms where
  threshold := h.cycle.threshold
  estimate := h.cycle.estimate
  completed := h.cycle.completed
  traceActive := h.cycle.traceActive
  config := h.config

theorem terms_drainStores (hrun : h.drainStores = .ok h') : h'.terms = h.terms := by
  obtain ⟨s, -, hret⟩ := bind_eq_ok_iff.1 hrun
  cases hret
  rfl

theorem terms_drainIfAny (hrun : h.drainIfAny = .ok h') : h'.terms = h.terms := by
  rw [drainIfAny] at hrun
  split at hrun
  · cases hrun
    rfl
  · exact terms_drainStores hrun

theorem terms_sweptStrings (h : Heap) : h.sweptStrings.terms = h.terms := by
  rw [sweptStrings, terms]
  simp only
  split <;> rfl

theorem terms_sweepStep (hrun : h.sweepStep = .ok (cost, h')) : h'.terms = h.terms := by
  rw [sweepStep] at hrun
  split at hrun
  · split at hrun
    · obtain ⟨s, -, hret⟩ := bind_eq_ok_iff.1 hrun
      cases hret
      rfl
    · cases hrun
      rfl
  · obtain ⟨⟨freed, s⟩, -, hret⟩ := bind_eq_ok_iff.1 hrun
    cases hret
    rfl
  · split at hrun
    · obtain ⟨⟨freed, s⟩, -, hret⟩ := bind_eq_ok_iff.1 hrun
      cases hret
      rfl
    · cases hrun
      rfl

/-! ## Operations -/

/-- The program has operated on the heap, and the cycle stands where it stood. -/
structure StandsStill (h h' : Heap) : Prop where
  phase : h'.phase = h.phase
  terms : ∃ traceActive pause stepMultiplier, h'.terms =
    { h.terms with traceActive, config := { h.config with pause, stepMultiplier } }

namespace StandsStill

theorem of_cycle (hcycle : h'.cycle = h.cycle) (hconfig : h'.config = h.config) : h.StandsStill h' where
  phase := congrArg Cycle.phase hcycle
  terms := ⟨h.cycle.traceActive, h.config.pause, h.config.stepMultiplier, by rw [Heap.terms, hcycle, hconfig]; rfl⟩

theorem refl (h : Heap) : h.StandsStill h := of_cycle rfl rfl

theorem trans (h₁ : h.StandsStill h') (h₂ : h'.StandsStill h'') : h.StandsStill h'' where
  phase := h₂.phase.trans h₁.phase
  terms := by
    obtain ⟨active₁, pause₁, multiplier₁, hterms₁⟩ := h₁.terms
    obtain ⟨active₂, pause₂, multiplier₂, hterms₂⟩ := h₂.terms
    refine ⟨active₂, pause₂, multiplier₂, ?_⟩
    rw [hterms₂, hterms₁, show h'.config = _ from congrArg Terms.config hterms₁]

theorem threshold (hs : h.StandsStill h') : h'.cycle.threshold = h.cycle.threshold := by
  obtain ⟨_, _, _, hterms⟩ := hs.terms
  exact congrArg Terms.threshold hterms

theorem estimate (hs : h.StandsStill h') : h'.cycle.estimate = h.cycle.estimate := by
  obtain ⟨_, _, _, hterms⟩ := hs.terms
  exact congrArg Terms.estimate hterms

theorem completed (hs : h.StandsStill h') : h'.cycle.completed = h.cycle.completed := by
  obtain ⟨_, _, _, hterms⟩ := hs.terms
  exact congrArg Terms.completed hterms

theorem stringsPerStep (hs : h.StandsStill h') : h'.config.stringsPerStep = h.config.stringsPerStep := by
  obtain ⟨_, _, _, hterms⟩ := hs.terms
  exact congrArg (fun s => s.config.stringsPerStep) hterms

theorem releases (hr : h.Releases r h') : h.StandsStill h' where
  phase := hr.phase_eq
  terms := ⟨h.cycle.traceActive, h.config.pause, h.config.stepMultiplier, by
    rw [Heap.terms, hr.cycle, hr.config]; rfl⟩

theorem interns {bytes : List UInt8} (hi : h.Interns bytes r h') : h.StandsStill h' := by
  cases hi <;> exact of_cycle rfl rfl

theorem records (hrec : h.Records r h') : h.StandsStill h' := by
  cases hrec <;> exact of_cycle rfl rfl

theorem forwards {e x : Entity} {recorded : Heap → Prop} (hrecorded : recorded h' → h.StandsStill h')
    (hf : h.Forwards e x r recorded h') : h.StandsStill h' := by
  cases hf with
  | idle => exact refl h
  | marking _ hrec => exact hrecorded hrec
  | sweeping => exact of_cycle rfl rfl

theorem regreys {e : Entity} (hg : h.Regreys e r h') : h.StandsStill h' := by
  cases hg with
  | idle => exact refl h
  | @greyed s _ _ _ _ hrec =>
    have hgreyed : h.StandsStill { h with space := s } := of_cycle rfl rfl
    exact hgreyed.trans (records hrec)

theorem reallocates {e : Entity} {size : Nat} {result : Except AllocError Ref}
    (hr : h.Reallocates r e size result h') : h.StandsStill h' := by
  cases hr with
  | refused | resized => exact of_cycle rfl rfl
  | @moved _ h₁ _ _ _ hcopies hrel =>
    have hcopied : h.StandsStill h₁ := of_cycle (by rw [hcopies.others]) (by rw [hcopies.others])
    exact hcopied.trans (releases hrel)

end StandsStill

/-- The cycle stands still while a program operates on its heap. -/
theorem Operation.standsStill (hs : h.Sound) (hop : Operation allowed h h') : h.StandsStill h' := by
  cases hop with
  | alloc hfresh hrun =>
    obtain ⟨s, rfl, -⟩ := alloc_eq_ok hs hfresh hrun
    exact .of_cycle rfl rfl
  | @intern _ _ result _ hfresh hrun =>
    obtain ⟨herror, hok⟩ := intern_eq_ok hs hfresh hrun
    cases result with
    | error error =>
      obtain ⟨s, rfl, -⟩ := herror error rfl
      exact .of_cycle rfl rfl
    | ok r => exact .interns (hok r rfl)
  | free _ hrun => exact .releases (free_eq_ok hs hrun).2
  | realloc _ hfresh hrun =>
    obtain ⟨e, -, hr⟩ := realloc_eq_ok hs hfresh hrun
    exact .reallocates hr
  | writePayload _ hfits hrun =>
    obtain ⟨e, content, s, -, -, rfl, -⟩ := writePayload_eq_ok hs hfits hrun
    exact .of_cycle rfl rfl
  | fix _ hrun =>
    obtain ⟨e, s, -, rfl, -⟩ := fix_eq_ok hs hrun
    exact .of_cycle rfl rfl
  | registerFinalizer _ hrun =>
    obtain ⟨e, s, -, rfl, -⟩ := registerFinalizer_eq_ok hs hrun
    exact .of_cycle rfl rfl
  | barrierForward hwriter hreferent hrun =>
    obtain ⟨e, he, -⟩ := hs.live_iff.1 hwriter
    obtain ⟨x, hx, -⟩ := hs.live_iff.1 hreferent
    exact .forwards .records (barrierForward_eq_ok hs he hx hrun).2
  | barrierBack hcontainer hrun =>
    obtain ⟨e, he, -⟩ := hs.live_iff.1 hcontainer
    exact .regreys (barrierBack_eq_ok hs he hrun).2
  | barrierSlot hwriter hreferent hrun =>
    obtain ⟨e, he, -⟩ := hs.live_iff.1 hwriter
    obtain ⟨x, hx, -⟩ := hs.live_iff.1 hreferent
    refine .forwards (fun hrec => ?_) (barrierSlot_eq_ok hs he hx hrun).2
    obtain ⟨s, rfl, -⟩ := hrec
    exact .of_cycle rfl rfl
  | setTraceActive active => exact ⟨rfl, active, h.config.pause, h.config.stepMultiplier, rfl⟩
  | setPause percent => exact ⟨rfl, h.cycle.traceActive, percent, h.config.stepMultiplier, rfl⟩
  | setStepMultiplier percent => exact ⟨rfl, h.cycle.traceActive, h.config.pause, percent, rfl⟩

/-- So it does through many operations. -/
theorem Operation.run_standsStill (hs : h.Sound) (hops : Relation.ReflTransGen (Operation allowed) h h') :
    h'.Sound ∧ h.StandsStill h' := by
  induction hops with
  | refl => exact ⟨hs, .refl h⟩
  | tail _ hop ih =>
    obtain ⟨hs₁, hstill⟩ := ih
    exact ⟨(hop.keeps hs₁).1.sound, hstill.trans (hop.standsStill hs₁)⟩

end Heap

namespace Machine

variable {σ : Type} {mu : Mutator σ} {m m' : Machine σ} {cost : Nat} {allowed : Heap.Resizings} {config : Config}
  {hashOf : List UInt8 → Hash}

theorem terms_markRoots (hrun : m.markRoots mu = .ok m') : m'.heap.terms = m.heap.terms := by
  obtain ⟨s₁, -, hrun⟩ := bind_eq_ok_iff.1 hrun
  obtain ⟨s₂, -, hret⟩ := bind_eq_ok_iff.1 hrun
  cases hret
  rfl

theorem terms_traverse {r : Ref} (hrun : m.traverse mu r = .ok (cost, m')) :
    m'.heap.terms = m.heap.terms := by
  obtain ⟨header, -, hrun⟩ := bind_eq_ok_iff.1 hrun
  obtain ⟨s, -, hret⟩ := bind_eq_ok_iff.1 hrun
  cases hret
  have hcycle : ∀ mode : WeakMode, Heap.terms { m.heap with
      space := s
      cycle := if mode = .none then m.heap.cycle
        else { m.heap.cycle with weakTables := r :: m.heap.cycle.weakTables } } = m.heap.terms := by
    intro mode
    rw [Heap.terms]
    split <;> rfl
  exact hcycle _

theorem stable_terms (terms : Terms) : Stable mu fun m => m.heap.terms = terms where
  drain hm hrun := (Heap.terms_drainIfAny hrun).trans hm
  exhaust hm _ := hm
  traverse hm _ hrun := (terms_traverse hrun).trans hm

theorem terms_finishMarking (hrun : m.finishMarking mu = .ok (cost, m')) :
    m'.heap.terms = m.heap.terms := by
  rw [finishMarking] at hrun
  obtain ⟨⟨selection, s⟩, -, hrun⟩ := bind_eq_ok_iff.1 hrun
  obtain ⟨m₁, hclear, hrun⟩ := bind_eq_ok_iff.1 hrun
  obtain ⟨program, rfl, -⟩ := clearWeakTables_eq_ok hclear
  split at hrun
  · cases hrun
    rfl
  · obtain ⟨s', -, hrun⟩ := bind_eq_ok_iff.1 hrun
    obtain ⟨⟨cost', m₂⟩, hpropagate, hrun⟩ := bind_eq_ok_iff.1 hrun
    obtain ⟨m₃, hclear', hret⟩ := bind_eq_ok_iff.1 hrun
    cases hret
    obtain ⟨program', rfl, -⟩ := clearWeakTables_eq_ok hclear'
    exact ((stable_terms _).propagateAll (m := ⟨program, _⟩) rfl hpropagate).1

theorem terms_atomicStep (hrun : m.atomicStep mu = .ok (cost, m')) : m'.heap.terms = m.heap.terms := by
  rw [atomicStep] at hrun
  obtain ⟨h₁, hdrain, hrun⟩ := bind_eq_ok_iff.1 hrun
  obtain ⟨m₂, hroots, hrun⟩ := bind_eq_ok_iff.1 hrun
  obtain ⟨⟨cost₃, m₃⟩, hpropagate, hrun⟩ := bind_eq_ok_iff.1 hrun
  obtain ⟨⟨cost₄, m₄⟩, hfinish, hrun⟩ := bind_eq_ok_iff.1 hrun
  obtain ⟨_, -, hret⟩ := bind_eq_ok_iff.1 hrun
  cases hret
  have hpropagated := ((stable_terms _).propagateAll rfl hpropagate).1
  calc m₄.heap.terms = m₃.heap.terms := terms_finishMarking hfinish
    _ = m₂.heap.terms := hpropagated
    _ = h₁.terms := terms_markRoots hroots
    _ = m.heap.terms := Heap.terms_drainStores hdrain

theorem terms_propagateStep (hrun : m.propagateStep mu = .ok (cost, m')) :
    m'.heap.terms = m.heap.terms := by
  cases propagateStep_eq_ok hrun with
  | ready hdrain =>
    have hterms := Heap.terms_drainIfAny hdrain
    exact hterms
  | @batch h _ _ _ hdrain _ hrun =>
    exact ((stable_terms h.terms).traverseBatch rfl hrun).trans (Heap.terms_drainIfAny hdrain)

/-- Before the finalizers, the steps of a cycle leave everything as it stands. -/
theorem terms_singleStep (hp : m.heap.phase ≠ .finalize) {result : Except CollectError Nat}
    (hrun : m.singleStep mu = .ok (result, m')) : m'.heap.terms = m.heap.terms := by
  cases singleStep_eq_ok hrun with
  | blocked => rfl
  | started _ hstart =>
    obtain ⟨m₁, hroots, hret⟩ := bind_eq_ok_iff.1 hstart
    cases hret
    have hterms := terms_markRoots hroots
    exact hterms
  | propagated _ hstep => exact terms_propagateStep hstep
  | finished _ hstep => exact terms_atomicStep hstep
  | sweptStrings _ hstep =>
    rw [Heap.sweepStringsStep_eq_ok hstep]
    exact Heap.terms_sweptStrings m.heap
  | swept _ hstep => exact Heap.terms_sweepStep hstep
  | finalized hq => exact absurd hq hp

/-- Runs never change the number of buckets that are swept in a step. -/
theorem Reachable.stringsPerStep (hm : Reachable mu allowed config hashOf m) :
    m.heap.config.stringsPerStep = config.stringsPerStep := by
  induction hm with
  | initial _ hh => exact congrArg Config.stringsPerStep (Heap.sound_of_withConfig hh).2.2.2.1
  | @step m m' hm hstep ih =>
    have hconfig : m'.heap.config.stringsPerStep = m.heap.config.stringsPerStep := by
      cases hstep with
      | compute | setThreshold | finalize | complete => rfl
      | operate hop => exact (hop.standsStill hm.sound).stringsPerStep
      | collect hp hrun => exact congrArg (fun s : Terms => s.config.stringsPerStep) (terms_singleStep hp hrun)
    exact hconfig.trans ih

end Machine

end Tricolor
