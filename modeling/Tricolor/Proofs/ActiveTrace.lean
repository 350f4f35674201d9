import Tricolor.Proofs.Cycle.OpenSteps
import Tricolor.Proofs.Cycle.Work
import Tricolor.Proofs.Integrity

/-!
# Active traces

While a trace is active a cycle goes on only as far as open steps lead it: it stops before the atomic
step, which clears weak tables and selects the objects whose finalizers become due, and before the
finalizers. Neither is asked for by a step, by a full collection, or by anything that the program does to its
heap meanwhile. What goes on is what would go on without the trace.
-/

namespace Tricolor

namespace Heap

variable {allowed : Resizings} {h h' : Heap} {r : Ref}

/-- How an operation treats what is due: what is due after it was due before, unless it is what a due object
was resized to. -/
def Defers (h h' : Heap) : Prop :=
  ∀ t, (h'.space.slot t).pending → (h.space.slot t).pending ∨
    ∃ supply r old size, (h.space.slot r).pending ∧ h.realloc supply r old size = .ok (.ok t, h')

/-- An operation resizes nothing, or it answers where a resized object is. -/
theorem Operation.resizes (hop : Operation allowed h h') : Operation noResizing h h' ∨
    ∃ supply r old size moved, h.FreshFor supply r size ∧ h.realloc supply r old size = .ok (.ok moved, h') := by
  cases hop with
  | alloc hfresh hrun => exact .inl (.alloc hfresh hrun)
  | intern hfresh hrun => exact .inl (.intern hfresh hrun)
  | free hlive hrun => exact .inl (.free hlive hrun)
  | @realloc _ _ _ _ result _ hlive hfresh hrun _ =>
    cases result with
    | error error => exact .inl (.realloc hlive hfresh hrun fun _ hmoved => by cases hmoved)
    | ok moved => exact .inr ⟨_, _, _, _, moved, hfresh, hrun⟩
  | writePayload hlive hfits hrun => exact .inl (.writePayload hlive hfits hrun)
  | fix hlive hrun => exact .inl (.fix hlive hrun)
  | registerFinalizer hlive hrun => exact .inl (.registerFinalizer hlive hrun)
  | barrierForward hwriter hreferent hrun => exact .inl (.barrierForward hwriter hreferent hrun)
  | barrierBack hlive hrun => exact .inl (.barrierBack hlive hrun)
  | barrierSlot hwriter hreferent hrun => exact .inl (.barrierSlot hwriter hreferent hrun)
  | setTraceActive active => exact .inl (.setTraceActive active)
  | setPause percent => exact .inl (.setPause percent)
  | setStepMultiplier percent => exact .inl (.setStepMultiplier percent)

/-- A due object stays due when it is resized as a block, and no other object becomes due. -/
theorem Reallocates.pending {e : Entity} {size : Nat} {moved t : Ref} (hr : h.Reallocates r e size (.ok moved) h')
    (ht : (h'.space.slot t).pending) : (h.space.slot t).pending ∨ t = moved ∧ (h.space.slot r).pending := by
  cases hr with
  | @resized _ x s' _ hslot _ _ _ _ =>
    have ht : (s'.slot t).pending := ht
    rw [hslot] at ht
    by_cases htm : t = moved
    · rw [htm, Function.update_self] at ht
      exact .inr ⟨htm, ht⟩
    · rw [Function.update_of_ne htm] at ht
      by_cases htr : t = r
      · rw [htr, Function.update_self] at ht
        exact ht.elim
      · rw [Function.update_of_ne htr] at ht
        exact .inl ht
  | moved _ _ hcopies hrel =>
    by_cases htr : t = r
    · rw [htr, hrel.revises.slot_self] at ht
      exact ht.elim
    · rw [hrel.revises.slot_ne htr] at ht
      by_cases htm : t = moved
      · exact (hcopies.listed (htm ▸ ht)).elim
      · exact .inl (hcopies.slot t htm ▸ ht)

/-- No operation makes a finalizer due, or completes a cycle. -/
theorem Operation.defers (hs : h.Sound) (hop : Operation allowed h h') :
    h'.phase = h.phase ∧ h'.cycle.completed = h.cycle.completed ∧ h.Defers h' := by
  have hstill := hop.standsStill hs
  refine ⟨hstill.phase, hstill.completed, ?_⟩
  rcases hop.resizes with hop | ⟨supply, r, old, size, moved, hfresh, hrun⟩
  · exact fun t ht => .inl (hop.pending hs ht)
  · obtain ⟨e, -, hr⟩ := realloc_eq_ok hs hfresh hrun
    refine fun t ht => (hr.pending ht).imp_right ?_
    rintro ⟨rfl, hpending⟩
    exact ⟨supply, r, old, size, hpending, hrun⟩

end Heap

namespace Machine

variable {σ : Type} {mu mu' : Mutator σ} {allowed : Heap.Resizings} {config : Config} {hashOf : List UInt8 → Hash}
  {m m' m'' : Machine σ} {cost budget done answer : Nat} {result : Except CollectError Nat}

/-! ## Single steps -/

theorem singleStep_of_not_open (htrace : m.heap.cycle.traceActive = true) (hp : ¬ m.heap.phase.IsOpen)
    (mu : Mutator σ) : m.singleStep mu = .ok (.ok stepBlocked, m) :=
  singleStep_of_isBlocked (isBlocked_iff.2 ⟨htrace, hp⟩) mu

/-- During a trace a single step is blocked or open. -/
theorem singleStep_traced (htrace : m.heap.cycle.traceActive = true) (hrun : m.singleStep mu = .ok (result, m')) :
    ¬ m.heap.phase.IsOpen ∧ result = .ok stepBlocked ∧ m' = m ∨
      m.heap.phase.IsOpen ∧ ∃ cost, result = .ok cost ∧ OpenStep mu m cost m' := by
  by_cases hopen : m.heap.phase.IsOpen
  · exact .inr ⟨hopen, (singleStep_eq_ok_iff hopen).1 hrun⟩
  · rw [singleStep_of_not_open htrace hopen] at hrun
    cases hrun
    exact .inl ⟨hopen, rfl, rfl⟩

theorem OpenStep.settings (hstep : OpenStep mu m cost m') : m'.heap.settings = m.heap.settings :=
  settings_singleStep hstep.isOpen.2 hstep.run

/-- An open step makes no finalizer due. -/
theorem OpenStep.lists (hs : m.heap.Sound) (hstep : OpenStep mu m cost m') :
    m.heap.space.Lists m'.heap.space := by
  cases hstep with
  | started hp hstart =>
    obtain ⟨s', rfl, -, hshades, -⟩ := startCycle_eq_ok hs hp hstart
    exact hshades.advances.lists
  | propagated hp hrun => exact ((propagateStep_eq_ok hrun).advances hs hp).lists
  | sweptStrings _ hrun =>
    rw [Heap.sweepStringsStep_eq_ok hrun]
    exact .of_slot rfl
  | swept hp hrun =>
    obtain ⟨_, _, hrun', hsweeps⟩ := Heap.sweepStep_spec hs hp
    rw [hrun] at hrun'
    cases hrun'
    cases hsweeps with
    | swept hsweeps _ => exact hsweeps.lists
    | finished => exact .of_slot rfl

theorem OpenStep.sound (hs : m.heap.Sound) (hstep : OpenStep mu m cost m') : m'.heap.Sound :=
  have hkeeps : Keeps Heap.noResizing m m' := (singleStep_eq_ok hstep.run).keeps hs hstep.isOpen.2
  hkeeps.sound

theorem OpenStep.traceActive (hstep : OpenStep mu m cost m') :
    m'.heap.cycle.traceActive = m.heap.cycle.traceActive :=
  congrArg (fun settings : Config × Bool × Nat => settings.2.1) hstep.settings

theorem setTraceActive_self {active : Bool} (h : m.heap.cycle.traceActive = active) :
    m.setTraceActive active = m := by
  subst h
  rfl

/-- A single step goes the same for programs that mark alike. -/
theorem singleStep_traced_alike (hs : m.heap.Sound) (htrace : m.heap.cycle.traceActive = true)
    (hmu : mu.MarksAlike mu') (hrun : m.singleStep mu = .ok (result, m')) :
    m.singleStep mu' = .ok (result, m') := by
  rcases singleStep_traced htrace hrun with ⟨hp, rfl, rfl⟩ | ⟨-, cost, rfl, hstep⟩
  · exact singleStep_of_not_open htrace hp mu'
  · have hstep' := hstep.alike true hmu
    rw [setTraceActive_self htrace, setTraceActive_self (hstep.traceActive.trans htrace)] at hstep'
    exact hstep'.run

/-! ## Steps -/

/-- How a step goes during a trace, with `done` spent so far. It performs open steps until the next single
step is blocked or the budget is spent. Then the next step is put off, and nothing else is done. -/
inductive HeldStep (mu : Mutator σ) (budget : Nat) : Nat → Machine σ → Nat → Machine σ → Prop where
  | blocked {done : Nat} {m : Machine σ} : ¬ m.heap.phase.IsOpen →
      HeldStep mu budget done m stepBlocked { m with heap := m.heap.postponeStep }
  /-- the program charges so much for an open step that it looks blocked -/
  | saturated {done : Nat} {m m₁ : Machine σ} : OpenStep mu m stepBlocked m₁ →
      HeldStep mu budget done m stepBlocked { m₁ with heap := m₁.heap.postponeStep }
  | spent {done cost : Nat} {m m₁ : Machine σ} : OpenStep mu m cost m₁ → cost ≠ stepBlocked →
      budget ≤ saturatingAdd done cost →
      HeldStep mu budget done m (saturatingAdd done cost) { m₁ with heap := m₁.heap.postponeStep }
  | more {done cost answer : Nat} {m m₁ m' : Machine σ} : OpenStep mu m cost m₁ → cost ≠ stepBlocked →
      saturatingAdd done cost < budget → HeldStep mu budget (saturatingAdd done cost) m₁ answer m' →
      HeldStep mu budget done m answer m'

theorem heldStep_of_stepFrom : ∀ {n done : Nat} {m m' : Machine σ} {result : Except CollectError Nat},
    m.heap.Sound → m.heap.cycle.traceActive = true → m.stepFrom mu budget done n = .ok (result, m') →
      ∃ answer, result = .ok answer ∧ HeldStep mu budget done m answer m' := by
  intro n
  induction n with
  | zero =>
    intro done m m' result _ _ hrun
    cases hrun
  | succ n ih =>
    intro done m m' result hs htrace hrun
    rw [stepFrom] at hrun
    obtain ⟨⟨result₁, m₁⟩, hsingle, hrest⟩ := bind_eq_ok_iff.1 hrun
    rcases singleStep_traced htrace hsingle with ⟨hp, rfl, rfl⟩ | ⟨-, cost, rfl, hstep⟩
    · cases hrest
      exact ⟨_, rfl, .blocked hp⟩
    · simp only [hstep.ne_pause, if_false] at hrest
      split at hrest
      · next hcost =>
        cases hrest
        subst hcost
        exact ⟨_, rfl, .saturated hstep⟩
      · next hcost =>
        split at hrest
        · next hspent =>
          cases hrest
          exact ⟨_, rfl, .spent hstep hcost hspent⟩
        · next hmore =>
          obtain ⟨answer, rfl, hheld⟩ := ih (hstep.sound hs) (hstep.traceActive.trans htrace) hrest
          exact ⟨answer, rfl, .more hstep hcost (not_le.1 hmore) hheld⟩

/-- A step does go that way, given enough fuel. -/
theorem HeldStep.run (h : HeldStep mu budget done m answer m') : m.heap.Sound →
    m.heap.cycle.traceActive = true →
    ∃ n, ∀ fuel, n ≤ fuel → m.stepFrom mu budget done fuel = .ok (.ok answer, m') := by
  induction h with
  | blocked hp =>
    intro _ htrace
    refine ⟨1, fun fuel hfuel => ?_⟩
    obtain ⟨k, rfl⟩ := Nat.exists_eq_add_of_le' hfuel
    exact bind_eq_ok_iff.2 ⟨_, singleStep_of_not_open htrace hp mu, rfl⟩
  | saturated hstep =>
    intro _ _
    refine ⟨1, fun fuel hfuel => ?_⟩
    obtain ⟨k, rfl⟩ := Nat.exists_eq_add_of_le' hfuel
    exact bind_eq_ok_iff.2 ⟨_, hstep.run, rfl⟩
  | spent hstep hcost hspent =>
    intro _ _
    refine ⟨1, fun fuel hfuel => ?_⟩
    obtain ⟨k, rfl⟩ := Nat.exists_eq_add_of_le' hfuel
    refine bind_eq_ok_iff.2 ⟨_, hstep.run, ?_⟩
    simp only [hcost, hstep.ne_pause, hspent, if_true, if_false]
    rfl
  | more hstep hcost hmore _ ih =>
    intro hs htrace
    obtain ⟨n, hn⟩ := ih (hstep.sound hs) (hstep.traceActive.trans htrace)
    refine ⟨n + 1, fun fuel hfuel => ?_⟩
    obtain ⟨k, rfl⟩ := Nat.exists_eq_add_of_le' hfuel
    refine bind_eq_ok_iff.2 ⟨_, hstep.run, ?_⟩
    simp only [hcost, hstep.ne_pause, not_le.2 hmore, if_false]
    exact hn (k + n) (Nat.le_add_left _ _)

theorem stepFrom_alike (hmu : mu.MarksAlike mu') :
    ∀ {n done : Nat} {m m' : Machine σ} {result : Except CollectError Nat}, m.heap.Sound →
      m.heap.cycle.traceActive = true → m.stepFrom mu budget done n = .ok (result, m') →
      m.stepFrom mu' budget done n = .ok (result, m') := by
  intro n
  induction n with
  | zero =>
    intro done m m' result _ _ hrun
    cases hrun
  | succ n ih =>
    intro done m m' result hs htrace hrun
    rw [stepFrom] at hrun ⊢
    obtain ⟨⟨result₁, m₁⟩, hsingle, hrest⟩ := bind_eq_ok_iff.1 hrun
    refine bind_eq_ok_iff.2 ⟨_, singleStep_traced_alike hs htrace hmu hsingle, ?_⟩
    rcases singleStep_traced htrace hsingle with ⟨-, rfl, rfl⟩ | ⟨-, cost, rfl, hstep⟩
    · exact hrest
    · simp only [hstep.ne_pause, if_false] at hrest ⊢
      split at hrest
      · next hcost => rwa [if_pos hcost]
      · next hcost =>
        rw [if_neg hcost]
        split at hrest
        · next hspent => rwa [if_pos hspent]
        · next hmore =>
          rw [if_neg hmore]
          exact ih (hstep.sound hs) (hstep.traceActive.trans htrace) hrest

/-! ## Calls -/

/-- What a trace does to the calls at a machine. -/
structure UnderTrace (mu : Mutator σ) (m : Machine σ) : Prop where
  /-- a blocked single step asks no program anything, and changes nothing -/
  blocked : ¬ m.heap.phase.IsOpen → ∀ mu' : Mutator σ, m.singleStep mu' = .ok (.ok stepBlocked, m)
  /-- the other single steps are the same as without the trace -/
  goesOn : m.heap.phase.IsOpen → ∀ result m', m.singleStep mu = .ok (result, m') ↔
    m'.heap.cycle.traceActive = true ∧
      (m.setTraceActive false).singleStep mu = .ok (result, m'.setTraceActive false)
  step : ∀ fuel result m', m.step mu fuel = .ok (result, m') →
    ∃ answer, result = .ok answer ∧ HeldStep mu m.heap.config.stepBudget 0 m answer m'
  steps : ∀ answer m', HeldStep mu m.heap.config.stepBudget 0 m answer m' →
    ∃ n, ∀ fuel, n ≤ fuel → m.step mu fuel = .ok (.ok answer, m')
  fullCollect : ∀ (mu' : Mutator σ) fuel, m.fullCollect mu' fuel = .ok (.error .traceActive, m)
  /-- no call asks the program for more than marking does, to clear a table or to run a finalizer say -/
  alike : ∀ mu' : Mutator σ, mu.MarksAlike mu' →
    (∀ result m', m.singleStep mu = .ok (result, m') → m.singleStep mu' = .ok (result, m')) ∧
    (∀ fuel result m', m.step mu fuel = .ok (result, m') → m.step mu' fuel = .ok (result, m')) ∧
    ∀ fuel result m', m.checkStep mu fuel = .ok (result, m') → m.checkStep mu' fuel = .ok (result, m')
  /-- the collector makes no finalizer due -/
  collects : ∀ m', CollectorCall mu m m' → m.heap.space.Lists m'.heap.space
  /-- nor does the program -/
  operates : ∀ h allowed, Heap.Operation allowed m.heap h → m.heap.Defers h

/-- Calls of a program, one after the other, with the trace active all the time. -/
def TracedCalls (mu : Mutator σ) (allowed : Heap.Resizings) : Machine σ → Machine σ → Prop :=
  Relation.ReflTransGen fun m m' => Call mu allowed m m' ∧ m'.heap.cycle.traceActive = true

/-- The cycle has gone on by open steps only, and was not completed. -/
structure HeldUp (m m' : Machine σ) : Prop where
  active : m'.heap.cycle.traceActive = true
  phase : Relation.ReflTransGen Phase.Opens m.heap.phase m'.heap.phase
  completed : m'.heap.cycle.completed = m.heap.cycle.completed

/-- What every call of the collector keeps during a trace. -/
theorem stepwise_heldUp (m₀ : Machine σ) : Stepwise mu fun m =>
    Reachable mu allowed config hashOf m ∧ HeldUp m₀ m ∧ m₀.heap.space.Lists m.heap.space where
  singleStep := by
    rintro m m' result ⟨hm, hheld, hlists⟩ hrun
    rcases singleStep_traced hheld.active hrun with ⟨-, -, rfl⟩ | ⟨hopen, cost, -, hstep⟩
    · exact ⟨hm, hheld, hlists⟩
    · have hsettings := hstep.settings
      refine ⟨hm.step (.collect hopen.2 hrun), ⟨?_, ?_, ?_⟩, hlists.trans (hstep.lists hm.sound)⟩
      · exact hstep.traceActive.trans hheld.active
      · exact hheld.phase.trans (hstep.phase)
      · exact (congrArg (fun settings : Config × Bool × Nat => settings.2.2) hsettings).trans hheld.completed
  setThreshold := fun threshold ⟨hm, hheld, hlists⟩ =>
    ⟨hm.step (.setThreshold threshold), ⟨hheld.active, hheld.phase, hheld.completed⟩, hlists⟩

theorem Reachable.underTrace (hm : Reachable mu allowed config hashOf m)
    (htrace : m.heap.cycle.traceActive = true) : UnderTrace mu m where
  blocked hp := singleStep_of_not_open htrace hp
  goesOn hopen result m' := by
    have hmu : mu.MarksAlike mu := ⟨rfl, rfl, rfl, rfl⟩
    rw [singleStep_eq_ok_iff hopen, singleStep_eq_ok_iff (m := m.setTraceActive false) hopen]
    constructor
    · rintro ⟨cost, rfl, hstep⟩
      exact ⟨hstep.traceActive.trans htrace, cost, rfl, hstep.alike false hmu⟩
    · rintro ⟨htrace', cost, rfl, hstep⟩
      have hstep' := hstep.alike true hmu
      rw [show (m.setTraceActive false).setTraceActive true = m from setTraceActive_self htrace,
        show (m'.setTraceActive false).setTraceActive true = m' from setTraceActive_self htrace'] at hstep'
      exact ⟨cost, rfl, hstep'⟩
  step _ _ _ := heldStep_of_stepFrom hm.sound htrace
  steps _ _ hheld := hheld.run hm.sound htrace
  fullCollect _ _ := if_pos htrace
  alike mu' hmu := by
    have hstep : ∀ fuel result m', m.step mu fuel = .ok (result, m') → m.step mu' fuel = .ok (result, m') :=
      fun _ _ _ => stepFrom_alike hmu hm.sound htrace
    refine ⟨fun _ _ => singleStep_traced_alike hm.sound htrace hmu, hstep, fun fuel result m' hrun => ?_⟩
    rw [checkStep] at hrun ⊢
    split at hrun
    · next hdue =>
      obtain ⟨⟨result₁, m₁⟩, hrun₁, hret⟩ := bind_eq_ok_iff.1 hrun
      rw [if_pos hdue]
      exact bind_eq_ok_iff.2 ⟨_, hstep _ _ _ hrun₁, hret⟩
    · next hdue => rwa [if_neg hdue]
  collects m' hcall :=
    ((stepwise_heldUp m).collectorCall ⟨hm, ⟨htrace, .refl, rfl⟩, .of_slot rfl⟩ hcall).2.2
  operates _ _ hop := (hop.defers hm.sound).2.2

/-- A call during a trace leads to a reachable machine, whatever the finalizers of the program would do. -/
theorem Reachable.tracedCall (hm : Reachable mu allowed config hashOf m)
    (htrace : m.heap.cycle.traceActive = true) (hcall : Call mu allowed m m')
    (htrace' : m'.heap.cycle.traceActive = true) : Reachable mu allowed config hashOf m' ∧ HeldUp m m' := by
  have hkept : Stepwise mu fun m' => Reachable mu allowed config hashOf m' ∧ HeldUp m m' ∧
      m.heap.space.Lists m'.heap.space := stepwise_heldUp m
  have hstart : HeldUp m m := ⟨htrace, .refl, rfl⟩
  have hcollects : CollectorCall mu m m' → Reachable mu allowed config hashOf m' ∧ HeldUp m m' := fun hcall =>
    let ⟨hm', hheld, _⟩ := hkept.collectorCall ⟨hm, hstart, .of_slot rfl⟩ hcall
    ⟨hm', hheld⟩
  cases hcall with
  | operate program hop =>
    obtain ⟨hphase, hcompleted, -⟩ := hop.defers hm.sound
    exact ⟨(hm.step (.operate hop)).step (.compute program), htrace', by rw [hphase], hcompleted⟩
  | singleStep hrun => exact hcollects (.singleStep hrun)
  | step hrun => exact hcollects (.step hrun)
  | checkStep hrun => exact hcollects (.checkStep hrun)
  | fullCollect hrun => exact hcollects (.fullCollect hrun)

/-- While a trace is active, whatever a program calls: the cycle goes on by open steps only, it does not get
past the atomic step or the finalizers, and no finalizer becomes due. -/
theorem active_trace_holds_cycle_up (hm : Reachable mu Heap.anyResizing config hashOf m)
    (htrace : m.heap.cycle.traceActive = true) (hcalls : TracedCalls mu Heap.anyResizing m m') :
    HeldUp m m' ∧ (¬ m.heap.phase.IsOpen → m'.heap.phase = m.heap.phase) ∧ UnderTrace mu m' := by
  obtain ⟨hm', hheld⟩ : Reachable mu Heap.anyResizing config hashOf m' ∧ HeldUp m m' := by
    induction hcalls with
    | refl => exact ⟨hm, htrace, .refl, rfl⟩
    | tail _ hcall ih =>
      obtain ⟨hm₁, hheld⟩ := ih
      obtain ⟨hm', hheld'⟩ := hm₁.tracedCall hheld.active hcall.1 hcall.2
      exact ⟨hm', hheld'.active, hheld.phase.trans hheld'.phase, hheld'.completed.trans hheld.completed⟩
  exact ⟨hheld, fun hp => Phase.eq_of_opens hp hheld.phase, hm'.underTrace hheld.active⟩

/-- A step marks all there is to mark during a trace, and waits before the atomic step. -/
theorem marking_waits_for_trace : ∃ m m' : Machine Ledger,
    m.heap.phase = .propagate ∧ m.step Ledger.mutator 3 = .ok (.ok stepBlocked, m') ∧ m'.heap.phase = .atomic ∧
      m'.heap.cycle.threshold = m'.heap.space.total + 1024 ∧ HeldUp m m' ∧ UnderTrace Ledger.mutator m' := by
  let config : Config := { hugeThreshold := 1 }
  let start := answerOf (Heap.build config fun _ => 0) (by decide +kernel)
  have hstart : Heap.withConfig config (fun _ => 0) = .ok (.ok start) := rfl
  let program : Ledger := { roots := [.huge 5] }
  obtain ⟨placed, begun, m', hplaced, hbegun, hphase, hcall, hphase', htrace', hthreshold⟩ :
      ∃ (placed : Heap) (begun m' : Machine Ledger), start.alloc (.page 5) .table 24 = .ok (.ok (.huge 5), placed) ∧
        singleSteps Ledger.mutator ⟨program, placed⟩ 1 = .ok begun ∧ begun.heap.phase = .propagate ∧
        (begun.setTraceActive true).step Ledger.mutator 3 = .ok (.ok stepBlocked, m') ∧ m'.heap.phase = .atomic ∧
        m'.heap.cycle.traceActive = true ∧ m'.heap.cycle.threshold = m'.heap.space.total + 1024 :=
    ⟨_, _, _, eq_answerOf_of_fst (by decide +kernel) (by decide +kernel), eq_answerOf (by decide +kernel),
      by decide +kernel, eq_answerOf_of_fst (by decide +kernel) (by decide +kernel), by decide +kernel,
      by decide +kernel, by decide +kernel⟩
  have hreach : Reachable Ledger.mutator Heap.anyResizing config (fun _ => 0) ⟨program, placed⟩ :=
    (Reachable.initial program hstart).step
      (.operate (.alloc (Supply.page_fresh (by decide) rfl (by decide +kernel) 0) hplaced))
  have hmu := Ledger.finalizersOperate Heap.anyResizing config fun _ => 0
  have htraced : Reachable Ledger.mutator Heap.anyResizing config (fun _ => 0) (begun.setTraceActive true) :=
    (hreach.singleSteps hmu hbegun).step (.operate (.setTraceActive true))
  obtain ⟨hheld, -, hunder⟩ := active_trace_holds_cycle_up htraced rfl (.single ⟨.step hcall, htrace'⟩)
  exact ⟨begun.setTraceActive true, m', hphase, hcall, hphase', hthreshold, hheld, hunder⟩

end Machine

end Tricolor
