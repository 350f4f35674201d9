import Tricolor.Proofs.Charges
import Tricolor.Proofs.Cycle.Accuracy

/-!
# Numbers that a word holds

Costs, budgets and thresholds are put together from the settings, from what the program charges and from the
bytes in use. They are added and multiplied up to the largest word, or taken from each other when the accounts
say that there is enough. The cost of sweeping some buckets is the one exception. It is a product that is not
held back, so a setting that is accepted may be too large for it: then the sweep of the strings never succeeds
and no cycle is ever completed. Everything else that goes wrong in the arithmetic of a call goes wrong in
the program, when it clears a table or runs a finalizer.
-/

namespace Tricolor

namespace Heap

variable {h h' : Heap} {config : Config} {hashOf : List UInt8 → Hash} {cost : Nat}

/-- The sweep of the space goes on behind an arena. -/
theorem Sound.start_le_of_sweepStep (hs : h.Sound) (hp : h.phase = .sweep) (hrun : h.sweepStep = .ok (cost, h'))
    (hp' : h'.phase = .sweep) {start : Nat} (hstart : h'.cycle.sweepCursor = .arenas start) :
    start ≤ h'.space.arenas.size := by
  rw [sweepStep] at hrun
  split at hrun
  · split at hrun
    · obtain ⟨s, -, hret⟩ := bind_eq_ok_iff.1 hrun
      cases hret
      cases hstart
    · cases hrun
      cases hstart
  · obtain ⟨⟨freed, s⟩, -, hret⟩ := bind_eq_ok_iff.1 hrun
    cases hret
    cases hstart
    exact Nat.zero_le _
  · next start₀ _ =>
    have hnext := Space.nextUnswept_spec h.space start₀
    split at hrun
    · next i hi =>
      rw [hi] at hnext
      obtain ⟨freed, s, hsweep, -, -, hsize, -⟩ :=
        Space.sweepArena_sweeps hs.wf (hs.sweepable (by rw [hp]; decide)) hnext.2.1
      rw [hsweep] at hrun
      cases hrun
      cases hstart
      exact Nat.succ_le_of_lt (hsize ▸ hnext.2.1)
    · cases hrun
      cases hp'

end Heap

namespace Machine

variable {σ : Type} {mu : Mutator σ} {m m' m₁ : Machine σ} {allowed : Heap.Resizings} {config : Config}
  {hashOf : List UInt8 → Hash} {result : Except CollectError Nat} {fault : Fault}

/-- The fault with which the arithmetic of a single step goes wrong. -/
inductive Miscounts (mu : Mutator σ) (m : Machine σ) : Fault → Prop where
  /-- no word holds the cost of sweeping some buckets -/
  | sweeping : m.heap.phase = .sweepStrings → wordRange ≤ m.heap.config.stringsPerStep * sweepStringCost →
      Miscounts mu m .overflow
  /-- the program goes wrong when it clears a table -/
  | clearing {program : σ} {t : Ref} {h : Heap} {fault : Fault} : m.heap.phase = .atomic →
      mu.clearWeak program t h.isDead = .error fault → fault.isArithmetic = true → Miscounts mu m fault
  /-- the finalizer goes wrong that is run -/
  | finalizing {r : Ref} {s : Space} {fault : Fault} : m.heap.phase = .finalize →
      m.heap.space.takePendingFinalizer = .ok (some r, s) →
      mu.runFinalizer (mu.suspendHooks m.program true) (Heap.setThreshold { m.heap with space := s } maxWord) r =
        .error fault → fault.isArithmetic = true → Miscounts mu m fault

/-- It goes wrong in a single step after others that succeed. -/
def MiscountsLater (mu : Mutator σ) (m : Machine σ) (fault : Fault) : Prop :=
  ∃ m₁, Relation.ReflTransGen (Stepped mu) m m₁ ∧ Miscounts mu m₁ fault

theorem Miscounts.later (h : Miscounts mu m fault) : MiscountsLater mu m fault := ⟨m, .refl, h⟩

theorem MiscountsLater.after (hsteps : Relation.ReflTransGen (Stepped mu) m m₁) (h : MiscountsLater mu m₁ fault) :
    MiscountsLater mu m fault := by
  obtain ⟨m₂, hlater, hmiscounts⟩ := h
  exact ⟨m₂, hsteps.trans hlater, hmiscounts⟩

/-! ## Single steps -/

/-- What a single step has computed. -/
structure Computes (m : Machine σ) (result : Except CollectError Nat) (m' : Machine σ) : Prop where
  cost : ∀ cost, result = .ok cost → cost ≤ maxWord
  threshold : m'.heap.cycle.threshold = m.heap.cycle.threshold ∨ m'.heap.cycle.threshold ≤ maxWord
  /-- the sweep of the strings goes on at a bucket, or has passed the last one -/
  buckets : m.heap.phase = .sweepStrings → m'.heap.cycle.stringsCursor ≤ m'.heap.strings.bucketCount
  /-- the sweep of the space goes on at an arena, or has passed the last one -/
  arenas : m.heap.phase = .sweep → m'.heap.phase = .sweep → ∀ start, m'.heap.cycle.sweepCursor = .arenas start →
    start ≤ m'.heap.space.arenas.size

theorem cost_singleStep {cost : Nat} (hrun : m.singleStep mu = .ok (.ok cost, m')) : cost ≤ maxWord := by
  cases singleStep_eq_ok hrun with
  | blocked => exact le_rfl
  | started => exact Nat.zero_le _
  | propagated _ hstep =>
    obtain ⟨charged, rfl, -⟩ := propagateStep_metered hstep
    exact saturatingAdd_le _ _
  | finished _ hstep =>
    obtain ⟨charged, rfl, -⟩ := atomicStep_metered hstep
    exact saturatingAdd_le _ _
  | sweptStrings _ hstep =>
    obtain ⟨_, -, hstep⟩ := bind_eq_ok_iff.1 hstep
    obtain ⟨cost', hcost, hret⟩ := bind_eq_ok_iff.1 hstep
    cases hret
    obtain ⟨hlt, rfl⟩ := checkedMul_eq_ok_iff.1 hcost
    exact Nat.le_sub_one_of_lt hlt
  | swept _ hstep => exact (Heap.cost_sweepStep hstep).trans (by decide)
  | finalized _ hstep => exact (cost_finalizeStep hstep).trans (by decide)

/-- The threshold stays, or is a word. -/
theorem threshold_le_of_singleStep (hrun : m.singleStep mu = .ok (result, m')) :
    m'.heap.cycle.threshold = m.heap.cycle.threshold ∨ m'.heap.cycle.threshold ≤ maxWord := by
  by_cases hp : m'.heap.phase = .pause
  · rcases (singleStep_pauses hrun hp).2 with hcompletes | ⟨r, _, _, h, -, -, rfl⟩
    · rw [hcompletes.paced.threshold]
      exact .inr (Nat.min_le_right _ _)
    · exact .inl rfl
  · exact .inl (threshold_singleStep hrun hp)

theorem Computes.of_singleStep (hs : m.heap.Sound) (hrun : m.singleStep mu = .ok (result, m')) :
    Computes m result m' where
  cost cost hresult := by
    subst hresult
    exact cost_singleStep hrun
  threshold := threshold_le_of_singleStep hrun
  buckets hp := by
    obtain ⟨cost, -, hstep⟩ := (singleStep_eq_ok_iff (hp ▸ by decide)).1 hrun
    cases hstep with
    | sweptStrings _ hstep =>
      rw [Heap.sweepStringsStep_eq_ok hstep, hs.cycle_sweptStrings, hs.bucketCount_sweptStrings]
      have hle : m.heap.nextBucket ≤ m.heap.strings.bucketCount := Nat.min_le_right _ _
      split
      · exact hle
      · exact hle
    | started hq | propagated hq | swept hq => rw [hp] at hq; cases hq
  arenas hp hp' start hcursor := by
    obtain ⟨cost, -, hstep⟩ := (singleStep_eq_ok_iff (hp ▸ by decide)).1 hrun
    cases hstep with
    | swept _ hstep => exact hs.start_le_of_sweepStep hp hstep hp' hcursor
    | started hq | propagated hq | sweptStrings hq => rw [hp] at hq; cases hq

/-! ## Calls -/

theorem Behaved.stepped (hmu : Behaved mu allowed config hashOf) (hm : Reachable mu allowed config hashOf m)
    (hsteps : Relation.ReflTransGen (Stepped mu) m m') : Reachable mu allowed config hashOf m' := by
  induction hsteps with
  | refl => exact hm
  | tail _ hstep ih =>
    obtain ⟨cost, hrun⟩ := hstep
    exact hmu.kept.stepwise.singleStep ih hrun

end Machine

end Tricolor
