import Tricolor.Proofs.Ledger

/-!
# What each phase promises

Between two cycles and while finalizers run, everything is white and nothing is queued, recorded
or awaits its sweep. While a sweep is pending only what awaits it may be marked, and while
objects are being marked nothing awaits a sweep. So the sweep always finds the queues and the
registers as empty as it needs them, and the atomic step ends with an empty store buffer.
-/

namespace Tricolor

namespace Heap

variable {h : Heap} {r : Ref} {e : Entity}

/-- Nothing waits to be traversed. -/
def QueuesEmpty (h : Heap) : Prop :=
  (∀ (i : Nat) (a : Arena), h.space.arenas[i]? = some a → a.grey.isEmpty = true) ∧
    h.space.hugeGrey.isEmpty = true

/-- No arena awaits its sweep, nor do the huge blocks. -/
def NothingAwaits (h : Heap) : Prop :=
  (∀ (i : Nat) (a : Arena), h.space.arenas[i]? = some a → a.needsSweep = false) ∧
    h.space.hugeNeedsSweep = false

/-- What the phase of the cycle promises of marks, queues, the store buffer and the sweep. -/
structure Phased (h : Heap) : Prop where
  resting : h.phase = .pause ∨ h.phase = .finalize → h.stores.isEmpty = true ∧ h.QueuesEmpty ∧
    h.NothingAwaits ∧ ∀ r, h.isLive r = true → h.space.cellState r = .ok .white
  sweeping : h.phase = .sweepStrings ∨ h.phase = .sweep → h.stores.isEmpty = true ∧ h.QueuesEmpty ∧
    ∀ r, h.isLive r = true → h.space.needsSweep r = .ok false → h.space.cellState r = .ok .white
  marking : h.phase = .propagate ∨ h.phase = .atomic → h.NothingAwaits

namespace Sound

/-- Outside marking nothing is queued, so the queues are empty. -/
theorem queuesEmpty (hs : h.Sound) (hp : ¬ h.phase.IsMarking) : h.QueuesEmpty := by
  refine ⟨fun i a ha => ?_, ?_⟩
  · by_contra hne
    rw [GreyStack.isEmpty, Array.isEmpty_iff] at hne
    obtain ⟨c, hc⟩ := Array.exists_mem_of_ne_empty _ hne
    by_cases hzero : c = 0
    · -- nothing is queued at cell 0
      subst hzero
      have hblank := congrArg Slot.queued (hs.wf.zero ha)
      exact hblank.mp hc
    · refine hs.quiet hp (a.object c) ?_
      rw [Space.slot_object hs.wf ha hzero]
      exact hc
  · by_contra hne
    rw [Array.isEmpty_iff] at hne
    obtain ⟨p, hpage⟩ := Array.exists_mem_of_ne_empty _ hne
    refine hs.quiet hp (.huge p) ?_
    rw [Space.slot_huge]
    exact hpage

theorem nothingAwaits (hs : h.Sound) (hp : ¬ h.phase.IsSweeping) : h.NothingAwaits := by
  obtain ⟨hhuge, hunswept⟩ := hs.flags.idle hp
  refine ⟨fun i a ha => ?_, hhuge⟩
  have hi := hunswept i
  rwa [Space.unswept, ha] at hi

/-- The state of an object's cell is its colour. -/
theorem cellState_eq (hs : h.Sound) (he : (h.space.slot r).entity? = some e) :
    h.space.cellState r = .ok (if e.marked then .black else .white) := by
  by_cases hr : r.isHuge = true
  · obtain ⟨b, hb, rfl⟩ := Space.exists_entry hr he
    rw [Space.cellState, if_pos hr, BlockTable.flags_eq_ok hs.wf.blocks (Space.page_ne_zero hs.wf hb).1,
      hb]
    rfl
  · rw [Bool.not_eq_true] at hr
    obtain ⟨a, ha, hsound, halloc, -, hmark⟩ := Space.exists_sound hs.wf hr he
    have hcell : r.cell < arenaCells :=
      (Space.revises_arenaMark hsound halloc true).1
    have hblock : a.block.get r.cell = true := by
      rw [Arena.isAllocated, Bool.and_eq_true] at halloc
      exact halloc.2
    rw [Space.cellState, if_neg (by rw [hr]; exact Bool.false_ne_true)]
    refine bind_eq_ok_iff.2 ⟨a, Space.arenaOf_eq hs.wf ha, bind_eq_ok_iff.2
      ⟨(), require_eq_ok_iff.2 hcell, ?_⟩⟩
    rw [hblock, hmark]
    cases e.marked <;> rfl

/-- An object that does not await a sweep is white, unless objects are being marked. -/
theorem white (hs : h.Sound) (hp : ¬ h.phase.IsMarking) (hlive : h.isLive r = true)
    (hawaits : h.space.needsSweep r = .ok false) : h.space.cellState r = .ok .white := by
  obtain ⟨e, he⟩ := hs.isLive_iff.1 hlive
  rw [hs.cellState_eq he]
  rw [Space.needsSweep_eq hs.wf he] at hawaits
  cases hm : e.marked with
  | false => rfl
  | true =>
    rcases (hs.admits r).marked he hm with hawaits' | hmarking
    · rw [hawaits'] at hawaits
      cases hawaits
    · exact absurd hmarking hp

/-- A sound heap keeps what its phase promises. -/
theorem phased (hs : h.Sound) : h.Phased where
  resting hor := by
    have hmarking : ¬ h.phase.IsMarking := by rcases hor with hp | hp <;> rw [hp] <;> decide
    have hsweeping : ¬ h.phase.IsSweeping := by rcases hor with hp | hp <;> rw [hp] <;> decide
    refine ⟨Array.isEmpty_iff.2 (hs.stores hmarking), hs.queuesEmpty hmarking, hs.nothingAwaits hsweeping,
      fun r hlive => hs.white hmarking hlive ?_⟩
    obtain ⟨e, he⟩ := hs.isLive_iff.1 hlive
    rw [Space.needsSweep_eq hs.wf he, hs.awaits hsweeping he]
  sweeping hor := by
    have hmarking : ¬ h.phase.IsMarking := by rcases hor with hp | hp <;> rw [hp] <;> decide
    exact ⟨Array.isEmpty_iff.2 (hs.stores hmarking), hs.queuesEmpty hmarking,
      fun r hlive hawaits => hs.white hmarking hlive hawaits⟩
  marking hor := hs.nothingAwaits (Phase.not_isSweeping hor)

end Sound

end Heap

namespace Machine

variable {σ : Type} {mu : Mutator σ} {m m' : Machine σ} {allowed : Heap.Resizings} {config : Config}
  {hashOf : List UInt8 → Hash}

/-- What the atomic step has made of a machine when it looks at the store buffer. -/
def BeforeSweep (mu : Mutator σ) (m m' : Machine σ) : Prop :=
  ∃ h m₁ m₂ cost more, m.heap.drainStores = .ok h ∧ markRoots mu { m with heap := h } = .ok m₁ ∧
    m₁.propagateAll mu = .ok (cost, m₂) ∧ m₂.finishMarking mu = .ok (more, m')

/-- Propagation ends with an empty store buffer. -/
theorem isEmpty_propagateAll {cost : Nat} (hrun : m.propagateAll mu = .ok (cost, m')) :
    m'.heap.stores.isEmpty = true :=
  (Stable.propagateAll (P := fun _ => True) ⟨fun _ _ => trivial, fun _ _ => trivial,
    fun _ _ _ => trivial⟩ trivial hrun).2.2

/-- Finishing the marking records nothing. -/
theorem isEmpty_finishMarking {cost : Nat} (hempty : m.heap.stores.isEmpty = true)
    (hrun : m.finishMarking mu = .ok (cost, m')) : m'.heap.stores.isEmpty = true := by
  rw [finishMarking] at hrun
  obtain ⟨⟨selection, s⟩, -, hrun⟩ := bind_eq_ok_iff.1 hrun
  obtain ⟨m₁, hclear, hrun⟩ := bind_eq_ok_iff.1 hrun
  obtain ⟨program, rfl, -⟩ := clearWeakTables_eq_ok hclear
  split at hrun
  · cases hrun
    exact hempty
  · obtain ⟨s', -, hrun⟩ := bind_eq_ok_iff.1 hrun
    obtain ⟨⟨cost', m₂⟩, hpropagate, hrun⟩ := bind_eq_ok_iff.1 hrun
    obtain ⟨m₃, hclear', hret⟩ := bind_eq_ok_iff.1 hrun
    cases hret
    obtain ⟨program', rfl, -⟩ := clearWeakTables_eq_ok hclear'
    have hstores := isEmpty_propagateAll (m := ⟨program, _⟩) hpropagate
    exact hstores

/-- The atomic step finds the store buffer empty, so it succeeds once it gets there. -/
theorem BeforeSweep.isEmpty (hm : BeforeSweep mu m m') : m'.heap.stores.isEmpty = true := by
  obtain ⟨h, m₁, m₂, cost, more, -, -, hpropagate, hfinish⟩ := hm
  exact isEmpty_finishMarking (isEmpty_propagateAll hpropagate) hfinish

theorem BeforeSweep.succeeds (hm : BeforeSweep mu m m') :
    ∃ cost m'', m.atomicStep mu = .ok (cost, m'') := by
  have hempty := hm.isEmpty
  obtain ⟨h, m₁, m₂, cost, more, hdrain, hroots, hpropagate, hfinish⟩ := hm
  refine ⟨saturatingAdd cost more, { m' with heap := { m'.heap with
    space := m'.heap.space.beginSweep
    cycle := { m'.heap.cycle with stringsCursor := 0, phase := .sweepStrings } } }, ?_⟩
  rw [atomicStep]
  exact bind_eq_ok_iff.2 ⟨h, hdrain, bind_eq_ok_iff.2 ⟨m₁, hroots, bind_eq_ok_iff.2 ⟨(cost, m₂), hpropagate,
    bind_eq_ok_iff.2 ⟨(more, m'), hfinish, bind_eq_ok_iff.2 ⟨(), require_eq_ok_iff.2 hempty, rfl⟩⟩⟩⟩⟩

/-- At every point of a run, and after every call, the heap keeps what its phase promises. The
sweep finds what it asserts: its steps always succeed, and the atomic step has emptied the
store buffer by the time it looks at it. -/
theorem phases_keep_their_promises (hmu : FinalizersOperate mu allowed config hashOf)
    (hm : Reachable mu allowed config hashOf m) :
    m.heap.Phased ∧ (∀ m', Call mu allowed m m' → m'.heap.Phased) ∧
      (m.heap.phase = .sweep → ∃ cost h, m.heap.sweepStep = .ok (cost, h)) ∧
      ∀ m', BeforeSweep mu m m' → m'.heap.stores.isEmpty = true ∧
        ∃ cost m'', m.atomicStep mu = .ok (cost, m'') := by
  refine ⟨hm.sound.phased, fun m' hcall => (hm.call hmu hcall).sound.phased, fun hp => ?_,
    fun m' hbefore => ⟨hbefore.isEmpty, hbefore.succeeds⟩⟩
  obtain ⟨cost, h, hrun, -⟩ := Heap.sweepStep_spec hm.sound hp
  exact ⟨cost, h, hrun⟩

/-- A heap in which a table awaits its sweep as garbage. -/
theorem promises_kept_with_garbage : ∃ m : Machine Ledger,
    m.heap.phase = .sweep ∧ m.heap.isLive (.huge 5) = true ∧ m.heap.Phased := by
  let config : Config := { hugeThreshold := 1 }
  let start := answerOf (Heap.build config fun _ => 0) (by decide +kernel)
  have hstart : Heap.withConfig config (fun _ => 0) = .ok (.ok start) := rfl
  let placed := answerOf (start.alloc (.page 5) .table 24) (by decide +kernel)
  have hplaced : start.alloc (.page 5) .table 24 = .ok placed := eq_answerOf _
  let swept := answerOf (singleSteps Ledger.mutator ⟨{}, placed.2⟩ 5) (by decide +kernel)
  have hswept : singleSteps Ledger.mutator ⟨{}, placed.2⟩ 5 = .ok swept := eq_answerOf _
  have hmu := Ledger.finalizersOperate Heap.anyResizing config fun _ => 0
  have hreach : Reachable Ledger.mutator Heap.anyResizing config (fun _ => 0) ⟨{}, placed.2⟩ :=
    (Reachable.initial {} hstart).step
      (.operate (.alloc (Supply.page_fresh (by decide) rfl (by decide +kernel) 0) hplaced))
  exact ⟨swept, by decide +kernel, by decide +kernel,
    (phases_keep_their_promises hmu (hreach.singleSteps hmu hswept)).1⟩

end Machine

end Tricolor
