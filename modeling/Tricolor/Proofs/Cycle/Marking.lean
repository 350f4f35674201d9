import Tricolor.Collector
import Tricolor.Proofs.Heap.Operation

/-!
# Marking

While marking goes on, objects are marked, queued, popped and recorded, and nothing else
happens to the heap. `Stable` is the induction over the loops of the marking: what draining
the store buffer and traversing one object keep, every loop keeps.
-/

namespace Tricolor

namespace Heap

variable {h h' h'' : Heap} {r : Ref} {s' : Space}

/-- `h'` is `h` after some marking. -/
structure Marks (h h' : Heap) : Prop extends Maintains h h' where
  advances : h.space.Advances h'.space
  strings : h'.strings = h.strings
  config : h'.config = h.config
  hashOf : h'.hashOf = h.hashOf
  doomed : h'.cycle.doomed = h.cycle.doomed
  traceActive : h'.cycle.traceActive = h.cycle.traceActive

theorem Maintains.trans (h₁ : h.Maintains h') (h₂ : h'.Maintains h'') : h.Maintains h'' where
  sound := h₂.sound
  phase := h₂.phase.trans h₁.phase
  pending t ht := (h₂.pending t ht).elim h₁.pending
  recorded hr := h₂.recorded (h₁.recorded hr)

theorem Marks.refl (hs : h.Sound) : h.Marks h := ⟨.refl hs, .refl hs.wf, rfl, rfl, rfl, rfl, rfl⟩

theorem Marks.trans (h₁ : h.Marks h') (h₂ : h'.Marks h'') : h.Marks h'' where
  toMaintains := h₁.toMaintains.trans h₂.toMaintains
  advances := h₁.advances.trans h₂.advances
  strings := h₂.strings.trans h₁.strings
  config := h₂.config.trans h₁.config
  hashOf := h₂.hashOf.trans h₁.hashOf
  doomed := h₂.doomed.trans h₁.doomed
  traceActive := h₂.traceActive.trans h₁.traceActive

theorem Marks.shades (hs : h.Sound) (hp : h.phase.IsMarking) {rs : List Ref}
    (hshades : h.space.Shades rs s') : h.Marks { h with space := s' } :=
  ⟨.shades hs hp hshades, hshades.advances, rfl, rfl, rfl, rfl, rfl⟩

/-- Popping a queue keeps a heap sound. -/
theorem Marks.popped (hs : h.Sound) {r? : Option Ref} (hpopped : h.space.Popped r? s') :
    h.Marks { h with space := s' } := by
  have hsound : Sound { h with space := s' } := by
    refine hs.replace hpopped.wf hpopped.unswept hpopped.hugeNeedsSweep (fun t => ?_) fun hash t hmem => ?_
    · have hv := hs.admits t
      have hq := hpopped.queued t
      rw [hpopped.slot]
      exact
        { size := hv.size
          fixed := hv.fixed
          registered := hv.registered
          listed := hv.listed
          queued := fun hnew => hv.queued (hq hnew)
          marked := hv.marked }
    · rw [hpopped.slot]
      exact hs.linked hmem
  refine ⟨⟨⟨hsound, rfl, fun t ht => ⟨t, ?_⟩⟩, fun hr => ?_⟩, hpopped.advances, rfl, rfl, rfl, rfl, rfl⟩
  · exact hpopped.advances.pending t ▸ ht
  · exact hr.mono rfl (fun _ => hpopped.advances.holds.2) (fun _ => id) fun _ => id

theorem Marks.drained (hs : h.Sound) (hp : h.phase.IsMarking) (hrun : h.drainStores = .ok h') :
    h.Marks h' ∧ h'.stores.isEmpty = true := by
  obtain ⟨hall, s', hshades, rfl⟩ := drainStores_eq_ok hs hrun
  have hm := Marks.shades hs hp hshades
  refine ⟨⟨⟨⟨hs.drained hp hshades, rfl, hm.pending⟩, fun hr => ?_⟩, hm.advances, rfl, rfl, rfl, rfl, rfl⟩, rfl⟩
  exact ⟨fun t ht => absurd ht (Array.not_mem_empty t), (hm.recorded hr).2⟩

theorem Marks.drainIfAny (hs : h.Sound) (hp : h.phase.IsMarking) (hrun : h.drainIfAny = .ok h') :
    h.Marks h' ∧ h'.stores.isEmpty = true := by
  rw [Heap.drainIfAny] at hrun
  split at hrun
  · next hempty =>
    cases hrun
    exact ⟨.refl hs, hempty⟩
  · exact Marks.drained hs hp hrun

/-- What the collector remembers of a cycle does not matter to the invariant, except for its
phase and for where the sweep goes on. -/
theorem Sound.setWeakTables (hs : h.Sound) (weakTables : List Ref) :
    Sound { h with cycle := { h.cycle with weakTables } } :=
  hs.congr rfl rfl rfl rfl rfl rfl rfl hs.config

/-- Remembering allocated tables. -/
theorem Marks.setWeakTables (hs : h.Sound) {weakTables : List Ref}
    (hweak : ∀ t ∈ weakTables, t ∈ h.cycle.weakTables ∨ h.space.Holds t) :
    h.Marks { h with cycle := { h.cycle with weakTables } } := by
  refine ⟨⟨⟨hs.setWeakTables weakTables, rfl, fun t ht => ⟨t, ht⟩⟩, fun hr => ⟨hr.1, fun hp t ht => ?_⟩⟩,
    .refl hs.wf, rfl, rfl, rfl, rfl, rfl⟩
  exact (hweak t ht).elim (hr.2 hp t) id

end Heap

namespace Machine

variable {σ : Type} {mu : Mutator σ} {m m' : Machine σ} {r : Ref} {cost : Nat}

/-- A property that the steps of the marking keep: draining the store buffer, finding a queue
exhausted, and traversing an object that was popped. -/
structure Stable (mu : Mutator σ) (P : Machine σ → Prop) : Prop where
  drain : ∀ {m : Machine σ} {h : Heap}, P m → m.heap.drainIfAny = .ok h → P { m with heap := h }
  exhaust : ∀ {m : Machine σ} {source : GreySource} {s : Space}, P m →
    m.heap.space.popGrey source = .ok (none, s) → P { m with heap := { m.heap with space := s } }
  traverse : ∀ {m m' : Machine σ} {source : GreySource} {r : Ref} {s : Space} {cost : Nat}, P m →
    m.heap.space.popGrey source = .ok (some r, s) →
    Machine.traverse mu { m with heap := { m.heap with space := s } } r = .ok (cost, m') → P m'

/-- Traversing a batch. -/
theorem Stable.traverseBatch {P : Machine σ → Prop} (hP : Stable mu P) {source : GreySource} :
    ∀ {n : Nat} {m m' : Machine σ} {cost cost' : Nat}, P m →
      m.traverseBatch mu source cost n = .ok (cost', m') → P m' := by
  intro n
  induction n with
  | zero =>
    intro m m' cost cost' hm hrun
    cases hrun
    exact hm
  | succ n ih =>
    intro m m' cost cost' hm hrun
    rw [Machine.traverseBatch] at hrun
    obtain ⟨⟨r?, s⟩, hpop, hrun⟩ := bind_eq_ok_iff.1 hrun
    cases r? with
    | none =>
      cases hrun
      exact hP.exhaust hm hpop
    | some r =>
      obtain ⟨⟨more, m₁⟩, htraverse, hrun⟩ := bind_eq_ok_iff.1 hrun
      exact ih (hP.traverse hm hpop htraverse) hrun

/-- Propagation, and what is left to do after it: nothing. -/
theorem Stable.propagateFrom {P : Machine σ → Prop} (hP : Stable mu P)
    (hempty : ∀ {h h' : Heap}, h.drainIfAny = .ok h' → h'.stores.isEmpty = true) :
    ∀ {n : Nat} {m m' : Machine σ} {source? : Option GreySource} {cost cost' : Nat}, P m →
      m.propagateFrom mu source? cost n = .ok (cost', m') →
      P m' ∧ m'.heap.space.waiting = 0 ∧ m'.heap.stores.isEmpty = true := by
  intro n
  induction n with
  | zero =>
    intro m m' source? cost cost' _ hrun
    cases hrun
  | succ n ih =>
    intro m m' source? cost cost' hm hrun
    cases source? with
    | none =>
      rw [Machine.propagateFrom] at hrun
      obtain ⟨h, hdrain, hrun⟩ := bind_eq_ok_iff.1 hrun
      have hdeepest := Space.deepestGrey_spec h.space
      cases hsource : h.space.deepestGrey with
      | none =>
        simp only [hsource] at hrun
        cases hrun
        rw [hsource] at hdeepest
        exact ⟨hP.drain hm hdrain, hdeepest, hempty hdrain⟩
      | some source =>
        simp only [hsource] at hrun
        exact ih (hP.drain hm hdrain) hrun
    | some source =>
      rw [Machine.propagateFrom] at hrun
      obtain ⟨⟨r?, s⟩, hpop, hrun⟩ := bind_eq_ok_iff.1 hrun
      cases r? with
      | none => exact ih (hP.exhaust hm hpop) hrun
      | some r =>
        obtain ⟨⟨more, m₁⟩, htraverse, hrun⟩ := bind_eq_ok_iff.1 hrun
        exact ih (hP.traverse hm hpop htraverse) hrun

theorem isEmpty_drainIfAny {h h' : Heap} (hrun : h.drainIfAny = .ok h') : h'.stores.isEmpty = true := by
  rw [Heap.drainIfAny] at hrun
  split at hrun
  · next hempty =>
    cases hrun
    exact hempty
  · rw [Heap.drainStores] at hrun
    obtain ⟨_, -, hret⟩ := bind_eq_ok_iff.1 hrun
    cases hret
    rfl

/-- What a property keeps through all of the propagation. -/
theorem Stable.propagateAll {P : Machine σ → Prop} (hP : Stable mu P) (hm : P m)
    (hrun : m.propagateAll mu = .ok (cost, m')) :
    P m' ∧ m'.heap.space.waiting = 0 ∧ m'.heap.stores.isEmpty = true :=
  hP.propagateFrom isEmpty_drainIfAny hm hrun

/-! ## What the steps of the marking do -/

/-- Traversing an object marks others, and remembers it if it is a weak table. -/
theorem traverse_eq_ok (hs : m.heap.Sound) (hp : m.heap.phase.IsMarking) (hr : m.heap.space.Holds r)
    (hrun : m.traverse mu r = .ok (cost, m')) : m.heap.Marks m'.heap := by
  rw [traverse] at hrun
  obtain ⟨header, -, hrun⟩ := bind_eq_ok_iff.1 hrun
  obtain ⟨s', hvisit, hret⟩ := bind_eq_ok_iff.1 hrun
  cases hret
  obtain ⟨rs, hshades⟩ := Space.foldlM_visit_eq_ok hs.wf hvisit
  have hm := Heap.Marks.shades hs hp hshades
  have hcycle : ∀ mode : WeakMode, m.heap.Marks { m.heap with
      space := s'
      cycle := if mode = .none then m.heap.cycle
        else { m.heap.cycle with weakTables := r :: m.heap.cycle.weakTables } } := by
    intro mode
    split
    · exact hm
    · refine hm.trans (.setWeakTables hm.sound fun t ht => ?_)
      rcases List.mem_cons.1 ht with rfl | ht
      · exact .inr (hshades.holds.2 hr)
      · exact .inl ht
  exact hcycle _

/-- The steps of the marking keep what `Marks` says of them. -/
theorem stable_marks {h₀ : Heap} (hp : h₀.phase.IsMarking) :
    Stable mu fun m => h₀.Marks m.heap where
  drain hm hrun := by
    have hp := hm.phase ▸ hp
    exact hm.trans (Heap.Marks.drainIfAny hm.sound hp hrun).1
  exhaust hm hpop := hm.trans (Heap.Marks.popped hm.sound (Space.popGrey_eq_ok hm.sound.wf hpop))
  traverse {m m' source r s cost} hm hpop htraverse := by
    have hpopped := Space.popGrey_eq_ok hm.sound.wf hpop
    have hm' := hm.trans (Heap.Marks.popped hm.sound hpopped)
    have hholds := hpopped.advances.holds.2 (hpopped.found r rfl).1
    exact hm'.trans (traverse_eq_ok hm'.sound (hm'.phase ▸ hp) hholds htraverse)

theorem propagateAll_eq_ok (hs : m.heap.Sound) (hp : m.heap.phase.IsMarking)
    (hrun : m.propagateAll mu = .ok (cost, m')) :
    m.heap.Marks m'.heap ∧ m'.heap.space.waiting = 0 ∧ m'.heap.stores.isEmpty = true :=
  (stable_marks hp).propagateAll (Heap.Marks.refl hs) hrun

/-- Marking the roots. -/
theorem markRoots_eq_ok (hwf : m.heap.space.Wf)
    (hlisted : ∀ t, (m.heap.space.slot t).fixed ∨ (m.heap.space.slot t).pending → m.heap.space.Holds t)
    (hrun : m.markRoots mu = .ok m') :
    ∃ s', m' = { program := (mu.roots m.program).2, heap := { m.heap with space := s' } } ∧
      m.heap.space.Shades ((mu.roots m.program).1 ++ m.heap.space.fixedRoots) s' ∧
      ∀ r ∈ (mu.roots m.program).1, m.heap.space.Holds r := by
  rw [markRoots] at hrun
  obtain ⟨s₁, hroots, hrun⟩ := bind_eq_ok_iff.1 hrun
  obtain ⟨s₂, hfixed, hret⟩ := bind_eq_ok_iff.1 hrun
  cases hret
  obtain ⟨hall, hshades₁⟩ := Space.foldlM_mark_eq_ok hwf hroots
  have hadv := hshades₁.advances
  obtain ⟨_, hfixed', hshades₂⟩ := Space.markFixed_spec hadv.wf fun t ht => by
    rw [hadv.fixed, hadv.pending] at ht
    exact hadv.holds.2 (hlisted t ht)
  rw [hfixed'] at hfixed
  cases hfixed
  refine ⟨_, rfl, (hshades₁.trans hshades₂).congr fun t => ?_, hall⟩
  rw [List.mem_append, List.mem_append, Space.mem_fixedRoots hadv.wf, Space.mem_fixedRoots hwf,
    hadv.fixed, hadv.pending]

end Machine

end Tricolor
