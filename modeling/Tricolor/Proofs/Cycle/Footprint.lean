import Tricolor.Proofs.Cycle.Run
import Tricolor.Proofs.Heap.Footprint

/-!
# The footprints of the collector

Marking writes no cell. Finishing it writes the flags of the objects that are selected, sweeping
writes the links of free runs, and completing the cycle drops arenas in which there is no object. The
finalizer of an object begins with the flags of that object.
-/

namespace Tricolor

namespace Space

variable {own flagged others : Ref → Prop} {s s' : Space} {r : Ref}

/-- A selection of finalizers changes flags only. -/
theorem KeepsObjects.selected {isFinalizable : Ref → Bool}
    (h : ∀ t, (s.slot t).Selected (isFinalizable t) (s'.slot t)) : KeepsObjects others s s' := fun t _ => by
  cases he : (s.slot t).entity? with
  | none =>
    refine iff_of_false (not_holds.2 ((h t).entity.2.1 he)) (not_holds.2 he)
  | some e =>
    obtain ⟨header, hx, -⟩ := (h t).entity.1 e he
    exact iff_of_true ⟨_, hx⟩ ⟨e, he⟩

/-- Taking a finalizer that is due changes flags only. -/
theorem KeepsObjects.taken (h : s.Revises s' r (s.slot r).taken) (hr : s.Holds r) : KeepsObjects others s s' :=
  .revises h hr (Slot.exists_mapEntity.2 hr)

theorem KeepsObjects.beginSweep (h : s.Wf) : KeepsObjects others s s.beginSweep := fun t _ => by
  rw [Holds, Holds, (beginSweep_spec h).2.2, Slot.exists_mapEntity]

/-- A sweep removes objects at most. -/
theorem Sweeps.keepsObjects (h : s.Sweeps s') : KeepsObjects (fun t => ¬ s'.Holds t) s s' := fun t ht => by
  rw [not_not] at ht
  refine iff_of_true ht ?_
  obtain ⟨x, hx⟩ := ht
  obtain ⟨e, he, -⟩ := h.entity_inv hx
  exact ⟨e, he⟩

end Space

namespace Heap

variable {own gone flagged : Ref → Prop} {h h' : Heap} {r : Ref} {cost : Nat}

theorem amends_drainIfAny (hrun : h.drainIfAny = .ok h') : h.space.Amends own flagged h'.space := by
  rw [drainIfAny] at hrun
  split at hrun
  · cases hrun
    exact .refl _
  · exact amends_drainStores hrun

theorem writes_sweepStep (ha : h.space.Addressed) (hrun : h.sweepStep = .ok (cost, h')) :
    h.space.Writes own flagged h'.space := by
  rw [sweepStep] at hrun
  cases hcursor : h.cycle.sweepCursor with
  | current =>
    simp only [hcursor] at hrun
    split at hrun
    · next index _ =>
      obtain ⟨s', hsweep, hret⟩ := bind_eq_ok_iff.1 hrun
      cases hret
      cases hswept : h.space.sweepArena index with
      | error fault =>
        rw [hswept] at hsweep
        cases hsweep
      | ok p =>
        rw [hswept] at hsweep
        cases hsweep
        exact .sweepArena ha hswept
    · cases hrun
      exact (Space.Amends.refl h.space).writes
  | huge =>
    simp only [hcursor] at hrun
    obtain ⟨⟨freed, s'⟩, hsweep, hret⟩ := bind_eq_ok_iff.1 hrun
    cases hret
    exact (Space.Amends.sweepHuge hsweep).writes
  | arenas start =>
    simp only [hcursor] at hrun
    split at hrun
    · obtain ⟨⟨freed, s'⟩, hsweep, hret⟩ := bind_eq_ok_iff.1 hrun
      cases hret
      exact .sweepArena ha hsweep
    · cases hrun
      exact (Space.Amends.refl h.space).writes

/-- The object was registered, and the collector has decided whether its finalizer is due. -/
def Selects (h h' : Heap) (r : Ref) : Prop := (h.space.slot r).idle ∧ ¬ (h'.space.slot r).idle

/-! ## The end of a cycle -/

/-- Where the slots are the same, so are the objects. -/
theorem Sound.retains_of_slot (hs : h.Sound) (hs' : h'.Sound) (hslot : h'.space.slot r = h.space.slot r)
    (hr : h.isLive r = true) : h.Retains r h' := by
  obtain ⟨e, he⟩ := hs.isLive_iff.1 hr
  have hx := hslot ▸ he
  refine ⟨e.header.kind, e.payload, ⟨hs.kind_eq he, ?_, ?_⟩, hs'.kind_eq hx, ?_, ?_⟩
  · rw [e.length_payload]
    exact hs.payloadSize_eq he
  · exact bind_eq_ok_iff.2 ⟨(), require_eq_ok_iff.2 hr, hs.payload he⟩
  · rw [e.length_payload]
    exact hs'.payloadSize_eq hx
  · exact bind_eq_ok_iff.2 ⟨(), require_eq_ok_iff.2 (hs'.isLive_iff.2 ⟨e, hx⟩), hs'.payload hx⟩

/-- Spare arenas are dropped, and the other arenas keep their memory. -/
theorem Sound.memory_enterPause (hs : h.Sound) (hp : h.phase = .finalize) {x : Ref}
    (hx : (h.enterPause.space.arena? x.page).isSome = true) : h.enterPause.space.memory x = h.space.memory x := by
  obtain ⟨hs', -⟩ := hs.enterPause hp
  obtain ⟨a', ha'⟩ := Option.isSome_iff_exists.1 hx
  obtain ⟨i, hi, hpage'⟩ := (Space.arena?_eq_some hs'.wf).1 ha'
  obtain ⟨a, ha, hpage, hlinks, hheaders, hbytes⟩ := Space.exists_of_mem_releaseFrom _ (Array.mem_of_getElem? hi)
  obtain ⟨j, hj⟩ := Array.getElem?_of_mem ha
  have hfound : h.space.arena? x.page = some a := (Space.arena?_eq_some hs.wf).2 ⟨j, hj, hpage.symm.trans hpage'⟩
  rw [Space.memory_eq ha', Space.memory_eq hfound, Arena.memory, Arena.memory, hlinks, hheaders, hbytes]

theorem Sound.changesOnly_enterPause (hs : h.Sound) (hp : h.phase = .finalize) :
    h.ChangesOnly own gone flagged h.enterPause := by
  obtain ⟨hs', hrelieved⟩ := hs.enterPause hp
  exact
    { present := fun r _ hr => isLive_eq hs.wf hs'.wf (.of_slot hrelieved.slot) hr
      object := fun r hr _ _ => hs.retains_of_slot hs' (congrFun hrelieved.slot r) hr
      body := fun r n x _ _ _ hx => ⟨by rw [hs.memory_enterPause hp hx], by rw [hs.memory_enterPause hp hx]⟩
      cell := fun x hx _ =>
        ⟨.inl (by rw [hs.memory_enterPause hp hx]), .inl (by rw [hs.memory_enterPause hp hx]),
          by rw [hs.memory_enterPause hp hx]⟩ }

/-! ## Finalizers -/

/-- Taking an object whose finalizer is due changes flags of that object. -/
theorem Sound.changesOnly_taken (hs : h.Sound) {s : Space} (htake : h.space.takePendingFinalizer = .ok (some r, s))
    (threshold : Nat) :
    h.ChangesOnly Space.nowhere Space.nowhere (· = r) (Heap.setThreshold { h with space := s } threshold) := by
  obtain ⟨_, _, htake', hspec⟩ := Space.takePendingFinalizer_spec hs.wf fun t ht => hs.listed t (.inr (.inr ht))
  rw [htake] at htake'
  cases htake'
  obtain ⟨hpending, hrev⟩ := hspec
  have hamends : h.space.Amends Space.nowhere (· = r) s :=
    .takePendingFinalizer hs.wf.addressed (fun t ht => (Option.some.inj ht).symm) htake
  have hkeeps : Space.KeepsObjects Space.nowhere h.space s := .taken hrev (hs.listed r (.inr (.inr hpending)))
  exact .of_flags hamends.writes hkeeps hs.wf hrev.wf

/-- When no finalizer is due, the cycle is complete. -/
theorem Sound.changesOnly_completed (hs : h.Sound) (hp : h.phase = .finalize) {s : Space}
    (htake : h.space.takePendingFinalizer = .ok (none, s)) :
    h.ChangesOnly own gone flagged (Heap.enterPause { h with space := s }) := by
  obtain ⟨_, _, htake', hspec⟩ := Space.takePendingFinalizer_spec hs.wf fun t ht => hs.listed t (.inr (.inr ht))
  rw [htake] at htake'
  cases htake'
  obtain ⟨rfl, -⟩ := hspec
  exact hs.changesOnly_enterPause hp

end Heap

namespace Machine

variable {σ : Type} {mu : Mutator σ} {own flagged others : Ref → Prop} {m m' : Machine σ} {cost : Nat} {r : Ref}

/-! ## Marking -/

theorem amends_traverse (hrun : m.traverse mu r = .ok (cost, m')) :
    m.heap.space.Amends own flagged m'.heap.space := by
  obtain ⟨header, -, hrun⟩ := bind_eq_ok_iff.1 hrun
  obtain ⟨s', hvisit, hret⟩ := bind_eq_ok_iff.1 hrun
  cases hret
  exact .foldlM (fun _ hstep => .visit hstep) hvisit

/-- The steps of the marking write no cell. -/
theorem stable_amends (s : Space) : Stable mu fun m => s.Amends own flagged m.heap.space where
  drain hm hrun := hm.trans (Heap.amends_drainIfAny hrun)
  exhaust hm hpop := hm.trans (.popGrey hpop)
  traverse hm hpop htraverse := (hm.trans (.popGrey hpop)).trans (amends_traverse htraverse)

theorem amends_markRoots (hrun : m.markRoots mu = .ok m') : m.heap.space.Amends own flagged m'.heap.space := by
  obtain ⟨s₁, hroots, hrun⟩ := bind_eq_ok_iff.1 hrun
  obtain ⟨s₂, hfixed, hret⟩ := bind_eq_ok_iff.1 hrun
  cases hret
  have hmarked : m.heap.space.Amends own flagged s₁ := .foldlM (fun _ hmark => .mark hmark) hroots
  exact hmarked.trans (.foldlM (fun _ hmark => .mark hmark) hfixed)

theorem amends_startCycle (hrun : m.startCycle mu = .ok m') : m.heap.space.Amends own flagged m'.heap.space := by
  obtain ⟨m₁, hroots, hret⟩ := bind_eq_ok_iff.1 hrun
  cases hret
  have hmarked : Space.Amends own flagged _ m₁.heap.space := amends_markRoots hroots
  exact hmarked

theorem Propagates.amends (hstep : Propagates mu m m') : m.heap.space.Amends own flagged m'.heap.space := by
  cases hstep with
  | @ready h hdrain _ =>
    have hdrained : m.heap.space.Amends own flagged h.space := Heap.amends_drainIfAny hdrain
    exact hdrained
  | @batch h _ _ _ hdrain _ hrun =>
    exact (stable_amends m.heap.space).traverseBatch (m := ⟨m.program, h⟩) (Heap.amends_drainIfAny hdrain) hrun

theorem Propagates.advances (hs : m.heap.Sound) (hp : m.heap.phase = .propagate) (hstep : Propagates mu m m') :
    m.heap.space.Advances m'.heap.space := by
  have hmarking : m.heap.phase.IsMarking := .inl hp
  cases hstep with
  | ready hdrain _ => exact (Heap.Marks.drainIfAny hs hmarking hdrain).1.advances
  | @batch h _ _ _ hdrain _ hrun =>
    obtain ⟨hm, -⟩ := Heap.Marks.drainIfAny hs hmarking hdrain
    exact ((stable_marks hmarking).traverseBatch (m := ⟨m.program, h⟩) hm hrun).advances

/-! ## Finishing the marking -/

/-- Finishing the marking writes the flags of the objects that are selected. -/
theorem footprint_finishMarking (hs : m.heap.Sound) (hp : m.heap.phase.IsMarking)
    (hrun : m.finishMarking mu = .ok (cost, m')) :
    m'.heap.space.Wf ∧ Space.KeepsObjects others m.heap.space m'.heap.space ∧
      ((∀ t, m.heap.Selects m'.heap t → flagged t) → m.heap.space.Amends own flagged m'.heap.space) := by
  rw [finishMarking] at hrun
  obtain ⟨⟨selection, s₁⟩, hselect, hrun⟩ := bind_eq_ok_iff.1 hrun
  obtain ⟨_, _, hselect', hwf, hunswept, hhuge, hselected, hasked, -⟩ :=
    Space.selectFinalizers_spec hs.wf (mu.isFinalizable m.program) fun t ht => hs.listed t (.inr (.inl ht))
  rw [hselect'] at hselect
  cases hselect
  have hs₁ := hs.selects hp hwf hunswept hhuge hselected
  have hkeeps : Space.KeepsObjects others m.heap.space s₁ := .selected hselected
  -- what was selected is not registered any longer
  have hidle : ∀ t ∈ selection.asked, (m.heap.space.slot t).idle ∧ ¬ (s₁.slot t).idle := fun t ht => by
    have hu := (hasked t).1 ht
    refine ⟨hu.1, ?_⟩
    cases hf : mu.isFinalizable m.program t with
    | true => rw [(hselected t).doom hu hf]; exact id
    | false => rw [(hselected t).forget hu hf]; exact id
  obtain ⟨m₂, hclear, hrun⟩ := bind_eq_ok_iff.1 hrun
  obtain ⟨program, rfl, -⟩ := clearWeakTables_eq_ok hclear
  split at hrun
  · cases hrun
    exact ⟨hwf, hkeeps, fun hflagged => .selectFinalizers (fun t ht => hflagged t (hidle t ht)) hselect'⟩
  · obtain ⟨s₃, hmark, hrun⟩ := bind_eq_ok_iff.1 hrun
    obtain ⟨⟨cost₃, m₃⟩, hpropagate, hrun⟩ := bind_eq_ok_iff.1 hrun
    obtain ⟨m₄, hclear₄, hret⟩ := bind_eq_ok_iff.1 hrun
    cases hret
    obtain ⟨program₄, rfl, -⟩ := clearWeakTables_eq_ok hclear₄
    have hs₂ : Heap.Sound { m.heap with
        space := s₁
        cycle := { m.heap.cycle with
          doomed := selection.doomed
          weakTables := sortTables m.heap.cycle.weakTables } } :=
      hs₁.congr rfl rfl rfl rfl rfl rfl rfl hs.config
    obtain ⟨-, hshades⟩ := Space.foldlM_mark_eq_ok hs₂.wf hmark
    have hm₃ := Heap.Marks.shades hs₂ hp hshades
    obtain ⟨hm₄, -⟩ := propagateAll_eq_ok (m := ⟨program, _⟩) hm₃.sound hp hpropagate
    have hadv := hshades.advances.trans hm₄.advances
    refine ⟨hm₄.sound.wf, hkeeps.trans (.advances hadv), fun hflagged => ?_⟩
    have hselecting : m.heap.space.Amends own flagged s₁ := .selectFinalizers (fun t ht => by
      refine hflagged t ⟨(hidle t ht).1, fun hlisted => (hidle t ht).2 ?_⟩
      exact hadv.idle t ▸ hlisted) hselect'
    have hmarking : s₁.Amends own flagged m₃.heap.space :=
      ((stable_amends s₁).propagateAll (m := ⟨program, _⟩) (.foldlM (fun _ hstep => .mark hstep) hmark) hpropagate).1
    exact hselecting.trans hmarking

/-- So does the atomic step, which marks before and begins the sweep afterwards. -/
theorem footprint_atomicStep (hs : m.heap.Sound) (hp : m.heap.phase = .atomic)
    (hflagged : ∀ t, m.heap.Selects m'.heap t → flagged t) (hrun : m.atomicStep mu = .ok (cost, m')) :
    m.heap.space.Amends own flagged m'.heap.space ∧ Space.KeepsObjects others m.heap.space m'.heap.space := by
  have hmarking : m.heap.phase.IsMarking := .inr hp
  rw [atomicStep] at hrun
  obtain ⟨h₁, hdrain, hrun⟩ := bind_eq_ok_iff.1 hrun
  obtain ⟨m₂, hroots, hrun⟩ := bind_eq_ok_iff.1 hrun
  obtain ⟨⟨cost₃, m₃⟩, hpropagate, hrun⟩ := bind_eq_ok_iff.1 hrun
  obtain ⟨⟨cost₄, m₄⟩, hfinish, hrun⟩ := bind_eq_ok_iff.1 hrun
  obtain ⟨_, hstores, hret⟩ := bind_eq_ok_iff.1 hrun
  cases hret
  have hdrained : m.heap.space.Amends own flagged h₁.space := Heap.amends_drainStores hdrain
  have hmarked : m.heap.space.Amends own flagged m₃.heap.space :=
    ((stable_amends m.heap.space).propagateAll (hdrained.trans (amends_markRoots hroots)) hpropagate).1
  obtain ⟨hm₁, -⟩ := Heap.Marks.drained hs hmarking hdrain
  have hp₁ : h₁.phase.IsMarking := hm₁.phase ▸ hmarking
  obtain ⟨s₂, rfl, hshades, -⟩ := markRoots_eq_ok (m := { program := m.program, heap := h₁ })
    hm₁.sound.wf (fun t ht => hm₁.sound.listed t (ht.imp_right .inr)) hroots
  have hm₂ := Heap.Marks.shades hm₁.sound hp₁ hshades
  obtain ⟨hm₃, -⟩ := propagateAll_eq_ok (m := ⟨_, _⟩) hm₂.sound hp₁ hpropagate
  have hadv := hm₁.advances.trans (hshades.advances.trans hm₃.advances)
  have hp₃ : m₃.heap.phase.IsMarking := hm₃.phase ▸ hm₂.phase ▸ hp₁
  obtain ⟨hwf, hkeeps, hfinished⟩ := footprint_finishMarking hm₃.sound hp₃ hfinish
  refine ⟨(hmarked.trans (hfinished fun t ht => ?_)).trans .beginSweep,
    ((Space.KeepsObjects.advances hadv).trans hkeeps).trans (.beginSweep hwf)⟩
  -- neither marking nor the begin of the sweep changes what is registered
  refine hflagged t ⟨hadv.idle t ▸ ht.1, fun hlisted => ht.2 ?_⟩
  have hlisted : (m₄.heap.space.beginSweep.slot t).idle := hlisted
  rwa [(Space.beginSweep_spec hwf).2.2, Slot.mapEntity_idle] at hlisted

/-! ## Steps -/

/-- A step that runs no finalizer. -/
theorem changesOnly_singleStep (hs : m.heap.Sound) (hp : m.heap.phase ≠ .finalize)
    {result : Except CollectError Nat} (hrun : m.singleStep mu = .ok (result, m')) :
    m.heap.ChangesOnly Space.nowhere (fun t => m.heap.phase = .sweep ∧ m'.heap.isLive t = false)
      (m.heap.Selects m'.heap) m'.heap := by
  have hstep := singleStep_eq_ok hrun
  have hkeeps : Keeps Heap.anyResizing m m' := hstep.keeps hs hp
  have hwf' := hkeeps.sound.wf
  cases hstep with
  | blocked => exact .refl hs.wf
  | started hpause hstart =>
    obtain ⟨s', hm', -, hshades, -⟩ := startCycle_eq_ok hs hpause hstart
    refine .of_flags (amends_startCycle hstart).writes ?_ hs.wf hwf'
    rw [hm']
    exact .shades hshades
  | propagated hpropagate hprop =>
    have hpropagates := propagateStep_eq_ok hprop
    exact .of_flags hpropagates.amends.writes (.advances (hpropagates.advances hs hpropagate)) hs.wf hwf'
  | finished hatomic hatom =>
    obtain ⟨hamends, hobjects⟩ := footprint_atomicStep hs hatomic (fun _ => id) hatom
    exact .of_flags hamends.writes hobjects hs.wf hwf'
  | sweptStrings _ hsweep =>
    rw [Heap.sweepStringsStep_eq_ok hsweep]
    exact .of_flags (Space.Amends.refl m.heap.space).writes (.refl m.heap.space) hs.wf hs.wf
  | @swept cost h hsweep hswept =>
    obtain ⟨_, _, hswept', hsweeps⟩ := Heap.sweepStep_spec hs hsweep
    rw [hswept] at hswept'
    cases hswept'
    refine .of_flags (Heap.writes_sweepStep hs.wf.addressed hswept) ?_ hs.wf hwf'
    cases hsweeps with
    | finished => exact .refl m.heap.space
    | swept hsweeps hs' =>
      refine hsweeps.keepsObjects.mono fun t ht => ⟨hsweep, ?_⟩
      rw [← Bool.not_eq_true, hs'.isLive_iff]
      exact ht
  | finalized hfinalize => exact absurd hfinalize hp

end Machine

end Tricolor
