import Tricolor.Proofs.Cycle.Marking
import Tricolor.Proofs.Space.Selection

/-!
# Finishing the marking

The atomic step marks everything that is reachable, selects the finalizers that are due, marks
what they need, and then begins the sweep. By then every object that is listed anywhere is
marked, so the sweep will spare it.
-/

namespace Tricolor

namespace Heap

variable {h h' : Heap} {s' : Space}

/-- Selecting finalizers keeps a heap sound. -/
theorem Sound.selects (hs : h.Sound) (hp : h.phase.IsMarking) {isFinalizable : Ref → Bool} (hwf : s'.Wf)
    (hunswept : s'.unswept = h.space.unswept) (hhuge : s'.hugeNeedsSweep = h.space.hugeNeedsSweep)
    (hselected : ∀ t, (h.space.slot t).Selected (isFinalizable t) (s'.slot t)) :
    Sound { h with space := s' } := by
  have hadmits : ∀ t, h.phase.Admits (s'.slot t) ∧ ∀ e, (h.space.slot t).entity? = some e →
      ∃ header, (s'.slot t).entity? = some { e with header } ∧ header.kind = e.header.kind ∧
        header.size = e.header.size := by
    intro t
    have hsel := hselected t
    have hv := hs.admits t
    by_cases hu : (h.space.slot t).Unreached
    · obtain ⟨hidle, e, he, hwhite⟩ := id hu
      have hsize := hv.size he
      have hsurvives := hs.survives (Phase.not_isSweeping hp) he
      have hnot := Space.idle_not_pending hs.wf hidle
      cases hf : isFinalizable t with
      | true =>
        rw [hsel.doom hu hf]
        refine ⟨{
          size := hv.size
          fixed := hv.fixed
          registered := fun {x} hx => ?_
          listed := fun _ => ⟨e, he, hsurvives⟩
          queued := hv.queued
          marked := hv.marked }, fun x hx => ⟨x.header, hx, rfl, rfl⟩⟩
        have hreg := hv.registered hx
        exact iff_of_true (.inr trivial) (hreg.1 (.inl hidle))
      | false =>
        rw [hsel.forget hu hf]
        have hentity : (({ h.space.slot t with idle := False }).mapEntity
            fun e => { e with header := { e.header with hasFinalizer := false } }).entity? =
            some { e with header := { e.header with hasFinalizer := false } } := by
          rw [Slot.mapEntity_entity?, he]
          rfl
        have hfixed := hv.fixed he
        have hmarked := hv.marked he
        refine ⟨{
          size := fun {x} hx => ?_
          fixed := fun {x} hx => ?_
          registered := fun {x} hx => ?_
          listed := fun _ => ⟨_, hentity, hsurvives⟩
          queued := hv.queued
          marked := fun {x} hx => ?_ }, fun x hx => ?_⟩
        · rw [hentity] at hx
          cases hx
          exact hsize
        · rw [hentity] at hx
          cases hx
          exact hfixed
        · rw [hentity] at hx
          cases hx
          exact iff_of_false (fun hor => hor.elim id hnot) Bool.false_ne_true
        · rw [hentity] at hx
          cases hx
          exact hmarked
        · rw [he] at hx
          cases hx
          exact ⟨_, hentity, rfl, rfl⟩
    · rw [hsel.keep hu]
      exact ⟨hv, fun x hx => ⟨x.header, hx, rfl, rfl⟩⟩
  refine hs.replace hwf hunswept hhuge (fun t => (hadmits t).1) fun hash t hmem => ?_
  obtain ⟨e, he, -⟩ := hs.linked hmem
  obtain ⟨header, he', hkind, hsize⟩ := (hadmits t).2 e he
  refine (hs.linked hmem).of_entity he he' hkind ?_ id
  rw [Entity.payload, Entity.payload, hsize]

/-- What is recorded is allocated after a selection of finalizers. -/
theorem Recorded.selects (hr : h.Recorded) {isFinalizable : Ref → Bool}
    (hselected : ∀ t, (h.space.slot t).Selected (isFinalizable t) (h'.space.slot t)) (hphase : h'.phase = h.phase)
    (hstores : h'.stores = h.stores) (hweak : h'.cycle.weakTables = h.cycle.weakTables) : h'.Recorded := by
  refine hr.mono hphase (fun t ht => ?_) (fun t ht => hstores ▸ ht) fun t ht => hweak ▸ ht
  obtain ⟨e, he⟩ := ht
  obtain ⟨header, hx, -⟩ := (hselected t).entity.1 e he
  exact ⟨_, hx⟩

/-- Once every listed object is marked and nothing waits, the sweep can begin. -/
theorem Sound.beginSweep (hs : h.Sound) (hquiet : ∀ t, ¬ (h.space.slot t).queued)
    (hstores : h.stores.isEmpty = true)
    (hlisted : ∀ t, (h.space.slot t).fixed ∨ (h.space.slot t).idle ∨ (h.space.slot t).pending →
      h.space.Black t) :
    Sound { h with
      space := h.space.beginSweep
      cycle := { h.cycle with stringsCursor := 0, phase := .sweepStrings } } := by
  obtain ⟨hwf, hhuge, hslot⟩ := Space.beginSweep_spec hs.wf
  have hentity : ∀ {t x}, (h.space.beginSweep.slot t).entity? = some x →
      ∃ e, (h.space.slot t).entity? = some e ∧ x = { e with awaits := true } := by
    intro t x hx
    rw [hslot, Slot.mapEntity_entity?] at hx
    obtain ⟨e, he, rfl⟩ := Option.map_eq_some_iff.1 hx
    exact ⟨e, he, rfl⟩
  exact
    { wf := hwf
      admits := fun t =>
        { size := fun {x} hx => by
            obtain ⟨e, he, rfl⟩ := hentity hx
            have hsize := (hs.admits t).size he
            exact hsize
          fixed := fun {x} hx => by
            obtain ⟨e, he, rfl⟩ := hentity hx
            have hfixed := (hs.admits t).fixed he
            rw [hslot]
            exact hfixed
          registered := fun {x} hx => by
            obtain ⟨e, he, rfl⟩ := hentity hx
            have hregistered := (hs.admits t).registered he
            rw [hslot]
            exact hregistered
          listed := fun hor => by
            rw [hslot] at hor
            obtain ⟨e, he, hm⟩ := hlisted t hor
            refine ⟨{ e with awaits := true }, ?_, ?_⟩
            · show (h.space.beginSweep.slot t).entity? = _
              rw [hslot, Slot.mapEntity_entity?, he]
              rfl
            · rw [Entity.survives, hm, Bool.true_or]
          queued := fun hq => by
            rw [hslot] at hq
            exact absurd hq (hquiet t)
          marked := fun {x} hx _ => by
            obtain ⟨e, -, rfl⟩ := hentity hx
            exact .inl rfl }
      strings := hs.strings
      linked := fun {hash t} hmem => by
        obtain ⟨e, he, hk, hh, -⟩ := hs.linked hmem
        refine ⟨{ e with awaits := true }, ?_, hk, hh, .inr ⟨rfl, Nat.zero_le _⟩⟩
        show (h.space.beginSweep.slot t).entity? = _
        rw [hslot, Slot.mapEntity_entity?, he]
        rfl
      flags :=
        { idle := fun hnot => absurd (.inl rfl) hnot
          huge := fun _ => hhuge
          passed := fun hsweep => by cases hsweep }
      stores := fun _ => Array.isEmpty_iff.1 hstores
      config := hs.config }

/-- What is listed when the finalizers have been selected is marked, or was selected. -/
theorem black_or_doomed (hs : h.Sound) (hlisted : ∀ t, (h.space.slot t).fixed ∨ (h.space.slot t).pending →
    h.space.Black t) {isFinalizable : Ref → Bool}
    (hselected : ∀ t, (h.space.slot t).Selected (isFinalizable t) (s'.slot t)) {t : Ref}
    (hor : (s'.slot t).fixed ∨ (s'.slot t).idle ∨ (s'.slot t).pending) :
    s'.Black t ∨ (h.space.slot t).Unreached ∧ isFinalizable t = true := by
  have hblack : h.space.Black t → s'.Black t := by
    rintro ⟨e, he, hm⟩
    obtain ⟨header, he', -⟩ := (hselected t).entity.1 e he
    exact ⟨_, he', hm⟩
  by_cases hu : (h.space.slot t).Unreached
  · cases hf : isFinalizable t with
    | true => exact .inr ⟨hu, rfl⟩
    | false =>
      rw [(hselected t).forget hu hf] at hor
      rcases hor with hfixed | hidle | hpending
      · exact .inl (hblack (hlisted t (.inl hfixed)))
      · exact hidle.elim
      · exact .inl (hblack (hlisted t (.inr hpending)))
  · rw [(hselected t).keep hu] at hor
    rcases hor with hfixed | hidle | hpending
    · exact .inl (hblack (hlisted t (.inl hfixed)))
    · -- a registered object that was reached is marked
      obtain ⟨e, he⟩ := hs.listed t (.inr (.inl hidle))
      refine .inl (hblack ⟨e, he, ?_⟩)
      by_contra hm
      exact hu ⟨hidle, e, he, Bool.not_eq_true _ ▸ hm⟩
    · exact .inl (hblack (hlisted t (.inr hpending)))

end Heap

namespace Machine

variable {σ : Type} {mu : Mutator σ} {m m' : Machine σ} {cost : Nat}

/-- Clearing weak tables does not touch the space. -/
theorem clearWeakTables_eq_ok (hrun : m.clearWeakTables mu = .ok m') :
    ∃ program, m' = { program, heap := { m.heap with
      cycle := { m.heap.cycle with weakTables := sortTables m.heap.cycle.weakTables } } } ∧
      (sortTables m.heap.cycle.weakTables).foldlM (fun program t => mu.clearWeak program t
        { m.heap with cycle := { m.heap.cycle with
          weakTables := sortTables m.heap.cycle.weakTables } }.isDead) m.program = .ok program := by
  rw [clearWeakTables] at hrun
  obtain ⟨program, hfold, hret⟩ := bind_eq_ok_iff.1 hrun
  cases hret
  exact ⟨program, rfl, hfold⟩

/-- Everything that is listed is marked when marking has been finished. -/
theorem finishMarking_eq_ok (hs : m.heap.Sound) (hp : m.heap.phase.IsMarking)
    (hquiet : ∀ t, ¬ (m.heap.space.slot t).queued)
    (hlisted : ∀ t, (m.heap.space.slot t).fixed ∨ (m.heap.space.slot t).pending → m.heap.space.Black t)
    (hrun : m.finishMarking mu = .ok (cost, m')) :
    m'.heap.Sound ∧ m'.heap.phase = m.heap.phase ∧ (∀ t, ¬ (m'.heap.space.slot t).queued) ∧
      ∀ t, (m'.heap.space.slot t).fixed ∨ (m'.heap.space.slot t).idle ∨ (m'.heap.space.slot t).pending →
        m'.heap.space.Black t := by
  rw [finishMarking] at hrun
  obtain ⟨⟨selection, s₁⟩, hselect, hrun⟩ := bind_eq_ok_iff.1 hrun
  obtain ⟨_, _, hselect', hwf, hunswept, hhuge, hselected, -, hdoomed⟩ :=
    Space.selectFinalizers_spec hs.wf (mu.isFinalizable m.program) fun t ht => hs.listed t (.inr (.inl ht))
  rw [hselect'] at hselect
  cases hselect
  have hs₁ := hs.selects hp hwf hunswept hhuge hselected
  have hquiet₁ : ∀ t, ¬ (s₁.slot t).queued := fun t hq =>
    hquiet t ((hselected t).entity.2.2.1 ▸ hq)
  have hlisted₁ : ∀ t, (s₁.slot t).fixed ∨ (s₁.slot t).idle ∨ (s₁.slot t).pending →
      s₁.Black t ∨ t ∈ selection.doomed :=
    fun t hor => (Heap.black_or_doomed hs hlisted hselected hor).imp_right (hdoomed t).2
  obtain ⟨m₂, hclear, hrun⟩ := bind_eq_ok_iff.1 hrun
  obtain ⟨program, rfl, -⟩ := clearWeakTables_eq_ok hclear
  have hs₂ : Heap.Sound { m.heap with
      space := s₁
      cycle := { m.heap.cycle with
        doomed := selection.doomed
        weakTables := sortTables m.heap.cycle.weakTables } } :=
    hs₁.congr rfl rfl rfl rfl rfl rfl rfl hs.config
  split at hrun
  · next hempty =>
    cases hrun
    refine ⟨hs₂, rfl, hquiet₁, fun t hor => (hlisted₁ t hor).resolve_right ?_⟩
    rw [List.isEmpty_iff.1 hempty]
    exact List.not_mem_nil
  · obtain ⟨s₃, hmark, hrun⟩ := bind_eq_ok_iff.1 hrun
    obtain ⟨⟨cost₃, m₃⟩, hpropagate, hrun⟩ := bind_eq_ok_iff.1 hrun
    obtain ⟨m₄, hclear₄, hret⟩ := bind_eq_ok_iff.1 hrun
    cases hret
    obtain ⟨program₄, rfl, -⟩ := clearWeakTables_eq_ok hclear₄
    obtain ⟨hholds, hshades⟩ := Space.foldlM_mark_eq_ok hs₂.wf hmark
    have hm₃ := Heap.Marks.shades hs₂ hp hshades
    obtain ⟨hm₄, hwaiting, -⟩ := propagateAll_eq_ok (m := ⟨program, _⟩) hm₃.sound hp hpropagate
    have hadv := hshades.advances.trans hm₄.advances
    refine ⟨hm₄.sound.congr rfl rfl rfl rfl rfl rfl rfl hm₄.sound.config, hm₄.phase, ?_, fun t hor => ?_⟩
    · exact Space.not_queued_of_waiting hwaiting
    · have hor : (s₁.slot t).fixed ∨ (s₁.slot t).idle ∨ (s₁.slot t).pending := by
        rw [← hadv.fixed, ← hadv.idle, ← hadv.pending]
        exact hor
      rcases hlisted₁ t hor with hblack | hmem
      · exact hadv.black hblack
      · exact hm₄.advances.black (hshades.black hmem (hholds t hmem))

/-- The atomic step leaves a sound heap that is ready to be swept. -/
theorem atomicStep_eq_ok (hs : m.heap.Sound) (hp : m.heap.phase = .atomic)
    (hrun : m.atomicStep mu = .ok (cost, m')) : m'.heap.Sound ∧ m'.heap.phase = .sweepStrings := by
  have hmarking : m.heap.phase.IsMarking := .inr hp
  rw [atomicStep] at hrun
  obtain ⟨h₁, hdrain, hrun⟩ := bind_eq_ok_iff.1 hrun
  obtain ⟨m₂, hroots, hrun⟩ := bind_eq_ok_iff.1 hrun
  obtain ⟨⟨cost₃, m₃⟩, hpropagate, hrun⟩ := bind_eq_ok_iff.1 hrun
  obtain ⟨⟨cost₄, m₄⟩, hfinish, hrun⟩ := bind_eq_ok_iff.1 hrun
  obtain ⟨_, hstores, hret⟩ := bind_eq_ok_iff.1 hrun
  cases hret
  obtain ⟨hm₁, -⟩ := Heap.Marks.drained hs hmarking hdrain
  have hp₁ : h₁.phase.IsMarking := hm₁.phase ▸ hmarking
  obtain ⟨s₂, rfl, hshades, -⟩ := markRoots_eq_ok (m := { program := m.program, heap := h₁ })
    hm₁.sound.wf (fun t ht => hm₁.sound.listed t (ht.imp_right .inr)) hroots
  have hm₂ := Heap.Marks.shades hm₁.sound hp₁ hshades
  obtain ⟨hm₃, hwaiting, -⟩ := propagateAll_eq_ok (m := ⟨_, _⟩) hm₂.sound hp₁ hpropagate
  have hadv := hshades.advances.trans hm₃.advances
  -- the fixed objects and those whose finalizers are due were among the roots
  have hlisted : ∀ t, (m₃.heap.space.slot t).fixed ∨ (m₃.heap.space.slot t).pending →
      m₃.heap.space.Black t := by
    intro t hor
    rw [hadv.fixed, hadv.pending] at hor
    have hmem := List.mem_append_right (mu.roots m.program).1 ((Space.mem_fixedRoots hm₁.sound.wf).2 hor)
    exact hm₃.advances.black (hshades.black hmem (hm₁.sound.listed t (hor.imp_right .inr)))
  have hp₃ : m₃.heap.phase.IsMarking := hm₃.phase ▸ hm₂.phase ▸ hp₁
  obtain ⟨hs₄, -, hquiet, hlisted₄⟩ := finishMarking_eq_ok hm₃.sound hp₃
    (Space.not_queued_of_waiting hwaiting) hlisted hfinish
  exact ⟨hs₄.beginSweep hquiet (require_eq_ok_iff.1 hstores) hlisted₄, rfl⟩

end Machine

end Tricolor
