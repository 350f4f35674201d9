import Tricolor.Proofs.Program.Interning
import Tricolor.Proofs.Program.Progress

/-!
# Quiet programs

A program is `Quiet` if its graph changes only when weak tables are cleared, and its finalizers do
nothing. Then the atomic step succeeds. Meanwhile the collector changes no setting.
-/

namespace Tricolor

namespace Mutator

variable {σ : Type} {mu : Mutator σ} {config : Config} {hashOf : List UInt8 → Hash}

/-- A program whose graph changes only when its weak tables are cleared: its answers are faithful, a
table whose entries the heap knows can be cleared, and finalizers succeed and do nothing. -/
structure Quiet (mu : Mutator σ) : Prop extends mu.Faithful where
  clears : ∀ {program t isDead},
    (∀ v, (mu.graph program).refers t .table v → ∃ dead, isDead v.target = .ok dead) →
    ∃ program', mu.clearWeak program t isDead = .ok program'
  finalizers : ∀ program h r, ∃ program', mu.runFinalizer program h r = .ok (.ok (), program', h) ∧
    mu.graph program' = mu.graph program

/-- Finalizers that do nothing are runs. -/
theorem Quiet.orderly (hmu : mu.Quiet) (config : Config) (hashOf : List UInt8 → Hash) :
    Stage.Orderly mu config hashOf :=
  { hmu.toFaithful with
    finalizers := fun {program program' h h' r result} _ hrun => by
      obtain ⟨program₁, hrun₁, hgraph⟩ := hmu.finalizers program h r
      rw [hrun] at hrun₁
      cases hrun₁
      exact ⟨_, _, .single (.answers hgraph)⟩ }

end Mutator

/-! ## The atomic step -/

namespace Heap

variable {h h' : Heap}

/-- A selection of finalizers leaves the tables that are remembered. -/
theorem Remembers.selects {isFinalizable : Ref → Bool} (hr : h.Remembers)
    (hselects : h.space.Selects isFinalizable h'.space) (hweak : h'.cycle.weakTables = h.cycle.weakTables) :
    h'.Remembers := by
  intro t ht
  obtain ⟨e, he, hkind⟩ := hr t (hweak ▸ ht)
  obtain ⟨header, hx, hheader, -⟩ := (hselects t).entity.1 e he
  exact ⟨_, hx, hheader.trans hkind⟩

end Heap

namespace Machine

variable {σ : Type} {mu : Mutator σ} {m : Machine σ}

/-- Whether an object is dead can be told of whatever a table refers to. -/
theorem Apt.isDead (hm : Apt mu m) {t : Ref} (ht : t ∈ m.heap.cycle.weakTables) {program : σ}
    (hclosed : (mu.graph program).Closed m.heap.space) {v : Visit} (hv : (mu.graph program).refers t .table v) :
    ∃ dead, m.heap.isDead v.target = .ok dead := by
  obtain ⟨e, he, hkind⟩ := hm.remembers t ht
  have hsurvives := hm.sound.survives_of_holds (Heap.Phase.not_isSweeping hm.marking) ⟨e, he⟩
  obtain ⟨x, hx⟩ := (hclosed.edge hsurvives ⟨e, he, hkind ▸ hv⟩).holds
  exact ⟨_, Heap.isDead_eq hm.sound.wf hx⟩

/-- Weak tables can be cleared, one after the other. -/
theorem Apt.foldlM_clearWeak (hmu : mu.Quiet) (hm : Apt mu m) :
    ∀ {tables : List Ref} {program : σ}, (∀ t ∈ tables, t ∈ m.heap.cycle.weakTables) →
      (mu.graph program).Closed m.heap.space →
      ∃ program', tables.foldlM (fun program t => mu.clearWeak program t m.heap.isDead) program = .ok program' := by
  intro tables
  induction tables with
  | nil => exact fun {program} _ _ => ⟨program, rfl⟩
  | cons t rest ih =>
    intro program htables hclosed
    obtain ⟨program₁, hclear⟩ := hmu.clears fun v hv => hm.isDead (htables t List.mem_cons_self) hclosed hv
    have hpurged := @Mutator.Faithful.purges _ mu hmu.toFaithful m.heap.isDead [t] program program₁
      (bind_eq_ok_iff.2 ⟨program₁, hclear, rfl⟩)
    obtain ⟨program', hrest⟩ := ih (fun x hx => htables x (List.mem_cons_of_mem _ hx)) (hclosed.purged hpurged)
    exact ⟨program', bind_eq_ok_iff.2 ⟨program₁, hclear, hrest⟩⟩

/-- The weak tables that are remembered can be cleared. -/
theorem Apt.clearsTables (hmu : mu.Quiet) (hm : Apt mu m) : ∃ m', m.clearWeakTables mu = .ok m' ∧ Apt mu m' := by
  have hmem : ∀ t, t ∈ sortTables m.heap.cycle.weakTables ↔ t ∈ m.heap.cycle.weakTables := fun t => mem_sortTables
  obtain ⟨program, hfold⟩ := hm.foldlM_clearWeak hmu (fun t => (hmem t).1) hm.closed
  have hrun : m.clearWeakTables mu = .ok ⟨program, { m.heap with
      cycle := { m.heap.cycle with weakTables := sortTables m.heap.cycle.weakTables } }⟩ :=
    bind_eq_ok_iff.2 ⟨program, hfold, rfl⟩
  obtain ⟨hclears, -⟩ := clears_clearWeakTables hrun
  exact ⟨_, hrun,
    { sound := hm.sound.setWeakTables _
      marking := hm.marking
      closed := hm.closed.purged (hclears.purged hmu.toFaithful)
      recorded := hm.recorded.mono rfl (fun _ => id) (fun _ => id) fun t => (hmem t).1
      remembers := fun t ht => hm.remembers t ((hmem t).1 ht) }⟩

/-- Selecting finalizers leaves a machine in which marking can go on. -/
theorem Apt.selects {selection : Space.Selection} {s : Space} (hm : Apt mu m)
    (hselect : m.heap.space.selectFinalizers (mu.isFinalizable m.program) = .ok (selection, s)) :
    Apt mu { m with heap := { m.heap with space := s, cycle := { m.heap.cycle with doomed := selection.doomed } } } := by
  obtain ⟨_, _, hselect', hwf, hunswept, hhuge, hselected, -, -⟩ :=
    Space.selectFinalizers_spec hm.sound.wf (mu.isFinalizable m.program) fun t ht =>
      hm.sound.listed t (.inr (.inl ht))
  rw [hselect] at hselect'
  cases hselect'
  have hselects : m.heap.space.Selects (mu.isFinalizable m.program) s := hselected
  exact
    { sound := (hm.sound.selects hm.marking hwf hunswept hhuge hselected).congr rfl rfl rfl rfl rfl rfl rfl
        hm.sound.config
      marking := hm.marking
      closed := hm.closed.selects hselects
      recorded := hm.recorded.selects hselects rfl rfl rfl
      remembers := hm.remembers.selects hselects rfl }

/-- The marking of a quiet program comes to its end. -/
theorem Apt.concludes (hmu : mu.Quiet) : Concludes mu (Apt mu) where
  toSustains := Apt.sustains hmu.toFaithful
  roots hm r hr := (hm.closed.root hr).holds
  rooted hm hrun := by
    obtain ⟨hasks, htraces, -⟩ := traces_markRoots hm.sound hrun
    exact hm.traces htraces (hasks.graph hmu.toFaithful)
  selects hm hselect := hm.selects hselect
  clears hm := hm.clearsTables hmu
  dooms {m s} hm hmark := by
    obtain ⟨-, hshades⟩ := Space.foldlM_mark_eq_ok hm.sound.wf hmark
    exact @Apt.traces _ _ _ ⟨_, _⟩ (· ∈ m.heap.cycle.doomed) hm (.marked hshades fun _ => id) rfl

end Machine

/-! ## What the collector never touches -/

namespace Machine

variable {σ : Type} {mu : Mutator σ} {m m' : Machine σ}

/-- Finishing the marking changes no setting. -/
theorem Finish.settings (f : Finish mu m m') (hs : m.heap.Sound) (hp : m.heap.phase.IsMarking) :
    m'.heap.config = m.heap.config ∧ m'.heap.cycle.traceActive = m.heap.cycle.traceActive := by
  have hmarked := f.marks hs hp
  have htraced := f.finishing.marks (f.phase_marked hs hp)
  obtain ⟨weakTables, hheap⟩ := f.finishing.heap_eq
  have hselected := f.finishing.heap_selected
  rw [f.eq]
  refine ⟨?_, ?_⟩
  · show f.finished.heap.config = _
    rw [hheap]
    show f.finishing.traced.heap.config = _
    rw [htraced.config, hselected]
    exact hmarked.config
  · show f.finished.heap.cycle.traceActive = _
    rw [hheap]
    show f.finishing.traced.heap.cycle.traceActive = _
    rw [htraced.traceActive, hselected]
    exact hmarked.traceActive

/-- The collector changes no setting. -/
theorem Collects.settings (hs : m.heap.Sound) (h : Collects mu m m') :
    m'.heap.config = m.heap.config ∧ m'.heap.cycle.traceActive = m.heap.cycle.traceActive := by
  cases h with
  | blocked => exact ⟨rfl, rfl⟩
  | began hpause _ htraces _ =>
    have hm := htraces.marks (hs.begins hpause) (.inl rfl)
    exact ⟨hm.config, hm.traceActive⟩
  | propagated hp _ htracing =>
    have hm := htracing.marks hs (.inl hp)
    exact ⟨hm.config, hm.traceActive⟩
  | ready hp htracing =>
    have hm := htracing.marks hs (.inl hp)
    exact ⟨hm.config, hm.traceActive⟩
  | finished hp f => exact f.settings hs (.inr hp)
  | sweptStrings =>
    rw [hs.cycle_sweptStrings]
    split <;> exact ⟨rfl, rfl⟩
  | swept _ hsweeps => cases hsweeps <;> exact ⟨rfl, rfl⟩

/-- While objects are being marked, the collector remembers tables only. -/
theorem Collects.remembers (hs : m.heap.Sound) (h : Collects mu m m')
    (hr : m.heap.phase.IsMarking → m.heap.Remembers) (hp : m'.heap.phase.IsMarking) : m'.heap.Remembers := by
  cases h with
  | blocked => exact hr hp
  | began hpause _ htraces _ =>
    have hnone : (m.heap.clearCycle.enter .propagate).Remembers := fun t ht => absurd ht List.not_mem_nil
    exact hnone.tracing (hs.begins hpause) (.inl rfl) (.single htraces)
  | propagated hphase _ htracing => exact (hr (.inl hphase)).tracing hs (.inl hphase) htracing
  | ready hphase htracing =>
    have htraced := (hr (.inl hphase)).tracing hs (.inl hphase) htracing
    exact htraced
  | finished _ f =>
    rw [f.eq] at hp
    exact absurd (show Phase.IsMarking .sweepStrings from hp) (by decide)
  | sweptStrings hphase =>
    have hsweeping : m.heap.sweptStrings.phase.IsSweeping := by
      rw [Heap.phase, hs.cycle_sweptStrings]
      split
      · exact .inr rfl
      · exact .inl hphase
    exact absurd hsweeping (Heap.Phase.not_isSweeping hp)
  | swept hphase hsweeps =>
    cases hsweeps with
    | swept =>
      have hp : m.heap.phase.IsMarking := hp
      rw [hphase] at hp
      exact absurd hp (by decide)
    | finished => exact absurd (show Phase.IsMarking .finalize from hp) (by decide)

end Machine

namespace Stage

variable {σ : Type} {mu : Mutator σ} {config : Config} {hashOf : List UInt8 → Hash} {c d : Stage σ}

/-- At no stage has the number of buckets swept in a step changed. -/
theorem Reachable.stringsPerStep (hmu : mu.Faithful) (hc : Reachable mu config hashOf c) :
    c.heap.config.stringsPerStep = config.stringsPerStep := by
  refine hc.induction (P := fun c => c.heap.config.stringsPerStep = config.stringsPerStep)
    (fun c hinit => ?_) fun c d hc ih hstep => ?_
  · obtain ⟨hh, -⟩ := hinit
    exact congrArg Config.stringsPerStep (Heap.sound_of_withConfig hh).2.2.2.1
  · have hvalid := hc.valid hmu
    refine Eq.trans ?_ ih
    cases hstep with
    | act hact =>
      obtain ⟨used, fresh, gone, stored, heffect⟩ := hact.effect hvalid.sound hvalid.hands
      exact heffect.alters.stringsPerStep
    | setThreshold | finalize | complete => rfl
    | collect hp hrun =>
      exact congrArg Config.stringsPerStep
        ((Machine.collects_singleStep hmu hvalid.sound hp hvalid.closed hrun).settings hvalid.sound).1

/-- While objects are being marked, only tables are remembered, at every stage. -/
theorem Reachable.remembers (hmu : mu.Faithful) (hc : Reachable mu config hashOf c) :
    c.heap.phase.IsMarking → c.heap.Remembers := by
  refine hc.induction (P := fun c => c.heap.phase.IsMarking → c.heap.Remembers) (fun c hinit hp => ?_)
    fun c d hc ih hstep hp => ?_
  · obtain ⟨hh, -⟩ := hinit
    have hp : Phase.IsMarking .pause := (Heap.sound_of_withConfig hh).2.1 ▸ hp
    exact absurd hp (by decide)
  · have hvalid := hc.valid hmu
    cases hstep with
    | act hact =>
      obtain ⟨used, fresh, gone, stored, heffect⟩ := hact.effect hvalid.sound hvalid.hands
      intro t ht
      obtain ⟨hmem, hgone⟩ := heffect.alters.remembered ht
      obtain ⟨e, he, hkind⟩ := ih (heffect.alters.phase ▸ hp) t hmem
      obtain ⟨x, hx, hres, -⟩ := (heffect.alters.stays (heffect.not_fresh ⟨e, he⟩) hgone).entity he
      exact ⟨x, hx, hres.kind.trans hkind⟩
    | setThreshold => exact ih hp
    | collect hphase hrun =>
      exact (Machine.collects_singleStep hmu hvalid.sound hphase hvalid.closed hrun).remembers hvalid.sound ih hp
    | finalize hphase =>
      have hp : c.heap.phase.IsMarking := hp
      rw [hphase] at hp
      exact absurd hp (by decide)
    | complete => exact absurd (show Phase.IsMarking .pause from hp) (by decide)

end Stage

end Tricolor
