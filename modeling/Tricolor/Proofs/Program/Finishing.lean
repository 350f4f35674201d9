import Tricolor.Proofs.Program.Tracing

/-!
# The atomic step

`Machine.Finish` names the machines that the atomic step goes through: when all that is reached
has been marked, when finalizers have been selected, and when what they need has been traced. Weak
tables are cleared after the selection and again, if anything was selected, after the last tracing,
so the last clearing always sees the final marks.

In the end, whatever a marked object refers to is marked, on weak sides too.
-/

namespace Tricolor

namespace Graph

variable {g g' : Graph} {s s' : Space} {h h' : Heap} {tables : Ref → Prop}
  {isDead : Ref → Except Fault Bool} {r : Ref} {v : Visit} {kind : Kind}

/-- What clearing some weak tables makes of a graph: entries of theirs are dropped, and no entry is
left in them with a dead weak side. -/
structure Purged (g : Graph) (tables : Ref → Prop) (isDead : Ref → Except Fault Bool) (g' : Graph) : Prop where
  root : g'.root = g.root
  weakMode : g'.weakMode = g.weakMode
  others : ∀ r, ¬ tables r → g'.refers r = g.refers r
  fewer : ∀ {r kind v}, g'.refers r kind v → g.refers r kind v
  alive : ∀ {t v}, tables t → g'.refers t .table v → v.isWeak (g.weakMode t) = true →
    isDead v.target = .ok false

/-- Clearing one more table. -/
theorem Purged.cons {g₁ : Graph} {t : Ref} {rest : List Ref} (hcleared : g.Cleared t isDead g₁)
    (h : g₁.Purged (· ∈ rest) isDead g') : g.Purged (· ∈ t :: rest) isDead g' where
  root := h.root.trans hcleared.root
  weakMode := h.weakMode.trans hcleared.weakMode
  others r hr := by
    rw [List.mem_cons, not_or] at hr
    exact (h.others r hr.2).trans (hcleared.others r hr.1)
  fewer {r kind v} hv := by
    have hv := h.fewer hv
    by_cases hr : r = t
    · subst hr
      exact hcleared.fewer hv
    · rwa [hcleared.others r hr] at hv
  alive {x v} hx hv hweak := by
    by_cases hrest : x ∈ rest
    · exact h.alive hrest hv (by rw [hcleared.weakMode]; exact hweak)
    · obtain rfl := (List.mem_cons.1 hx).resolve_right hrest
      exact hcleared.alive (h.fewer hv) hweak

theorem Purged.mode (h : g.Purged tables isDead g') (r : Ref) (kind : Kind) : g'.mode r kind = g.mode r kind := by
  rw [Graph.mode, Graph.mode, h.weakMode]

theorem Purged.edge (h : g.Purged tables isDead g') (hv : g'.Edge s r v) : g.Edge s r v := by
  obtain ⟨e, he, hv⟩ := hv
  exact ⟨e, he, h.fewer hv⟩

theorem Purged.strong (h : g.Purged tables isDead g') (hv : g'.Strong s r v) : g.Strong s r v := by
  obtain ⟨e, he, hv, hholds⟩ := hv
  rw [Graph.Holds, h.mode] at hholds
  exact ⟨e, he, h.fewer hv, hholds⟩

theorem Closed.purged (hclosed : g.Closed s) (h : g.Purged tables isDead g') : g'.Closed s where
  root hroot := hclosed.root (h.root ▸ hroot)
  edge hr hv := hclosed.edge hr (h.edge hv)

theorem Treated.purged {h₀ : Heap} (ht : g.Treated h₀) (h : g.Purged tables isDead g') : g'.Treated h₀ where
  noted hblack hq hv := ht.noted hblack hq (h.strong hv)
  weak he hm hq hmode := ht.weak he hm hq (h.mode _ _ ▸ hmode)

end Graph

namespace Heap

variable {h : Heap} {r : Ref} {e : Entity}

/-- Strings are never dead; other objects are unless they are marked and not doomed. -/
theorem isDead_eq (hwf : h.space.Wf) (he : (h.space.slot r).entity? = some e) :
    h.isDead r = .ok (decide (e.header.kind ≠ .str) && (!e.marked || h.cycle.doomed.contains r)) := by
  have hheader := Space.header_eq hwf he
  have hmarked := Space.isMarked_eq hwf he
  rw [isDead, hheader]
  show (if e.header.kind = .str then pure false else do
    if ← h.space.isMarked r then pure (h.cycle.doomed.contains r) else pure true : Except Fault Bool) = _
  rw [hmarked]
  by_cases hk : e.header.kind = .str
  · rw [if_pos hk, decide_eq_false (not_not.2 hk)]
    rfl
  · rw [if_neg hk, decide_eq_true hk]
    cases hm : e.marked <;> simp <;> rfl

end Heap

namespace Mutator

variable {σ : Type} {mu : Mutator σ}

/-- The program clears the weak tables that its heap remembers. -/
def Clears (mu : Mutator σ) (h : Heap) (program program' : σ) : Prop :=
  ∃ tables : List Ref, (∀ t, t ∈ tables ↔ t ∈ h.cycle.weakTables) ∧
    tables.foldlM (fun program t => mu.clearWeak program t h.isDead) program = .ok program'

/-- Clearing tables, one after the other. -/
theorem Faithful.purges (hmu : mu.Faithful) {isDead : Ref → Except Fault Bool} :
    ∀ {tables : List Ref} {program program' : σ},
      tables.foldlM (fun program t => mu.clearWeak program t isDead) program = .ok program' →
      (mu.graph program).Purged (· ∈ tables) isDead (mu.graph program') := by
  intro tables
  induction tables with
  | nil =>
    intro program program' hrun
    cases hrun
    exact ⟨rfl, rfl, fun _ _ => rfl, id, fun ht => absurd ht List.not_mem_nil⟩
  | cons t rest ih =>
    intro program program' hrun
    obtain ⟨program₁, hclear, hrun⟩ := bind_eq_ok_iff.1 hrun
    exact .cons (hmu.clearWeak hclear) (ih hrun)

theorem Clears.purged {h : Heap} {program program' : σ} (hmu : mu.Faithful)
    (hclears : mu.Clears h program program') :
    (mu.graph program).Purged (· ∈ h.cycle.weakTables) h.isDead (mu.graph program') := by
  obtain ⟨tables, hmem, hrun⟩ := hclears
  rw [← funext fun t => propext (hmem t)]
  exact hmu.purges hrun

end Mutator

namespace Slot.Selected

variable {v v' : Slot} {isFinalizable : Bool}

/-- What a selection changes of an object is neither its kind nor its mark. -/
theorem entity_inv (h : v.Selected isFinalizable v') {x : Entity} (hx : v'.entity? = some x) :
    ∃ e, v.entity? = some e ∧ (x.header.kind = e.header.kind ∧ x.header.size = e.header.size) ∧
      x.marked = e.marked ∧ x.awaits = e.awaits := by
  cases he : v.entity? with
  | none =>
    rw [h.entity.2.1 he] at hx
    cases hx
  | some e =>
    obtain ⟨header, hy, hkind, hsize, -⟩ := h.entity.1 e he
    rw [hx] at hy
    cases hy
    exact ⟨e, rfl, ⟨hkind, hsize⟩, rfl, rfl⟩

/-- What is listed after a selection was listed before it. -/
theorem listed_inv (h : v.Selected isFinalizable v') (hor : v'.fixed ∨ v'.idle ∨ v'.pending) :
    v.fixed ∨ v.idle ∨ v.pending := by
  by_cases hu : v.Unreached
  · exact .inr (.inl hu.1)
  · exact h.keep hu ▸ hor

end Slot.Selected

namespace Space

variable {s s' : Space} {isFinalizable : Ref → Bool} {r : Ref} {g : Graph} {v : Visit}

/-- What a selection of finalizers makes of a space, place by place. -/
def Selects (s : Space) (isFinalizable : Ref → Bool) (s' : Space) : Prop :=
  ∀ t, (s.slot t).Selected (isFinalizable t) (s'.slot t)

theorem Selects.black (h : s.Selects isFinalizable s') : s'.Black r ↔ s.Black r := by
  constructor
  · rintro ⟨x, hx, hm⟩
    obtain ⟨e, he, -, hmarked, -⟩ := (h r).entity_inv hx
    exact ⟨e, he, hmarked ▸ hm⟩
  · rintro ⟨e, he, hm⟩
    obtain ⟨header, hx, -⟩ := (h r).entity.1 e he
    exact ⟨_, hx, hm⟩

theorem Selects.survives (h : s.Selects isFinalizable s') : s'.Survives r ↔ s.Survives r := by
  constructor
  · rintro ⟨x, hx, hsurvives⟩
    obtain ⟨e, he, -, hmarked, hawaits⟩ := (h r).entity_inv hx
    rw [Entity.survives, hmarked, hawaits] at hsurvives
    exact ⟨e, he, hsurvives⟩
  · rintro ⟨e, he, hsurvives⟩
    obtain ⟨header, hx, -⟩ := (h r).entity.1 e he
    exact ⟨_, hx, hsurvives⟩

theorem Selects.inherits (h : s.Selects isFinalizable s') : s.Inherits s' := fun t x hx => by
  obtain ⟨e, he, hheader, -⟩ := (h t).entity_inv hx
  exact ⟨e, he, hheader⟩

theorem Selects.isString (h : s.Selects isFinalizable s') (r : Ref) : s'.isString r = s.isString r := by
  rw [Space.isString, Space.isString]
  cases he : (s.slot r).entity? with
  | none => rw [(h r).entity.2.1 he]
  | some e =>
    obtain ⟨header, hx, hkind, -⟩ := (h r).entity.1 e he
    rw [hx, Option.any_some, Option.any_some, show (Entity.header { e with header }).kind = _ from hkind]

theorem Selects.strong (h : s.Selects isFinalizable s') : g.Strong s' r v ↔ g.Strong s r v := by
  constructor
  · rintro ⟨x, hx, hv, hholds⟩
    obtain ⟨e, he, ⟨hkind, -⟩, -⟩ := (h r).entity_inv hx
    rw [Graph.Holds, h.isString, hkind] at hholds
    exact ⟨e, he, hkind ▸ hv, hholds⟩
  · rintro ⟨e, he, hv, hholds⟩
    obtain ⟨header, hx, hkind, -⟩ := (h r).entity.1 e he
    rw [Graph.Holds, ← h.isString, ← hkind] at hholds
    exact ⟨_, hx, by rw [show (Entity.header { e with header }).kind = _ from hkind]; exact hv, hholds⟩

theorem Selects.queued (h : s.Selects isFinalizable s') (r : Ref) : (s'.slot r).queued = (s.slot r).queued :=
  (h r).entity.2.2.1

end Space

theorem Graph.Closed.selects {g : Graph} {s s' : Space} {isFinalizable : Ref → Bool} (hclosed : g.Closed s)
    (h : s.Selects isFinalizable s') : g.Closed s' :=
  hclosed.congr (fun _ => h.survives) h.inherits

namespace Machine

variable {σ : Type} {mu : Mutator σ} {m m' : Machine σ} {cost : Nat}

/-- How marking is finished, from the machine `marked` in which all that is reached has been marked. -/
structure Finishing (mu : Mutator σ) (marked m' : Machine σ) where
  /-- the objects whose finalizers become due -/
  doomed : List Ref
  /-- the machine after the selection -/
  selected : Machine σ
  /-- the machine when what the doomed objects need has been marked -/
  traced : Machine σ
  mem_doomed : ∀ t, t ∈ doomed ↔
    (marked.heap.space.slot t).Unreached ∧ mu.isFinalizable marked.program t = true
  selects : marked.heap.space.Selects (mu.isFinalizable marked.program) selected.heap.space
  sound_selected : selected.heap.Sound
  weakTables_selected : ∀ t, t ∈ selected.heap.cycle.weakTables ↔ t ∈ marked.heap.cycle.weakTables
  heap_selected : selected.heap = { marked.heap with
    space := selected.heap.space
    cycle := { marked.heap.cycle with doomed, weakTables := selected.heap.cycle.weakTables } }
  /-- tables are cleared here if anything is doomed -/
  program_selected : selected.program = marked.program ∧ doomed = [] ∨
    mu.Clears selected.heap marked.program selected.program
  graph_traced : mu.graph traced.program = mu.graph selected.program
  tracing : selected.heap.Tracing (mu.graph selected.program) (· ∈ doomed) traced.heap
  quiet : ∀ t, ¬ (traced.heap.space.slot t).queued
  stores : traced.heap.stores.entries = #[]
  black_doomed : ∀ r ∈ doomed, traced.heap.space.Black r
  /-- the tables are cleared with the final marks -/
  clears : mu.Clears traced.heap traced.program m'.program
  heap_eq : ∃ weakTables, m'.heap = { traced.heap with cycle := { traced.heap.cycle with weakTables } }

/-- How the atomic step goes. -/
structure Finish (mu : Mutator σ) (m m' : Machine σ) where
  /-- the machine when all that is reached has been marked -/
  marked : Machine σ
  /-- the machine when marking is finished -/
  finished : Machine σ
  asks : mu.Asks m.program marked.program
  tracing : m.heap.Tracing (mu.graph m.program) (Due mu m) marked.heap
  quiet : ∀ t, ¬ (marked.heap.space.slot t).queued
  stores : marked.heap.stores.entries = #[]
  black_due : ∀ r, Due mu m r → marked.heap.space.Black r
  finishing : Finishing mu marked finished
  eq : m' = { finished with heap := { finished.heap with
    space := finished.heap.space.beginSweep
    cycle := { finished.heap.cycle with stringsCursor := 0, phase := .sweepStrings } } }

/-- The machine in which the atomic step looks for finalizers: all that is reached has been marked. -/
def Found (mu : Mutator σ) (m marked : Machine σ) : Prop :=
  ∃ h m₁ cost, m.heap.drainStores = .ok h ∧ markRoots mu { m with heap := h } = .ok m₁ ∧
    m₁.propagateAll mu = .ok (cost, marked)

theorem Found.unique {m₁ m₂ : Machine σ} (h₁ : Found mu m m₁) (h₂ : Found mu m m₂) : m₁ = m₂ := by
  obtain ⟨h, n, cost, hdrain, hroots, hrun⟩ := h₁
  obtain ⟨h', n', cost', hdrain', hroots', hrun'⟩ := h₂
  rw [hdrain] at hdrain'
  cases hdrain'
  rw [hroots] at hroots'
  cases hroots'
  rw [hrun] at hrun'
  cases hrun'
  rfl

theorem mem_sortTables {tables : List Ref} {t : Ref} : t ∈ sortTables tables ↔ t ∈ tables := by
  rw [sortTables, List.mem_eraseDups, List.mem_mergeSort]

/-- Clearing weak tables. -/
theorem clears_clearWeakTables (hrun : m.clearWeakTables mu = .ok m') :
    mu.Clears m.heap m.program m'.program ∧ m'.heap = { m.heap with
      cycle := { m.heap.cycle with weakTables := sortTables m.heap.cycle.weakTables } } := by
  obtain ⟨program, rfl, hfold⟩ := clearWeakTables_eq_ok hrun
  exact ⟨⟨_, fun t => mem_sortTables, hfold⟩, rfl⟩

/-- Marking is finished as it should be. -/
theorem finishing_finishMarking (hmu : mu.Faithful) (hs : m.heap.Sound) (hp : m.heap.phase.IsMarking)
    (hclosed : (mu.graph m.program).Closed m.heap.space) (hquiet : ∀ t, ¬ (m.heap.space.slot t).queued)
    (hstores : m.heap.stores.entries = #[]) (hrun : m.finishMarking mu = .ok (cost, m')) :
    Nonempty (Finishing mu m m') := by
  rw [finishMarking] at hrun
  obtain ⟨⟨selection, s₁⟩, hselect, hrun⟩ := bind_eq_ok_iff.1 hrun
  obtain ⟨_, _, hselect', hwf, hunswept, hhuge, hselected, -, hdoomed⟩ :=
    Space.selectFinalizers_spec hs.wf (mu.isFinalizable m.program) fun t ht => hs.listed t (.inr (.inl ht))
  rw [hselect'] at hselect
  cases hselect
  have hselects : m.heap.space.Selects (mu.isFinalizable m.program) s₁ := hselected
  have hquiet₁ : ∀ t, ¬ (s₁.slot t).queued := fun t => by
    rw [hselects.queued]
    exact hquiet t
  obtain ⟨m₂, hclear, hrun⟩ := bind_eq_ok_iff.1 hrun
  obtain ⟨hclears, hheap⟩ := clears_clearWeakTables hclear
  have hs₂ : m₂.heap.Sound := by
    rw [hheap]
    exact (hs.selects hp hwf hunswept hhuge hselected).congr rfl rfl rfl rfl rfl rfl rfl hs.config
  have hweak : ∀ t, t ∈ m₂.heap.cycle.weakTables ↔ t ∈ m.heap.cycle.weakTables := fun t => by
    rw [hheap]
    exact mem_sortTables
  have hclears₂ : mu.Clears m₂.heap m.program m₂.program := by
    obtain ⟨tables, hmem, hfold⟩ := hclears
    refine ⟨tables, fun t => (hmem t).trans (hweak t).symm, ?_⟩
    rw [hheap]
    exact hfold
  split at hrun
  · next hempty =>
    -- nothing is doomed, so this clearing is the last one
    have hnil := List.isEmpty_iff.1 hempty
    cases hrun
    exact ⟨{
      doomed := selection.doomed
      selected := ⟨m.program, m'.heap⟩
      traced := ⟨m.program, m'.heap⟩
      mem_doomed := hdoomed
      selects := by rw [hheap]; exact hselects
      sound_selected := hs₂
      weakTables_selected := hweak
      heap_selected := by rw [hheap]
      program_selected := .inl ⟨rfl, hnil⟩
      graph_traced := rfl
      tracing := .refl
      quiet := by rw [hheap]; exact hquiet₁
      stores := by rw [hheap]; exact hstores
      black_doomed := fun r hr => by
        rw [hnil] at hr
        exact absurd hr List.not_mem_nil
      clears := hclears₂
      heap_eq := ⟨_, rfl⟩ }⟩
  · obtain ⟨s₃, hmark, hrun⟩ := bind_eq_ok_iff.1 hrun
    obtain ⟨⟨cost₄, m₄⟩, hpropagate, hrun⟩ := bind_eq_ok_iff.1 hrun
    obtain ⟨m₅, hclear₅, hret⟩ := bind_eq_ok_iff.1 hrun
    cases hret
    obtain ⟨hclears₅, hheap₅⟩ := clears_clearWeakTables hclear₅
    have hp₂ : m₂.heap.phase.IsMarking := by
      rw [hheap]
      exact hp
    have hclosed₂ : (mu.graph m₂.program).Closed m₂.heap.space := by
      refine Graph.Closed.purged ?_ (hclears₂.purged hmu)
      rw [hheap]
      exact hclosed.selects hselects
    obtain ⟨hholds, hshades⟩ := Space.foldlM_mark_eq_ok hs₂.wf hmark
    have htraces : Heap.Traces (mu.graph m₂.program) (· ∈ selection.doomed) m₂.heap
        { m₂.heap with space := s₃ } := .marked hshades fun r hr => hr
    have hm₃ := htraces.marks hs₂ hp₂
    obtain ⟨hasks, htracing, hquiet₄, hstores₄⟩ := tracing_propagateAll (· ∈ selection.doomed) hmu
      (m := ⟨m₂.program, _⟩) hm₃.sound hp₂ (hclosed₂.marks hs₂ hp₂ hm₃) hpropagate
    exact ⟨{
      doomed := selection.doomed
      selected := m₂
      traced := m₄
      mem_doomed := hdoomed
      selects := by rw [hheap]; exact hselects
      sound_selected := hs₂
      weakTables_selected := hweak
      heap_selected := by rw [hheap]
      program_selected := .inr hclears₂
      graph_traced := hasks.graph hmu
      tracing := .head htraces htracing
      quiet := hquiet₄
      stores := hstores₄
      black_doomed := fun r hr =>
        (htracing.marks hm₃.sound hp₂).advances.black (hshades.black hr (hholds r hr))
      clears := hclears₅
      heap_eq := ⟨_, hheap₅⟩ }⟩

/-- The atomic step goes as it should. -/
theorem finish_atomicStep (hmu : mu.Faithful) (hs : m.heap.Sound) (hp : m.heap.phase = .atomic)
    (hclosed : (mu.graph m.program).Closed m.heap.space) (hrun : m.atomicStep mu = .ok (cost, m')) :
    ∃ f : Finish mu m m', Found mu m f.marked := by
  have hmarking : m.heap.phase.IsMarking := .inr hp
  rw [atomicStep] at hrun
  obtain ⟨h₁, hdrain, hrun⟩ := bind_eq_ok_iff.1 hrun
  obtain ⟨m₂, hroots, hrun⟩ := bind_eq_ok_iff.1 hrun
  obtain ⟨⟨cost₃, m₃⟩, hpropagate, hrun⟩ := bind_eq_ok_iff.1 hrun
  obtain ⟨⟨cost₄, m₄⟩, hfinish, hrun⟩ := bind_eq_ok_iff.1 hrun
  obtain ⟨_, -, hret⟩ := bind_eq_ok_iff.1 hrun
  cases hret
  obtain ⟨hall, s₁, hshades, rfl⟩ := Heap.drainStores_eq_ok hs hdrain
  have hdrained : m.heap.Tracing (mu.graph m.program) (Due mu m)
      { m.heap with space := s₁, stores := m.heap.stores.clear } := .single (.drained hall hshades)
  have hm₁ := hdrained.marks hs hmarking
  have hdue : ∀ r, Due mu ⟨m.program, { m.heap with space := s₁, stores := m.heap.stores.clear }⟩ r ↔ Due mu m r :=
    fun r => by
      rw [Due, Due, hm₁.advances.fixed, hm₁.advances.pending]
  obtain ⟨hasks₂, htraces, hblack⟩ := traces_markRoots hm₁.sound hroots
  have hgraph₂ := hasks₂.graph hmu
  rw [funext fun r => propext (hdue r)] at htraces
  have htracing₂ : m.heap.Tracing (mu.graph m.program) (Due mu m) m₂.heap := hdrained.tail htraces
  have hm₂ := htracing₂.marks hs hmarking
  have hp₂ : m₂.heap.phase.IsMarking := hm₂.phase ▸ hmarking
  have hclosed₂ := hclosed.marks hs hmarking hm₂
  obtain ⟨hasks₃, htracing₃, hquiet, hstores⟩ := tracing_propagateAll (Due mu m) hmu hm₂.sound hp₂
    (hgraph₂ ▸ hclosed₂) hpropagate
  have hasks₃ := hasks₂.trans hasks₃
  have hgraph₃ := hasks₃.graph hmu
  rw [hgraph₂] at htracing₃
  have hm₃ := htracing₃.marks hm₂.sound hp₂
  obtain ⟨hfinishing⟩ := finishing_finishMarking hmu hm₃.sound (hm₃.phase ▸ hp₂)
    (hgraph₃ ▸ hclosed₂.marks hm₂.sound hp₂ hm₃) hquiet hstores hfinish
  exact ⟨{
    marked := m₃
    finished := m₄
    asks := hasks₃
    tracing := htracing₂.trans htracing₃
    quiet := hquiet
    stores := hstores
    black_due := fun r hr => hm₃.advances.black (hblack r ((hdue r).2 hr))
    finishing := hfinishing
    eq := rfl }, _, m₂, cost₃, hdrain, hroots, hpropagate⟩

end Machine

end Tricolor
