import Tricolor.Proofs.Heap.Strings
import Tricolor.Proofs.Phases

/-!
# Marking gets done

Whatever may change a program's references while its heap is being marked: as long as all that the
marking comes upon is allocated (`Sustains`), marking does not fail. And it ends: the entries that wait
and the objects that are still white make the `load` of a space, which marking never adds to, and which
gets smaller whenever an entry is popped. If the selection of finalizers and the clearing of weak tables
do not fail either (`Concludes`), the atomic step succeeds. Each step of a sweep succeeds too, and leaves
less to sweep: fewer buckets, or fewer arenas.
-/

namespace Tricolor

namespace Space

variable {s s' : Space} {rs : List Ref} {r? : Option Ref} {source : GreySource} {t : Ref}

/-- The marking that may be left to do: what waits already, and what may still have to. -/
def load (s : Space) : Nat := s.waiting + s.objects.countP s.isWhite

theorem holds_of_isWhite (h : s.isWhite t = true) : s.Holds t := by
  obtain ⟨e, he, -⟩ := (Option.any_eq_true _ _).1 h
  exact ⟨e, he⟩

/-- The load is bounded by what the heap knows without looking at its objects. -/
theorem load_le (hwf : s.Wf) : s.load ≤ s.waiting + s.total / cellBytes :=
  Nat.add_le_add_left (List.countP_le_length.trans (length_objects_le hwf)) _

/-- Marking neither makes nor frees objects. -/
theorem Advances.perm_objects (hwf : s.Wf) (h : s.Advances s') : s'.objects.Perm s.objects :=
  (List.perm_ext_iff_of_nodup (nodup_objects h.wf) (nodup_objects hwf)).2 fun t => by
    rw [mem_objects h.wf, mem_objects hwf, h.holds]

theorem Shades.load_le (hwf : s.Wf) (h : s.Shades rs s') : s'.load ≤ s.load := by
  rw [load, (h.advances.perm_objects hwf).countP_eq]
  exact h.waiting s.objects fun r hr => (mem_objects hwf).2 (holds_of_isWhite hr)

theorem Shades.hasQueue (h : s.Shades rs s') (hsource : s.HasQueue source) : s'.HasQueue source := by
  cases source with
  | arena index => exact lt_of_lt_of_le hsource h.arenas_le
  | huge => trivial

theorem Popped.hasQueue (h : s.Popped r? s') (hsource : s.HasQueue source) : s'.HasQueue source := by
  cases source with
  | arena index => exact Nat.lt_of_lt_of_eq hsource h.arenas.symm
  | huge => trivial

/-- Popping takes from the load what it takes from the queues. -/
theorem Popped.load (hwf : s.Wf) (h : s.Popped r? s') : s'.load + s.waiting = s.load + s'.waiting := by
  have hwhite : s'.isWhite = s.isWhite := by
    funext t
    rw [isWhite, isWhite, h.slot]
  rw [Space.load, Space.load, hwhite, (h.advances.perm_objects hwf).countP_eq]
  omega

end Space

namespace Heap

variable {h : Heap}

/-- Draining an empty store buffer changes nothing, so it does not matter whether that is skipped. -/
theorem drainIfAny_eq (h : Heap) : h.drainIfAny = h.drainStores := by
  obtain ⟨space, strings, cycle, ⟨entries, capacity⟩, config, hashOf⟩ := h
  rw [drainIfAny]
  split
  · next hempty =>
    obtain rfl : entries = #[] := Array.isEmpty_iff.1 hempty
    rfl
  · rfl

end Heap

namespace Machine

variable {σ : Type} {mu : Mutator σ} {P : Machine σ → Prop} {m m' : Machine σ} {source : GreySource} {r : Ref}

/-- A property of machines with which marking goes on: all that the marking will come upon is allocated,
and what the marking does keeps the property. -/
structure Sustains (mu : Mutator σ) (P : Machine σ → Prop) : Prop extends Stable mu P where
  sound : ∀ {m : Machine σ}, P m → m.heap.Sound
  marking : ∀ {m : Machine σ}, P m → m.heap.phase.IsMarking
  recorded : ∀ {m : Machine σ}, P m → m.heap.Recorded
  visits : ∀ {m : Machine σ} {source : GreySource} {r : Ref} {s : Space} {v : Visit}, P m →
    m.heap.space.popGrey source = .ok (some r, s) → (mu.graph m.program).Edge m.heap.space r v →
    m.heap.space.Holds v.target

namespace Sustains

variable (hP : Sustains mu P)

include hP

/-- The store buffer can be drained. -/
theorem drains (hm : P m) : ∃ s stores, m.heap.drainIfAny = .ok { m.heap with space := s, stores } ∧
    P { m with heap := { m.heap with space := s, stores } } ∧ s.load ≤ m.heap.space.load := by
  have hs := hP.sound hm
  obtain ⟨s, hrun, hshades⟩ := Heap.drainStores_spec hs (hP.recorded hm).1
  rw [← Heap.drainIfAny_eq] at hrun
  exact ⟨s, m.heap.stores.clear, hrun, hP.drain hm hrun, hshades.load_le hs.wf⟩

/-- What was popped can be traversed. -/
theorem traverses (hm : P m) {s : Space} (hpop : m.heap.space.popGrey source = .ok (some r, s)) :
    ∃ cost m', Machine.traverse mu { m with heap := { m.heap with space := s } } r = .ok (cost, m') ∧
      P m' ∧ ∃ rs, s.Shades rs m'.heap.space := by
  have hpopped := Space.popGrey_eq_ok (hP.sound hm).wf hpop
  obtain ⟨e, he⟩ := (hpopped.found r rfl).1
  have hadv := hpopped.advances
  obtain ⟨marked, hx, -⟩ := hadv.entity he
  obtain ⟨s', hvisit, hshades⟩ := Space.foldlM_visit_spec ((mu.graph m.program).mode r e.header.kind) hpopped.wf
    (mu.visits m.program r e.header.kind ((mu.graph m.program).mode r e.header.kind)).1
    fun v hv => hadv.holds.2 (hP.visits hm hpop ⟨e, he, hv⟩)
  have hrun : ∃ cost m', Machine.traverse mu { m with heap := { m.heap with space := s } } r = .ok (cost, m') ∧
      m'.heap.space = s' :=
    ⟨_, _, bind_eq_ok_iff.2 ⟨_, Space.header_eq hpopped.wf hx, bind_eq_ok_iff.2 ⟨s', hvisit, rfl⟩⟩, rfl⟩
  obtain ⟨cost, m', hrun, rfl⟩ := hrun
  exact ⟨cost, m', hrun, hP.traverse hm hpop hrun, _, hshades⟩

/-- One turn at a queue: it is exhausted, or an object of it is traversed. -/
theorem turns (hm : P m) (hsource : m.heap.space.HasQueue source) :
    (∃ s, m.heap.space.popGrey source = .ok (none, s) ∧ P { m with heap := { m.heap with space := s } } ∧
      s.load ≤ m.heap.space.load ∧ (m.heap.space.depth source ≠ 0 → s.load < m.heap.space.load)) ∨
    ∃ r s cost m', m.heap.space.popGrey source = .ok (some r, s) ∧
      Machine.traverse mu { m with heap := { m.heap with space := s } } r = .ok (cost, m') ∧ P m' ∧
      m'.heap.space.HasQueue source ∧ m'.heap.space.load < m.heap.space.load := by
  have hwf := (hP.sound hm).wf
  obtain ⟨r?, s, hpop, hpopped, hwaiting⟩ := Space.popGrey_spec hwf hsource
  have hload := hpopped.load hwf
  cases r? with
  | none =>
    refine .inl ⟨s, hpop, hP.exhaust hm hpop, ?_, fun hdepth => ?_⟩
    · split at hwaiting <;> omega
    · rw [if_neg hdepth] at hwaiting
      omega
  | some r =>
    obtain ⟨cost, m', hrun, hm', rs, hshades⟩ := hP.traverses hm hpop
    refine .inr ⟨r, s, cost, m', hpop, hrun, hm', hshades.hasQueue (hpopped.hasQueue hsource), ?_⟩
    have hle := hshades.load_le hpopped.wf
    split at hwaiting
    · cases hwaiting.1
    · omega

/-- A batch can be traversed, and gets something done. -/
theorem traversesBatch : ∀ {n cost : Nat} {m : Machine σ}, P m → m.heap.space.HasQueue source →
    ∃ cost' m', m.traverseBatch mu source cost n = .ok (cost', m') ∧ P m' ∧
      m'.heap.space.load ≤ m.heap.space.load ∧
      (0 < n → m.heap.space.depth source ≠ 0 → m'.heap.space.load < m.heap.space.load) := by
  intro n
  induction n with
  | zero => exact fun {cost m} hm _ => ⟨cost, m, rfl, hm, le_rfl, fun h => absurd h (Nat.lt_irrefl 0)⟩
  | succ n ih =>
    intro cost m hm hsource
    rcases hP.turns hm hsource with ⟨s, hpop, hm', hle, hlt⟩ | ⟨r, s, more, m', hpop, hrun, hm', hsource', hlt⟩
    · exact ⟨cost, _, bind_eq_ok_iff.2 ⟨_, hpop, rfl⟩, hm', hle, fun _ => hlt⟩
    · obtain ⟨cost', m'', hrest, hm'', hle, -⟩ := @ih (saturatingAdd cost more) m' hm' hsource'
      exact ⟨cost', m'', bind_eq_ok_iff.2 ⟨_, hpop, bind_eq_ok_iff.2 ⟨_, hrun, hrest⟩⟩, hm'',
        hle.trans hlt.le, fun _ _ => lt_of_le_of_lt hle hlt⟩

/-- A step of the marking succeeds: it leaves less to do, or finds that nothing is left. -/
theorem propagatesStep (hm : P m) : ∃ cost m', m.propagateStep mu = .ok (cost, m') ∧
    (m'.heap.phase = .atomic ∨ m'.heap.phase = m.heap.phase ∧ m'.heap.space.load < m.heap.space.load) := by
  obtain ⟨s, stores, hdrain, hm₁, hle⟩ := hP.drains hm
  have hs₁ := hP.sound hm₁
  rw [propagateStep, hdrain]
  have hdeepest := Space.deepestGrey_spec s
  cases hsource : s.deepestGrey with
  | none => exact ⟨0, _, bind_eq_ok_iff.2 ⟨_, rfl, by simp only [hsource]; rfl⟩, .inl rfl⟩
  | some source =>
    rw [hsource] at hdeepest
    obtain ⟨cost, m', hrun, -, -, hlt⟩ := @traversesBatch _ _ _ source hP m.heap.config.greyBatch 0 _ hm₁
      hdeepest.1
    have hphase : m'.heap.phase = m.heap.phase :=
      (Stable.traverseBatch (stable_marks (hP.marking hm₁)) (Heap.Marks.refl hs₁) hrun).phase
    exact ⟨cost, m', bind_eq_ok_iff.2 ⟨_, rfl, by simp only [hsource]; exact hrun⟩,
      .inr ⟨hphase, lt_of_lt_of_le (hlt (hP.sound hm).config.greyBatch hdeepest.2) hle⟩⟩

end Sustains

/-- So many turns are enough, with a queue in progress or before the next one is chosen. Three turns
at most go with each unit of the load: the one that takes it off, one that finds the queue exhausted,
and one that chooses a queue. -/
def Suffices (s : Space) (n : Nat) : Option GreySource → Prop
  | none => 3 * s.load < n
  | some source => s.HasQueue source ∧ (s.depth source ≠ 0 ∧ 3 * s.load ≤ n ∨ 3 * s.load + 2 ≤ n)

namespace Sustains

variable (hP : Sustains mu P)

include hP

/-- Propagation succeeds if it may take enough turns. -/
theorem propagatesFrom : ∀ {n cost : Nat} {m : Machine σ} {source? : Option GreySource}, P m →
    Suffices m.heap.space n source? → ∃ cost' m', m.propagateFrom mu source? cost n = .ok (cost', m') := by
  intro n
  induction n with
  | zero =>
    intro cost m source? hm hn
    cases source? with
    | none => exact absurd hn (Nat.not_lt_zero _)
    | some source =>
      -- an object waits in the queue, so the load is not zero
      obtain ⟨hsource, ⟨hdepth, hn⟩ | hn⟩ := hn
      · rcases hP.turns hm hsource with ⟨s, -, -, -, hlt⟩ | ⟨r, s, more, m', -, -, -, -, hlt⟩
        · have := hlt hdepth
          omega
        · omega
      · omega
  | succ n ih =>
    intro cost m source? hm hn
    cases source? with
    | none =>
      obtain ⟨s, stores, hdrain, hm₁, hle⟩ := hP.drains hm
      have hn : 3 * m.heap.space.load < n + 1 := hn
      rw [propagateFrom, hdrain]
      have hdeepest := Space.deepestGrey_spec s
      cases hsource : s.deepestGrey with
      | none => exact ⟨cost, _, bind_eq_ok_iff.2 ⟨_, rfl, by simp only [hsource]; rfl⟩⟩
      | some source =>
        rw [hsource] at hdeepest
        obtain ⟨cost', m', hrun⟩ := @ih cost { m with heap := { m.heap with space := s, stores } } (some source) hm₁
          ⟨hdeepest.1, .inl ⟨hdeepest.2, show 3 * s.load ≤ n by omega⟩⟩
        exact ⟨cost', m', bind_eq_ok_iff.2 ⟨_, rfl, by simp only [hsource]; exact hrun⟩⟩
    | some source =>
      obtain ⟨hsource, hor⟩ := hn
      rcases hP.turns hm hsource with ⟨s, hpop, hm', hle, hlt⟩ | ⟨r, s, more, m', hpop, hrun, hm', hsource', hlt⟩
      · obtain ⟨cost', m', hrest⟩ := @ih cost _ none hm' (show 3 * s.load < n by
          rcases hor with ⟨hdepth, hn⟩ | hn
          · have := hlt hdepth
            omega
          · omega)
        exact ⟨cost', m', bind_eq_ok_iff.2 ⟨_, hpop, hrest⟩⟩
      · obtain ⟨cost', m'', hrest⟩ := @ih (saturatingAdd cost more) m' (some source) hm'
          ⟨hsource', .inr (by rcases hor with ⟨-, hn⟩ | hn <;> omega)⟩
        exact ⟨cost', m'', bind_eq_ok_iff.2 ⟨_, hpop, bind_eq_ok_iff.2 ⟨_, hrun, hrest⟩⟩⟩

/-- Propagation always succeeds: its bound is never reached. -/
theorem propagatesAll (hm : P m) : ∃ cost m', m.propagateAll mu = .ok (cost, m') ∧ P m' := by
  have henough : Suffices m.heap.space m.heap.propagationBound none := by
    have hload := Space.load_le (hP.sound hm).wf
    show 3 * m.heap.space.load < m.heap.propagationBound
    rw [Heap.propagationBound]
    omega
  obtain ⟨cost, m', hrun⟩ := @propagatesFrom _ _ _ hP _ 0 _ _ hm henough
  exact ⟨cost, m', hrun, (hP.toStable.propagateAll hm hrun).1⟩

end Sustains

/-! ## The roots and the atomic step -/

/-- The roots can be marked. -/
theorem markRoots_spec (hs : m.heap.Sound) (hroots : ∀ r, (mu.graph m.program).root r → m.heap.space.Holds r) :
    ∃ m', m.markRoots mu = .ok m' := by
  obtain ⟨s₁, hrun₁, hshades⟩ := Space.foldlM_mark_spec hs.wf hroots
  have hadv := hshades.advances
  obtain ⟨s₂, hrun₂, -⟩ := Space.markFixed_spec hadv.wf fun t ht => by
    rw [hadv.fixed, hadv.pending] at ht
    exact hadv.holds.2 (hs.listed t (ht.imp_right .inr))
  exact ⟨_, bind_eq_ok_iff.2 ⟨s₁, hrun₁, bind_eq_ok_iff.2 ⟨s₂, hrun₂, rfl⟩⟩⟩

/-- A property of machines with which marking comes to its end: the roots are allocated too, and tables
can be cleared, which keeps the property, as does all else that is done in the atomic step. -/
structure Concludes (mu : Mutator σ) (P : Machine σ → Prop) : Prop extends Sustains mu P where
  roots : ∀ {m : Machine σ}, P m → ∀ r, (mu.graph m.program).root r → m.heap.space.Holds r
  rooted : ∀ {m m' : Machine σ}, P m → m.markRoots mu = .ok m' → P m'
  selects : ∀ {m : Machine σ} {selection : Space.Selection} {s : Space}, P m →
    m.heap.space.selectFinalizers (mu.isFinalizable m.program) = .ok (selection, s) →
    P { m with heap := { m.heap with space := s, cycle := { m.heap.cycle with doomed := selection.doomed } } }
  clears : ∀ {m : Machine σ}, P m → ∃ m', m.clearWeakTables mu = .ok m' ∧ P m'
  dooms : ∀ {m : Machine σ} {s : Space}, P m → m.heap.cycle.doomed.foldlM Space.mark m.heap.space = .ok s →
    P { m with heap := { m.heap with space := s } }

namespace Concludes

variable (hP : Concludes mu P)

include hP

/-- Marking can be finished. -/
theorem finishes (hm : P m) : ∃ cost m', m.finishMarking mu = .ok (cost, m') := by
  have hs := hP.sound hm
  obtain ⟨selection, s₁, hselect, -, -, -, hselected, -, hdoomed⟩ :=
    Space.selectFinalizers_spec hs.wf (mu.isFinalizable m.program) fun t ht => hs.listed t (.inr (.inl ht))
  obtain ⟨m₂, hclear, hm₂⟩ := hP.clears (hP.selects hm hselect)
  obtain ⟨program, rfl, -⟩ := clearWeakTables_eq_ok hclear
  rw [finishMarking]
  -- only if something is doomed, marking goes on and the tables are cleared once more
  by_cases hempty : selection.doomed.isEmpty = true
  · exact ⟨0, _, bind_eq_ok_iff.2 ⟨_, hselect, bind_eq_ok_iff.2 ⟨_, hclear, if_pos hempty⟩⟩⟩
  · -- the doomed objects are still allocated, as selecting them and clearing tables reclaims nothing
    obtain ⟨s₃, hmark, -⟩ := @Space.foldlM_mark_spec s₁ (hP.sound hm₂).wf selection.doomed fun r hr => by
      obtain ⟨⟨-, e, he, -⟩, -⟩ := (hdoomed r).1 hr
      obtain ⟨header, hx, -⟩ := (hselected r).entity.1 e he
      exact ⟨_, hx⟩
    obtain ⟨cost, m₄, hpropagate, hm₄⟩ := hP.propagatesAll (hP.dooms hm₂ hmark)
    obtain ⟨m₅, hclear₅, -⟩ := hP.clears hm₄
    exact ⟨cost, m₅, bind_eq_ok_iff.2 ⟨_, hselect, bind_eq_ok_iff.2 ⟨_, hclear, (if_neg hempty).trans
      (bind_eq_ok_iff.2 ⟨s₃, hmark, bind_eq_ok_iff.2 ⟨_, hpropagate, bind_eq_ok_iff.2 ⟨m₅, hclear₅, rfl⟩⟩⟩)⟩⟩⟩

/-- The atomic step succeeds. -/
theorem atomicStep (hm : P m) : ∃ cost m', m.atomicStep mu = .ok (cost, m') := by
  obtain ⟨s, stores, hdrain, hm₁, -⟩ := hP.drains hm
  obtain ⟨m₂, hroots⟩ := markRoots_spec (hP.sound hm₁) (hP.roots hm₁)
  obtain ⟨cost, m₃, hpropagate, hm₃⟩ := hP.propagatesAll (hP.rooted hm₁ hroots)
  obtain ⟨more, m₄, hfinish⟩ := hP.finishes hm₃
  rw [Heap.drainIfAny_eq] at hdrain
  exact BeforeSweep.succeeds ⟨_, m₂, m₃, cost, more, hdrain, hroots, hpropagate, hfinish⟩

end Concludes

end Machine

/-! ## Sweeping -/

/-- Applying an operation to the entries of a list that succeeds on each of them. -/
theorem mapM_eq_ok {α β : Type} {f : α → Except Fault β} {g : α → β} :
    ∀ {l : List α}, (∀ x ∈ l, f x = .ok (g x)) → l.mapM f = .ok (l.map g) := by
  intro l
  induction l with
  | nil => exact fun _ => rfl
  | cons x rest ih =>
    intro hall
    rw [List.mapM_cons]
    exact bind_eq_ok_iff.2 ⟨_, hall x List.mem_cons_self,
      bind_eq_ok_iff.2 ⟨_, ih fun y hy => hall y (List.mem_cons_of_mem _ hy), rfl⟩⟩

namespace Heap

variable {h h' : Heap} {cost : Nat}

/-- The strings in any buckets can be asked whether they survive, so all that can go wrong in sweeping some
buckets is that no word holds the cost. -/
theorem Sound.sweepStringsStep_eq (hs : h.Sound) : h.sweepStringsStep =
    checkedMul wordRange h.config.stringsPerStep sweepStringCost >>= fun cost => .ok (cost, h.sweptStrings) := by
  have hsurvives : ∀ r ∈ (List.range' h.cycle.stringsCursor
      (h.strings.sweepEnd h.cycle.stringsCursor h.config.stringsPerStep - h.cycle.stringsCursor)).flatMap
        h.strings.chainObjects, h.space.survives r = .ok ((h.space.slot r).entity?.any Entity.survives) := by
    intro r hr
    obtain ⟨bucket, hbucket, hr⟩ := List.mem_flatMap.1 hr
    have hlt : bucket < h.strings.bucketCount := by
      rw [List.mem_range'_1, InternTable.sweepEnd] at hbucket
      rw [InternTable.bucketCount]
      omega
    -- what a chain has is allocated, even if it is dead
    obtain ⟨bytes, hnames, -⟩ := (hs.mem_chainObjects hlt).1 hr
    obtain ⟨e, he, -⟩ := hs.of_names hnames
    rw [Space.survives_eq hs.wf he, he]
    rfl
  rw [sweepStringsStep, mapM_eq_ok hsurvives]
  rfl

/-- So it succeeds if a word holds the cost. -/
theorem Sound.sweepStringsStep_spec (hs : h.Sound) (hsteps : h.config.stringsPerStep ≤ maxWord / sweepStringCost) :
    ∃ cost, h.sweepStringsStep = .ok (cost, h.sweptStrings) := by
  have hcost : checkedMul wordRange h.config.stringsPerStep sweepStringCost =
      .ok (h.config.stringsPerStep * sweepStringCost) := by
    refine checkedMul_eq_ok_iff.2 ⟨?_, rfl⟩
    have hle := Nat.mul_le_of_le_div _ _ _ hsteps
    exact lt_of_le_of_lt hle (by decide)
  rw [hs.sweepStringsStep_eq, hcost]
  exact ⟨_, rfl⟩

/-- Sweeping some buckets leaves fewer of them, or is the end of it. -/
theorem Sound.bucketsLeft_lt (hs : h.Sound) (hp : h.phase = .sweepStrings) : h.sweptStrings.phase = .sweep ∨
    h.sweptStrings.phase = .sweepStrings ∧
      h.sweptStrings.strings.bucketCount - h.sweptStrings.cycle.stringsCursor <
        h.strings.bucketCount - h.cycle.stringsCursor := by
  have hcycle := hs.cycle_sweptStrings
  have hpos := hs.config.stringsPerStep
  by_cases hdone : h.strings.bucketCount ≤ h.nextBucket
  · rw [if_pos hdone] at hcycle
    exact .inl (by rw [Heap.phase, hcycle])
  · rw [if_neg hdone] at hcycle
    refine .inr ⟨by rw [Heap.phase, hcycle]; exact hp, ?_⟩
    rw [hs.bucketCount_sweptStrings, hcycle]
    rw [nextBucket, InternTable.sweepEnd, InternTable.bucketCount] at hdone
    show h.strings.bucketCount - h.nextBucket < h.strings.bucketCount - h.cycle.stringsCursor
    rw [nextBucket, InternTable.sweepEnd, InternTable.bucketCount]
    omega

/-- A bound on the steps that the sweep of the space still takes. -/
def sweepsLeft (h : Heap) : Nat :=
  match h.cycle.sweepCursor with
  | .current => h.space.arenas.size + 2
  | .huge => h.space.arenas.size + 1
  | .arenas start => h.space.arenas.size - start

/-- A step of the sweep leaves fewer of them, or is the last one. -/
theorem Sound.sweepsLeft_lt (hs : h.Sound) (hp : h.phase = .sweep) (hrun : h.sweepStep = .ok (cost, h')) :
    h'.phase = .finalize ∨ h'.phase = .sweep ∧ h'.sweepsLeft < h.sweepsLeft := by
  have hsweepable := hs.sweepable (by rw [hp]; decide)
  rw [sweepStep] at hrun
  cases hcursor : h.cycle.sweepCursor with
  | current =>
    have hleft : h.sweepsLeft = h.space.arenas.size + 2 := by rw [sweepsLeft, hcursor]
    simp only [hcursor] at hrun
    refine .inr ?_
    cases hcurrent : h.space.current with
    | none =>
      simp only [hcurrent] at hrun
      cases hrun
      refine ⟨hp, ?_⟩
      rw [hleft]
      exact Nat.lt_succ_self _
    | some i =>
      obtain ⟨freed, s', hsweep, -, -, hsize, -⟩ :=
        Space.sweepArena_sweeps hs.wf hsweepable (hs.wf.current i hcurrent)
      simp only [hcurrent, hsweep] at hrun
      cases hrun
      refine ⟨hp, ?_⟩
      rw [hleft]
      show s'.arenas.size + 1 < h.space.arenas.size + 2
      omega
  | huge =>
    have hleft : h.sweepsLeft = h.space.arenas.size + 1 := by rw [sweepsLeft, hcursor]
    obtain ⟨freed, s', hsweep, -, -, harenas⟩ := Space.sweepHuge_sweeps hs.wf hsweepable
      (hs.flags.huge (.inr ⟨hp, .inr hcursor⟩))
    simp only [hcursor, hsweep] at hrun
    cases hrun
    refine .inr ⟨hp, ?_⟩
    rw [hleft]
    show s'.arenas.size - 0 < h.space.arenas.size + 1
    rw [harenas]
    omega
  | arenas start =>
    have hleft : h.sweepsLeft = h.space.arenas.size - start := by rw [sweepsLeft, hcursor]
    simp only [hcursor] at hrun
    have hunswept := Space.nextUnswept_spec h.space start
    cases hfind : h.space.nextUnswept start with
    | none =>
      simp only [hfind] at hrun
      cases hrun
      exact .inl rfl
    | some i =>
      rw [hfind] at hunswept
      obtain ⟨hstart, hi, -⟩ := hunswept
      obtain ⟨freed, s', hsweep, -, -, hsize, -⟩ := Space.sweepArena_sweeps hs.wf hsweepable hi
      simp only [hfind, hsweep] at hrun
      cases hrun
      refine .inr ⟨hp, ?_⟩
      rw [hleft]
      show s'.arenas.size - (i + 1) < h.space.arenas.size - start
      omega

end Heap

end Tricolor
