import Tricolor.Proofs.Cycle.Progress
import Tricolor.Proofs.Program.Tracing

/-!
# Marking gets done

What is marked is what a faithful program can come upon (`Apt`): everything of that is allocated, and
marking leaves a machine of which that is still true. So marking goes on.
-/

namespace Tricolor

namespace Heap

variable {g : Graph} {due : Ref → Prop} {h h' : Heap}

/-- The weak tables that the collector remembers are allocated tables. -/
def Remembers (h : Heap) : Prop :=
  ∀ t ∈ h.cycle.weakTables, ∃ e, (h.space.slot t).entity? = some e ∧ e.header.kind = .table

theorem Remembers.advances (hr : h.Remembers) (hadv : h.space.Advances h'.space)
    (hweak : ∀ t ∈ h'.cycle.weakTables, t ∈ h.cycle.weakTables ∨
      ∃ e, (h.space.slot t).entity? = some e ∧ e.header.kind = .table) : h'.Remembers := by
  intro t ht
  obtain ⟨e, he, hkind⟩ := (hweak t ht).elim (hr t) id
  obtain ⟨marked, hx, -⟩ := hadv.entity he
  exact ⟨_, hx, hkind⟩

/-- Only tables have a weak mode, so nothing else is remembered. -/
theorem Remembers.tracing (hr : h.Remembers) (hs : h.Sound) (hp : h.phase.IsMarking)
    (htracing : h.Tracing g due h') : h'.Remembers := by
  refine htracing.induction hs hp hr fun h₁ h₂ hm hp₁ hr₁ hlast => ?_
  have hadv := (hlast.marks hm.sound hp₁).advances
  cases hlast with
  | marked | drained | exhausted => exact hr₁.advances hadv fun _ => .inl
  | @traversed r e _ _ _ _ _ he _ _ hcycle =>
    subst hcycle
    refine hr₁.advances hadv fun t ht => ?_
    dsimp only at ht
    split at ht
    · exact .inl ht
    · next hmode =>
      rcases List.mem_cons.1 ht with rfl | ht
      · exact .inr ⟨e, he, by_contra fun hne => hmode (Graph.mode_of_ne_table hne)⟩
      · exact .inl ht

end Heap

namespace Machine

variable {σ : Type} {mu : Mutator σ} {m m' : Machine σ}

/-- What marking needs of a machine: all that it will come upon is allocated. -/
structure Apt (mu : Mutator σ) (m : Machine σ) : Prop where
  sound : m.heap.Sound
  marking : m.heap.phase.IsMarking
  closed : (mu.graph m.program).Closed m.heap.space
  recorded : m.heap.Recorded
  remembers : m.heap.Remembers

/-- Marking leaves a machine in which it can go on. -/
theorem Apt.tracing {due : Ref → Prop} (hm : Apt mu m) (htracing : m.heap.Tracing (mu.graph m.program) due m'.heap)
    (hgraph : mu.graph m'.program = mu.graph m.program) : Apt mu m' where
  sound := (htracing.marks hm.sound hm.marking).sound
  marking := (htracing.marks hm.sound hm.marking).phase ▸ hm.marking
  closed := hgraph ▸ hm.closed.marks hm.sound hm.marking (htracing.marks hm.sound hm.marking)
  recorded := (htracing.marks hm.sound hm.marking).recorded hm.recorded
  remembers := hm.remembers.tracing hm.sound hm.marking htracing

/-- A single event leaves a machine in which marking can go on. -/
theorem Apt.traces {due : Ref → Prop} (hm : Apt mu m) (htraces : m.heap.Traces (mu.graph m.program) due m'.heap)
    (hgraph : mu.graph m'.program = mu.graph m.program) : Apt mu m' :=
  hm.tracing (.single htraces) hgraph

/-- The marking of a faithful program goes on. -/
theorem Apt.sustains (hmu : mu.Faithful) : Sustains mu (Apt mu) where
  drain {m h} hm hrun := by
    rw [Heap.drainIfAny_eq] at hrun
    obtain ⟨hall, s, hshades, rfl⟩ := Heap.drainStores_eq_ok hm.sound hrun
    exact @Apt.traces _ _ _ ⟨_, _⟩ (fun _ => False) hm (.drained hall hshades) rfl
  exhaust {m source s} hm hpop :=
    @Apt.traces _ _ _ ⟨_, _⟩ (fun _ => False) hm (.exhausted (Space.popGrey_eq_ok hm.sound.wf hpop)) rfl
  traverse {m m' source r s cost} hm hpop hrun := by
    have htraverse : mu.Asks m.program m'.program ∧ m.heap.Traces (mu.graph m.program) (fun _ => False) m'.heap :=
      traces_traverse hm.sound hm.marking hm.closed (Space.popGrey_eq_ok hm.sound.wf hpop) hrun
    exact hm.traces htraverse.2 (htraverse.1.graph hmu)
  sound hm := hm.sound
  marking hm := hm.marking
  recorded hm := hm.recorded
  visits {m source r s v} hm hpop hv :=
    (hm.closed.edge (hm.sound.survives_of_holds (Heap.Phase.not_isSweeping hm.marking)
      ((Space.popGrey_eq_ok hm.sound.wf hpop).found r rfl).1) hv).holds

end Machine

end Tricolor
