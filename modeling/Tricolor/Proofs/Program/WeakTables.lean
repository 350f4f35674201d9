import Tricolor.Proofs.Program.Ledgers
import Tricolor.Proofs.Program.Validity

/-!
# Weak tables keep no dead entry

The atomic step clears every weak table that is marked, with the marks that the sweep will go by.
What is left on a weak side is a string, or an object that was reached by other ways than by its
finalizer, so the sweep reclaims nothing that a surviving table refers to.
-/

namespace Tricolor

namespace Machine

variable {σ : Type} {mu : Mutator σ} {m m' : Machine σ} {t : Ref} {v : Visit} {e : Entity}

/-- A weak table that is marked. -/
structure MarkedWeak (mu : Mutator σ) (m : Machine σ) (t : Ref) : Prop where
  kind : m.heap.kind t = .ok .table
  marked : m.heap.space.isMarked t = .ok true
  weak : mu.weakMode m.program t ≠ .none

theorem MarkedWeak.entity (hs : m.heap.Sound) (ht : MarkedWeak mu m t) :
    ∃ e, (m.heap.space.slot t).entity? = some e ∧ e.header.kind = .table ∧ e.marked = true := by
  obtain ⟨_, hlive, -⟩ := bind_eq_ok_iff.1 ht.kind
  obtain ⟨e, he⟩ := hs.isLive_iff.1 (require_eq_ok_iff.1 hlive)
  exact ⟨e, he, Except.ok.inj ((hs.kind_eq he).symm.trans ht.kind),
    Except.ok.inj ((Space.isMarked_eq hs.wf he).symm.trans ht.marked)⟩

namespace Finish

variable (f : Finish mu m m')

include f

/-- The sweep finds every object with its mark. -/
theorem entity_inv (hs : m.heap.Sound) (hp : m.heap.phase.IsMarking)
    (he : (m'.heap.space.slot t).entity? = some e) :
    ∃ x, (f.finishing.traced.heap.space.slot t).entity? = some x ∧ e.header = x.header ∧ e.marked = x.marked := by
  rw [f.slot hs hp, Slot.mapEntity_entity?] at he
  obtain ⟨x, hx, rfl⟩ := Option.map_eq_some_iff.1 he
  exact ⟨x, hx, rfl, rfl⟩

/-- The finalizers that are due after the atomic step are those that it has selected. -/
theorem doomed_of_pending (hs : m.heap.Sound) (hp : m.heap.phase.IsMarking) (hundue : m.heap.Undue)
    (hpending : (m'.heap.space.slot t).pending) : t ∈ f.finishing.doomed := by
  have hp' := f.phase_marked hs hp
  rw [f.slot hs hp, Slot.mapEntity_pending, (f.finishing.marks hp').advances.pending] at hpending
  have hnone : ¬ (f.marked.heap.space.slot t).pending := by
    rw [(f.marks hs hp).advances.pending]
    exact hundue (.inr hp) t
  have hselected := f.finishing.selects t
  by_cases hunreached : (f.marked.heap.space.slot t).Unreached
  · cases hfinalizable : mu.isFinalizable f.marked.program t with
    | true => exact (f.finishing.mem_doomed t).2 ⟨hunreached, hfinalizable⟩
    | false =>
      rw [hselected.forget hunreached hfinalizable] at hpending
      exact absurd hpending hnone
  · rw [hselected.keep hunreached] at hpending
    exact absurd hpending hnone

/-- Every marked weak table has been cleared with the final marks. -/
theorem cleared (hmu : mu.Faithful) (hs : m.heap.Sound) (hp : m.heap.phase.IsMarking)
    (hclosed : (mu.graph m.program).Closed m.heap.space) (htreated : (mu.graph m.program).Treated m.heap)
    (hs' : m'.heap.Sound) : ∃ (h : Heap) (tables : List Ref) (program : σ),
      m'.heap.space = h.space.beginSweep ∧ m'.heap.cycle.doomed = h.cycle.doomed ∧
      tables.foldlM (fun program t => mu.clearWeak program t h.isDead) program = .ok m'.program ∧
      ∀ t, MarkedWeak mu m' t → t ∈ tables := by
  obtain ⟨tables, hmem, hfold⟩ := f.finishing.clears
  refine ⟨f.finishing.traced.heap, tables, f.finishing.traced.program, f.space, f.doomed, f.program ▸ hfold,
    fun t ht => (hmem t).2 ?_⟩
  obtain ⟨e, he, hkind, hm⟩ := ht.entity hs'
  obtain ⟨x, hx, hheader, hmarked⟩ := f.entity_inv hs hp he
  have hp' := f.phase_marked hs hp
  refine (f.finishing.treated hmu hp' (f.closed_marked hmu hs hp hclosed)
    (f.treated_marked hmu hs hp hclosed htreated)).weak hx (hmarked ▸ hm) (f.finishing.quiet t) ?_
  rw [← hheader, hkind, Graph.mode, if_pos rfl, ← f.program]
  exact ht.weak

/-- What a marked weak table refers to is marked, and unless it is a string its finalizer is not due
if it stands on a weak side. -/
theorem referent (hmu : mu.Faithful) (hs : m.heap.Sound) (hp : m.heap.phase.IsMarking)
    (hclosed : (mu.graph m.program).Closed m.heap.space) (htreated : (mu.graph m.program).Treated m.heap)
    (hundue : m.heap.Undue) (hs' : m'.heap.Sound) (ht : MarkedWeak mu m' t)
    (hv : (mu.graph m'.program).refers t .table v) :
    m'.heap.space.isMarked v.target = .ok true ∧ (v.isWeak (mu.weakMode m'.program t) = true →
      m'.heap.kind v.target = .ok .str ∨ ¬ (m'.heap.space.slot v.target).pending) := by
  obtain ⟨e, he, hkind, hm⟩ := ht.entity hs'
  obtain ⟨x, hx, hheader, hmarked⟩ := f.entity_inv hs hp he
  rw [f.program] at hv
  obtain ⟨hblack, hor⟩ := f.finishing.settled hmu (f.phase_marked hs hp) (f.closed_marked hmu hs hp hclosed)
    (f.treated_marked hmu hs hp hclosed htreated) ⟨x, hx, hmarked ▸ hm⟩ ⟨x, hx, by rw [← hheader, hkind]; exact hv⟩
  obtain ⟨y, hy, -⟩ := (f.survives hs hp).2 hblack
  obtain ⟨z, hz, hheader', hmarked'⟩ := f.entity_inv hs hp hy
  have hmy : y.marked = true := by
    obtain ⟨z', hz', hmz⟩ := hblack
    rw [hz] at hz'
    cases hz'
    exact hmarked'.trans hmz
  refine ⟨(Space.isMarked_eq hs'.wf hy).trans (by rw [hmy]), fun hweak => ?_⟩
  by_cases hstring : y.header.kind = .str
  · exact .inl ((hs'.kind_eq hy).trans (by rw [hstring]))
  · refine .inr fun hpending => ?_
    rcases hor with ⟨w, hw, -, hholds⟩ | hnot
    · rw [hx] at hw
      cases hw
      rcases hholds with hnotWeak | hisString
      · rw [← hheader, hkind, Graph.mode, if_pos rfl, ← f.program] at hnotWeak
        exact Bool.false_ne_true (hnotWeak.symm.trans hweak)
      · rw [Space.isString, hz, Option.any_some, decide_eq_true_iff, ← hheader'] at hisString
        exact hstring hisString
    · exact hnot (f.doomed_of_pending hs hp hundue hpending)

end Finish

end Machine

namespace Stage

variable {σ : Type} {mu : Mutator σ} {config : Config} {hashOf : List UInt8 → Hash} {c : Stage σ}
  {m : Machine σ} {result : Except CollectError Nat}

/-- When the atomic step is done, every weak table that is marked has been cleared with the final
marks; what it refers to on a weak side is a string, or marked and not kept for its finalizer only;
and strings in it are marked. From then on no table that survives refers to an object that the sweep
reclaims. -/
theorem weak_tables_keep_no_dead_entry (hmu : Orderly mu config hashOf) (hc : Reachable mu config hashOf c)
    (hp : c.heap.phase = .atomic) (hrun : c.machine.singleStep mu = .ok (result, m))
    (hdone : m.heap.phase ≠ .atomic) :
    (∃ (h : Heap) (tables : List Ref) (program : σ),
      m.heap.space = h.space.beginSweep ∧ m.heap.cycle.doomed = h.cycle.doomed ∧
      tables.foldlM (fun program t => mu.clearWeak program t h.isDead) program = .ok m.program ∧
      ∀ t, Machine.MarkedWeak mu m t → t ∈ tables) ∧
    (∀ t v, Machine.MarkedWeak mu m t → (mu.graph m.program).refers t .table v →
      (v.isWeak (mu.weakMode m.program t) = true → m.heap.kind v.target = .ok .str ∨
        m.heap.space.isMarked v.target = .ok true ∧ ¬ (m.heap.space.slot v.target).pending) ∧
      (m.heap.kind v.target = .ok .str → m.heap.space.isMarked v.target = .ok true)) ∧
    ∀ l d, Passes mu ⟨m, nothing⟩ l d → ∀ t v, d.heap.Live t → (d.graph mu).Edge d.space t v →
      d.heap.Live v.target := by
  have hvalid := hc.valid hmu.toFaithful
  have hphase : c.machine.heap.phase ≠ .finalize := by
    rw [show c.machine.heap.phase = .atomic from hp]
    exact Phase.noConfusion
  have hvalid' := hvalid.step hmu.toFaithful (.collect hphase hrun)
  have hmarking : c.machine.heap.phase.IsMarking := .inr hp
  have hs := hvalid.sound
  have hs' : m.heap.Sound := hvalid'.sound
  cases Machine.collects_singleStep hmu.toFaithful hs hphase hvalid.closed hrun with
  | blocked => exact absurd hp hdone
  | began hpause => rw [show c.machine.heap.phase = .atomic from hp] at hpause; cases hpause
  | propagated hpropagate => rw [show c.machine.heap.phase = .atomic from hp] at hpropagate; cases hpropagate
  | ready hpropagate => rw [show c.machine.heap.phase = .atomic from hp] at hpropagate; cases hpropagate
  | sweptStrings hsweep => rw [show c.machine.heap.phase = .atomic from hp] at hsweep; cases hsweep
  | swept hsweep => rw [show c.machine.heap.phase = .atomic from hp] at hsweep; cases hsweep
  | finished _ f =>
    refine ⟨f.cleared hmu.toFaithful hs hmarking hvalid.closed (hvalid.treated hmarking) hs', fun t v ht hv => ?_,
      fun l d hpass t v ht hv => ?_⟩
    · obtain ⟨hmarked, hweak⟩ := f.referent hmu.toFaithful hs hmarking hvalid.closed
        (hvalid.treated hmarking) hvalid.undue hs' ht hv
      exact ⟨fun hw => (hweak hw).imp_right fun hnot => ⟨hmarked, hnot⟩, fun _ => hmarked⟩
    · have hd := hvalid'.passes hmu.toFaithful hpass
      exact hd.sound.live_iff.2 (hd.closed.edge (hd.sound.live_iff.1 ht) hv)

/-- The atomic step drops the entry of a cache whose value was not reached. -/
theorem cached_entry_is_dropped : ∃ (c : Stage Ledger) (m : Machine Ledger) (result : Except CollectError Nat),
    Reachable Ledger.mutator Ledger.blocksOnly (fun _ => 0) c ∧ c.heap.phase = .atomic ∧
      (.huge 5, .huge 5, .huge 6) ∈ c.machine.program.entries ∧
      c.machine.singleStep Ledger.mutator = .ok (result, m) ∧ Machine.MarkedWeak Ledger.mutator m (.huge 5) ∧
      (.huge 5, .huge 5, .huge 6) ∉ m.program.entries := by
  obtain ⟨l, m, ⟨result, m'⟩, hrun, hp, hentry, hstep, hp', htable, hmarked, hmode, hthread, hwhite⟩ :=
    Ledger.cache_atomic
  have hreach := Ledger.cache_reachable.passes hrun
  have hweak : Machine.MarkedWeak Ledger.mutator m' (.huge 5) := ⟨htable, hmarked, by rw [hmode]; decide⟩
  refine ⟨⟨m, nothing⟩, m', result, hreach, hp, hentry, hstep, hweak, fun hmem => ?_⟩
  obtain ⟨-, hreferents, -⟩ := weak_tables_keep_no_dead_entry (Ledger.orderly _ _) hreach hp hstep
    (by rw [hp']; decide)
  obtain ⟨hdead, -⟩ := hreferents (.huge 5) (.value (.huge 6)) hweak
    (Ledger.refers_iff.2 ⟨rfl, .inr ⟨rfl, Ledger.mem_entryVisits.2 ⟨_, _, hmem, .inr rfl⟩⟩⟩)
  rcases hdead (by rw [hmode]; rfl) with hstring | ⟨hblack, -⟩
  · cases hthread.symm.trans hstring
  · cases hwhite.symm.trans hblack

end Stage

end Tricolor
