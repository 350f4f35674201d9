import Tricolor.Proofs.Program.Completing
import Tricolor.Proofs.Program.Garbage

/-!
# What a cycle keeps

When a cycle begins, what it will keep is determined but for the finalizers: the objects reached from
the roots and the fixed objects are `Held`, the registered objects that are not held and are said to
need their finalizers are `Doomed`, and whatever is reached from all of them is `Spared`. If the program
does nothing meanwhile, the objects that are marked before the atomic step are held (`Tracked`), the
atomic step marks what is held, then what is spared, and the sweep leaves just that.
-/

namespace Tricolor

namespace Space

variable {s s' : Space} {rs : List Ref} {t : Ref}

/-- What waits after objects were marked did so before, or is marked. -/
theorem Shades.queued_inv (h : s.Shades rs s') (hq : (s'.slot t).queued) : (s.slot t).queued ∨ s'.Black t := by
  rw [h.slot] at hq
  split at hq
  · next ht =>
    refine ((Slot.shade_queued _).1 hq).imp_right ?_
    rintro ⟨e, he, -⟩
    exact h.black ht ⟨e, he⟩
  · exact .inl hq

end Space

namespace Heap

variable {g : Graph} {due : Ref → Prop} {h h' : Heap}

/-- Only marked objects wait to be traversed, or are remembered as weak tables. -/
structure Tidy (h : Heap) : Prop where
  queued : ∀ {t}, (h.space.slot t).queued → h.space.Black t
  weakTables : ∀ {t}, t ∈ h.cycle.weakTables → h.space.Black t

/-- Every event of the marking leaves that so. -/
theorem Tidy.traces (ht : h.Tidy) (hs : h.Sound) (hp : h.phase.IsMarking) (htraces : h.Traces g due h') :
    h'.Tidy := by
  have hadv := (htraces.marks hs hp).advances
  cases htraces with
  | marked hshades | drained _ hshades =>
    exact ⟨fun hq => (hshades.queued_inv hq).elim (fun hq => hadv.black (ht.queued hq)) id,
      fun hmem => hadv.black (ht.weakTables hmem)⟩
  | exhausted hpopped =>
    exact ⟨fun hq => hadv.black (ht.queued (hpopped.queued _ hq)), fun hmem => hadv.black (ht.weakTables hmem)⟩
  | @traversed r e rs s s' cycle hpopped _ hshades _ hcycle =>
    refine ⟨fun {t} hq => ?_, fun {t} hmem => ?_⟩
    · exact (hshades.queued_inv hq).elim (fun hq => hadv.black (ht.queued (hpopped.queued t hq))) id
    · have hor : t ∈ h.cycle.weakTables ∨ t = r := by
        subst hcycle
        dsimp only at hmem
        split at hmem
        · exact .inl hmem
        · exact (List.mem_cons.1 hmem).symm
      rcases hor with hmem | rfl
      · exact hadv.black (ht.weakTables hmem)
      · exact hadv.black (ht.queued (hpopped.found t rfl).2)

theorem Tidy.tracing (ht : h.Tidy) (hs : h.Sound) (hp : h.phase.IsMarking) (htracing : h.Tracing g due h') :
    h'.Tidy :=
  htracing.induction hs hp ht fun _ _ hm hp' ht' hlast => ht'.traces hm.sound hp' hlast

end Heap

namespace Machine

variable {σ : Type} {mu : Mutator σ} {m₀ m m' : Machine σ} {p : σ} {r t : Ref}

/-! ## What a cycle keeps -/

/-- The roots and the fixed objects. -/
def Anchored (mu : Mutator σ) (m : Machine σ) (r : Ref) : Prop :=
  (mu.graph m.program).root r ∨ (m.heap.space.slot r).fixed

/-- What is reached from the roots and the fixed objects. -/
def Held (mu : Mutator σ) (m : Machine σ) : Ref → Prop :=
  (mu.graph m.program).Reaches m.heap.space (Anchored mu m)

/-- A registered object that is not held, and needs its finalizer to run if the program is asked in the
state `p`. -/
def Doomed (mu : Mutator σ) (m : Machine σ) (p : σ) (r : Ref) : Prop :=
  ((m.heap.space.slot r).idle ∨ (m.heap.space.slot r).pending) ∧ ¬ Held mu m r ∧ mu.isFinalizable p r = true

/-- What is reached from the roots, the fixed objects and the doomed objects. -/
def Spared (mu : Mutator σ) (m : Machine σ) (p : σ) : Ref → Prop :=
  (mu.graph m.program).Reaches m.heap.space fun t => Anchored mu m t ∨ Doomed mu m p t

theorem Held.spared (hr : Held mu m r) : Spared mu m p r := hr.trans fun _ ht => .start (.inl ht)

/-- The cycle that began at `m₀` has come to `m`, where objects are still being marked, and nothing
happened but that objects were marked that are held. -/
structure Tracked (mu : Mutator σ) (m₀ m : Machine σ) : Prop where
  asks : mu.Asks m₀.program m.program
  advances : m₀.heap.space.Advances m.heap.space
  lost : (mu.graph m₀.program).Lost m.heap fun t => m₀.heap.space.Holds t ∧ ¬ Held mu m₀ t
  tidy : m.heap.Tidy

/-- Before marking has ended, the roots of a marking are the roots and the fixed objects. -/
theorem due_iff (hundue : ∀ t, ¬ (m.heap.space.slot t).pending) : Due mu m r ↔ Anchored mu m r := by
  rw [Due, or_iff_left (hundue r), Anchored]

/-- A cycle begins. -/
theorem Tracked.begins (hs : m₀.heap.Sound) (hp : m₀.heap.phase = .pause)
    (hundue : ∀ t, ¬ (m₀.heap.space.slot t).pending) (hasks : mu.Asks m₀.program m.program)
    (htraces : (m₀.heap.clearCycle.enter .propagate).Traces (mu.graph m₀.program) (Due mu m₀) m.heap) :
    Tracked mu m₀ m := by
  have hs' := hs.begins hp
  have htidy : (m₀.heap.clearCycle.enter .propagate).Tidy :=
    ⟨fun hq => absurd hq (hs.quiet (by rw [hp]; decide) _), fun hmem => absurd hmem List.not_mem_nil⟩
  exact
    { asks := hasks
      advances := (htraces.marks hs' (.inl rfl)).advances
      lost := (Graph.Lost.begins hs hp).traces (fun t hdue ht => ht.2 (.start ((due_iff hundue).1 hdue))) htraces
      tidy := htidy.traces hs' (.inl rfl) htraces }

namespace Tracked

variable (hmu : mu.Faithful) (ht : Tracked mu m₀ m)

include ht

theorem graph (hmu : mu.Faithful) : mu.graph m.program = mu.graph m₀.program := ht.asks.graph hmu

/-- Nothing that is not held has been marked. -/
theorem held (hblack : m.heap.space.Black r) : Held mu m₀ r := by
  obtain ⟨e, he, hmarked⟩ := hblack
  by_contra hnot
  obtain ⟨x, hx, hwhite⟩ := ht.lost.white ⟨ht.advances.holds.1 ⟨e, he⟩, hnot⟩
  rw [he] at hx
  cases hx
  rw [hmarked] at hwhite
  cases hwhite

include hmu

/-- Marking goes on. -/
theorem tracing {due : Ref → Prop} (hs : m.heap.Sound) (hp : m.heap.phase.IsMarking)
    (hasks : mu.Asks m.program m'.program) (htracing : m.heap.Tracing (mu.graph m.program) due m'.heap)
    (hdue : ∀ t, due t → Anchored mu m₀ t) : Tracked mu m₀ m' where
  asks := ht.asks.trans hasks
  advances := ht.advances.trans (htracing.marks hs hp).advances
  lost := ht.lost.tracing (fun t hd hK => hK.2 (.start (hdue t hd))) (ht.graph hmu ▸ htracing)
  tidy := ht.tidy.tracing hs hp htracing

/-- Once nothing waits and nothing is recorded, what a marked object refers to is marked. -/
theorem black_target (htreated : (mu.graph m.program).Treated m.heap) (hquiet : ∀ t, ¬ (m.heap.space.slot t).queued)
    (hstores : m.heap.stores.entries = #[]) {v : Visit} (hr : m.heap.space.Black r)
    (hv : (mu.graph m₀.program).Strong m₀.heap.space r v) : m.heap.space.Black v.target := by
  have hstrong : (mu.graph m.program).Strong m.heap.space r v := ht.graph hmu ▸ ht.advances.strong.2 hv
  have hnoted := htreated.noted hr (hquiet r) hstrong
  rw [Heap.Noted, hstores] at hnoted
  exact hnoted.resolve_right (Array.not_mem_empty _)

/-- When marking is complete, just what is held is marked. -/
theorem black_iff (htreated : (mu.graph m.program).Treated m.heap) (hquiet : ∀ t, ¬ (m.heap.space.slot t).queued)
    (hstores : m.heap.stores.entries = #[]) (hanchored : ∀ t, Anchored mu m₀ t → m.heap.space.Black t) :
    m.heap.space.Black r ↔ Held mu m₀ r :=
  ⟨ht.held, fun hr => hr.subset hanchored fun _ _ hr hv => ht.black_target hmu htreated hquiet hstores hr hv⟩

end Tracked

/-! ## Finishing the marking -/

section Finishing

variable (hmu : mu.Faithful) (ht : Tracked mu m₀ m) (f : Finishing mu m m')
  (hundue : ∀ t, ¬ (m₀.heap.space.slot t).pending) (hblack : ∀ t, m.heap.space.Black t ↔ Held mu m₀ t)

include ht hundue hblack

/-- The objects that are selected for their finalizers are doomed. -/
theorem Tracked.mem_doomed (hs : m.heap.Sound) : t ∈ f.doomed ↔ Doomed mu m₀ m.program t := by
  rw [f.mem_doomed, Doomed, or_iff_left (hundue t), ← hblack, ← and_assoc, ← ht.advances.idle]
  refine and_congr_left' ⟨?_, ?_⟩
  · rintro ⟨hidle, e, he, hwhite⟩
    refine ⟨hidle, ?_⟩
    rintro ⟨x, hx, hmarked⟩
    rw [he] at hx
    cases hx
    rw [hmarked] at hwhite
    cases hwhite
  · rintro ⟨hidle, hnot⟩
    obtain ⟨e, he⟩ := hs.listed t (.inr (.inl hidle))
    exact ⟨hidle, e, he, Bool.eq_false_iff.2 fun hmarked => hnot ⟨e, he, hmarked⟩⟩

include hmu

/-- Nothing is marked that is not spared. -/
theorem Tracked.spared (hs : m.heap.Sound) (hp : m.heap.phase.IsMarking)
    (hr : f.traced.heap.space.Black r) : Spared mu m₀ m.program r := by
  -- what is not spared is lost, as nothing else refers to it
  have hlost : (mu.graph m.program).Lost m.heap fun t => m₀.heap.space.Holds t ∧ ¬ Spared mu m₀ m.program t :=
    { strong := fun {r v} hv hK => by
        have hv := ht.advances.strong.1 (ht.graph hmu ▸ hv)
        obtain ⟨e, he, -⟩ := id hv
        exact ⟨⟨e, he⟩, fun hr => hK.2 (hr.step hv)⟩
      white := fun hK => ht.lost.white ⟨hK.1, fun hr => hK.2 hr.spared⟩
      queued := fun hK => ht.lost.queued ⟨hK.1, fun hr => hK.2 hr.spared⟩
      stores := fun hK => ht.lost.stores ⟨hK.1, fun hr => hK.2 hr.spared⟩ }
  have htraced := f.lost hmu hlost fun t hmem hK =>
    hK.2 (.start (.inr ((ht.mem_doomed f hundue hblack hs).1 hmem)))
  obtain ⟨e, he, hmarked⟩ := hr
  by_contra hnot
  obtain ⟨header, hx⟩ := (f.marks hp).advances.holds.1 ⟨e, he⟩
  obtain ⟨y, hy, -⟩ := (f.selects r).entity_inv hx
  obtain ⟨x, hx, hwhite⟩ := htraced.white ⟨ht.advances.holds.1 ⟨y, hy⟩, hnot⟩
  rw [he] at hx
  cases hx
  rw [hmarked] at hwhite
  cases hwhite

omit hundue in
/-- What an object that is marked in the end refers to is marked in the end. A table that was cleared
before may have lost references, but those were followed before that. -/
theorem Tracked.black_traced_target (hp : m.heap.phase.IsMarking) (hclosed : (mu.graph m.program).Closed m.heap.space)
    (htreated : (mu.graph m.program).Treated m.heap) {v : Visit} (hr : f.traced.heap.space.Black r)
    (hv : (mu.graph m₀.program).Strong m₀.heap.space r v) : f.traced.heap.space.Black v.target := by
  by_cases hheld : Held mu m₀ r
  · exact f.black hp ((hblack _).2 (hheld.step hv))
  · obtain ⟨tables, isDead, htables, hpurged⟩ := f.purged_selected hmu
    have hnot : ¬ tables r := fun hmem => hheld (ht.held (ht.tidy.weakTables (htables r hmem)))
    have hstrong : (mu.graph f.selected.program).Strong f.traced.heap.space r v := by
      refine (f.marks hp).advances.strong.2 (f.selects.strong.2 ?_)
      obtain ⟨e, he, hrefers, hholds⟩ := ht.advances.strong.2 hv
      rw [← ht.graph hmu] at hrefers hholds
      refine ⟨e, he, ?_, ?_⟩
      · rw [hpurged.others r hnot]
        exact hrefers
      · rw [Graph.Holds, hpurged.mode]
        exact hholds
    have hnoted := (f.treated_traced hmu hp hclosed htreated).noted hr (f.quiet r) hstrong
    rw [Heap.Noted, f.stores] at hnoted
    exact hnoted.resolve_right (Array.not_mem_empty _)

/-- When marking is finished, just what is spared is marked. -/
theorem Tracked.black_traced (hs : m.heap.Sound) (hp : m.heap.phase.IsMarking)
    (hclosed : (mu.graph m.program).Closed m.heap.space) (htreated : (mu.graph m.program).Treated m.heap) :
    f.traced.heap.space.Black r ↔ Spared mu m₀ m.program r := by
  refine ⟨ht.spared hmu f hundue hblack hs hp, fun hr => hr.subset (fun t hstart => ?_) fun r v hr hv =>
    ht.black_traced_target hmu f hblack hp hclosed htreated hr hv⟩
  rcases hstart with hanchored | hdoomed
  · exact f.black hp ((hblack t).2 (.start hanchored))
  · exact f.black_doomed t ((ht.mem_doomed f hundue hblack hs).2 hdoomed)

end Finishing

/-- After the atomic step, just what is spared will outlive the sweep. -/
theorem Tracked.finish (hmu : mu.Faithful) (ht : Tracked mu m₀ m) (f : Finish mu m m')
    (hundue : ∀ t, ¬ (m₀.heap.space.slot t).pending) (hs : m.heap.Sound) (hp : m.heap.phase.IsMarking)
    (hclosed : (mu.graph m.program).Closed m.heap.space) (htreated : (mu.graph m.program).Treated m.heap) :
    mu.Asks m₀.program f.marked.program ∧
      ∀ r, m'.heap.space.Survives r ↔ Spared mu m₀ f.marked.program r := by
  have hdue : ∀ t, Due mu m t ↔ Anchored mu m₀ t := fun t => by
    rw [Due, Anchored, ht.graph hmu, ht.advances.fixed, ht.advances.pending, or_iff_left (hundue t)]
  have hmarked := ht.tracing hmu hs hp f.asks f.tracing fun t => (hdue t).1
  have htreated' := f.treated_marked hmu hs hp hclosed htreated
  have hblack : ∀ t, f.marked.heap.space.Black t ↔ Held mu m₀ t := fun t =>
    hmarked.black_iff hmu htreated' f.quiet f.stores fun x hx => f.black_due x ((hdue x).2 hx)
  refine ⟨hmarked.asks, fun r => (f.survives hs hp).trans ?_⟩
  exact hmarked.black_traced hmu f.finishing hundue hblack (f.marks hs hp).sound (f.phase_marked hs hp)
    (f.closed_marked hmu hs hp hclosed) htreated'

end Machine

end Tricolor
