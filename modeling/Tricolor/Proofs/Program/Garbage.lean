import Tricolor.Proofs.Program.Ledgers
import Tricolor.Proofs.Program.Validity

/-!
# Garbage does not outlive a cycle

A set of objects is `Lost` if no other object refers strongly into it, and the collector has neither
marked nor queued nor recorded any of it. Marking never reaches what is lost, as long as nothing of
it is due to be marked; so what is garbage when a cycle begins is never marked in that cycle, and the
sweep reclaims it, unless the program comes by it again.
-/

namespace Tricolor

namespace Graph

variable {g g' : Graph} {K due tables : Ref → Prop} {h h' : Heap} {t : Ref} {e : Entity}
  {isDead : Ref → Except Fault Bool}

/-- The collector knows nothing of the objects in `K`, and no other object refers strongly to them. -/
structure Lost (g : Graph) (h : Heap) (K : Ref → Prop) : Prop where
  strong : ∀ {r v}, g.Strong h.space r v → K v.target → K r
  white : ∀ {t}, K t → ∃ e, (h.space.slot t).entity? = some e ∧ e.marked = false
  queued : ∀ {t}, K t → ¬ (h.space.slot t).queued
  stores : ∀ {t}, K t → t ∉ h.stores.entries

/-- When a cycle begins, the collector knows nothing of what is not reached. -/
theorem Lost.begins {start : Ref → Prop} (hs : h.Sound) (hp : h.phase = .pause) :
    g.Lost (h.clearCycle.enter .propagate) fun t => h.space.Holds t ∧ ¬ g.Reaches h.space start t := by
  have hmarking : ¬ h.phase.IsMarking := by
    rw [hp]
    decide
  exact
    { strong := fun {r v} hv ht => by
        obtain ⟨e, he, -⟩ := id hv
        exact ⟨⟨e, he⟩, fun hr => ht.2 (hr.step hv)⟩
      white := fun {t} ht => by
        obtain ⟨e, he⟩ := ht.1
        exact ⟨e, he, hs.unmarked hmarking (by rw [hp]; decide) he⟩
      queued := fun _ => hs.quiet hmarking _
      stores := fun _ => by
        show _ ∉ h.stores.entries
        rw [hs.stores hmarking]
        exact Array.not_mem_empty _ }

/-- What is lost is not where something was marked. -/
theorem Lost.shades {s' : Space} {rs : List Ref} (hK : g.Lost h K) (hshades : h.space.Shades rs s')
    (hrs : ∀ t ∈ rs, ¬ K t) : g.Lost { h with space := s' } K where
  strong hv := hK.strong (hshades.advances.strong.1 hv)
  white {t} ht := by
    show ∃ e, (s'.slot t).entity? = some e ∧ e.marked = false
    rw [hshades.slot, if_neg fun hmem => hrs t hmem ht]
    exact hK.white ht
  queued {t} ht := by
    show ¬ (s'.slot t).queued
    rw [hshades.slot, if_neg fun hmem => hrs t hmem ht]
    exact hK.queued ht
  stores := hK.stores

theorem Lost.popped {s' : Space} {r? : Option Ref} (hK : g.Lost h K) (hpopped : h.space.Popped r? s') :
    g.Lost { h with space := s' } K where
  strong hv := hK.strong (hpopped.advances.strong.1 hv)
  white {t} ht := by
    obtain ⟨e, he, hm⟩ := hK.white ht
    exact ⟨e, by rw [show Space.slot _ t = _ from hpopped.slot t]; exact he, hm⟩
  queued {t} ht hq := hK.queued ht (hpopped.queued t hq)
  stores := hK.stores

/-- Every event of the marking leaves alone what is lost. -/
theorem Lost.traces (hK : g.Lost h K) (hdue : ∀ t, due t → ¬ K t) (htraces : h.Traces g due h') : g.Lost h' K := by
  cases htraces with
  | marked hshades hrs => exact hK.shades hshades fun t ht => hdue t (hrs t ht)
  | drained _ hshades =>
    have hK' := hK.shades hshades fun t ht hKt => hK.stores hKt (Array.mem_toList_iff.1 ht)
    exact ⟨hK'.strong, hK'.white, hK'.queued, fun _ hmem => Array.not_mem_empty _ hmem⟩
  | exhausted hpopped => exact hK.popped hpopped
  | @traversed r e rs s s' cycle hpopped he hshades hrs _ =>
    -- what was popped was queued, so it is not lost, and nor is what it refers to
    have hr : ¬ K r := fun hr => hK.queued hr (hpopped.found r rfl).2
    have hK' := (hK.popped hpopped).shades hshades fun t ht hKt => by
      obtain ⟨v, hv, rfl⟩ := (hrs t).1 ht
      exact hr (hK.strong hv hKt)
    exact ⟨hK'.strong, hK'.white, hK'.queued, hK'.stores⟩

theorem Lost.tracing (hK : g.Lost h K) (hdue : ∀ t, due t → ¬ K t) (htracing : h.Tracing g due h') :
    g.Lost h' K := by
  induction htracing with
  | refl => exact hK
  | tail _ hlast ih => exact ih.traces hdue hlast

theorem Lost.purged (hK : g.Lost h K) (hpurged : g.Purged tables isDead g') : g'.Lost h K where
  strong hv := hK.strong (hpurged.strong hv)
  white := hK.white
  queued := hK.queued
  stores := hK.stores

end Graph

namespace Machine

variable {σ : Type} {mu : Mutator σ} {m m' : Machine σ} {K : Ref → Prop} {t : Ref}

/-- Finishing the marking leaves alone what is lost and not doomed. -/
theorem Finishing.lost (f : Finishing mu m m') (hmu : mu.Faithful) (hK : (mu.graph m.program).Lost m.heap K)
    (hdoomed : ∀ t ∈ f.doomed, ¬ K t) : (mu.graph m'.program).Lost f.traced.heap K := by
  have hselected : (mu.graph m.program).Lost f.selected.heap K :=
    { strong := fun hv => hK.strong (f.selects.strong.1 hv)
      white := fun {t} ht => by
        obtain ⟨e, he, hm⟩ := hK.white ht
        obtain ⟨header, hx, -⟩ := (f.selects t).entity.1 e he
        exact ⟨_, hx, hm⟩
      queued := fun {t} ht => by
        rw [f.selects.queued]
        exact hK.queued ht
      stores := fun ht => by
        rw [f.heap_selected]
        exact hK.stores ht }
  obtain ⟨tables, isDead, -, hpurged⟩ := f.purged_selected hmu
  exact ((hselected.purged hpurged).tracing hdoomed f.tracing).purged (f.graph_traced ▸ f.clears.purged hmu)

/-- The atomic step leaves alone what is lost and neither due nor doomed. -/
theorem Finish.lost (f : Finish mu m m') (hmu : mu.Faithful) (hK : (mu.graph m.program).Lost m.heap K)
    (hdue : ∀ t, Due mu m t → ¬ K t) (hdoomed : ∀ t ∈ f.finishing.doomed, ¬ K t) :
    (mu.graph m'.program).Lost f.finishing.traced.heap K := by
  rw [f.program]
  refine f.finishing.lost hmu ?_ hdoomed
  rw [f.asks.graph hmu]
  exact hK.tracing hdue f.tracing

end Machine

namespace Stage

variable {σ : Type} {mu : Mutator σ} {config : Config} {hashOf : List UInt8 → Hash} {c c₀ d : Stage σ}
  {l : List (Stage σ)} {K : Ref → Prop} {r t : Ref} {v : Visit} {m : Machine σ}
  {result : Except CollectError Nat}

/-- The objects in `K` are garbage of the cycle in progress: they are lost, neither root nor listed nor
at hand, and await the sweep if it has begun. -/
structure Abandoned (mu : Mutator σ) (c : Stage σ) (K : Ref → Prop) : Prop where
  lost : (c.graph mu).Lost c.heap K
  root : ∀ {t}, (c.graph mu).root t → ¬ K t
  listed : ∀ {t}, (c.space.slot t).fixed ∨ (c.space.slot t).idle ∨ (c.space.slot t).pending → ¬ K t
  hands : ∀ {t}, c.hands t → ¬ K t
  awaits : c.heap.phase.IsSweeping → ∀ {t e}, K t → (c.space.slot t).entity? = some e → e.awaits = true
  phase : ∀ {t}, K t → c.heap.phase.IsMarking ∨ c.heap.phase.IsSweeping

/-- Nothing is abandoned any more. -/
theorem Abandoned.of_empty (h : ∀ t, ¬ K t) : Abandoned mu c K where
  lost := ⟨fun _ ht => absurd ht (h _), fun ht => absurd ht (h _), fun ht => absurd ht (h _),
    fun ht => absurd ht (h _)⟩
  root _ := h _
  listed _ := h _
  hands _ := h _
  awaits _ := fun ht => absurd ht (h _)
  phase ht := absurd ht (h _)

/-- What is left of `K` at a stage: what is still allocated, and not reached from what is at hand. -/
def Rest (mu : Mutator σ) (K : Ref → Prop) (d : Stage σ) (t : Ref) : Prop :=
  K t ∧ d.space.Holds t ∧ ¬ (d.graph mu).Reaches d.space d.hands t

theorem Rest.of_strong (hr : K r) (hv : (d.graph mu).Strong d.space r v) (ht : Rest mu K d v.target) :
    Rest mu K d r := by
  refine ⟨hr, ?_, fun hreaches => ht.2.2 (hreaches.step hv)⟩
  obtain ⟨e, he, -⟩ := hv
  exact ⟨e, he⟩

/-- An act touches nothing of what is left. -/
theorem Abandoned.act (hc : Valid mu config hashOf c) (hK : Abandoned mu c K) (hact : Act mu c d) :
    Abandoned mu d (Rest mu K d) := by
  obtain ⟨used, fresh, gone, stored, he⟩ := hact.effect hc.sound hc.hands
  have hstays : ∀ {t}, Rest mu K d t → (c.space.slot t).Stays c.heap.phase (d.space.slot t) False := by
    intro t ht
    obtain ⟨e, het, -⟩ := hK.lost.white ht.1
    refine (he.alters.stays (he.not_fresh ⟨e, het⟩) (he.not_gone ht.2.1)).mono fun hor => ?_
    rcases hor with hused | hstored
    · rcases he.uses (.inl hused) with hhand | ⟨hhand, -⟩
      · exact hK.hands hhand ht.1
      · exact ht.2.2 (.start hhand)
    · exact hK.lost.stores ht.1 hstored
  have hwhite : ∀ {t}, Rest mu K d t → ∃ e x, (c.space.slot t).entity? = some e ∧
      (d.space.slot t).entity? = some x ∧ x.marked = false ∧ x.awaits = e.awaits := by
    intro t ht
    obtain ⟨e, het, hm⟩ := hK.lost.white ht.1
    obtain ⟨x, hx, hres, hmarked, -⟩ := (hstays ht).entity het
    exact ⟨e, x, het, hx, (hmarked.resolve_right id).trans hm, hres.awaits⟩
  refine
    { lost :=
        { strong := fun {r v} hv ht => ?_
          white := fun ht => ?_
          queued := fun ht hq => hK.lost.queued ht.1 (((hstays ht).queued hq).resolve_right id)
          stores := fun ht hmem => ?_ }
      root := fun hr ht => ?_
      listed := fun hor ht => hK.listed ?_ ht.1
      hands := fun hhand ht => ht.2.2 (.start hhand)
      awaits := fun hp t x ht hx => ?_
      phase := fun ht => by
        rw [he.alters.phase]
        exact hK.phase ht.1 }
  · obtain ⟨e, het, -⟩ := hK.lost.white ht.1
    refine .of_strong ?_ hv ht
    rcases he.strong ⟨e, het⟩ hv with hstrong | hhand | hhand
    · exact hK.lost.strong hstrong ht.1
    · exact absurd ht.1 (hK.hands hhand)
    · exact absurd (.start hhand) ht.2.2
  · obtain ⟨-, x, -, hx, hm, -⟩ := hwhite ht
    exact ⟨x, hx, hm⟩
  · rcases he.alters.stores hmem with hmem | hused
    · exact hK.lost.stores ht.1 hmem
    · rcases he.uses (.inl hused) with hhand | ⟨hhand, -⟩
      · exact hK.hands hhand ht.1
      · exact ht.2.2 (.start hhand)
  · rcases he.follows.root hr with hr | hhand
    · exact hK.root hr ht.1
    · exact hK.hands hhand ht.1
  · have hs := hstays ht
    exact hor.imp (fun hf => (hs.fixed hf).resolve_right id)
      (Or.imp (fun hi => (hs.idle hi).resolve_right id) hs.pending)
  · obtain ⟨e, y, het, hy, -, hawaits⟩ := hwhite ht
    rw [hx] at hy
    cases hy
    rw [hawaits]
    rw [he.alters.phase] at hp
    exact hK.awaits hp ht.1 het

/-- What was abandoned still is if nothing has happened to the objects. -/
theorem Abandoned.still (hK : Abandoned mu c K) (hgraph : d.graph mu = c.graph mu) (hspace : d.space = c.space)
    (hstores : d.heap.stores = c.heap.stores) (hphase : d.heap.phase = c.heap.phase) :
    Abandoned mu d (Rest mu K d) where
  lost :=
    { strong := fun {r v} hv ht => by
        refine .of_strong ?_ hv ht
        rw [hgraph, show d.heap.space = c.space from hspace] at hv
        exact hK.lost.strong hv ht.1
      white := fun ht => by
        rw [show d.heap.space = c.space from hspace]
        exact hK.lost.white ht.1
      queued := fun ht => by
        rw [show d.heap.space = c.space from hspace]
        exact hK.lost.queued ht.1
      stores := fun ht => by
        rw [hstores]
        exact hK.lost.stores ht.1 }
  root hr ht := hK.root (hgraph ▸ hr) ht.1
  listed hor ht := hK.listed (hspace ▸ hor) ht.1
  hands hhand ht := ht.2.2 (.start hhand)
  awaits hp _ _ ht he := hK.awaits (hphase ▸ hp) ht.1 (hspace ▸ he)
  phase ht := by
    rw [hphase]
    exact hK.phase ht.1

/-- What is left is abandoned if nothing has touched it while objects are being marked. -/
theorem Abandoned.of_marking (hp : d.heap.phase.IsMarking) (hlost : (d.graph mu).Lost d.heap K)
    (hroot : ∀ {t}, (d.graph mu).root t → ¬ K t)
    (hlisted : ∀ {t}, (d.space.slot t).fixed ∨ (d.space.slot t).idle ∨ (d.space.slot t).pending → ¬ K t) :
    Abandoned mu d (Rest mu K d) where
  lost := ⟨fun hv ht => .of_strong (hlost.strong hv ht.1) hv ht, fun ht => hlost.white ht.1,
    fun ht => hlost.queued ht.1, fun ht => hlost.stores ht.1⟩
  root hr ht := hroot hr ht.1
  listed hor ht := hlisted hor ht.1
  hands hhand ht := ht.2.2 (.start hhand)
  awaits hsweeping := absurd hsweeping (Heap.Phase.not_isSweeping hp)
  phase _ := .inl hp

/-- What is left is abandoned if it still awaits the sweep. -/
theorem Abandoned.of_sweeping (hd : Valid mu config hashOf d) (hp : d.heap.phase.IsSweeping)
    (hstrong : ∀ {r v}, (d.graph mu).Strong d.space r v → K v.target → K r)
    (hwhite : ∀ {t}, Rest mu K d t → ∃ e, (d.space.slot t).entity? = some e ∧ e.marked = false ∧ e.awaits = true)
    (hroot : ∀ {t}, (d.graph mu).root t → ¬ K t)
    (hlisted : ∀ {t}, (d.space.slot t).fixed ∨ (d.space.slot t).idle ∨ (d.space.slot t).pending → ¬ K t) :
    Abandoned mu d (Rest mu K d) where
  lost :=
    { strong := fun hv ht => .of_strong (hstrong hv ht.1) hv ht
      white := fun ht => by
        obtain ⟨e, he, hm, -⟩ := hwhite ht
        exact ⟨e, he, hm⟩
      queued := fun _ hq => Heap.Phase.not_isSweeping ((hd.sound.admits _).queued hq) hp
      stores := fun _ => by
        rw [hd.sound.stores fun hmarking => Heap.Phase.not_isSweeping hmarking hp]
        exact Array.not_mem_empty _ }
  root hr ht := hroot hr ht.1
  listed hor ht := hlisted hor ht.1
  hands hhand ht := ht.2.2 (.start hhand)
  awaits _ _ _ ht he := by
    obtain ⟨x, hx, -, hawaits⟩ := hwhite ht
    rw [he] at hx
    cases hx
    exact hawaits
  phase _ := .inr hp

/-- The collector spares nothing of what is left, and finds none of it. -/
theorem Abandoned.collect (hmu : mu.Faithful) (hc : Valid mu config hashOf c)
    (hd : Valid mu config hashOf ⟨m, nothing⟩) (hK : Abandoned mu c K)
    (hcollects : Machine.Collects mu c.machine m) : Abandoned mu ⟨m, nothing⟩ (Rest mu K ⟨m, nothing⟩) := by
  have hs := hc.sound
  have hmarked : ∀ {h : Heap}, c.heap.phase.IsMarking → c.heap.Marks h → ∀ {t},
      (h.space.slot t).fixed ∨ (h.space.slot t).idle ∨ (h.space.slot t).pending → ¬ K t := by
    intro h hp hmarks t hor
    rw [hmarks.advances.fixed, hmarks.advances.idle, hmarks.advances.pending] at hor
    exact hK.listed hor
  cases hcollects with
  | blocked => exact hK.still rfl rfl rfl rfl
  | began hpause =>
    refine .of_empty fun t ht => ?_
    rcases hK.phase ht.1 with hp | hp <;> rw [show c.heap.phase = .pause from hpause] at hp <;>
      exact absurd hp (by decide)
  | propagated hphase hasks htracing =>
    have hp : c.heap.phase.IsMarking := .inl hphase
    have hmarks := htracing.marks hs hp
    have hgraph : graph mu ⟨m, nothing⟩ = c.graph mu := hasks.graph hmu
    refine .of_marking (hmarks.phase ▸ hp) ?_ (fun hr => hK.root (hgraph ▸ hr)) (hmarked hp hmarks)
    rw [hgraph]
    exact hK.lost.tracing (fun _ => False.elim) htracing
  | ready hphase htracing =>
    have hp : c.heap.phase.IsMarking := .inl hphase
    have hlost := hK.lost.tracing (fun _ => False.elim) htracing
    exact .of_marking (.inr rfl) ⟨hlost.strong, hlost.white, hlost.queued, hlost.stores⟩ hK.root
      (hmarked hp (htracing.marks hs hp))
  | finished hphase f =>
    have hp : c.heap.phase.IsMarking := .inr hphase
    have hp' := f.phase_marked hs hp
    have hlost := f.lost hmu hK.lost
      (fun t hdue => hdue.elim hK.root fun hor => hK.listed (hor.imp_right .inr))
      fun t ht => hmarked hp (f.marks hs hp) (.inr (.inl ((f.finishing.mem_doomed t).1 ht).1.1))
    refine .of_sweeping hd (by rw [heap, f.eq]; exact .inl rfl)
      (fun hv => hlost.strong (hv.inherited (f.inherits hs hp))) (fun {t} ht => ?_) (fun {t} hr => ?_)
      fun {t} hor ht => ?_
    · obtain ⟨e, he, hm⟩ := hlost.white ht.1
      refine ⟨{ e with awaits := true }, ?_, hm, rfl⟩
      have hslot := congrArg Slot.entity? (f.slot hs hp t)
      rw [Slot.mapEntity_entity?, he] at hslot
      exact hslot
    · have hgraph : (mu.graph m.program).root = (c.graph mu).root := by
        rw [f.program, f.finishing.root hmu, f.asks.graph hmu]
        rfl
      exact hK.root (hgraph ▸ hr)
    · exact hK.listed (f.listed_inv hs hp hor) ht
  | sweptStrings hphase =>
    have hp : c.heap.sweptStrings.phase.IsSweeping := by
      rw [Heap.phase, hs.cycle_sweptStrings]
      split
      · exact .inr rfl
      · exact .inl hphase
    refine .of_sweeping hd hp hK.lost.strong (fun ht => ?_) hK.root hK.listed
    obtain ⟨e, he, hm⟩ := hK.lost.white ht.1
    exact ⟨e, he, hm, hK.awaits (.inl hphase) ht.1 he⟩
  | swept hphase hsweeps =>
    have hp : c.heap.phase.IsSweeping := .inr hphase
    cases hsweeps with
    | @swept s' sweepCursor hsweeps =>
      refine .of_sweeping hd hp (fun hv => hK.lost.strong (hv.inherited hsweeps.inherits)) (fun {t} ht => ?_)
        hK.root fun {t} hor => hK.listed ?_
      · obtain ⟨e, he, hm⟩ := hK.lost.white ht.1
        rcases hsweeps.slot t with heq | ⟨-, heq⟩
        · exact ⟨e, heq ▸ he, hm, hK.awaits hp ht.1 he⟩
        · -- what the sweep has settled and was not marked is gone
          obtain ⟨x, hx⟩ := ht.2.1
          have hx : (s'.slot t).entity? = some x := hx
          rw [heq, Space.settled, show (c.machine.heap.space.slot t).entity? = _ from he, Option.bind_some,
            Entity.settle, hm] at hx
          cases hx
      · obtain ⟨hfixed, hidle, hpending, -⟩ := hsweeps.listed t
        exact hor.imp hfixed.mp (Or.imp hidle.mp hpending.mp)
    | finished hhuge hunswept =>
      refine .of_empty fun t ht => ?_
      obtain ⟨e, he, -⟩ := hK.lost.white ht.1
      have hawaits := hK.awaits hp ht.1 he
      rw [Space.awaits_eq_false hs.wf hhuge hunswept he] at hawaits
      cases hawaits

/-- Every step leaves what was abandoned so, except for what it frees or hands out. -/
theorem Abandoned.step (hmu : mu.Faithful) (hc : Valid mu config hashOf c) (hK : Abandoned mu c K)
    (hstep : Step mu c d) : Abandoned mu d (Rest mu K d) := by
  have hd := hc.step hmu hstep
  cases hstep with
  | act hact => exact hK.act hc hact
  | setThreshold threshold => exact hK.still rfl rfl rfl rfl
  | collect hp hrun =>
    exact hK.collect hmu hc hd (Machine.collects_singleStep hmu hc.sound hp hc.closed hrun)
  | finalize hp | complete hp =>
    refine .of_empty fun t ht => ?_
    rcases hK.phase ht.1 with hq | hq <;> rw [hp] at hq <;> exact absurd hq (by decide)

/-- An object is retained if it is reached from the roots, the fixed objects, and those that
are registered for finalization. -/
def Retained (mu : Mutator σ) (c : Stage σ) (r : Ref) : Prop :=
  (c.graph mu).Reaches c.space (fun t => (c.graph mu).root t ∨ (c.space.slot t).fixed ∨
    (c.space.slot t).idle ∨ (c.space.slot t).pending) r

/-- What is garbage when a cycle begins is abandoned. -/
theorem Abandoned.begins (hmu : mu.Faithful) (hc : Valid mu config hashOf c) (hp : c.heap.phase = .pause)
    (hcollects : Machine.Collects mu c.machine m) (hbegan : m.heap.phase ≠ .pause) :
    Abandoned mu ⟨m, nothing⟩ fun t => c.space.Holds t ∧ ¬ c.Retained mu t := by
  have hs := hc.sound
  have hno : ∀ {q : Phase}, q ≠ .pause → c.machine.heap.phase ≠ q := fun hq hphase => hq (hphase.symm.trans hp)
  cases hcollects with
  | blocked => exact absurd hp hbegan
  | propagated hphase | ready hphase | finished hphase | sweptStrings hphase | swept hphase =>
    exact absurd hphase (hno Phase.noConfusion)
  | began _ hasks htraces =>
    have hmarks := htraces.marks (hs.begins hp) (.inl rfl)
    have hgraph : graph mu ⟨m, nothing⟩ = c.graph mu := hasks.graph hmu
    have hlost : (c.graph mu).Lost (c.heap.clearCycle.enter .propagate)
        fun t => c.space.Holds t ∧ ¬ c.Retained mu t := .begins hs hp
    exact
      { lost := by
          rw [hgraph]
          exact hlost.traces (fun t hdue ht => ht.2 (.start (hdue.imp_right (Or.imp_right .inr)))) htraces
        root := fun hr ht => ht.2 (.start (.inl (hgraph ▸ hr)))
        listed := fun {t} hor ht => by
          have hadv := hmarks.advances
          rw [show (Stage.space ⟨m, nothing⟩).slot t = m.heap.space.slot t from rfl, hadv.fixed, hadv.idle,
            hadv.pending] at hor
          exact ht.2 (.start (.inr hor))
        hands := False.elim
        awaits := fun hsweeping => absurd hsweeping (Heap.Phase.not_isSweeping (.inl hmarks.phase))
        phase := fun _ => .inl (.inl hmarks.phase) }

/-- An object that is never handed out again is abandoned for as long as it is there. -/
theorem Abandoned.passes (hmu : mu.Faithful) (hc : Valid mu config hashOf c) (hK : Abandoned mu c K) (hr : K r)
    (hrun : Passes mu c l d) (hlive : ∀ e ∈ l, e.heap.isLive r = true)
    (hnever : ∀ after e before, l = after ++ e :: before → ¬ (e.graph mu).Reaches e.space e.hands r) :
    ∃ K', Abandoned mu d K' ∧ K' r := by
  induction hrun with
  | refl => exact ⟨K, hK, hr⟩
  | @step l d e hrun hstep ih =>
    obtain ⟨K', hK', hr'⟩ := ih (fun x hx => hlive x (List.mem_cons_of_mem _ hx))
      fun after x before heq => hnever (e :: after) x before (by rw [heq, List.cons_append])
    have hd := hc.passes hmu hrun
    refine ⟨_, hK'.step hmu hd hstep, hr', ?_, hnever [] e l rfl⟩
    exact (hd.step hmu hstep).sound.isLive_iff.1 (hlive e List.mem_cons_self)

/-- The cache retains the table and the function that it refers to, but not what is cached. -/
theorem retained_cache (hr : Stage.Retained Ledger.mutator ⟨Ledger.cache, nothing⟩ r) :
    r = .huge 5 ∨ r = .huge 8 := by
  refine hr.subset (P := fun r => r = .huge 5 ∨ r = .huge 8) (fun t ht => ?_) fun t v ht hv => ?_
  · rcases ht with ht | ht
    · exact .inl (List.mem_singleton.1 ht)
    · exact absurd ht (Ledger.unlisted (by decide +kernel) (by decide +kernel) (by decide +kernel)
        (by decide +kernel))
  · obtain ⟨e, -, hrefers, hholds⟩ := hv
    obtain ⟨-, ⟨x, hx, rfl⟩ | ⟨hkind, hv⟩⟩ := Ledger.refers_iff.1 hrefers
    · have hx : (t, x) ∈ [(Ref.huge 5, Ref.huge 8), (.huge 6, .huge 7)] := hx
      rcases List.mem_cons.1 hx with heq | hx
      · cases heq
        exact .inr rfl
      · cases List.mem_singleton.1 hx
        exact absurd ht (by decide)
    · obtain ⟨k, w, hmem, hv⟩ := Ledger.mem_entryVisits.1 hv
      have hmem : (t, k, w) = (Ref.huge 5, Ref.huge 5, Ref.huge 6) := List.mem_singleton.1 hmem
      cases hmem
      rcases hv with rfl | rfl
      · exact .inl rfl
      · -- the value is on the weak side, and it is not a string
        rw [hkind] at hholds
        rcases hholds with hweak | hstring
        · cases hweak
        · exact absurd hstring (by decide +kernel)

end Stage

end Tricolor
