import Tricolor.Proofs.Program.Acts

/-!
# What marks promise

Two invariants tie the marks of a heap to the references of its program. A graph is `Closed` if
the roots outlive the pending sweep, and so does whatever a surviving object refers to, on weak
sides too. While objects are being marked it is `Treated`: what a traversed object refers to is
marked or recorded, and a traversed weak table is remembered. Acts keep both.
-/

namespace Tricolor

namespace Graph

variable {g g' : Graph} {s s' : Space} {h h' : Heap} {r : Ref} {v : Visit}

/-- Roots outlive the pending sweep, and so does what survivors refer to. -/
structure Closed (g : Graph) (s : Space) : Prop where
  root : ∀ {r}, g.root r → s.Survives r
  edge : ∀ {r v}, s.Survives r → g.Edge s r v → s.Survives v.target

/-- A graph stays closed while no object that outlives the sweep is lost, and no other one does. -/
theorem Closed.congr (hclosed : g.Closed s) (hsurvives : ∀ r, s'.Survives r ↔ s.Survives r)
    (hinherits : s.Inherits s') : g.Closed s' where
  root hroot := (hsurvives _).2 (hclosed.root hroot)
  edge hr hv := (hsurvives _).2 (hclosed.edge ((hsurvives _).1 hr) (hv.inherited hinherits))

/-- What traversed objects refer to is noted, and the weak tables among them are remembered. -/
structure Treated (g : Graph) (h : Heap) : Prop where
  noted : ∀ {r v}, h.space.Black r → ¬ (h.space.slot r).queued → g.Strong h.space r v → h.Noted v.target
  weak : ∀ {r e}, (h.space.slot r).entity? = some e → e.marked = true → ¬ (h.space.slot r).queued →
    g.mode r e.header.kind ≠ .none → r ∈ h.cycle.weakTables

end Graph

namespace Stage

variable {σ : Type} {mu : Mutator σ} {c d : Stage σ} {used fresh gone : Ref → Prop} {r t : Ref}
  {stored : Ref → Ref → Prop}

namespace Effect

/-- An object that was there was not made just now. -/
theorem not_fresh (he : Effect mu c d used fresh gone stored) (hr : c.space.Holds r) : ¬ fresh r := by
  intro hfresh
  obtain ⟨e, hentity⟩ := hr
  rw [show (c.space.slot r).entity? = none from (he.alters.made hfresh).1] at hentity
  cases hentity

/-- An object that is there was not freed. -/
theorem not_gone (he : Effect mu c d used fresh gone stored) (hr : d.space.Holds r) : ¬ gone r := by
  intro hgone
  obtain ⟨x, hx⟩ := hr
  rw [show (d.space.slot r).entity? = none from he.alters.freed hgone] at hx
  cases hx

/-- A survivor stays one, unless it is freed. -/
theorem survives (he : Effect mu c d used fresh gone stored) (hr : c.space.Survives r) (hgone : ¬ gone r) :
    d.space.Survives r := by
  have hfresh := he.not_fresh hr.holds
  obtain ⟨e, hentity, hsurvives⟩ := hr
  obtain ⟨x, hx, -, -, hs, -⟩ := (he.alters.stays hfresh hgone).entity hentity
  exact ⟨x, hx, hs hsurvives⟩

/-- What an object that is still there refers to was not freed. -/
theorem target_not_gone (he : Effect mu c d used fresh gone stored) {v : Visit} (hr : d.space.Holds r)
    (hv : (c.graph mu).Edge c.space r v) : ¬ gone v.target := by
  intro hgone
  refine (he.unreferred hgone).2 r v ?_ hv rfl
  rintro rfl
  exact he.not_gone hr hgone

/-- What is at hand after an act outlives the sweep. -/
theorem hands (he : Effect mu c d used fresh gone stored) (hs : c.heap.Sound)
    (hclosed : (c.graph mu).Closed c.space) (hhands : ∀ t, c.hands t → c.space.Survives t) :
    ∀ t, d.hands t → d.space.Survives t := by
  intro t ht
  obtain ⟨hgone, hor⟩ := he.obtains ht
  cases hor with
  | kept ht => exact he.survives (hhands t ht) hgone
  | read hreads =>
    refine he.survives ?_ hgone
    cases hreads with
    | root hroot => exact hclosed.root hroot
    | fixed hfixed => exact (hs.admits t).listed (.inl hfixed)
    | referent hx hv => exact hclosed.edge (hhands _ hx) hv
  | made hfresh =>
    obtain ⟨-, ⟨x, hx, hsurvives, -⟩, -⟩ := he.alters.made hfresh
    exact ⟨x, hx, hsurvives⟩
  | interned _ hsurvives => exact hsurvives
  | @strengthened y v hy hv htarget =>
    subst htarget
    rcases he.follows.edge hv with hold | hstored
    · exact he.survives (hclosed.edge (hhands y hy) hold) hgone
    · exact he.survives (hhands _ (he.stores hstored).2.1) hgone

/-- An object with references that survives after an act survived before. -/
theorem survived (he : Effect mu c d used fresh gone stored) (hs : c.heap.Sound) (hmu : mu.Faithful)
    (hhands : ∀ t, c.hands t → c.space.Survives t) {v : Visit} (hr : d.space.Survives r)
    (hv : (c.graph mu).Edge c.space r v) : c.space.Survives r := by
  have hgone := he.not_gone hr.holds
  obtain ⟨x, hx, hsurvives⟩ := hr
  obtain ⟨e, hentity, hrefers⟩ := hv
  obtain ⟨y, hy, -, -, -, hback⟩ := (he.alters.stays (he.not_fresh ⟨e, hentity⟩) hgone).entity hentity
  rw [show (d.heap.space.slot r).entity? = some x from hx] at hy
  cases hy
  rcases hback hsurvives with hold | hused | hrecorded
  · exact ⟨e, hentity, hold⟩
  · -- only a string is revived, and it has no references
    rcases he.uses (.inl hused) with hhand | ⟨-, hstring⟩
    · exact hhands r hhand
    · rw [Space.isString, hentity, Option.any_some, decide_eq_true_iff] at hstring
      have hleaf := hmu.leaf hrefers
      rw [hstring] at hleaf
      cases hleaf
  · -- objects are recorded while they are being marked, and then nothing awaits a sweep
    have hp : c.heap.phase.IsMarking := by
      by_contra hp
      rw [hs.stores hp] at hrecorded
      exact Array.not_mem_empty r hrecorded
    exact hs.survives_of_holds (Heap.Phase.not_isSweeping hp) ⟨e, hentity⟩

/-- Acts keep the graph closed. -/
theorem closed (he : Effect mu c d used fresh gone stored) (hs : c.heap.Sound) (hmu : mu.Faithful)
    (hclosed : (c.graph mu).Closed c.space) (hhands : ∀ t, c.hands t → c.space.Survives t) :
    (d.graph mu).Closed d.space where
  root {r} hroot := by
    have hgone : ¬ gone r := fun hgone => (he.unreferred hgone).1 hroot
    rcases he.follows.root hroot with hold | hhand
    · exact he.survives (hclosed.root hold) hgone
    · exact he.survives (hhands r hhand) hgone
  edge {r v} hr hv := by
    rcases he.follows.edge hv with hold | hstored
    · exact he.survives (hclosed.edge (he.survived hs hmu hhands hr hold) hold)
        (he.target_not_gone hr.holds hold)
    · exact he.survives (hhands _ (he.stores hstored).2.1) (he.stores hstored).2.2

/-- An object that has been traversed by the end of an act, and is no leaf, had been before. -/
theorem traversed (he : Effect mu c d used fresh gone stored) (hp : c.heap.phase.IsMarking) {x : Entity}
    (hx : (d.space.slot r).entity? = some x) (hm : x.marked = true) (hq : ¬ (d.space.slot r).queued)
    (hleaf : x.header.kind.isLeaf = false) :
    ∃ e, (c.space.slot r).entity? = some e ∧ e.header.kind = x.header.kind ∧ e.marked = true ∧
      ¬ (c.space.slot r).queued := by
  have hfresh : ¬ fresh r := fun hfresh => by
    obtain ⟨-, ⟨y, hy, -, hwhite⟩, -⟩ := he.alters.made hfresh
    rw [show (d.heap.space.slot r).entity? = some x from hx] at hy
    cases hy
    rw [hwhite hp] at hm
    cases hm
  have hstays := he.alters.stays hfresh (he.not_gone ⟨x, hx⟩)
  rcases hstays.traversed hp hx hm hq with hor | ⟨e, hentity, hmarked, hqueued⟩
  · rw [hleaf] at hor
    cases hor
  · obtain ⟨y, hy, hres, -⟩ := hstays.entity hentity
    rw [show (d.heap.space.slot r).entity? = some x from hx] at hy
    cases hy
    exact ⟨e, hentity, hres.kind.symm, hmarked, hqueued⟩

/-- The weak mode of a traversed object has not changed. -/
theorem mode (he : Effect mu c d used fresh gone stored) (hp : c.heap.phase.IsMarking) {x : Entity}
    (hx : (d.space.slot r).entity? = some x) (hm : x.marked = true) (hq : ¬ (d.space.slot r).queued)
    (hr : c.space.Holds r) : (d.graph mu).mode r x.header.kind = (c.graph mu).mode r x.header.kind := by
  by_cases hstored : ∃ t, stored r t
  · obtain ⟨t, hstored⟩ := hstored
    have htable := (he.barrier hp hstored ⟨x, hx, hm⟩ hq).2 x hx
    rw [Graph.mode_of_ne_table htable, Graph.mode_of_ne_table htable]
  · exact he.follows.mode hr hx fun t ht => hstored ⟨t, ht⟩

/-- Acts keep the promise of the marks. -/
theorem treated (he : Effect mu c d used fresh gone stored) (hs : c.heap.Sound) (hmu : mu.Faithful)
    (hclosed : (c.graph mu).Closed c.space) (hp : c.heap.phase.IsMarking)
    (htreated : (c.graph mu).Treated c.heap) : (d.graph mu).Treated d.heap where
  noted {r v} hblack hq hstrong := by
    obtain ⟨x, hx, hv, hholds⟩ := hstrong
    have hm : x.marked = true := by
      obtain ⟨y, hy, hm⟩ := hblack
      rw [hx] at hy
      cases hy
      exact hm
    obtain ⟨e, hentity, hkind, hmarked, hqueued⟩ := he.traversed hp hx hm hq (hmu.leaf hv)
    rcases he.follows.edge ⟨x, hx, hv⟩ with hold | hstored
    · have hgone := he.target_not_gone ⟨x, hx⟩ hold
      have htarget := (hclosed.edge (hs.survives_of_holds (Heap.Phase.not_isSweeping hp) ⟨e, hentity⟩) hold).holds
      have hmode := he.mode hp hx hm hq ⟨e, hentity⟩
      obtain ⟨e', he', hrefers⟩ := hold
      rw [hentity] at he'
      cases he'
      refine he.alters.noted hp hgone (htreated.noted ⟨e, hentity, hmarked⟩ hqueued ⟨e, hentity, hrefers, ?_⟩)
      rw [Graph.Holds, hkind, ← hmode]
      exact hholds.imp_right (isString_of_alters he.alters htarget)
    · exact (he.barrier hp hstored hblack hq).1
  weak {r x} hx hm hq hmode := by
    have htable : x.header.kind = .table := by
      by_contra hne
      exact hmode (Graph.mode_of_ne_table hne)
    obtain ⟨e, hentity, hkind, hmarked, hqueued⟩ := he.traversed hp hx hm hq (by rw [htable]; rfl)
    refine he.alters.weakTables (htreated.weak hentity hmarked hqueued ?_) (he.not_gone ⟨x, hx⟩)
    rw [hkind, ← he.mode hp hx hm hq ⟨e, hentity⟩]
    exact hmode

end Effect

end Stage

end Tricolor
