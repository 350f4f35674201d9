import Tricolor.Proofs.Cycle.Work

/-!
# What waits to be traversed

Only grey objects are queued, which are marked and no leaves. The queue of an arena has the cells of objects,
and an entry is not taken back when its object is freed. It is skipped as long as nothing is placed at the
cell, but if an object is, then it is popped in the place of the one that was freed. So whatever is popped has
been marked since it was allocated, or was placed where the queue already had an entry. The queue of the huge
blocks has no such entries.
-/

namespace Tricolor

namespace Space

variable {s s' s'' : Space} {r : Ref} {r? : Option Ref} {v : Slot} {e x : Entity} {rs : List Ref}
  {isFinalizable : Ref → Bool}

/-- Only grey objects are queued: an object that waits in `s'` is marked and no leaf, or its place waited in
`s`, and if an object was there it was of the same kind. -/
def QueuesGrey (s s' : Space) : Prop :=
  ∀ t x, (s'.slot t).entity? = some x → (s'.slot t).queued →
    (x.marked = true ∧ x.header.kind.isLeaf = false) ∨
      (s.slot t).queued ∧ ∀ e, (s.slot t).entity? = some e → x.header.kind = e.header.kind

theorem QueuesGrey.of_slot (h : s'.slot = s.slot) : s.QueuesGrey s' := fun t x hx hq => by
  rw [h] at hx hq
  refine .inr ⟨hq, fun e he => ?_⟩
  cases hx.symm.trans he
  rfl

theorem QueuesGrey.of_quiet (h : ∀ t, ¬ (s'.slot t).queued) : s.QueuesGrey s' := fun t _ _ hq => absurd hq (h t)

/-- Marking goes on from where only grey objects were queued. -/
theorem QueuesGrey.trans (h : s.QueuesGrey s') (hadv : s'.Advances s'') (h' : s'.QueuesGrey s'') :
    s.QueuesGrey s'' := fun t y hy hq => by
  refine (h' t y hy hq).elim .inl fun ⟨hq', hkind⟩ => ?_
  obtain ⟨x, hx⟩ := hadv.holds.1 ⟨y, hy⟩
  obtain ⟨marked, hy', hmarked⟩ := hadv.entity hx
  cases hy.symm.trans hy'
  exact (h t x hx hq').imp_left fun hgrey => ⟨hmarked hgrey.1, hgrey.2⟩

/-- A change of one slot that does not queue it. -/
theorem QueuesGrey.revise (hrev : s.Revises s' r v) (hqueued : v.queued → (s.slot r).queued)
    (hkind : ∀ x e, v.entity? = some x → (s.slot r).entity? = some e → x.header.kind = e.header.kind) :
    s.QueuesGrey s' := fun t x hx hq => by
  by_cases ht : t = r
  · subst ht
    rw [hrev.slot_self] at hx hq
    exact .inr ⟨hqueued hq, fun e he => hkind x e hx he⟩
  · rw [hrev.slot_ne ht] at hx hq
    refine .inr ⟨hq, fun e he => ?_⟩
    cases hx.symm.trans he
    rfl

/-- An object is changed, but neither its kind nor that it waits or not. -/
theorem QueuesGrey.modify (he : (s.slot r).entity? = some e) (hrev : s.Revises s' r v) (hx : v.entity? = some x)
    (hkind : x.header.kind = e.header.kind) (hqueued : v.queued → (s.slot r).queued) : s.QueuesGrey s' :=
  .revise hrev hqueued fun y z hy hz => by
    cases hx.symm.trans hy
    cases he.symm.trans hz
    exact hkind

theorem QueuesGrey.shades (h : s.Shades rs s') : s.QueuesGrey s' := fun t x hx hq => by
  rw [h.slot] at hx hq
  split at hx
  · next ht =>
    rw [if_pos ht, Slot.shade_queued] at hq
    rw [Slot.shade_entity?] at hx
    obtain ⟨e, he, rfl⟩ := Option.map_eq_some_iff.1 hx
    rcases hq with hq | ⟨y, hy, -, hleaf⟩
    · refine .inr ⟨hq, fun y hy => ?_⟩
      cases he.symm.trans hy
      rfl
    · cases he.symm.trans hy
      exact .inl ⟨rfl, hleaf⟩
  · next ht =>
    rw [if_neg ht] at hq
    refine .inr ⟨hq, fun e he => ?_⟩
    cases hx.symm.trans he
    rfl

theorem QueuesGrey.popped (h : s.Popped r? s') : s.QueuesGrey s' := fun t x hx hq => by
  rw [h.slot] at hx
  refine .inr ⟨h.queued t hq, fun e he => ?_⟩
  cases hx.symm.trans he
  rfl

theorem QueuesGrey.selects (h : s.Selects isFinalizable s') : s.QueuesGrey s' := fun t x hx hq => by
  rw [h.queued] at hq
  obtain ⟨y, hy, ⟨hkind, -⟩, -⟩ := (h t).entity_inv hx
  refine .inr ⟨hq, fun e he => ?_⟩
  cases hy.symm.trans he
  exact hkind

/-- The queue of the huge blocks has no entries but those of objects. -/
theorem Wf.holds_of_queued (h : s.Wf) (hr : r.isHuge = true) (hq : (s.slot r).queued) : s.Holds r := by
  rw [slot_of_isHuge hr] at hq
  obtain ⟨b, hb, -⟩ := h.grey.1 hq
  refine ⟨s.entityOf b, ?_⟩
  rw [slot_of_isHuge hr]
  exact Option.map_eq_some_iff.2 ⟨b, hb, rfl⟩

end Space

/-! ## What is queued by operations -/

namespace Heap

variable {h h' : Heap} {r : Ref} {e x : Entity}

theorem Appears.queuesGrey {kind : Kind} {size : Nat} {s' : Space} (ha : Appears h.space r kind size s' e) :
    h.space.QueuesGrey s' :=
  .revise ha.revises id fun y z _ hz => by
    rw [ha.vacant] at hz
    cases hz

theorem Records.queuesGrey (hrec : h.Records r h') : h.space.QueuesGrey h'.space := by
  cases hrec with
  | pushed => exact .of_slot rfl
  | drained _ hshades => exact .shades hshades

theorem Forwards.queuesGrey {recorded : Heap → Prop} (hx : (h.space.slot r).entity? = some x)
    (hrecorded : recorded h' → h.space.QueuesGrey h'.space) (hf : h.Forwards e x r recorded h') :
    h.space.QueuesGrey h'.space := by
  cases hf with
  | idle => exact .of_slot rfl
  | marking _ hrec => exact hrecorded hrec
  | sweeping _ _ hrev => exact .modify hx hrev rfl rfl id

/-- A container that turns white and is recorded is not queued by that, or it is marked again. -/
theorem Regreys.queuesGrey (he : (h.space.slot r).entity? = some e) (hg : h.Regreys e r h') :
    h.space.QueuesGrey h'.space := by
  cases hg with
  | idle => exact .of_slot rfl
  | @greyed s _ _ hrev _ hrec =>
    have hgreyed : h.space.QueuesGrey s := .modify he hrev rfl rfl id
    cases hrec with
    | pushed => exact hgreyed
    | drained _ hshades => exact hgreyed.trans hshades.advances (.shades hshades)

theorem Interns.queuesGrey {bytes : List UInt8} (hi : h.Interns bytes r h') : h.space.QueuesGrey h'.space := by
  cases hi with
  | found => exact .of_slot rfl
  | revived _ he _ _ hrev =>
    rw [Slot.mapEntity_of_some he] at hrev
    exact .modify he hrev rfl rfl id
  | linked ha => exact ha.queuesGrey

/-- No operation that resizes nothing queues what is not grey. -/
theorem Operation.queuesGrey (hs : h.Sound) (hop : Operation noResizing h h') : h.space.QueuesGrey h'.space := by
  cases hop with
  | @alloc _ _ _ result _ hfresh hrun =>
    obtain ⟨s, rfl, herror, hok⟩ := alloc_eq_ok hs hfresh hrun
    cases result with
    | error error => exact .of_slot (herror error rfl).slot
    | ok r =>
      obtain ⟨e, ha⟩ := hok r rfl
      exact ha.queuesGrey
  | @intern _ _ result _ hfresh hrun =>
    obtain ⟨herror, hok⟩ := intern_eq_ok hs hfresh hrun
    cases result with
    | error error =>
      obtain ⟨s, rfl, halike⟩ := herror error rfl
      exact .of_slot halike.slot
    | ok r => exact (hok r rfl).queuesGrey
  | free _ hrun => exact .revise (free_eq_ok hs hrun).2.revises And.left fun y z hy => nomatch hy
  | @realloc _ _ _ _ result _ _ hfresh hrun hallowed =>
    obtain ⟨e, -, hr⟩ := realloc_eq_ok hs hfresh hrun
    cases hr with
    | refused halike => exact .of_slot halike.slot
    | resized | moved => exact (hallowed _ rfl).elim
  | writePayload _ hfits hrun =>
    obtain ⟨e, content, s, he, -, rfl, hrev⟩ := writePayload_eq_ok hs hfits hrun
    exact .modify he hrev rfl rfl id
  | fix _ hrun =>
    obtain ⟨e, s, he, rfl, hrev⟩ := fix_eq_ok hs hrun
    exact .modify he hrev rfl rfl id
  | registerFinalizer _ hrun =>
    obtain ⟨e, s, he, rfl, hrev⟩ := registerFinalizer_eq_ok hs hrun
    split at hrev
    · exact .modify he hrev he rfl id
    · exact .modify he hrev rfl rfl id
  | barrierForward hwriter hreferent hrun =>
    obtain ⟨e, he, -⟩ := hs.live_iff.1 hwriter
    obtain ⟨x, hx, -⟩ := hs.live_iff.1 hreferent
    exact (barrierForward_eq_ok hs he hx hrun).2.queuesGrey hx Records.queuesGrey
  | barrierBack hcontainer hrun =>
    obtain ⟨e, he, -⟩ := hs.live_iff.1 hcontainer
    exact (barrierBack_eq_ok hs he hrun).2.queuesGrey he
  | barrierSlot hwriter hreferent hrun =>
    obtain ⟨e, he, -⟩ := hs.live_iff.1 hwriter
    obtain ⟨x, hx, -⟩ := hs.live_iff.1 hreferent
    refine (barrierSlot_eq_ok hs he hx hrun).2.queuesGrey hx fun hrec => ?_
    obtain ⟨s, rfl, hshades⟩ := hrec
    exact .shades hshades
  | setTraceActive | setPause | setStepMultiplier => exact .of_slot rfl

end Heap

/-! ## What is queued by the collector -/

namespace Machine

variable {σ : Type} {mu : Mutator σ} {m m' : Machine σ} {r : Ref} {cost : Nat} {config : Config}
  {hashOf : List UInt8 → Hash} {before : List (Machine σ)}

theorem shades_traverse (hwf : m.heap.space.Wf) (hrun : m.traverse mu r = .ok (cost, m')) :
    ∃ rs, m.heap.space.Shades rs m'.heap.space := by
  obtain ⟨header, -, hrun⟩ := bind_eq_ok_iff.1 hrun
  obtain ⟨s, hvisit, hret⟩ := bind_eq_ok_iff.1 hrun
  cases hret
  exact Space.foldlM_visit_eq_ok hwf hvisit

/-- Popping an object and traversing it. -/
theorem queuesGrey_traverse (hwf : m.heap.space.Wf) {source : GreySource} {s : Space}
    (hpop : m.heap.space.popGrey source = .ok (some r, s))
    (hrun : Machine.traverse mu { m with heap := { m.heap with space := s } } r = .ok (cost, m')) :
    m.heap.space.QueuesGrey m'.heap.space := by
  have hpopped := Space.popGrey_eq_ok hwf hpop
  obtain ⟨rs, hshades⟩ := shades_traverse hpopped.wf hrun
  exact (Space.QueuesGrey.popped hpopped).trans hshades.advances (.shades hshades)

/-- The loops of the marking queue only grey objects. -/
theorem stable_queuesGrey {h₀ : Heap} (hp : h₀.phase.IsMarking) :
    Stable mu fun m => h₀.Marks m.heap ∧ h₀.space.QueuesGrey m.heap.space where
  drain {m h} hm hrun := by
    obtain ⟨hmarks, hgrey⟩ := hm
    have hstable : Stable mu _ := stable_marks hp
    refine ⟨hstable.drain hmarks hrun, ?_⟩
    rw [Heap.drainIfAny_eq] at hrun
    obtain ⟨-, s, hshades, rfl⟩ := Heap.drainStores_eq_ok hmarks.sound hrun
    exact hgrey.trans hshades.advances (.shades hshades)
  exhaust {m source s} hm hpop := by
    have hstable : Stable mu _ := stable_marks hp
    have hpopped := Space.popGrey_eq_ok hm.1.sound.wf hpop
    exact ⟨hstable.exhaust hm.1 hpop, hm.2.trans hpopped.advances (.popped hpopped)⟩
  traverse {m m' source r s cost} hm hpop hrun := by
    obtain ⟨hmarks, hgrey⟩ := hm
    have hpopped := Space.popGrey_eq_ok hmarks.sound.wf hpop
    obtain ⟨rs, hshades⟩ := shades_traverse hpopped.wf hrun
    exact ⟨(stable_marks hp).traverse hmarks hpop hrun,
      hgrey.trans (hpopped.advances.trans hshades.advances) (queuesGrey_traverse hmarks.sound.wf hpop hrun)⟩

theorem Propagates.queuesGrey (hs : m.heap.Sound) (hp : m.heap.phase.IsMarking) (h : Propagates mu m m') :
    m.heap.space.QueuesGrey m'.heap.space := by
  have hstable : Stable mu _ := stable_queuesGrey hp
  have hstart : m.heap.Marks m.heap ∧ m.heap.space.QueuesGrey m.heap.space := ⟨.refl hs, .of_slot rfl⟩
  cases h with
  | ready hdrain => exact (hstable.drain hstart hdrain).2
  | batch hdrain _ hrun => exact (hstable.traverseBatch (hstable.drain hstart hdrain) hrun).2

/-- Every step of a run queues only grey objects. -/
theorem Step.queuesGrey (hs : m.heap.Sound) (hstep : Step mu Heap.noResizing m m') :
    m.heap.space.QueuesGrey m'.heap.space := by
  have hs' : m'.heap.Sound := (Step.keeps hs hstep).sound
  -- outside the marking nothing waits
  by_cases hp' : m'.heap.phase.IsMarking
  swap
  · exact .of_quiet (hs'.quiet hp')
  cases hstep with
  | compute | setThreshold => exact .of_slot rfl
  | operate hop => exact hop.queuesGrey hs
  | collect _ hrun =>
    cases singleStep_eq_ok hrun with
    | blocked => exact .of_slot rfl
    | started hpause hstart =>
      obtain ⟨s, rfl, -, hshades, -⟩ := startCycle_eq_ok hs hpause hstart
      exact .shades hshades
    | propagated hp hstep => exact (propagateStep_eq_ok hstep).queuesGrey hs (.inl hp)
    | finished hp hstep =>
      have hphase := (atomicStep_eq_ok hs hp hstep).2
      exact absurd (hphase ▸ hp') (by decide)
    | sweptStrings _ hstep =>
      rw [Heap.sweepStringsStep_eq_ok hstep]
      exact .of_slot rfl
    | swept hp hstep =>
      obtain ⟨_, _, hstep', hsweeps⟩ := Heap.sweepStep_spec hs hp
      rw [hstep] at hstep'
      cases hstep'
      cases hsweeps with
      | swept => exact absurd hp (Phase.IsMarking.ne hp' (by decide))
      | finished => exact .of_slot rfl
    | finalized hp => exact absurd hp ‹_›
  | finalize hp => exact absurd hp (Phase.IsMarking.ne hp' (by decide))
  | complete => exact absurd (show Phase.IsMarking .pause from hp') (by decide)

/-- So does every piece of work in the midst of a step. -/
theorem Works.sound_queuesGrey (hs : m.heap.Sound) (hp : m.heap.phase.IsMarking) (hworks : Works mu m m') :
    m'.heap.Sound ∧ m.heap.space.QueuesGrey m'.heap.space := by
  cases hworks with
  | stepped hrun =>
    have hstep : Step mu Heap.noResizing m m' := .collect (hp.ne (by decide)) hrun
    exact ⟨(hstep.keeps hs).sound, hstep.queuesGrey hs⟩
  | drained _ hrun =>
    obtain ⟨-, s, hshades, rfl⟩ := Heap.drainStores_eq_ok hs hrun
    exact ⟨(Heap.Marks.drained hs hp hrun).1.sound, .shades hshades⟩
  | exhausted _ hpop =>
    have hpopped := Space.popGrey_eq_ok hs.wf hpop
    exact ⟨(Heap.Marks.popped hs hpopped).sound, .popped hpopped⟩
  | traversed _ hpop hrun =>
    exact ⟨((stable_marks hp).traverse (.refl hs) hpop hrun).sound, queuesGrey_traverse hs.wf hpop hrun⟩
  | rooted _ hrun =>
    obtain ⟨s, rfl, hshades, -⟩ := markRoots_eq_ok hs.wf (fun t ht => hs.listed t (ht.imp_right .inr)) hrun
    exact ⟨(Heap.Marks.shades hs hp hshades).sound, .shades hshades⟩
  | selected _ hselect =>
    obtain ⟨_, _, hselect', hwf, hunswept, hhuge, hselected, -, -⟩ :=
      Space.selectFinalizers_spec hs.wf (mu.isFinalizable m.program) fun t ht => hs.listed t (.inr (.inl ht))
    rw [hselect] at hselect'
    cases hselect'
    have hs' := hs.selects hp hwf hunswept hhuge hselected
    exact ⟨hs'.congr rfl rfl rfl rfl rfl rfl rfl hs.config, .selects hselected⟩
  | sorted => exact ⟨hs.setWeakTables _, .of_slot rfl⟩
  | cleared => exact ⟨hs, .of_slot rfl⟩
  | doomed _ hmark =>
    have hshades := (Space.foldlM_mark_eq_ok hs.wf hmark).2
    exact ⟨(Heap.Marks.shades hs hp hshades).sound, .shades hshades⟩

/-! ## Histories -/

/-- The machines before `m` in a run that leads to it, the last one first. The run may have stopped in the midst
of a step that marks objects. -/
inductive History (mu : Mutator σ) (config : Config) (hashOf : List UInt8 → Hash) :
    List (Machine σ) → Machine σ → Prop where
  | initial (program : σ) {h : Heap} : Heap.withConfig config hashOf = .ok (.ok h) →
      History mu config hashOf [] ⟨program, h⟩
  | step {before : List (Machine σ)} {m m' : Machine σ} : History mu config hashOf before m →
      Step mu Heap.noResizing m m' → History mu config hashOf (m :: before) m'
  | works {before : List (Machine σ)} {m m' : Machine σ} : History mu config hashOf before m →
      m.heap.phase.IsMarking → Works mu m m' → History mu config hashOf (m :: before) m'

/-- The machines from the last one back to the first one that had the object at a place. -/
def since (r : Ref) (l : List (Machine σ)) : List (Machine σ) := l.takeWhile (·.heap.isLive r)

/-- The machine before the object was allocated. -/
def prior? (r : Ref) (l : List (Machine σ)) : Option (Machine σ) := (l.dropWhile (·.heap.isLive r)).head?

/-- The object has been marked at some time since it was allocated. -/
def MarkedSince (r : Ref) (l : List (Machine σ)) : Prop := ∃ m ∈ since r l, m.heap.space.isMarked r = .ok true

/-- The place of an object has been queued ever since it was allocated, and was queued before. -/
structure Leftover (r : Ref) (l : List (Machine σ)) : Prop where
  queued : ∀ m ∈ since r l, (m.heap.space.slot r).queued
  prior : ∃ m, prior? r l = some m ∧ (m.heap.space.slot r).queued

theorem since_of_live (hr : m.heap.isLive r = true) : since r (m :: before) = m :: since r before :=
  List.takeWhile_cons_of_pos hr

theorem since_of_not_live (hr : ¬ m.heap.isLive r = true) : since r (m :: before) = [] :=
  List.takeWhile_cons_of_neg hr

theorem prior?_of_live (hr : m.heap.isLive r = true) : prior? r (m :: before) = prior? r before :=
  congrArg List.head? (List.dropWhile_cons_of_pos hr)

theorem prior?_of_not_live (hr : ¬ m.heap.isLive r = true) : prior? r (m :: before) = some m := by
  rw [prior?, List.dropWhile_cons_of_neg (by exact hr)]
  rfl

theorem MarkedSince.cons (h : MarkedSince r before) (hr : m.heap.isLive r = true) : MarkedSince r (m :: before) := by
  obtain ⟨n, hn, hmarked⟩ := h
  refine ⟨n, ?_, hmarked⟩
  rw [since_of_live hr]
  exact List.mem_cons_of_mem m hn

theorem Leftover.cons (h : Leftover r before) (hr : m.heap.isLive r = true) (hq : (m.heap.space.slot r).queued) :
    Leftover r (m :: before) where
  queued n hn := by
    rw [since_of_live hr] at hn
    rcases List.mem_cons.1 hn with rfl | hn
    · exact hq
    · exact h.queued n hn
  prior := by
    rw [prior?_of_live hr]
    exact h.prior

/-- An object is placed where the queue has an entry. -/
theorem Leftover.placed (hr : ¬ m.heap.isLive r = true) (hq : (m.heap.space.slot r).queued)
    (hr' : m'.heap.isLive r = true) (hq' : (m'.heap.space.slot r).queued) : Leftover r (m' :: m :: before) where
  queued n hn := by
    rw [since_of_live hr', since_of_not_live hr] at hn
    rw [List.mem_singleton.1 hn]
    exact hq'
  prior := by
    rw [prior?_of_live hr', prior?_of_not_live hr]
    exact ⟨m, rfl, hq⟩

/-- Whatever waits is no leaf and has been marked since it was allocated, or is in an arena and left over. -/
def Accounted (before : List (Machine σ)) (m : Machine σ) : Prop :=
  ∀ t e, (m.heap.space.slot t).entity? = some e → (m.heap.space.slot t).queued →
    (e.header.kind.isLeaf = false ∧ MarkedSince t (m :: before)) ∨ t.isHuge = false ∧ Leftover t (m :: before)

/-- It stays so while only grey objects are queued. -/
theorem Accounted.next (hs : m.heap.Sound) (hs' : m'.heap.Sound) (hm : Accounted before m)
    (hgrey : m.heap.space.QueuesGrey m'.heap.space) : Accounted (m :: before) m' := by
  intro t x hx hq
  have hlive : m'.heap.isLive t = true := hs'.isLive_iff.2 ⟨x, hx⟩
  rcases hgrey t x hx hq with ⟨hmarked, hleaf⟩ | ⟨hqueued, hkind⟩
  · refine .inl ⟨hleaf, m', ?_, by rw [Space.isMarked_eq hs'.wf hx, hmarked]⟩
    rw [since_of_live hlive]
    exact List.mem_cons_self
  cases he : (m.heap.space.slot t).entity? with
  | some e =>
    refine (hm t e he hqueued).imp (fun hor => ?_) fun hor => ⟨hor.1, hor.2.cons hlive hq⟩
    rw [hkind e he]
    exact ⟨hor.1, hor.2.cons hlive⟩
  | none =>
    -- the object was placed where an entry had been left
    have hnot : ¬ m.heap.isLive t = true := fun hheld => by
      obtain ⟨e, he'⟩ := hs.isLive_iff.1 hheld
      cases he.symm.trans he'
    refine .inr ⟨Bool.eq_false_iff.2 fun hhuge => ?_, .placed hnot hqueued hlive hq⟩
    exact hnot (hs.isLive_iff.2 (hs.wf.holds_of_queued hhuge hqueued))

theorem History.accounted (h : History mu config hashOf before m) : m.heap.Sound ∧ Accounted before m := by
  induction h with
  | initial program hh =>
    obtain ⟨hs, -, -, -, hblank⟩ := Heap.sound_of_withConfig hh
    refine ⟨hs, fun t e he _ => ?_⟩
    rw [hblank] at he
    cases he
  | step _ hstep ih =>
    have hs' := (hstep.keeps ih.1).sound
    exact ⟨hs', ih.2.next ih.1 hs' (hstep.queuesGrey ih.1)⟩
  | works _ hp hworks ih =>
    obtain ⟨hs', hgrey⟩ := hworks.sound_queuesGrey ih.1 hp
    exact ⟨hs', ih.2.next ih.1 hs' hgrey⟩

/-- The loops of the marking pass through machines that have a history, so that what a history accounts for is
accounted for at each of their pops. -/
theorem stable_history :
    Stable mu fun m => m.heap.phase.IsMarking ∧ ∃ before, History mu config hashOf before m where
  drain {m h} hm hrun := by
    obtain ⟨hp, before, hm⟩ := hm
    rw [Heap.drainIfAny_eq] at hrun
    have hphase := (Heap.Marks.drained hm.accounted.1 hp hrun).1.phase
    exact ⟨hphase ▸ hp, _, hm.works hp (.drained hp hrun)⟩
  exhaust {m source s} hm hpop := by
    obtain ⟨hp, before, hm⟩ := hm
    exact ⟨hp, _, hm.works hp (.exhausted hp hpop)⟩
  traverse {m m' source r s cost} hm hpop hrun := by
    obtain ⟨hp, before, hm⟩ := hm
    have hphase := ((stable_marks hp).traverse (.refl hm.accounted.1) hpop hrun).phase
    exact ⟨hphase ▸ hp, _, hm.works hp (.traversed hp hpop hrun)⟩

/-- An object that is popped to be traversed is allocated. It is no leaf and has been marked since it was
allocated, unless it is in an arena whose queue still had an entry for an object that had been freed, and the
new object was placed at its cell. -/
theorem popped_objects_were_marked_or_left_over {source : GreySource} {s : Space}
    (hm : History mu config hashOf before m) (hpop : m.heap.space.popGrey source = .ok (some r, s)) :
    ∃ kind, m.heap.kind r = .ok kind ∧ ((kind.isLeaf = false ∧ MarkedSince r (m :: before)) ∨
      r.isHuge = false ∧ Leftover r (m :: before)) := by
  obtain ⟨hs, haccounted⟩ := hm.accounted
  obtain ⟨⟨e, he⟩, hq⟩ := (Space.popGrey_eq_ok hs.wf hpop).found r rfl
  exact ⟨e.header.kind, hs.kind_eq he, haccounted r e he hq⟩

/-- A table in a block of its own is a root when a cycle begins, and is popped in the next step. -/
theorem rooted_block_popped_once_marked : ∃ (before : List (Machine Ledger)) (m : Machine Ledger) (s : Space),
    m.heap.space.popGrey .huge = .ok (some (.huge 5), s) ∧ m.heap.kind (.huge 5) = .ok .table ∧
      MarkedSince (.huge 5) (m :: before) := by
  let config : Config := { hugeThreshold := 1 }
  let start := answerOf (Heap.build config fun _ => 0) (by decide +kernel)
  have hstart : Heap.withConfig config (fun _ => 0) = .ok (.ok start) := rfl
  let rooted : Ledger := { roots := [.huge 5] }
  obtain ⟨placed, begun, s, hplaced, hbegun, hp, hpop, hkind⟩ :
      ∃ (placed : Heap) (begun : Except CollectError Nat × Machine Ledger) (s : Space),
        start.alloc (.page 5) .table 24 = .ok (.ok (.huge 5), placed) ∧
        singleStep Ledger.mutator ⟨rooted, placed⟩ = .ok begun ∧ placed.phase ≠ .finalize ∧
        begun.2.heap.space.popGrey .huge = .ok (some (.huge 5), s) ∧ begun.2.heap.kind (.huge 5) = .ok .table :=
    ⟨_, _, _, eq_answerOf_of_fst (by decide +kernel) (by decide +kernel), eq_answerOf (by decide +kernel),
      by decide +kernel, eq_answerOf_of_fst (by decide +kernel) (by decide +kernel), by decide +kernel⟩
  have hoperate : Heap.Operation Heap.noResizing start placed :=
    .alloc (Supply.page_fresh (by decide) rfl (by decide +kernel) 0) hplaced
  have hhistory := (((History.initial {} hstart).step (.operate hoperate)).step (.compute rooted)).step
    (.collect hp hbegun)
  obtain ⟨kind, hkind', hor⟩ := popped_objects_were_marked_or_left_over hhistory hpop
  exact ⟨_, _, s, hpop, hkind, (hor.resolve_right fun hleft => nomatch hleft.1).2⟩

end Machine

end Tricolor
