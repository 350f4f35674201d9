import Tricolor.Proofs.Program.Tracking

/-!
# A full collection is exact

A full collection finishes the cycle in progress and runs another one. If the program does nothing
meanwhile, it succeeds, and `Since` follows the cycle from its beginning to its end: just the objects
that are spared are left. The strings among them stay linked, as every step `Fades` what was there, and
the heap counts just their bytes.
-/

namespace Tricolor

namespace Machine

variable {σ : Type} {mu : Mutator σ} {m₀ m m' : Machine σ} {config : Config} {hashOf : List UInt8 → Hash}

/-! ## The whole cycle -/

/-- A cycle that began at `m₀` has come to `m`: until the atomic step what is marked is tracked, after it
just what is spared will be left, and in the end the estimate is what is left. -/
structure Since (mu : Mutator σ) (m₀ m : Machine σ) : Prop where
  marking : m.heap.phase.IsMarking → Tracked mu m₀ m
  reclaiming : ¬ m.heap.phase.IsMarking → ∃ p, mu.Asks m₀.program p ∧
    ∀ r, m.heap.space.Survives r ↔ Spared mu m₀ p r
  estimate : m.heap.phase = .pause → m.heap.cycle.estimate = m.heap.space.total

/-- While objects are marked. -/
theorem Since.of_tracked (hp : m.heap.phase.IsMarking) (ht : Tracked mu m₀ m) : Since mu m₀ m where
  marking _ := ht
  reclaiming hnot := absurd hp hnot
  estimate hpause := by
    rw [hpause] at hp
    exact absurd hp (by decide)

/-- What will be left stays the same after the atomic step. -/
theorem Since.reclaims (h : Since mu m₀ m) (hp : ¬ m.heap.phase.IsMarking) (hp' : ¬ m'.heap.phase.IsMarking)
    (hsurvives : ∀ r, m'.heap.space.Survives r ↔ m.heap.space.Survives r)
    (hestimate : m'.heap.phase = .pause → m'.heap.cycle.estimate = m'.heap.space.total) : Since mu m₀ m' where
  marking hmarking := absurd hmarking hp'
  reclaiming _ := by
    obtain ⟨p, hasks, hspared⟩ := h.reclaiming hp
    exact ⟨p, hasks, fun r => (hsurvives r).trans (hspared r)⟩
  estimate := hestimate

/-- A cycle begins. -/
theorem Since.begins (hm₀ : Ready mu config hashOf m₀) (hmu : mu.Quiet) (hp : m₀.heap.phase = .pause)
    (hp' : m.heap.phase = .propagate) (hproceeds : Proceeds mu m₀ m) : Since mu m₀ m := by
  have hne : ∀ {q : Phase}, m₀.heap.phase = q → q = .pause := fun hq => hq.symm.trans hp
  cases hproceeds with
  | finalized hq | completed hq => exact Phase.noConfusion (hne hq)
  | collected _ hcollects =>
    have hundue := (hm₀.valid hmu.toFaithful).undue (.inl hp)
    cases hcollects with
    | blocked => exact Phase.noConfusion (hne hp')
    | began _ hasks htraces _ =>
      exact .of_tracked (.inl hp') (.begins (hm₀.sound hmu.toFaithful) hp hundue hasks htraces)
    | propagated hq | ready hq | finished hq | sweptStrings hq | swept hq => exact Phase.noConfusion (hne hq)

/-- Every step of the cycle leaves that so. -/
theorem Since.proceeds (hmu : mu.Quiet) (hundue : ∀ t, ¬ (m₀.heap.space.slot t).pending)
    (hm : Ready mu config hashOf m) (hp : m.heap.phase ≠ .pause) (h : Since mu m₀ m)
    (hproceeds : Proceeds mu m m') : Since mu m₀ m' := by
  have hs := hm.sound hmu.toFaithful
  cases hproceeds with
  | finalized hfinalize _ hrev =>
    have hnot : ¬ m.heap.phase.IsMarking := by
      rw [hfinalize]
      decide
    exact h.reclaims hnot hnot hrev.survives_taken fun hpause => absurd hpause hp
  | completed hfinalize =>
    have hnot : ¬ m.heap.phase.IsMarking := by
      rw [hfinalize]
      decide
    refine h.reclaims hnot (by decide : ¬ Phase.IsMarking .pause) (fun r => ?_) fun _ => rfl
    show m.heap.enterPause.space.Survives r ↔ _
    rw [Space.Survives, Space.Survives, (hs.enterPause hfinalize).2.slot]
  | collected _ hcollects =>
    cases hcollects with
    | blocked => exact h
    | began hpause => exact absurd hpause hp
    | propagated hphase hasks htracing =>
      have hphase' : m'.heap.phase.IsMarking := by
        rw [(htracing.marks hs (.inl hphase)).phase]
        exact .inl hphase
      exact .of_tracked hphase' ((h.marking (.inl hphase)).tracing hmu.toFaithful hs (.inl hphase) hasks htracing
        fun _ => False.elim)
    | @ready h' hphase htracing =>
      have ht : Tracked mu m₀ ⟨m.program, h'⟩ := (h.marking (.inl hphase)).tracing hmu.toFaithful hs
        (.inl hphase) .refl htracing fun _ => False.elim
      exact .of_tracked (.inr rfl)
        { asks := ht.asks
          advances := ht.advances
          lost := ⟨ht.lost.strong, ht.lost.white, ht.lost.queued, ht.lost.stores⟩
          tidy := ⟨ht.tidy.queued, ht.tidy.weakTables⟩ }
    | finished hphase f =>
      have hvalid := hm.valid hmu.toFaithful
      have hphase' : m'.heap.phase = .sweepStrings := by
        rw [f.eq]
        rfl
      have hspared := (h.marking (.inr hphase)).finish hmu.toFaithful f hundue hs (.inr hphase) hvalid.closed
        (hvalid.treated (.inr hphase))
      exact
        { marking := fun hmarking => by
            rw [hphase'] at hmarking
            exact absurd hmarking (by decide)
          reclaiming := fun _ => ⟨_, hspared⟩
          estimate := fun hpause => by
            rw [hphase'] at hpause
            exact Phase.noConfusion hpause }
    | sweptStrings hphase =>
      have hor := hs.bucketsLeft_lt hphase
      have hnot : ¬ m.heap.phase.IsMarking := by
        rw [hphase]
        decide
      have hnot' : ¬ m.heap.sweptStrings.phase.IsMarking ∧ m.heap.sweptStrings.phase ≠ .pause := by
        rcases hor with heq | ⟨heq, -⟩ <;> rw [heq] <;> decide
      exact h.reclaims hnot hnot'.1 (fun _ => Iff.rfl) fun hpause => absurd hpause hnot'.2
    | swept hphase hsweeps =>
      have hnot : ¬ m.heap.phase.IsMarking := by
        rw [hphase]
        decide
      cases hsweeps with
      | swept hsweeps => exact h.reclaims hnot hnot (fun _ => hsweeps.survives) fun hpause => absurd hpause hp
      | finished =>
        exact h.reclaims hnot (by decide : ¬ Phase.IsMarking .finalize) (fun _ => Iff.rfl) fun hpause =>
          Phase.noConfusion hpause

end Machine

/-! ## Strings -/

namespace Heap

variable {h h' h'' : Heap}

/-- `h'` came from `h` by steps that add nothing, and that unlink no string that they leave. -/
structure Fades (h h' : Heap) : Prop where
  survives : ∀ {r}, h'.space.Survives r → h.space.Survives r
  names : ∀ {bytes r}, h'.space.Survives r → (h'.Names bytes r ↔ h.Names bytes r)

theorem Fades.refl (h : Heap) : h.Fades h := ⟨id, fun _ => Iff.rfl⟩

theorem Fades.trans (h₁ : h.Fades h') (h₂ : h'.Fades h'') : h.Fades h'' where
  survives hr := h₁.survives (h₂.survives hr)
  names hr := (h₂.names hr).trans (h₁.names (h₂.survives hr))

/-- Steps that change neither the table nor a payload. -/
theorem Fades.of_recalls (hs : h.Sound) (hrecalls : h.Recalls h')
    (hsurvives : ∀ r, h'.space.Survives r → h.space.Survives r) : h.Fades h' where
  survives hr := hsurvives _ hr
  names hr := ⟨hrecalls.names_inv, fun hnames => (hrecalls.relinks hs).kept hnames hr⟩

/-- Once no sweep is pending, the strings that are left are linked if they were. -/
theorem Fades.linked_iff (hf : h.Fades h') (hs : h.Sound) (hs' : h'.Sound) (hp : ¬ h'.phase.IsSweeping) {r : Ref} :
    h'.Linked r ↔ h.Linked r ∧ h'.isLive r = true := by
  rw [hs'.linked_iff, hs.linked_iff, hs'.isLive_iff]
  constructor
  · rintro ⟨bytes, hr⟩
    obtain ⟨e, he, -⟩ := hs'.of_names hr
    exact ⟨⟨bytes, (hf.names (hs'.survives_of_holds hp ⟨e, he⟩)).1 hr⟩, e, he⟩
  · rintro ⟨⟨bytes, hr⟩, hholds⟩
    exact ⟨bytes, (hf.names (hs'.survives_of_holds hp hholds)).2 hr⟩

/-- The objects that are allocated, and their sizes, add up to the total. -/
theorem Sound.sizes (hs : h.Sound) : ∃ (objects : List Ref) (sizes : List Nat), objects.Nodup ∧
    (∀ r, r ∈ objects ↔ h.isLive r = true) ∧ objects.mapM h.objectSize = .ok sizes ∧ h.space.total = sizes.sum := by
  refine ⟨h.space.objects, h.space.objects.map h.space.sizeAt, Space.nodup_objects hs.wf, fun r => ?_,
    mapM_eq_ok fun r hr => ?_, (Space.sum_objects hs.wf).symm⟩
  · rw [Space.mem_objects hs.wf, hs.isLive_iff]
  · obtain ⟨e, he⟩ := (Space.mem_objects hs.wf).1 hr
    exact hs.objectSize_eq_ok_iff.2 ⟨e, he, by rw [Space.sizeAt, he]; rfl⟩

end Heap

namespace Machine

variable {σ : Type} {mu : Mutator σ} {m m' : Machine σ}

/-- A step of the collector makes no object. -/
theorem Collects.survives_inv (hs : m.heap.Sound) (h : Collects mu m m') {r : Ref}
    (hr : m'.heap.space.Survives r) : m.heap.space.Survives r := by
  -- without a pending sweep everything survives that is there
  have hholds : ¬ m.heap.phase.IsSweeping → m.heap.Recalls m'.heap → m.heap.space.Survives r := by
    intro hp hrecalls
    obtain ⟨x, hx⟩ := hr.holds
    obtain ⟨e, he, -⟩ := hrecalls.space r x hx
    exact hs.survives_of_holds hp ⟨e, he⟩
  rcases h.recalls hs with hrecalls | heq
  · by_cases hp : m.heap.phase.IsSweeping
    · cases h with
      | blocked => exact hr
      | began hq | propagated hq | ready hq | finished hq =>
        rw [hq] at hp
        exact absurd hp (by decide)
      | sweptStrings => exact hr
      | swept _ hsweeps =>
        cases hsweeps with
        | swept hsweeps => exact hsweeps.survives.1 hr
        | finished => exact hr
    · exact hholds hp hrecalls
  · rw [heq] at hr
    exact hr

/-- The steps of a cycle add nothing, and unlink no string that they leave. -/
theorem Proceeds.fades (hs : m.heap.Sound) (h : Proceeds mu m m') : m.heap.Fades m'.heap := by
  cases h with
  | collected _ hcollects =>
    exact ⟨hcollects.survives_inv hs, fun hr => ⟨hcollects.names_inv hs, fun hnames =>
      (hcollects.relinks hs).kept hnames hr⟩⟩
  | finalized _ _ hrev =>
    exact .of_recalls hs ⟨rfl, rfl, .taken hrev⟩ fun r => (hrev.survives_taken r).1
  | completed hp =>
    have hslot := (hs.enterPause hp).2.slot
    refine .of_recalls hs ⟨rfl, rfl, .of_slot hslot⟩ fun r hr => ?_
    rw [Space.Survives, hslot] at hr
    exact hr

end Machine

namespace Stage

variable {σ : Type} {mu : Mutator σ} {config : Config} {hashOf : List UInt8 → Hash} {c : Stage σ}

/-- When the program does nothing any more, collections can be carried out. -/
theorem Reachable.ready (hmu : mu.Faithful) (hc : Reachable mu config hashOf c)
    (htrace : c.heap.cycle.traceActive = false) (hsteps : config.stringsPerStep ≤ maxWord / sweepStringCost) :
    Machine.Ready mu config hashOf c.machine where
  reachable := hc.step (.act (.forget fun _ => False.elim))
  inactive := htrace
  stringsPerStep := (hc.stringsPerStep hmu).symm ▸ hsteps

/-- A full collection is exact. If no compiled trace runs and the program does nothing meanwhile, the
collection succeeds: it finishes the cycle in progress, whatever its phase is, and then runs a complete
cycle from `m₀` on. What is allocated in the end is just what `Machine.Spared` says: what is reached,
over the strong references of the program when that cycle begins, from the roots, the fixed objects and
the registered objects that are not reached from those and need their finalizers. The linked strings
are those that are left, and the total and the estimate are the sum of the sizes of what is left. -/
theorem full_collection_is_exact (hmu : mu.Quiet) (hc : Reachable mu config hashOf c)
    (htrace : c.heap.cycle.traceActive = false) (hsteps : config.stringsPerStep ≤ maxWord / sweepStringCost) :
    ∃ n m₀ p m,
      (∀ fuel, n ≤ fuel → c.machine.finishCycle mu fuel = .ok (.ok (), m₀) ∧
        c.machine.fullCollect mu fuel = .ok (.ok (), m)) ∧
      m₀.heap.phase = .pause ∧ m.heap.phase = .pause ∧ mu.Asks m₀.program p ∧
      (∀ r, m.heap.isLive r = true ↔ Machine.Spared mu m₀ p r) ∧
      (∀ r, m.heap.Linked r ↔ c.heap.Linked r ∧ m.heap.isLive r = true) ∧
      ∃ (survivors : List Ref) (sizes : List Nat), survivors.Nodup ∧
        (∀ r, r ∈ survivors ↔ m.heap.isLive r = true) ∧ survivors.mapM m.heap.objectSize = .ok sizes ∧
        m.heap.stats.total = sizes.sum ∧ m.heap.stats.estimate = sizes.sum := by
  have hready := hc.ready hmu.toFaithful htrace hsteps
  -- the cycle in progress is finished
  obtain ⟨m₀, hfinishes₀⟩ := hready.finishes hmu
  obtain ⟨hm₀, hp₀, hfades₀⟩ := @Machine.Finishes.induction _ _ _ _ _ _ (fun m => c.heap.Fades m.heap) hmu
    hfinishes₀ hready (.refl _) fun m m₁ hm _ hfades hproceeds =>
      hfades.trans (hproceeds.fades (hm.sound hmu.toFaithful))
  -- another one begins
  obtain ⟨m₁, hstart, hp₁⟩ := hm₀.starts hmu hp₀
  obtain ⟨hproceeds₁, hm₁⟩ := hm₀.next hmu hstart
  have hundue := (hm₀.valid hmu.toFaithful).undue (.inl hp₀)
  -- and is finished
  obtain ⟨m, hfinishes⟩ := hm₁.finishes hmu
  obtain ⟨hm, hp, hsince, hfades⟩ := @Machine.Finishes.induction _ _ _ _ _ _
    (fun m => Machine.Since mu m₀ m ∧ c.heap.Fades m.heap) hmu hfinishes hm₁
    ⟨.begins hm₀ hmu hp₀ hp₁ hproceeds₁, hfades₀.trans (hproceeds₁.fades (hm₀.sound hmu.toFaithful))⟩
    fun m m' hm hne ⟨hsince, hfades⟩ hproceeds => ⟨hsince.proceeds hmu hundue hm hne hproceeds,
      hfades.trans (hproceeds.fades (hm.sound hmu.toFaithful))⟩
  obtain ⟨n₀, hn₀⟩ := hfinishes₀.finishCycle
  obtain ⟨n, hn⟩ := hfinishes.finishCycle
  have hs := hm.sound hmu.toFaithful
  have hnosweep : ¬ m.heap.phase.IsSweeping := by
    rw [hp]
    decide
  obtain ⟨p, hasks, hspared⟩ := hsince.reclaiming (by rw [hp]; decide)
  obtain ⟨survivors, sizes, hnodup, hmem, hsizes, htotal⟩ := hs.sizes
  refine ⟨max n₀ n, m₀, p, m, fun fuel hfuel => ?_, hp₀, hp, hasks, fun r => ?_, fun r => ?_, survivors, sizes,
    hnodup, hmem, hsizes, htotal, (hsince.estimate hp).trans htotal⟩
  · have hrun₀ := hn₀ fuel ((le_max_left _ _).trans hfuel)
    refine ⟨hrun₀, ?_⟩
    rw [Machine.fullCollect, hready.inactive]
    exact bind_eq_ok_iff.2 ⟨_, hrun₀, bind_eq_ok_iff.2 ⟨_, hstart, hn fuel ((le_max_right _ _).trans hfuel)⟩⟩
  · rw [hs.isLive_iff]
    exact (Iff.intro (hs.survives_of_holds hnosweep) Space.Survives.holds).trans (hspared r)
  · exact hfades.linked_iff ((hc.valid hmu.toFaithful).sound) hs hnosweep

end Stage

/-! ## Ledgers -/

namespace Ledger

/-- The graph of a ledger changes only when its tables are cleared, and its finalizers do nothing. -/
theorem quiet : mutator.Quiet :=
  { faithful with
    clears := fun {l t isDead} hdead => by
      have hside : ∀ {isWeak v}, v ∈ l.entryVisits t → ∃ dead, deadSide isWeak isDead v.target = .ok dead := by
        intro isWeak v hv
        rw [deadSide]
        split
        · exact hdead v (refers_iff.2 ⟨rfl, .inr ⟨rfl, hv⟩⟩)
        · exact ⟨false, rfl⟩
      have hstays : ∀ e ∈ l.entries, ∃ stay, stays (l.mode t) t isDead e = .ok stay := by
        rintro ⟨x, k, w⟩ hmem
        rw [stays]
        split
        · next heq =>
          obtain rfl : x = t := heq
          obtain ⟨deadKey, hkey⟩ := @hside (l.mode x).weakKeys _ (mem_entryVisits.2 ⟨k, w, hmem, .inl rfl⟩)
          obtain ⟨deadValue, hvalue⟩ := @hside (l.mode x).weakValues _ (mem_entryVisits.2 ⟨k, w, hmem, .inr rfl⟩)
          exact ⟨_, bind_eq_ok_iff.2 ⟨_, hkey, bind_eq_ok_iff.2 ⟨_, hvalue, rfl⟩⟩⟩
        · exact ⟨true, rfl⟩
      choose! stay hstay using hstays
      exact ⟨_, bind_eq_ok_iff.2 ⟨_, filterM_eq_ok hstay, rfl⟩⟩
    finalizers := fun program h r => ⟨program, rfl, rfl⟩ }

end Ledger

namespace Stage

/-- A full collection leaves the table of the cache and the function that it refers to, but not what is
cached. -/
theorem full_collection_of_cache : ∃ n m,
    (∀ fuel, n ≤ fuel → Ledger.cache.fullCollect Ledger.mutator fuel = .ok (.ok (), m)) ∧
      Ledger.cache.heap.isLive (.huge 6) = true ∧ m.heap.isLive (.huge 6) = false ∧
      m.heap.isLive (.huge 5) = true ∧ m.heap.isLive (.huge 8) = true := by
  obtain ⟨n, m₀, p, m, hruns, -, -, -, hlive, -⟩ := full_collection_is_exact Ledger.quiet Ledger.cache_reachable
    (by decide +kernel) (by decide +kernel)
  -- no cycle is in progress
  obtain rfl : Ledger.cache = m₀ := by
    have hpause : Ledger.cache.finishCycle Ledger.mutator (n + 1) = .ok (.ok (), Ledger.cache) :=
      if_pos (by decide +kernel)
    have hrun := (hruns (n + 1) (Nat.le_succ n)).1
    rw [show (⟨Ledger.cache, nothing⟩ : Stage Ledger).machine = Ledger.cache from rfl, hpause] at hrun
    cases hrun
    rfl
  have htable : Machine.Spared Ledger.mutator Ledger.cache p (.huge 5) :=
    .start (.inl (.inl (List.mem_singleton.2 rfl)))
  obtain ⟨e, he, hkind⟩ := (Option.any_eq_true _ _).1
    (show (Ledger.cache.heap.space.slot (.huge 5)).entity?.any (fun e => !e.header.kind.isLeaf) = true by decide +kernel)
  have hfunction : Machine.Spared Ledger.mutator Ledger.cache p (.huge 8) :=
    htable.step (Ledger.strong_slot List.mem_cons_self he (Bool.not_eq_true' _ ▸ hkind))
  refine ⟨n, m, fun fuel hfuel => (hruns fuel hfuel).2, by decide +kernel, Bool.eq_false_iff.2 fun hcached => ?_,
    (hlive _).2 htable, (hlive _).2 hfunction⟩
  have hretained : Retained Ledger.mutator ⟨Ledger.cache, nothing⟩ (.huge 6) :=
    ((hlive _).1 hcached).trans fun t ht => .start (by
      rcases ht with hanchored | ⟨hlisted, -⟩
      · exact hanchored.imp_right .inl
      · exact .inr (.inr hlisted))
  exact absurd (retained_cache hretained) (by decide)

end Stage

end Tricolor
