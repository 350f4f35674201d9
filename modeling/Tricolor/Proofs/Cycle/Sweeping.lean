import Tricolor.Collector
import Tricolor.Proofs.Heap.Operation

/-!
# Sweeping

The sweep first drops the links of unmarked strings, bucket by bucket, then settles the
objects arena by arena: what is marked stays and is white again, what is not is gone. Each
step settles only objects that await it, so an object that outlives the sweep is never lost.
-/

namespace Tricolor

namespace Space

variable {s s' : Space} {t : Ref} {e : Entity}

/-- Some of the objects that await the sweep have met it. -/
structure Sweeps (s s' : Space) : Prop where
  wf : s'.Wf
  slot : ∀ t, s'.slot t = s.slot t ∨
    (∀ e, (s.slot t).entity? = some e → e.awaits = true) ∧ s'.slot t = settled (s.slot t)

theorem Sweeps.refl (h : s.Wf) : s.Sweeps s := ⟨h, fun _ => .inl rfl⟩

/-- An object that outlives the sweep is still there, and nothing else of it changed. -/
theorem Sweeps.entity (h : s.Sweeps s') (he : (s.slot t).entity? = some e) (hsurvives : e.survives = true) :
    ∃ marked awaits, (s'.slot t).entity? = some { e with marked, awaits } ∧
      Entity.survives { e with marked, awaits } = true ∧ (awaits = false → marked = false ∨ e.awaits = false) := by
  rcases h.slot t with heq | ⟨hawaits, heq⟩
  · exact ⟨e.marked, e.awaits, by rw [heq]; exact he, hsurvives, .inr⟩
  · have hm : e.marked = true := by
      rw [Entity.survives, hawaits e he, Bool.not_true, Bool.or_false] at hsurvives
      exact hsurvives
    refine ⟨false, false, ?_, rfl, fun _ => .inl rfl⟩
    rw [heq]
    show (s.slot t).entity?.bind Entity.settle = _
    rw [he, Option.bind_some, Entity.settle, if_pos hm]

/-- What is there after the sweep was there before. -/
theorem Sweeps.entity_inv {x : Entity} (h : s.Sweeps s') (hx : (s'.slot t).entity? = some x) :
    ∃ e, (s.slot t).entity? = some e ∧ x.header = e.header ∧ x.size = e.size ∧ x.content = e.content ∧
      (x = e ∨ x.marked = false ∧ x.awaits = false) := by
  rcases h.slot t with heq | ⟨-, heq⟩
  · rw [heq] at hx
    exact ⟨x, hx, rfl, rfl, rfl, .inl rfl⟩
  · rw [heq] at hx
    obtain ⟨e, he, hsettle⟩ := Option.bind_eq_some_iff.1 hx
    rw [Entity.settle] at hsettle
    split at hsettle
    · cases hsettle
      exact ⟨e, he, rfl, rfl, rfl, .inr ⟨rfl, rfl⟩⟩
    · cases hsettle

theorem Sweeps.listed (h : s.Sweeps s') (t : Ref) : (s'.slot t).fixed = (s.slot t).fixed ∧
    (s'.slot t).idle = (s.slot t).idle ∧ (s'.slot t).pending = (s.slot t).pending ∧
    (s'.slot t).queued = (s.slot t).queued := by
  rcases h.slot t with heq | ⟨-, heq⟩
  · rw [heq]
    exact ⟨rfl, rfl, rfl, rfl⟩
  · rw [heq]
    exact ⟨rfl, rfl, rfl, rfl⟩

/-- Sweeping an arena. -/
theorem sweepArena_sweeps (h : s.Wf) (hs : s.Sweepable) {i : Nat} (hi : i < s.arenas.size) :
    ∃ freed s', s.sweepArena i = .ok (freed, s') ∧ s.Sweeps s' ∧ s'.hugeNeedsSweep = s.hugeNeedsSweep ∧
      s'.arenas.size = s.arenas.size ∧ ∀ j, s'.unswept j = if i = j then false else s.unswept j := by
  obtain ⟨freed, s', hrun, hwf, hsize, hhuge, hunswept, hat, hother⟩ := sweepArena_spec h hs hi
  refine ⟨freed, s', hrun, ⟨hwf, fun t => ?_⟩, hhuge, hsize, hunswept⟩
  by_cases hcond : s.AtIndex i t ∧ s.unswept i = true
  · refine .inr ⟨fun e he => ?_, hat t hcond.1 hcond.2⟩
    obtain ⟨j, hj, -, haw⟩ := awaits_small h hcond.1.1 he
    have hij : i = j := Option.some.inj (hcond.1.2.symm.trans hj.2)
    rw [haw, ← hij]
    exact hcond.2
  · exact .inl (hother t hcond)

/-- Sweeping the huge blocks. -/
theorem sweepHuge_sweeps (h : s.Wf) (hs : s.Sweepable) (hawaits : s.hugeNeedsSweep = true) :
    ∃ freed s', s.sweepHuge = .ok (freed, s') ∧ s.Sweeps s' ∧ s'.hugeNeedsSweep = false ∧
      s'.arenas = s.arenas := by
  obtain ⟨freed, s', hrun, hwf, harenas, -, hhuge, hslot⟩ := sweepHuge_spec h hs
  refine ⟨freed, s', hrun, ⟨hwf, fun t => ?_⟩, hhuge, harenas⟩
  rw [hslot]
  split
  · next ht => exact .inr ⟨fun e he => (awaits_huge ht he).trans hawaits, rfl⟩
  · exact .inl rfl

/-- A sweep spares what survives, and nothing else. -/
theorem Sweeps.survives (h : s.Sweeps s') : s'.Survives t ↔ s.Survives t := by
  constructor
  · rintro ⟨x, hx, hsurvives⟩
    rcases h.slot t with heq | ⟨-, heq⟩
    · rw [heq] at hx
      exact ⟨x, hx, hsurvives⟩
    · rw [heq] at hx
      obtain ⟨e, he, hsettle⟩ := Option.bind_eq_some_iff.1 hx
      rw [Entity.settle] at hsettle
      split at hsettle
      · next hm => exact ⟨e, he, by rw [Entity.survives, hm, Bool.true_or]⟩
      · cases hsettle
  · rintro ⟨e, he, hsurvives⟩
    obtain ⟨marked, awaits, hx, hsurvives, -⟩ := h.entity he hsurvives
    exact ⟨_, hx, hsurvives⟩

/-- Taking a finalizer that is due neither frees nor makes an object. -/
theorem Revises.survives_taken (h : s.Revises s' r (s.slot r).taken) (t : Ref) :
    s'.Survives t ↔ s.Survives t := by
  by_cases ht : t = r
  · subst ht
    rw [Survives, Survives, h.slot_self, Slot.taken, Slot.mapEntity_entity?]
    constructor
    · rintro ⟨x, hx, hsurvives⟩
      obtain ⟨e, he, rfl⟩ := Option.map_eq_some_iff.1 hx
      exact ⟨e, he, hsurvives⟩
    · rintro ⟨e, he, hsurvives⟩
      exact ⟨_, Option.map_eq_some_iff.2 ⟨e, he, rfl⟩, hsurvives⟩
  · rw [Survives, Survives, h.slot_ne ht]

end Space

namespace Heap

variable {h h' : Heap} {s' : Space} {cost : Nat}

theorem Sound.sweepable (hs : h.Sound) (hp : ¬ h.phase.IsMarking) : h.space.Sweepable where
  quiet := hs.quiet hp
  listed t ht := (hs.admits t).listed ht

/-! ## Sweeping the strings -/

/-- The heap after the next buckets of the intern table were swept. -/
def sweptStrings (h : Heap) : Heap :=
  let survives (r : Ref) : Bool := match h.space.survives r with
    | .ok answer => answer
    | .error _ => true
  let (next, _, strings) := h.strings.sweep h.cycle.stringsCursor h.config.stringsPerStep survives
  let cycle := { h.cycle with stringsCursor := next }
  { h with
    strings
    cycle := if strings.bucketCount ≤ next then { cycle with sweepCursor := .current, phase := .sweep }
      else cycle }

/-- The links of dead strings in the swept buckets are gone. -/
theorem Sound.links_sweptStrings (hs : h.Sound) {hash : Hash} {t : Ref} :
    (hash, t) ∈ h.sweptStrings.strings.links ↔ (hash, t) ∈ h.strings.links ∧
      (h.strings.Swept h.cycle.stringsCursor h.config.stringsPerStep
        (InternTable.bucketOf h.strings.bucketCount hash) →
          ∃ e, (h.space.slot t).entity? = some e ∧ e.survives = true) := by
  refine ((InternTable.sweep_spec hs.strings _ _ _).2.2.2 (hash, t)).trans ?_
  refine and_congr_right fun hmem => imp_congr_right fun _ => ?_
  obtain ⟨e, he, -⟩ := hs.linked hmem
  simp only [Space.survives_eq hs.wf he]
  refine ⟨fun hsurvives => ⟨e, he, hsurvives⟩, ?_⟩
  rintro ⟨x, hx, hsurvives⟩
  rw [he] at hx
  cases hx
  exact hsurvives

theorem sweepStringsStep_eq_ok (hrun : h.sweepStringsStep = .ok (cost, h')) : h' = h.sweptStrings := by
  rw [sweepStringsStep] at hrun
  obtain ⟨_, -, hrun⟩ := bind_eq_ok_iff.1 hrun
  obtain ⟨_, -, hret⟩ := bind_eq_ok_iff.1 hrun
  cases hret
  rfl

/-- The bucket at which the sweep of the strings goes on. -/
def nextBucket (h : Heap) : Nat := h.strings.sweepEnd h.cycle.stringsCursor h.config.stringsPerStep

/-- The sweep of the strings goes on with the next buckets, or the sweep of the space begins. -/
theorem Sound.cycle_sweptStrings (hs : h.Sound) :
    h.sweptStrings.cycle = if h.strings.bucketCount ≤ h.nextBucket then
        { h.cycle with stringsCursor := h.nextBucket, sweepCursor := .current, phase := .sweep }
      else { h.cycle with stringsCursor := h.nextBucket } := by
  obtain ⟨-, hnext, hbuckets, -⟩ := InternTable.sweep_spec hs.strings h.cycle.stringsCursor
    h.config.stringsPerStep fun r => match h.space.survives r with
      | .ok answer => answer
      | .error _ => true
  rw [Heap.sweptStrings]
  simp only [hnext, InternTable.bucketCount, hbuckets]
  rfl

theorem Sound.bucketCount_sweptStrings (hs : h.Sound) :
    h.sweptStrings.strings.bucketCount = h.strings.bucketCount :=
  (InternTable.sweep_spec hs.strings h.cycle.stringsCursor h.config.stringsPerStep fun r =>
    match h.space.survives r with
    | .ok answer => answer
    | .error _ => true).2.2.1

/-- What is still linked survives, or its bucket is still to come. -/
theorem Sound.linked_sweptStrings (hs : h.Sound) {hash : Hash} {t : Ref}
    (hmem : (hash, t) ∈ h.sweptStrings.strings.links) :
    ∃ e, (h.space.slot t).entity? = some e ∧ e.header.kind = .str ∧ h.hashOf e.payload = hash ∧
      (e.survives = true ∨ h.nextBucket ≤ InternTable.bucketOf h.strings.bucketCount hash) := by
  obtain ⟨hold, hswept⟩ := hs.links_sweptStrings.1 hmem
  obtain ⟨e, he, hk, hh, hor⟩ := hs.linked hold
  refine ⟨e, he, hk, hh, ?_⟩
  rcases hor with hsurvives | ⟨-, hle⟩
  · exact .inl hsurvives
  · by_cases hlt : InternTable.bucketOf h.strings.bucketCount hash < h.nextBucket
    · obtain ⟨x, hx, hsurvives⟩ := hswept ⟨hle, hlt⟩
      rw [he] at hx
      cases hx
      exact .inl hsurvives
    · exact .inr (not_lt.1 hlt)

/-- Sweeping strings keeps a heap sound. -/
theorem Sound.sweptStrings (hs : h.Sound) (hp : h.phase = .sweepStrings) : h.sweptStrings.Sound := by
  have hwf := (InternTable.sweep_spec hs.strings h.cycle.stringsCursor h.config.stringsPerStep fun r =>
    match h.space.survives r with
    | .ok answer => answer
    | .error _ => true).1
  have hcycle := hs.cycle_sweptStrings
  have hhuge := hs.flags.huge (.inl hp)
  have hnot : ¬ h.phase.IsMarking := by
    rw [hp]
    decide
  have hadmits : ∀ (p : Phase) (t : Ref), p.Admits (h.space.slot t) := fun p t =>
    (hs.admits t).mono fun hmarking => absurd hmarking hnot
  by_cases hdone : h.strings.bucketCount ≤ h.nextBucket
  · rw [if_pos hdone] at hcycle
    have hphase : h.sweptStrings.phase = .sweep := by rw [Heap.phase, hcycle]
    exact
      { wf := hs.wf
        admits := hadmits _
        strings := hwf
        linked := fun {hash t} hmem => by
          obtain ⟨e, he, hk, hh, hor⟩ := hs.linked_sweptStrings hmem
          refine ⟨e, he, hk, hh, .inl (hor.resolve_right fun hle => ?_)⟩
          have := InternTable.bucketOf_lt hs.strings.buckets_pos hash
          exact absurd (lt_of_lt_of_le this hdone) (not_lt.2 hle)
        flags := by
          rw [hcycle]
          exact
            { idle := fun hidle => absurd (.inr rfl) hidle
              huge := fun _ => hhuge
              passed := fun _ start hc => by cases hc }
        stores := fun _ => hs.stores hnot
        config := hs.config }
  · rw [if_neg hdone] at hcycle
    have hphase : h.sweptStrings.phase = .sweepStrings := by
      rw [Heap.phase, hcycle]
      exact hp
    exact
      { wf := hs.wf
        admits := hadmits _
        strings := hwf
        linked := fun {hash t} hmem => by
          obtain ⟨e, he, hk, hh, hor⟩ := hs.linked_sweptStrings hmem
          refine ⟨e, he, hk, hh, hor.imp_right fun hle => ⟨hphase, ?_⟩⟩
          rw [hcycle, hs.bucketCount_sweptStrings]
          exact hle
        flags := by
          rw [hcycle]
          exact hs.flags.congr rfl rfl rfl rfl
        stores := fun _ => hs.stores hnot
        config := hs.config }

/-! ## Sweeping the space -/

/-- A step of the sweep keeps a heap sound. -/
theorem Sound.sweeps (hs : h.Sound) (hp : h.phase = .sweep) {sweepCursor : SweepCursor}
    (hsweeps : h.space.Sweeps s')
    (hflags : Cycle.Agrees { h.cycle with sweepCursor } s') :
    Sound { h with space := s', cycle := { h.cycle with sweepCursor } } := by
  have hnot : ¬ h.phase.IsMarking := by
    rw [hp]
    decide
  refine
    { wf := hsweeps.wf
      admits := fun t => ?_
      strings := hs.strings
      linked := fun {hash t} hmem => ?_
      flags := hflags
      stores := hs.stores
      config := hs.config }
  · have hv := hs.admits t
    obtain ⟨hfixed, hidle, hpending, hqueued⟩ := hsweeps.listed t
    exact
      { size := fun {x} hx => by
          obtain ⟨e, he, hheader, hsize, -⟩ := hsweeps.entity_inv hx
          rw [hheader, hsize]
          exact hv.size he
        fixed := fun {x} hx => by
          obtain ⟨e, he, hheader, -⟩ := hsweeps.entity_inv hx
          rw [hheader]
          exact (iff_of_eq hfixed).trans (hv.fixed he)
        registered := fun {x} hx => by
          obtain ⟨e, he, hheader, -⟩ := hsweeps.entity_inv hx
          rw [hheader]
          exact (or_congr (iff_of_eq hidle) (iff_of_eq hpending)).trans (hv.registered he)
        listed := fun hor => by
          obtain ⟨e, he, hsurvives⟩ := hv.listed (hor.imp hfixed.mp (Or.imp hidle.mp hpending.mp))
          obtain ⟨b, c, he', hsurvives', -⟩ := hsweeps.entity he hsurvives
          exact ⟨_, he', hsurvives'⟩
        queued := fun hq => hv.queued (hqueued.mp hq)
        marked := fun {x} hx hm => by
          obtain ⟨e, he, -, -, -, rfl | ⟨hwhite, -⟩⟩ := hsweeps.entity_inv hx
          · exact hv.marked he hm
          · rw [hwhite] at hm
            cases hm }
  · obtain ⟨e, he, hk, hh, hor⟩ := hs.linked hmem
    have hsurvives : e.survives = true := hor.resolve_right fun ⟨hq, _⟩ => by
      rw [hp] at hq
      cases hq
    obtain ⟨b, c, he', hsurvives', -⟩ := hsweeps.entity he hsurvives
    exact ⟨_, he', hk, hh, .inl hsurvives'⟩

/-- What one step of the sweep does. -/
inductive SweepsOn (h : Heap) : Heap → Prop where
  | swept {s' : Space} {sweepCursor : SweepCursor} : h.space.Sweeps s' →
      Sound { h with space := s', cycle := { h.cycle with sweepCursor } } →
      SweepsOn h { h with space := s', cycle := { h.cycle with sweepCursor } }
  | finished : h.space.hugeNeedsSweep = false → (∀ i, h.space.unswept i = false) →
      SweepsOn h (h.enter .finalize)

/-- The sweep goes on with the current arena, then the huge blocks, then arena by arena. -/
theorem sweepStep_spec (hs : h.Sound) (hp : h.phase = .sweep) :
    ∃ cost h', h.sweepStep = .ok (cost, h') ∧ h.SweepsOn h' := by
  have hsweepable := hs.sweepable (by rw [hp]; decide)
  rw [sweepStep]
  cases hcursor : h.cycle.sweepCursor with
  | current =>
    have hhuge := hs.flags.huge (.inr ⟨hp, .inl hcursor⟩)
    have hnext : ∀ {s' : Space}, h.space.Sweeps s' → s'.hugeNeedsSweep = true →
        h.SweepsOn { h with space := s', cycle := { h.cycle with sweepCursor := .huge } } := by
      intro s' hsweeps hhuge'
      refine .swept hsweeps (hs.sweeps hp hsweeps
        { idle := fun hidle => absurd (.inr hp) hidle
          huge := fun _ => hhuge'
          passed := fun _ start hc => by cases hc })
    cases hcurrent : h.space.current with
    | none => exact ⟨_, _, rfl, hnext (.refl hs.wf) hhuge⟩
    | some i =>
      obtain ⟨freed, s', hrun, hsweeps, hsame, -⟩ :=
        Space.sweepArena_sweeps hs.wf hsweepable (hs.wf.current i hcurrent)
      refine ⟨sweepArenaCost, _, ?_, hnext hsweeps (hsame.trans hhuge)⟩
      simp only [hrun]
      rfl
  | huge =>
    obtain ⟨freed, s', hrun, hsweeps, hhuge, harenas⟩ := Space.sweepHuge_sweeps hs.wf hsweepable
      (hs.flags.huge (.inr ⟨hp, .inr hcursor⟩))
    refine ⟨sweepArenaCost, _, bind_eq_ok_iff.2 ⟨_, hrun, rfl⟩, .swept hsweeps (hs.sweeps hp hsweeps
      { idle := fun hidle => absurd (.inr hp) hidle
        huge := fun hor => by
          rcases hor with hq | ⟨-, hq | hq⟩
          · rw [show h.cycle.phase = .sweep from hp] at hq
            cases hq
          · cases hq
          · cases hq
        passed := fun _ start hc => by
          cases hc
          exact ⟨hhuge, fun i hi => absurd hi (Nat.not_lt_zero i)⟩ })⟩
  | arenas start =>
    obtain ⟨hhuge, hpassed⟩ := hs.flags.passed hp start hcursor
    have hunswept := Space.nextUnswept_spec h.space start
    cases hfind : h.space.nextUnswept start with
    | none =>
      rw [hfind] at hunswept
      simp only [hfind]
      refine ⟨0, _, rfl, .finished hhuge fun i => ?_⟩
      by_cases hi : i < start
      · exact hpassed i hi
      · exact hunswept i (not_lt.1 hi)
    | some i =>
      rw [hfind] at hunswept
      obtain ⟨hstart, hi, hbetween⟩ := hunswept
      obtain ⟨freed, s', hrun, hsweeps, hsame, -, hflags⟩ := Space.sweepArena_sweeps hs.wf hsweepable hi
      simp only [hfind]
      refine ⟨sweepArenaCost, _, bind_eq_ok_iff.2 ⟨_, hrun, rfl⟩, .swept hsweeps (hs.sweeps hp hsweeps
        { idle := fun hidle => absurd (.inr hp) hidle
          huge := fun hor => by
            rcases hor with hq | ⟨-, hq | hq⟩
            · rw [show h.cycle.phase = .sweep from hp] at hq
              cases hq
            · cases hq
            · cases hq
          passed := fun _ _ hc => by
            cases hc
            refine ⟨hsame.trans hhuge, fun j hj => ?_⟩
            rw [hflags]
            split
            · rfl
            · next hij =>
              by_cases hjs : j < start
              · exact hpassed j hjs
              · exact hbetween j (not_lt.1 hjs) (by omega) })⟩

theorem SweepsOn.sound (hs : h.Sound) (hp : h.phase = .sweep) (hsweep : h.SweepsOn h') : h'.Sound := by
  cases hsweep with
  | swept _ hsound => exact hsound
  | finished hhuge hunswept =>
    refine hs.setCycle (fun hmarking => ?_) (by rw [hp]; exact Phase.noConfusion)
      { idle := fun _ => ⟨hhuge, hunswept⟩
        huge := fun hor => by rcases hor with hq | ⟨hq, -⟩ <;> cases hq
        passed := fun hq => by cases hq }
    rw [hp] at hmarking
    exact absurd hmarking (by decide)

/-! ## The end of a cycle -/

/-- Completing the cycle changes no slot. -/
theorem Sound.enterPause (hs : h.Sound) (hp : h.phase = .finalize) : h.enterPause.Sound ∧
    h.space.Relieved h.enterPause.space := by
  have hnot : ¬ h.phase.IsMarking := by
    rw [hp]
    decide
  have hnosweep : ¬ h.phase.IsSweeping := by
    rw [hp]
    decide
  have hrel : h.space.Relieved h.enterPause.space :=
    Space.releaseSpareArenas_spec hs.wf h.config.spareArenas (hs.quiet hnot) hs.listed
  obtain ⟨hhuge, hunswept⟩ := hs.flags.idle hnosweep
  refine ⟨?_, hrel⟩
  exact
    { wf := hrel.wf
      admits := fun t => by
        rw [hrel.slot]
        exact (hs.admits t).mono fun hmarking => absurd hmarking hnot
      strings := hs.strings
      linked := fun {hash t} hmem => by
        obtain ⟨e, he, hk, hh, -⟩ := hs.linked hmem
        exact ⟨e, by rw [hrel.slot]; exact he, hk, hh, .inl (hs.survives hnosweep he)⟩
      flags :=
        { idle := fun _ => ⟨hrel.hugeNeedsSweep.trans hhuge, hrel.unswept hunswept⟩
          huge := fun hor => by rcases hor with hq | ⟨hq, -⟩ <;> cases hq
          passed := fun hq => by cases hq }
      stores := fun _ => hs.stores hnot
      config := hs.config }

/-- Taking a finalizer that is due. -/
theorem Sound.taken (hs : h.Sound) {r : Ref} (hpending : (h.space.slot r).pending)
    (hrev : h.space.Revises s' r (h.space.slot r).taken) : Sound { h with space := s' } := by
  have hv := hs.admits r
  obtain ⟨e, he, hsurvives⟩ := hv.listed (.inr (.inr hpending))
  have hsize := hv.size he
  have hfixed := hv.fixed he
  have hmarked := hv.marked he
  have hnotIdle : ¬ (h.space.slot r).idle := fun hidle => Space.idle_not_pending hs.wf hidle hpending
  have htaken : (h.space.slot r).taken = { h.space.slot r with
      entity? := some { e with header := { e.header with hasFinalizer := false } }
      pending := False } := by
    rw [Slot.taken, Slot.mapEntity_of_some (show Slot.entity? { h.space.slot r with pending := False } = some e from he)]
  rw [htaken] at hrev
  refine hs.revise hrev
    { size := fun {x} hx => by cases hx; exact hsize
      fixed := fun {x} hx => by cases hx; exact hfixed
      registered := fun {x} hx => by
        cases hx
        exact iff_of_false (fun hor => hor.elim hnotIdle id) Bool.false_ne_true
      listed := fun _ => ⟨_, rfl, hsurvives⟩
      queued := hv.queued
      marked := fun {x} hx hm => by cases hx; exact hmarked hm } fun hash hlinked => ?_
  exact (hs.linked hlinked).of_entity he rfl rfl rfl id

end Heap

end Tricolor
