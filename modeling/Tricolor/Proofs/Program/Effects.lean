import Tricolor.Proofs.Heap.Operation

/-!
# What an operation does to the objects

Every operation of a program uses a few objects, and may make one or free one. `Heap.Alters`
says what all other objects keep: their kind and size, their marks, and how they are listed.
While objects are being marked, no object that was traversed becomes one that was not, and
nothing that the collector has noted is forgotten.
-/

namespace Tricolor

namespace Space

variable {s s' s'' : Space}

/-- Every object of `s'` was there in `s`, with the same kind and size. -/
def Inherits (s s' : Space) : Prop :=
  ∀ t x, (s'.slot t).entity? = some x → ∃ e, (s.slot t).entity? = some e ∧
    x.header.kind = e.header.kind ∧ x.header.size = e.header.size

theorem Inherits.of_slot (h : s'.slot = s.slot) : s.Inherits s' := fun t x hx =>
  ⟨x, by rw [← h]; exact hx, rfl, rfl⟩

theorem Inherits.trans (h : s.Inherits s') (h' : s'.Inherits s'') : s.Inherits s'' := by
  intro t x hx
  obtain ⟨y, hy, hkind, hsize⟩ := h' t x hx
  obtain ⟨e, he, hkind', hsize'⟩ := h t y hy
  exact ⟨e, he, hkind.trans hkind', hsize.trans hsize'⟩

end Space

/-- `x` is the object `e`, whatever else of it has changed. -/
structure Entity.Resembles (x e : Entity) : Prop where
  kind : x.header.kind = e.header.kind
  length : x.header.size = e.header.size
  size : x.size = e.size
  awaits : x.awaits = e.awaits

theorem Entity.Resembles.refl (e : Entity) : e.Resembles e := ⟨rfl, rfl, rfl, rfl⟩

/-- What becomes of a place that keeps its object, or stays empty. -/
structure Slot.Stays (p : Phase) (v v' : Slot) (used : Prop) : Prop where
  entity : ∀ {e}, v.entity? = some e → ∃ x, v'.entity? = some x ∧ x.Resembles e ∧
    (x.marked = e.marked ∨ used) ∧ (e.survives = true → x.survives = true) ∧
    (x.survives = true → e.survives = true ∨ used)
  vacant : v.entity? = none → v'.entity? = none
  queued : v'.queued → v.queued ∨ used
  fixed : v'.fixed → v.fixed ∨ used
  idle : v'.idle → v.idle ∨ used
  pending : v'.pending → v.pending
  /-- what was traversed, or is a leaf, is all that is marked and does not wait -/
  traversed : p.IsMarking → ∀ {x}, v'.entity? = some x → x.marked = true → ¬ v'.queued →
    x.header.kind.isLeaf = true ∨ ∃ e, v.entity? = some e ∧ e.marked = true ∧ ¬ v.queued

namespace Slot

variable {p : Phase} {v v' : Slot} {used : Prop} {e x : Entity}

theorem Stays.refl (v : Slot) : v.Stays p v used where
  entity he := ⟨_, he, .refl _, .inl rfl, id, .inl⟩
  vacant := id
  queued := .inl
  fixed := .inl
  idle := .inl
  pending := id
  traversed _ _ he hm hq := .inr ⟨_, he, hm, hq⟩

theorem Stays.mono {used' : Prop} (h : v.Stays p v' used) (hused : used → used') : v.Stays p v' used' where
  entity he := by
    obtain ⟨x, hx, hres, hm, hs, hs'⟩ := h.entity he
    exact ⟨x, hx, hres, hm.imp_right hused, hs, fun hsx => (hs' hsx).imp_right hused⟩
  vacant := h.vacant
  queued hq := (h.queued hq).imp_right hused
  fixed hf := (h.fixed hf).imp_right hused
  idle hi := (h.idle hi).imp_right hused
  pending := h.pending
  traversed := h.traversed

/-- Changing an object that is used, but not its mark unless it is to outlive a sweep. -/
theorem Stays.of_used (hused : used) (he : v.entity? = some e) (hx : v'.entity? = some x)
    (hres : x.Resembles e) (hsurvives : e.survives = true → x.survives = true)
    (hmarked : p.IsMarking → x.marked = true → e.marked = true) (hqueued : v'.queued = v.queued)
    (hpending : v'.pending → v.pending) : v.Stays p v' used where
  entity hy := by
    rw [he] at hy
    cases hy
    exact ⟨x, hx, hres, .inr hused, hsurvives, fun _ => .inr hused⟩
  vacant hnone := by
    rw [he] at hnone
    cases hnone
  queued _ := .inr hused
  fixed _ := .inr hused
  idle _ := .inr hused
  pending := hpending
  traversed hp y hy hm hq := by
    rw [hx] at hy
    cases hy
    exact .inr ⟨e, he, hmarked hp hm, hqueued ▸ hq⟩

/-- Marking an object that is used. -/
theorem Stays.shade (hused : used) : v.Stays p v.shade used where
  entity {e} he := by
    refine ⟨{ e with marked := true }, by rw [shade_entity?, he]; rfl, ⟨rfl, rfl, rfl, rfl⟩, .inr hused,
      fun _ => rfl, fun _ => .inr hused⟩
  vacant hnone := by rw [shade_of_none hnone, hnone]
  queued _ := .inr hused
  fixed hf := .inl (by rwa [shade_fixed] at hf)
  idle hi := .inl (by rwa [shade_idle] at hi)
  pending hp := by rwa [shade_pending] at hp
  traversed _ x hx hm hq := by
    rw [shade_queued, not_or] at hq
    rw [shade_entity?, Option.map_eq_some_iff] at hx
    obtain ⟨e, he, rfl⟩ := hx
    by_cases hleaf : e.header.kind.isLeaf = true
    · exact .inl hleaf
    · refine .inr ⟨e, he, ?_, hq.1⟩
      by_contra hwhite
      exact hq.2 ⟨e, he, Bool.eq_false_iff.2 hwhite, Bool.eq_false_iff.2 hleaf⟩

end Slot

namespace Heap

variable {h h' : Heap} {r t : Ref} {e x : Entity} {s' : Space} {used fresh gone : Ref → Prop} {v : Slot}

/-- Where nothing awaits a sweep, every object outlives it. -/
theorem Sound.survives_of_holds (hs : h.Sound) (hp : ¬ h.phase.IsSweeping) (hr : h.space.Holds r) :
    h.space.Survives r := by
  obtain ⟨e, he⟩ := hr
  exact ⟨e, he, hs.survives hp he⟩

/-- The collector has noted that an object was reached: it is marked, or recorded to be. -/
def Noted (h : Heap) (r : Ref) : Prop := h.space.Black r ∨ r ∈ h.stores.entries

/-- What an operation does that uses some objects, and makes or frees some. -/
structure Alters (h h' : Heap) (used fresh gone : Ref → Prop) : Prop where
  phase : h'.phase = h.phase
  stays : ∀ {t}, ¬ fresh t → ¬ gone t →
    (h.space.slot t).Stays h.phase (h'.space.slot t) (used t ∨ t ∈ h.stores.entries)
  made : ∀ {t}, fresh t → (h.space.slot t).entity? = none ∧ (∃ x, (h'.space.slot t).entity? = some x ∧
    x.survives = true ∧ (h.phase.IsMarking → x.marked = false)) ∧ ¬ (h'.space.slot t).fixed ∧
    ¬ (h'.space.slot t).idle ∧ ¬ (h'.space.slot t).pending
  freed : ∀ {t}, gone t → (h'.space.slot t).entity? = none
  stores : ∀ {t}, t ∈ h'.stores.entries → t ∈ h.stores.entries ∨ used t
  weakTables : ∀ {t}, t ∈ h.cycle.weakTables → ¬ gone t → t ∈ h'.cycle.weakTables
  remembered : ∀ {t}, t ∈ h'.cycle.weakTables → t ∈ h.cycle.weakTables ∧ ¬ gone t
  noted : h.phase.IsMarking → ∀ {t}, ¬ gone t → h.Noted t → h'.Noted t
  stringsPerStep : h'.config.stringsPerStep = h.config.stringsPerStep

/-- No object. -/
abbrev noObject : Ref → Prop := fun _ => False

theorem Alters.refl (h : Heap) : h.Alters h used noObject noObject where
  phase := rfl
  stays _ _ := .refl _
  made := False.elim
  freed := False.elim
  stores := .inl
  weakTables ht _ := ht
  remembered ht := ⟨ht, not_false⟩
  stringsPerStep := rfl
  noted _ _ _ := id

/-- An operation of which no slot tells. -/
theorem Alters.alike (halike : h.space.Alike s') : h.Alters { h with space := s' } used noObject noObject where
  phase := rfl
  stays _ _ := by
    show Slot.Stays _ _ (s'.slot _) _
    rw [halike.slot]
    exact .refl _
  made := False.elim
  freed := False.elim
  stores := .inl
  weakTables ht _ := ht
  remembered ht := ⟨ht, not_false⟩
  stringsPerStep := rfl
  noted _ _ _ := by
    rintro (⟨e, he, hm⟩ | hmem)
    · exact .inl ⟨e, by rw [halike.slot]; exact he, hm⟩
    · exact .inr hmem

/-- Changing the slot of an object that is used. -/
theorem Alters.revise (hrev : h.space.Revises s' r v)
    (hstays : (h.space.slot r).Stays h.phase v (r = r))
    (hmarked : h.phase.IsMarking → h.space.Black r → ∃ x, v.entity? = some x ∧ x.marked = true) :
    h.Alters { h with space := s' } (· = r) noObject noObject where
  phase := rfl
  stays {t} _ _ := by
    show Slot.Stays _ _ (s'.slot t) _
    by_cases ht : t = r
    · subst ht
      rw [hrev.slot_self]
      exact hstays.mono .inl
    · rw [hrev.slot_ne ht]
      exact .refl _
  made := False.elim
  freed := False.elim
  stores := .inl
  weakTables ht _ := ht
  remembered ht := ⟨ht, not_false⟩
  stringsPerStep := rfl
  noted hp t _ := by
    rintro (hblack | hmem)
    · refine .inl ?_
      by_cases ht : t = r
      · subst ht
        obtain ⟨x, hx, hm⟩ := hmarked hp hblack
        exact ⟨x, by rw [hrev.slot_self]; exact hx, hm⟩
      · obtain ⟨e, he, hm⟩ := hblack
        exact ⟨e, by rw [hrev.slot_ne ht]; exact he, hm⟩
    · exact .inr hmem

/-- Making an object. -/
theorem Alters.appears (hs : h.Sound) {kind : Kind} {size : Nat} (ha : Appears h.space r kind size s' e) :
    h.Alters { h with space := s' } used (· = r) noObject where
  phase := rfl
  stays {t} ht _ := by
    show Slot.Stays _ _ (s'.slot t) _
    rw [ha.revises.slot_ne ht]
    exact .refl _
  made {t} ht := by
    subst ht
    show _ ∧ (∃ x, (s'.slot t).entity? = some x ∧ _) ∧ ¬ (s'.slot t).fixed ∧ ¬ (s'.slot t).idle ∧
      ¬ (s'.slot t).pending
    have hlisted := hs.not_listed ha.vacant
    have hsound := hs.appears ha
    have hself : s'.slot t = { h.space.slot t with entity? := some e } := ha.revises.slot_self
    have he : (s'.slot t).entity? = some e := by rw [hself]
    refine ⟨ha.vacant, ⟨e, he, ha.survives, fun hp => ?_⟩, ?_⟩
    · rw [ha.marked]
      exact hsound.awaits (Phase.not_isSweeping hp) he
    · rw [hself]
      exact hlisted
  freed := False.elim
  stores := .inl
  weakTables ht _ := ht
  remembered ht := ⟨ht, not_false⟩
  stringsPerStep := rfl
  noted _ t _ := by
    rintro (⟨y, hy, hm⟩ | hmem)
    · refine .inl ⟨y, ?_, hm⟩
      have ht : t ≠ r := by
        rintro rfl
        rw [ha.vacant] at hy
        cases hy
      rw [show (Heap.space { h with space := s' }).slot t = _ from ha.revises.slot_ne ht]
      exact hy
    · exact .inr hmem

/-- Freeing an object. -/
theorem Alters.releases (hr : h.Releases r h') : h.Alters h' used noObject (· = r) where
  phase := hr.phase_eq
  stays {t} _ ht := by
    rw [hr.revises.slot_ne ht]
    exact .refl _
  made := False.elim
  freed {t} ht := by
    subst ht
    rw [hr.revises.slot_self]
    rfl
  stores {t} ht := by
    rw [hr.stores, StoreBuffer.erase, Array.mem_filter] at ht
    exact .inl ht.1
  weakTables {t} ht hne := by
    rw [hr.cycle, Cycle.forget, List.mem_filter]
    exact ⟨ht, bne_iff_ne.2 hne⟩
  remembered {t} ht := by
    rw [hr.cycle, Cycle.forget, List.mem_filter] at ht
    exact ⟨ht.1, bne_iff_ne.1 ht.2⟩
  stringsPerStep := congrArg Config.stringsPerStep hr.config
  noted _ t hne := by
    rintro (⟨y, hy, hm⟩ | hmem)
    · exact .inl ⟨y, by rw [hr.revises.slot_ne hne]; exact hy, hm⟩
    · refine .inr ?_
      rw [hr.stores, StoreBuffer.erase, Array.mem_filter]
      exact ⟨hmem, bne_iff_ne.2 hne⟩

/-- Marking objects that are used or recorded. -/
theorem Alters.shades {rs : List Ref} (hshades : h.space.Shades rs s')
    (hrs : ∀ t ∈ rs, used t ∨ t ∈ h.stores.entries) :
    h.Alters { h with space := s' } used noObject noObject where
  phase := rfl
  stays {t} _ _ := by
    show Slot.Stays _ _ (s'.slot t) _
    rw [hshades.slot]
    split
    · next ht => exact .shade (hrs t ht)
    · exact .refl _
  made := False.elim
  freed := False.elim
  stores := .inl
  weakTables ht _ := ht
  remembered ht := ⟨ht, not_false⟩
  stringsPerStep := rfl
  noted _ _ _ := by
    rintro (hblack | hmem)
    · exact .inl (hshades.advances.black hblack)
    · exact .inr hmem

/-- Recording an object that is used; it is noted then. -/
theorem Alters.records (hr : h.space.Holds r) (hrec : h.Records r h') :
    h.Alters h' (· = r) noObject noObject ∧ h'.Noted r := by
  cases hrec with
  | pushed =>
    refine ⟨{ Alters.refl h with
      stores := fun {t} ht => (Array.mem_push.1 ht).imp_right id
      noted := fun _ t _ hn => hn.imp_right fun hmem => Array.mem_push.2 (.inl hmem) }, .inr ?_⟩
    exact Array.mem_push.2 (.inr rfl)
  | @drained s' hall hshades =>
    have hmem : ∀ t, t ∈ (h.stores.push r).entries.toList ↔ t ∈ h.stores.entries ∨ t = r := fun t => by
      rw [Array.mem_toList_iff]
      exact Array.mem_push
    have halters := @Alters.shades h _ (· = r) _ hshades fun t ht => ((hmem t).1 ht).symm
    refine ⟨{ halters with
      stores := fun {t} ht => absurd ht (Array.not_mem_empty t)
      noted := fun _ t _ hn => .inl ?_ }, .inl (hshades.black ((hmem r).2 (.inr rfl)) hr)⟩
    rcases hn with hblack | hn
    · exact hshades.advances.black hblack
    · exact hshades.black ((hmem t).2 (.inl hn)) (hall t (Array.mem_push.2 (.inl hn)))

/-- Saving an object that is used from the pending sweep, or noting it if the writer is marked. -/
theorem Alters.forwards (he : (h.space.slot t).entity? = some e) (hx : (h.space.slot r).entity? = some x)
    {recorded : Heap → Prop}
    (hrecorded : h.phase.IsMarking → recorded h' → h.Alters h' (· = r) noObject noObject ∧ h'.Noted r)
    (hf : Forwards h e x r recorded h') : h.Alters h' (· = r) noObject noObject ∧
      (h.phase.IsMarking → h'.space.Black t → h'.Noted r) := by
  cases hf with
  | idle hor =>
    refine ⟨.refl h, fun hp hblack => ?_⟩
    obtain ⟨y, hy, hm⟩ := hblack
    rw [he] at hy
    cases hy
    rcases hor with hnot | hnot
    · exact .inl ⟨x, hx, by_contra fun hwhite => hnot ⟨hm, Bool.eq_false_iff.2 hwhite⟩⟩
    · exact absurd hp hnot
  | marking hp hrec =>
    obtain ⟨halters, hnoted⟩ := hrecorded hp hrec
    exact ⟨halters, fun _ _ => hnoted⟩
  | sweeping hnot hawaits hrev =>
    refine ⟨.revise hrev (.of_used rfl hx rfl ⟨rfl, rfl, rfl, rfl⟩ (fun _ => rfl)
      (fun hp => absurd hp hnot) rfl id) fun hp => absurd hp hnot, fun hp => absurd hp hnot⟩

/-- A container that a barrier has treated is white, or waits to be traversed again. -/
theorem Alters.regreys (hs : h.Sound) (he : (h.space.slot r).entity? = some e)
    (hkind : e.header.kind.isLeaf = false) (hg : Regreys h e r h') :
    h.Alters h' (· = r) noObject noObject ∧
      (h.phase.IsMarking → h'.space.Black r → (h'.space.slot r).queued) := by
  cases hg with
  | idle hor =>
    refine ⟨.refl h, fun hp hblack => ?_⟩
    obtain ⟨y, hy, hm⟩ := hblack
    rw [he] at hy
    cases hy
    rcases hor with hwhite | hnot
    · rw [hm] at hwhite
      cases hwhite
    · exact absurd hp hnot
  | @greyed s₁ _ hp hrev hsound hrec =>
    -- the container is white at first, then recorded
    have hself : (s₁.slot r).entity? = some { e with marked := false } := by rw [hrev.slot_self]
    obtain ⟨halters, hnoted⟩ := @Alters.records { h with space := s₁ } h' r ⟨_, hself⟩ hrec
    have hother : ∀ t, t ≠ r → s₁.slot t = h.space.slot t := fun t ht => hrev.slot_ne ht
    have hr := @halters.stays r not_false not_false
    have htraversed : h'.space.Black r → (h'.space.slot r).queued := by
      rintro ⟨y, hy, hm⟩
      by_contra hq
      rcases hr.traversed hp hy hm hq with hleaf | ⟨y', hy', hm', -⟩
      · obtain ⟨z, hz, hres, -⟩ := hr.entity hself
        rw [hz] at hy
        cases hy
        rw [hres.kind] at hleaf
        rw [show e.header.kind.isLeaf = true from hleaf] at hkind
        cases hkind
      · rw [show (s₁.slot r).entity? = some y' from hy'] at hself
        cases hself
        cases hm'
    refine ⟨?_, fun _ => htraversed⟩
    exact
      { phase := halters.phase
        stays := fun {t} _ _ => by
          have ht := @halters.stays t not_false not_false
          by_cases htr : t = r
          · subst htr
            have hawaits : e.awaits = false := hs.awaits (Phase.not_isSweeping hp) he
            exact
              { entity := fun {y} hy => by
                  rw [he] at hy
                  cases hy
                  obtain ⟨z, hz, hres, -⟩ := ht.entity hself
                  have hzawaits : z.awaits = false := hres.awaits.trans hawaits
                  refine ⟨z, hz, ⟨hres.kind, hres.length, hres.size, hres.awaits⟩, .inr (.inl rfl), fun _ => ?_,
                    fun _ => .inr (.inl rfl)⟩
                  rw [Entity.survives, hzawaits, Bool.not_false, Bool.or_true]
                vacant := fun hnone => by
                  rw [he] at hnone
                  cases hnone
                queued := fun _ => .inr (.inl rfl)
                fixed := fun _ => .inr (.inl rfl)
                idle := fun _ => .inr (.inl rfl)
                pending := fun hpend => by
                  have hpend := ht.pending hpend
                  rw [show (Heap.space { h with space := s₁ }).slot t = _ from hrev.slot_self] at hpend
                  exact hpend
                traversed := fun _ y hy hm hq => absurd (htraversed ⟨y, hy, hm⟩) hq }
          · rw [show (Heap.space { h with space := s₁ }).slot t = _ from hother t htr] at ht
            exact ht
        made := False.elim
        freed := False.elim
        stores := halters.stores
        weakTables := halters.weakTables
        remembered := halters.remembered
        stringsPerStep := halters.stringsPerStep
        noted := fun _ t _ hn => by
          by_cases htr : t = r
          · subst htr
            exact hnoted
          · refine halters.noted hp not_false (hn.imp_left ?_)
            rintro ⟨y, hy, hm⟩
            exact ⟨y, by rw [show (Heap.space { h with space := s₁ }).slot t = _ from hother t htr]; exact hy, hm⟩ }

end Heap

end Tricolor
