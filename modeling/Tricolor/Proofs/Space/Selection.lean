import Tricolor.Proofs.Space.Registration

/-!
# Selecting finalizers in a space

Once marking is over, the finalizer of every registered object that was not reached becomes
due, unless there is nothing to finalize any more. Each object is judged on its own.
-/

namespace Tricolor

/-- Filtering with a test that succeeds on every element. -/
theorem filterM_eq_ok {α : Type} {p : α → Except Fault Bool} {q : α → Bool} {l : List α}
    (h : ∀ x ∈ l, p x = .ok (q x)) : l.filterM p = .ok (l.filter q) := by
  have haux : ∀ (l acc : List α), (∀ x ∈ l, p x = .ok (q x)) →
      l.filterAuxM p acc = .ok ((l.filter q).reverse ++ acc) := by
    intro l
    induction l with
    | nil => exact fun acc _ => rfl
    | cons x rest ih =>
      intro acc hall
      rw [List.filterAuxM, hall x List.mem_cons_self]
      show rest.filterAuxM p _ = _
      rw [ih _ fun y hy => hall y (List.mem_cons_of_mem _ hy)]
      cases hq : q x with
      | true => rw [List.filter_cons_of_pos hq, List.reverse_cons, List.append_assoc]; rfl
      | false => rw [List.filter_cons_of_neg (by rw [hq]; exact Bool.false_ne_true)]; rfl
  rw [List.filterM, haux l [] h]
  show Except.ok _ = _
  rw [List.append_nil, List.reverse_reverse]

namespace Slot

variable {v v' : Slot} {isFinalizable : Bool}

/-- An object that stays registered after a selection was not selected. -/
theorem Selected.eq_of_idle (h : v.Selected isFinalizable v') (hidle : v'.idle) : v' = v := by
  by_cases hu : v.Unreached
  · cases isFinalizable with
    | true =>
      rw [h.doom hu rfl] at hidle
      exact hidle.elim
    | false =>
      rw [h.forget hu rfl] at hidle
      exact hidle.elim
  · exact h.keep hu

/-- A selection frees no object and makes none, and changes nothing but its header. -/
theorem Selected.entity (h : v.Selected isFinalizable v') :
    (∀ e, v.entity? = some e → ∃ header, v'.entity? = some { e with header } ∧
      header.kind = e.header.kind ∧ header.size = e.header.size ∧ header.isFixed = e.header.isFixed) ∧
    (v.entity? = none → v'.entity? = none) ∧ v'.queued = v.queued ∧ v'.fixed = v.fixed := by
  by_cases hu : v.Unreached
  · cases isFinalizable with
    | true =>
      rw [h.doom hu rfl]
      exact ⟨fun e he => ⟨e.header, he, rfl, rfl, rfl⟩, id, rfl, rfl⟩
    | false =>
      rw [h.forget hu rfl]
      refine ⟨fun e he => ⟨{ e.header with hasFinalizer := false }, ?_, rfl, rfl, rfl⟩, fun hnone => ?_,
        rfl, rfl⟩
      · rw [mapEntity_entity?]
        show v.entity?.map _ = _
        rw [he]
        rfl
      · rw [mapEntity_entity?]
        show v.entity?.map _ = _
        rw [hnone]
        rfl
  · rw [h.keep hu]
    exact ⟨fun e he => ⟨e.header, he, rfl, rfl, rfl⟩, id, rfl, rfl⟩

end Slot

namespace Space

variable {s s' : Space} {isFinalizable : Ref → Bool}

/-- What a selection among the places with a property makes of a space. -/
structure SelectedAt (s : Space) (isFinalizable : Ref → Bool) (p : Ref → Prop) (selection : Selection)
    (s' : Space) : Prop where
  wf : s'.Wf
  indices : s'.indices = s.indices
  arenas : s'.arenas.size = s.arenas.size
  unswept : s'.unswept = s.unswept
  hugeNeedsSweep : s'.hugeNeedsSweep = s.hugeNeedsSweep
  selected : ∀ t, p t → (s.slot t).Selected (isFinalizable t) (s'.slot t)
  other : ∀ t, ¬ p t → s'.slot t = s.slot t
  asked : ∀ t, t ∈ selection.asked ↔ p t ∧ (s.slot t).Unreached
  doomed : ∀ t, t ∈ selection.doomed ↔ p t ∧ (s.slot t).Unreached ∧ isFinalizable t = true

/-- Registered objects stay allocated during a selection. -/
theorem SelectedAt.holds {p : Ref → Prop} {selection : Selection}
    (h : s.SelectedAt isFinalizable p selection s') (hidle : ∀ t, (s.slot t).idle → s.Holds t) :
    ∀ t, (s'.slot t).idle → s'.Holds t := by
  intro t ht
  have heq : s'.slot t = s.slot t := by
    by_cases hp : p t
    · exact (h.selected t hp).eq_of_idle ht
    · exact h.other t hp
  rw [heq] at ht
  obtain ⟨e, he⟩ := hidle t ht
  exact ⟨e, by rw [heq]; exact he⟩

/-- Two selections among different places. -/
theorem SelectedAt.append {s'' : Space} {p q : Ref → Prop} {first second : Selection}
    (h : s.SelectedAt isFinalizable p first s') (h' : s'.SelectedAt isFinalizable q second s'')
    (hdisjoint : ∀ t, p t → ¬ q t) :
    s.SelectedAt isFinalizable (fun t => p t ∨ q t)
      ⟨first.asked ++ second.asked, first.doomed ++ second.doomed⟩ s'' where
  wf := h'.wf
  indices := h'.indices.trans h.indices
  arenas := h'.arenas.trans h.arenas
  unswept := h'.unswept.trans h.unswept
  hugeNeedsSweep := h'.hugeNeedsSweep.trans h.hugeNeedsSweep
  selected t ht := by
    rcases ht with hp | hq
    · rw [h'.other t (hdisjoint t hp)]
      exact h.selected t hp
    · have hp : ¬ p t := fun hp => hdisjoint t hp hq
      rw [← h.other t hp]
      exact h'.selected t hq
  other t ht := by
    rw [not_or] at ht
    rw [h'.other t ht.2, h.other t ht.1]
  asked t := by
    rw [List.mem_append, h.asked, h'.asked]
    by_cases hp : p t
    · simp [hp, hdisjoint t hp]
    · rw [h.other t hp]
      simp [hp]
  doomed t := by
    rw [List.mem_append, h.doomed, h'.doomed]
    by_cases hp : p t
    · simp [hp, hdisjoint t hp]
    · rw [h.other t hp]
      simp [hp]

theorem object_of_atIndex (h : s.Wf) {i : Nat} {a : Arena} (ha : s.arenas[i]? = some a) {t : Ref}
    (ht : s.AtIndex i t) : a.object t.cell = t := by
  rw [Arena.object, ← ((atIndex_iff h ha).1 ht).2]

/-- The objects at some cells of an arena. -/
theorem mem_map_object (h : s.Wf) {i : Nat} {a : Arena} (ha : s.arenas[i]? = some a) {cells : List Nat}
    {P : Slot → Ref → Prop} (hne : ∀ c ∈ cells, c ≠ 0) (hcells : ∀ c, c ∈ cells ↔ P (a.slot c) (a.object c))
    (t : Ref) : t ∈ cells.map a.object ↔ s.AtIndex i t ∧ P (s.slot t) t := by
  rw [List.mem_map]
  constructor
  · rintro ⟨c, hc, rfl⟩
    rw [slot_object h ha (hne c hc)]
    exact ⟨(atIndex_iff h ha).2 ⟨object_isHuge a (hne c hc), rfl⟩, (hcells c).1 hc⟩
  · rintro ⟨ht, hP⟩
    have hobj := object_of_atIndex h ha ht
    rw [slot_atIndex h ha ht] at hP
    exact ⟨t.cell, (hcells _).2 (hobj.symm ▸ hP), hobj⟩

variable (isFinalizable) in
/-- Selecting in one arena. -/
theorem selectInArena_spec (h : s.Wf) (hidle : ∀ t, (s.slot t).idle → s.Holds t) {i : Nat}
    (hi : i < s.arenas.size) :
    ∃ selection s', (s.updateArena i fun arena => do
      let (asked, doomed, arena) ← arena.selectFinalizers isFinalizable
      return (Selection.mk (asked.map arena.object) (doomed.map arena.object), arena)) =
        .ok (selection, s') ∧ s.SelectedAt isFinalizable (s.AtIndex i) selection s' := by
  obtain ⟨a, ha⟩ : ∃ a, s.arenas[i]? = some a := ⟨_, Array.getElem?_eq_getElem hi⟩
  have hcell : ∀ {c : Nat}, (a.slot c).Unreached ∨ (a.slot c).idle → c ≠ 0 := by
    rintro c hor rfl
    rw [h.zero ha] at hor
    exact hor.elim (fun hu => hu.1) id
  obtain ⟨asked, doomed, a', hrun, hsound, hpage, hindex, hsweep, hused, hgrey, hselected, hasked,
    hdoomed⟩ := Arena.selectFinalizers_spec (h.sound ha) isFinalizable fun c hc => by
      have hne := hcell (.inr hc)
      obtain ⟨e, he⟩ := hidle (a.object c) (by rw [slot_object h ha hne]; exact hc)
      rw [slot_object h ha hne] at he
      exact Arena.isAllocated_of_entity? he
  have hzero : a'.slot 0 = .blank := by
    rw [(hselected 0).keep (fun hu => hcell (.inl hu) rfl), h.zero ha]
  have hslot := @slot_setArena s a a' i h ha s.total
  have hobject : a'.object = a.object := funext fun c => by rw [Arena.object, Arena.object, hpage]
  refine ⟨⟨asked.map a'.object, doomed.map a'.object⟩, _,
    updateArena_eq_ok_iff'.2 ⟨a, a', ha, bind_eq_ok_iff.2 ⟨_, hrun, rfl⟩, rfl⟩, ?_⟩
  refine
    { wf := h.setArena ha hsound hzero hpage hindex
        (by rw [Arena.usedBytes, Arena.usedBytes, hused]) h.total_lt
      indices := rfl
      arenas := Array.size_setIfInBounds
      unswept := unswept_setArena_of_eq ha hsweep s.total
      hugeNeedsSweep := rfl
      selected := fun t ht => ?_
      other := fun t ht => ?_
      asked := fun t => by
        rw [hobject]
        exact mem_map_object (P := fun v _ => v.Unreached) h ha
          (fun c hc => hcell (.inl ((hasked c).1 hc))) hasked t
      doomed := fun t => by
        rw [hobject]
        exact mem_map_object (P := fun v t => v.Unreached ∧ isFinalizable t = true) h ha
          (fun c hc => hcell (.inl ((hdoomed c).1 hc).1)) hdoomed t }
  · refine Eq.subst (motive := (s.slot t).Selected (isFinalizable t)) (hslot t).symm ?_
    have hcell := hselected t.cell
    rw [object_of_atIndex h ha ht] at hcell
    rw [if_pos ((atIndex_iff h ha).1 ht), slot_atIndex h ha ht]
    exact hcell
  · exact (hslot t).trans (if_neg fun hand => ht ((atIndex_iff h ha).2 hand))

variable (isFinalizable) in
/-- Selecting in several arenas. -/
theorem selectInArenas_spec :
    ∀ (indices : List Nat) {s : Space}, s.Wf → indices.Nodup → (∀ i ∈ indices, i < s.arenas.size) →
      (∀ t, (s.slot t).idle → s.Holds t) →
      ∃ selection s', s.selectInArenas isFinalizable indices = .ok (selection, s') ∧
        s.SelectedAt isFinalizable (fun t => ∃ i ∈ indices, s.AtIndex i t) selection s' := by
  intro indices
  induction indices with
  | nil =>
    intro s h _ _ _
    refine ⟨_, _, rfl, ?_⟩
    exact
      { wf := h
        indices := rfl
        arenas := rfl
        unswept := rfl
        hugeNeedsSweep := rfl
        selected := fun t ⟨i, hi, _⟩ => absurd hi List.not_mem_nil
        other := fun _ _ => rfl
        asked := fun t => ⟨fun ht => absurd ht List.not_mem_nil,
          fun ⟨⟨i, hi, _⟩, _⟩ => absurd hi List.not_mem_nil⟩
        doomed := fun t => ⟨fun ht => absurd ht List.not_mem_nil,
          fun ⟨⟨i, hi, _⟩, _⟩ => absurd hi List.not_mem_nil⟩ }
  | cons i rest ih =>
    intro s h hnodup hall hidle
    rw [List.nodup_cons] at hnodup
    obtain ⟨here, s₁, hrun, hsel⟩ := selectInArena_spec isFinalizable h hidle
      (hall i List.mem_cons_self)
    obtain ⟨others, s₂, hrun', hsel'⟩ := ih hsel.wf hnodup.2
      (fun j hj => by rw [hsel.arenas]; exact hall j (List.mem_cons_of_mem _ hj)) (hsel.holds hidle)
    refine ⟨⟨here.asked ++ others.asked, here.doomed ++ others.doomed⟩, s₂, ?_, ?_⟩
    · rw [selectInArenas]
      exact bind_eq_ok_iff.2 ⟨_, hrun, bind_eq_ok_iff.2 ⟨_, hrun', rfl⟩⟩
    · have hindices : ∀ t, (∃ j ∈ rest, s₁.AtIndex j t) ↔ ∃ j ∈ rest, s.AtIndex j t := fun t => by
        simp only [AtIndex, hsel.indices]
      have happend := hsel.append hsel' fun t ht => by
        rw [hindices]
        rintro ⟨j, hj, hat⟩
        rw [AtIndex, ht.2] at hat
        exact hnodup.1 (Option.some.inj hat.2 ▸ hj)
      have hprop : (fun t => s.AtIndex i t ∨ ∃ j ∈ rest, s₁.AtIndex j t) =
          fun t => ∃ j ∈ i :: rest, s.AtIndex j t := by
        funext t
        rw [hindices, List.exists_mem_cons_iff]
      rw [hprop] at happend
      exact happend

/-- Changing the headers of several objects in the same way. -/
theorem foldlM_modifyHeader_spec {f : Header → Header} (hf : ∀ x, f (f x) = f x) :
    ∀ (pages : List Page) {s : Space}, s.Wf → (∀ p ∈ pages, s.Holds (.huge p)) →
      ∃ s', pages.foldlM (fun s page => s.modifyHeader (.huge page) f) s = .ok s' ∧ s'.Wf ∧
        s'.indices = s.indices ∧ s'.arenas.size = s.arenas.size ∧ s'.unswept = s.unswept ∧
        s'.hugeNeedsSweep = s.hugeNeedsSweep ∧
        ∀ t, s'.slot t = if t ∈ pages.map Ref.huge then
          (s.slot t).mapEntity fun e => { e with header := f e.header } else s.slot t := by
  intro pages
  induction pages with
  | nil =>
    intro s h _
    exact ⟨s, rfl, h, rfl, rfl, rfl, rfl, fun t => (if_neg List.not_mem_nil).symm⟩
  | cons p rest ih =>
    intro s h hall
    obtain ⟨e, he⟩ := hall p List.mem_cons_self
    obtain ⟨s₁, hs₁, hrev⟩ := modifyHeader_spec h he f
    have hsame : s₁.indices = s.indices ∧ s₁.arenas.size = s.arenas.size := by
      rw [modifyHeader, if_pos (show (Ref.huge p).isHuge = true from rfl)] at hs₁
      obtain ⟨_, -, hs₁⟩ := bind_eq_ok_iff.1 hs₁
      cases hs₁
      exact ⟨rfl, rfl⟩
    obtain ⟨s', hs', hwf, hindices, harenas, hunswept, hhuge, hslot⟩ := ih hrev.wf fun q hq => by
      obtain ⟨e', he'⟩ := hall q (List.mem_cons_of_mem _ hq)
      by_cases hqp : Ref.huge q = .huge p
      · rw [Holds, hqp, hrev.slot_self, Slot.mapEntity_entity?, he]
        exact ⟨_, rfl⟩
      · rw [Holds, hrev.slot_ne hqp]
        exact ⟨e', he'⟩
    refine ⟨s', ?_, hwf, hindices.trans hsame.1, harenas.trans hsame.2, hunswept.trans hrev.unswept,
      hhuge.trans hrev.hugeNeedsSweep, fun t => ?_⟩
    · rw [List.foldlM_cons]
      exact bind_eq_ok_iff.2 ⟨s₁, hs₁, hs'⟩
    · rw [hslot, List.map_cons]
      by_cases htp : t = .huge p
      · subst htp
        rw [hrev.slot_self, if_pos List.mem_cons_self]
        split
        · refine Slot.ext ?_ rfl rfl rfl rfl
          rw [Slot.mapEntity_entity?, Slot.mapEntity_entity?, Option.map_map]
          congr 1
          funext x
          simp only [Function.comp_apply, hf]
        · rfl
      · rw [hrev.slot_ne htp]
        have hiff : t ∈ Ref.huge p :: rest.map Ref.huge ↔ t ∈ rest.map Ref.huge := by
          rw [List.mem_cons, or_iff_right htp]
        simp only [hiff]

/-- The registered huge blocks without a mark are those that were not reached. -/
theorem filterM_unmarked (h : s.Wf) (hidle : ∀ t, (s.slot t).idle → s.Holds t) :
    ∃ unmarked, s.hugeFinalizers.toList.filterM (fun page => return !(← s.blocks.flags page).isMarked) =
        .ok unmarked ∧ unmarked.Sublist s.hugeFinalizers.toList ∧
      ∀ p, p ∈ unmarked ↔ (s.hugeSlot p).Unreached := by
  have hentry : ∀ p ∈ s.hugeFinalizers, ∃ b, s.blocks.entryOf? p = some b := by
    intro p hp
    obtain ⟨e, he⟩ := hidle (.huge p) hp
    obtain ⟨b, hb, -⟩ := exists_entry (show (Ref.huge p).isHuge = true from rfl) he
    exact ⟨b, hb⟩
  let isWhite (p : Page) : Bool := !(s.blocks.entryOf? p).any (·.flags.isMarked)
  refine ⟨s.hugeFinalizers.toList.filter isWhite, filterM_eq_ok fun p hp => ?_, List.filter_sublist, fun p => ?_⟩
  · obtain ⟨b, hb⟩ := hentry p (Array.mem_toList_iff.1 hp)
    rw [BlockTable.flags_eq_ok h.blocks (page_ne_zero h hb).1, hb]
    show Except.ok (!b.flags.isMarked) = Except.ok (!(s.blocks.entryOf? p).any _)
    rw [hb]
    rfl
  · rw [List.mem_filter, Array.mem_toList_iff]
    refine and_congr_right fun hp => ?_
    obtain ⟨b, hb⟩ := hentry p hp
    have hslot : (s.hugeSlot p).entity? = some (s.entityOf b) := congrArg (Option.map s.entityOf) hb
    rw [hslot]
    show (!(s.blocks.entryOf? p).any _) = true ↔ _
    rw [hb]
    simp [entityOf]

/-- The space with some huge blocks no longer registered, and some of these due. -/
def relist (s : Space) (unmarked doomed : List Page) : Space :=
  { s with
    hugeFinalizers := s.hugeFinalizers.filter (!unmarked.contains ·)
    hugePending := s.hugePending ++ doomed.toArray }

section Relist

variable {unmarked doomed : List Page}

theorem Wf.relist (h : s.Wf) (hsub : unmarked.Sublist s.hugeFinalizers.toList)
    (hdoomed : doomed.Sublist unmarked) : (s.relist unmarked doomed).Wf := by
  have hkept : ∀ p, p ∈ (s.hugeFinalizers.filter (!unmarked.contains ·)).toList →
      p ∈ s.hugeFinalizers.toList ∧ p ∉ unmarked := fun p hp => by
    rw [Array.mem_toList_iff, Array.mem_filter] at hp
    exact ⟨Array.mem_toList_iff.2 hp.1, by simpa using hp.2⟩
  have hnodup : ((s.hugeFinalizers.filter (!unmarked.contains ·)).toList ++
      (s.hugePending ++ doomed.toArray).toList).Nodup := by
    obtain ⟨hf, hp, hdisjoint⟩ := List.nodup_append.1 h.registered
    rw [Array.toList_append, List.nodup_append, List.nodup_append]
    refine ⟨?_, ⟨hp, hf.sublist (hdoomed.trans hsub), fun x hx y hy heq => ?_⟩, fun x hx y hy heq => ?_⟩
    · rw [Array.toList_filter]
      exact hf.filter _
    · exact hdisjoint y (hsub.subset (hdoomed.subset hy)) x hx heq.symm
    · obtain ⟨hin, hnot⟩ := hkept x hx
      rcases List.mem_append.1 hy with hy | hy
      · exact hdisjoint x hin y hy heq
      · exact hnot (heq ▸ hdoomed.subset hy)
  exact
    { sound := h.sound
      index := h.index
      page_lt := h.page_lt
      zero := h.zero
      indices := h.indices
      current := h.current
      blocks := h.blocks
      contents := h.contents
      sizes := h.sizes
      grey := h.grey
      greyNodup := h.greyNodup
      registered := hnodup
      apart := h.apart
      apartBlocks := h.apartBlocks
      total := h.total
      total_lt := h.total_lt }

/-- Unregistering the blocks that were not reached judges the lists of every block. -/
theorem slot_relist (hunmarked : ∀ p, p ∈ unmarked ↔ (s.hugeSlot p).Unreached)
    (hdoomed : ∀ p, p ∈ doomed ↔ (s.hugeSlot p).Unreached ∧ isFinalizable (.huge p) = true) (t : Ref) :
    (s.relist unmarked doomed).slot t =
      if t.isHuge then (s.slot t).judged (isFinalizable t) else s.slot t := by
  cases ht : t.isHuge with
  | false =>
    rw [if_neg Bool.false_ne_true, slot_of_not_isHuge ht, slot_of_not_isHuge ht]
    rfl
  | true =>
    obtain ⟨p, rfl⟩ : ∃ p, t = .huge p := ⟨t.page, eq_huge ht⟩
    have hidle : p ∈ s.hugeFinalizers.filter (!unmarked.contains ·) ↔
        p ∈ s.hugeFinalizers ∧ ¬ (s.hugeSlot p).Unreached := by
      rw [Array.mem_filter, ← hunmarked]
      simp
    have hpending : p ∈ s.hugePending ++ doomed.toArray ↔
        p ∈ s.hugePending ∨ (s.hugeSlot p).Unreached ∧ isFinalizable (.huge p) = true := by
      simp only [Array.mem_append, List.mem_toArray, hdoomed]
    rw [if_pos rfl, slot_huge, slot_huge]
    exact Slot.ext rfl rfl rfl (propext hidle) (propext hpending)

end Relist

/-- The huge blocks at the pages of a list. -/
theorem mem_map_huge {pages : List Page} {P : Slot → Ref → Prop}
    (hpages : ∀ p, p ∈ pages ↔ P (s.hugeSlot p) (.huge p)) (t : Ref) :
    t ∈ pages.map Ref.huge ↔ t.isHuge = true ∧ P (s.slot t) t := by
  rw [List.mem_map]
  constructor
  · rintro ⟨p, hp, rfl⟩
    exact ⟨rfl, (hpages p).1 hp⟩
  · rintro ⟨ht, hP⟩
    have htp := eq_huge ht
    rw [htp, slot_huge] at hP
    exact ⟨t.page, (hpages _).2 hP, htp.symm⟩

variable (isFinalizable) in
/-- Selecting among the huge blocks. -/
theorem selectHuge_spec (h : s.Wf) (hidle : ∀ t, (s.slot t).idle → s.Holds t) :
    ∃ selection s', s.selectHuge isFinalizable = .ok (selection, s') ∧
      s.SelectedAt isFinalizable (fun t => t.isHuge = true) selection s' := by
  obtain ⟨unmarked, hfilter, hsub, hunmarked⟩ := filterM_unmarked h hidle
  let doomed := unmarked.filter fun page => isFinalizable (.huge page)
  let forgotten := unmarked.filter fun page => !isFinalizable (.huge page)
  have hdoomed : ∀ p, p ∈ doomed ↔ (s.hugeSlot p).Unreached ∧ isFinalizable (.huge p) = true :=
    fun p => by rw [List.mem_filter, hunmarked]
  have hforgotten : ∀ p, p ∈ forgotten ↔ (s.hugeSlot p).Unreached ∧ isFinalizable (.huge p) = false :=
    fun p => by rw [List.mem_filter, hunmarked, Bool.not_eq_true']
  have hslot₁ := slot_relist hunmarked hdoomed
  -- the lists are changed first, then the headers of the forgotten objects
  obtain ⟨s', hs', hwf, hindices, harenas, hunswept, hhuge, hslot⟩ :=
    foldlM_modifyHeader_spec (f := fun x => { x with hasFinalizer := false }) (fun _ => rfl)
      forgotten (h.relist hsub List.filter_sublist) fun p hp => by
        obtain ⟨-, e, he, -⟩ := ((hforgotten p).1 hp).1
        exact ⟨e, he⟩
  have hmem := mem_map_huge (P := fun v t => v.Unreached ∧ isFinalizable t = false) hforgotten
  refine ⟨⟨unmarked.map .huge, doomed.map .huge⟩, s', ?_, ?_⟩
  · rw [selectHuge, hfilter]
    refine bind_eq_ok_iff.2 ⟨unmarked, rfl, ?_⟩
    simp only [List.partition_eq_filter_filter]
    exact bind_eq_ok_iff.2 ⟨s', hs', rfl⟩
  · exact
      { wf := hwf
        indices := hindices
        arenas := harenas
        unswept := hunswept
        hugeNeedsSweep := hhuge
        selected := fun t ht => by
          refine Slot.Selected.of_judged (fun hnot => ?_) fun hand => ?_
          · rw [hslot, if_neg fun hin => hnot ((hmem t).1 hin).2, hslot₁, if_pos ht]
          · rw [hslot, if_pos ((hmem t).2 ⟨ht, hand⟩), hslot₁, if_pos ht]
        other := fun t ht => by
          rw [hslot, if_neg fun hin => ht ((hmem t).1 hin).1, hslot₁, if_neg ht]
        asked := mem_map_huge (P := fun v _ => v.Unreached) hunmarked
        doomed := mem_map_huge (P := fun v t => v.Unreached ∧ isFinalizable t = true) hdoomed }

/-- Selecting finalizers judges every registered object that was not reached. -/
theorem selectFinalizers_spec (h : s.Wf) (isFinalizable : Ref → Bool)
    (hidle : ∀ t, (s.slot t).idle → s.Holds t) :
    ∃ selection s', s.selectFinalizers isFinalizable = .ok (selection, s') ∧ s'.Wf ∧
      s'.unswept = s.unswept ∧ s'.hugeNeedsSweep = s.hugeNeedsSweep ∧
      (∀ t, (s.slot t).Selected (isFinalizable t) (s'.slot t)) ∧
      (∀ t, t ∈ selection.asked ↔ (s.slot t).Unreached) ∧
      ∀ t, t ∈ selection.doomed ↔ (s.slot t).Unreached ∧ isFinalizable t = true := by
  obtain ⟨small, s₁, hrun, hsel⟩ := selectInArenas_spec isFinalizable
    (List.range s.arenas.size) h List.nodup_range (fun i hi => List.mem_range.1 hi) hidle
  obtain ⟨huge, s₂, hrun', hsel'⟩ := selectHuge_spec isFinalizable hsel.wf
    (hsel.holds hidle)
  have happend := hsel.append hsel' fun t ⟨i, _, hat⟩ => by
    rw [hat.1]
    exact Bool.false_ne_true
  -- whatever is registered is in an arena or a huge block
  have hcovered : ∀ t, (s.slot t).Unreached →
      (∃ i ∈ List.range s.arenas.size, s.AtIndex i t) ∨ t.isHuge = true := by
    intro t hu
    cases ht : t.isHuge with
    | true => exact .inr rfl
    | false =>
      obtain ⟨e, he, -⟩ := hu.2
      obtain ⟨a, ha, -⟩ := exists_arena ht he
      obtain ⟨i, hi, hp⟩ := (arena?_eq_some h).1 ha
      exact .inl ⟨i, List.mem_range.2 (Array.getElem?_eq_some_iff.1 hi).1, ht,
        h.indices.2 ⟨a, hi, hp⟩⟩
  refine ⟨⟨small.asked ++ huge.asked, small.doomed ++ huge.doomed⟩, s₂, ?_, happend.wf, happend.unswept, happend.hugeNeedsSweep, fun t => ?_, fun t => ?_,
    fun t => ?_⟩
  · rw [selectFinalizers]
    exact bind_eq_ok_iff.2 ⟨_, hrun, bind_eq_ok_iff.2 ⟨_, hrun', rfl⟩⟩
  · by_cases hp : (∃ i ∈ List.range s.arenas.size, s.AtIndex i t) ∨ t.isHuge = true
    · exact happend.selected t hp
    · have hu : ¬ (s.slot t).Unreached := fun hu => hp (hcovered t hu)
      rw [happend.other t hp]
      exact ⟨fun _ => rfl, fun hu' => absurd hu' hu, fun hu' => absurd hu' hu⟩
  · rw [happend.asked]
    exact ⟨fun hand => hand.2, fun hu => ⟨hcovered t hu, hu⟩⟩
  · rw [happend.doomed]
    exact ⟨fun hand => hand.2, fun hand => ⟨hcovered t hand.1, hand⟩⟩

end Space

end Tricolor
