import Tricolor.Proofs.Space.Contents
import Tricolor.Proofs.Space.Traversal
import Tricolor.Space.Registration

/-!
# Registrations in a space

Fixing an object, registering it for finalization, selecting the finalizers that are due and
taking one of them, all seen in the slots.
-/

namespace Tricolor

namespace Space

variable {s s' : Space} {r t : Ref} {e : Entity} {a : Arena} {i : Nat}

theorem object_isHuge (a : Arena) {c : Nat} (hc : c ≠ 0) : (a.object c).isHuge = false := by
  rw [Ref.isHuge, beq_eq_false_iff_ne]
  exact hc

/-- The slots of an arena are those of the references into it. -/
theorem slot_object (h : s.Wf) (hi : s.arenas[i]? = some a) {c : Nat} (hc : c ≠ 0) :
    s.slot (a.object c) = a.slot c :=
  slot_small (object_isHuge a hc) ((arena?_eq_some h).2 ⟨i, hi, rfl⟩)

/-! ## Fixing and registering -/

/-- Fixing an object lists it and says so in its header. -/
theorem fix_spec (h : s.Wf) (he : (s.slot r).entity? = some e) (hagrees : s.FixedAgrees r) :
    ∃ s', s.fix r = .ok s' ∧ s.Revises s' r { s.slot r with
      entity? := some { e with header := { e.header with isFixed := true } }
      fixed := True } := by
  rw [fix, header_eq h he]
  show ∃ s', (if e.header.isFixed = true then _ else _) = _ ∧ _
  cases hf : e.header.isFixed with
  | true =>
    refine ⟨s, rfl, (Revises.refl h r).congr ?_⟩
    refine Slot.ext ?_ rfl (propext ⟨fun _ => trivial, fun _ => (hagrees e he).2 hf⟩) rfl rfl
    rw [he, ← hf]
  | false =>
    obtain ⟨s₁, hs₁, hrev⟩ := modifyHeader_spec h he fun header => { header with isFixed := true }
    have he₁ : (s₁.slot r).entity? = some { e with header := { e.header with isFixed := true } } := by
      rw [hrev.slot_self, Slot.mapEntity_entity?, he]
      rfl
    rw [if_neg Bool.false_ne_true]
    by_cases hr : r.isHuge = true
    · have hrev' := hrev.wf.revises_lists (mem_push_of_ne s₁.hugeFixed r.page) (fun _ _ => Iff.rfl)
        (fun _ _ => Iff.rfl) hrev.wf.registered
      rw [← eq_huge hr] at hrev'
      have hslot := (slot_of_isHuge hr).symm.trans hrev.slot_self
      refine ⟨_, bind_eq_ok_iff.2 ⟨s₁, hs₁, if_pos hr⟩, (hrev.trans hrev').congr ?_⟩
      have hqueued := congrArg Slot.queued hslot
      have hidle := congrArg Slot.idle hslot
      have hpending := congrArg Slot.pending hslot
      refine Slot.ext ?_ hqueued (propext ⟨fun _ => trivial, fun _ => Array.mem_push_self⟩) hidle hpending
      rw [← slot_of_isHuge hr]
      exact he₁
    · rw [Bool.not_eq_true] at hr
      obtain ⟨a, ha, hslot⟩ := exists_arena hr he₁
      obtain ⟨i, hi, -⟩ := (arena?_eq_some hrev.wf).1 ha
      obtain ⟨hsound, hslotA⟩ := Arena.slot_fix (hrev.wf.sound hi) r.cell
      obtain ⟨s₂, hs₂, hrev'⟩ := hrev.wf.modifyArenaOf_spec hr ha
        (f := fun a => return { a with fixed := a.fixed.push r.cell }) rfl hsound rfl rfl rfl rfl hslotA
      refine ⟨s₂, bind_eq_ok_iff.2 ⟨s₁, hs₁, ?_⟩, (hrev.trans hrev').congr ?_⟩
      · rw [if_neg (by rw [hr]; exact Bool.false_ne_true)]
        exact hs₂
      · rw [← hslot, hrev.slot_self]
        refine Slot.ext ?_ rfl rfl rfl rfl
        rw [Slot.mapEntity_entity?, he]
        rfl

/-- Registering an object lists it and says so in its header; an object that is registered
stays as it is. -/
theorem registerFinalizer_spec (h : s.Wf) (he : (s.slot r).entity? = some e)
    (hagrees : s.RegisteredAgrees r) :
    ∃ s', s.registerFinalizer r = .ok s' ∧ s.Revises s' r
      (if e.header.hasFinalizer then s.slot r else { s.slot r with
        entity? := some { e with header := { e.header with hasFinalizer := true } }
        idle := True }) := by
  rw [registerFinalizer, header_eq h he]
  show ∃ s', (if e.header.hasFinalizer = true then _ else _) = _ ∧ _
  cases hf : e.header.hasFinalizer with
  | true => exact ⟨s, rfl, Revises.refl h r⟩
  | false =>
    have hnot : ¬ ((s.slot r).idle ∨ (s.slot r).pending) := by
      rw [hagrees e he, hf]
      exact Bool.false_ne_true
    obtain ⟨s₁, hs₁, hrev⟩ := modifyHeader_spec h he fun header => { header with hasFinalizer := true }
    have he₁ : (s₁.slot r).entity? = some { e with header := { e.header with hasFinalizer := true } } := by
      rw [hrev.slot_self, Slot.mapEntity_entity?, he]
      rfl
    have hidle : ¬ (s₁.slot r).idle := by
      rw [hrev.slot_self]
      exact fun hidle => hnot (.inl hidle)
    have hpending : ¬ (s₁.slot r).pending := by
      rw [hrev.slot_self]
      exact fun hpending => hnot (.inr hpending)
    rw [if_neg Bool.false_ne_true, if_neg Bool.false_ne_true]
    by_cases hr : r.isHuge = true
    · rw [slot_of_isHuge hr] at hidle hpending
      have hnodup : ((s₁.hugeFinalizers.push r.page).toList ++ s₁.hugePending.toList).Nodup := by
        rw [Array.toList_push, List.append_assoc, List.singleton_append, List.nodup_middle,
          List.nodup_cons]
        refine ⟨fun hmem => ?_, hrev.wf.registered⟩
        rcases List.mem_append.1 hmem with hmem | hmem
        · exact hidle (Array.mem_toList_iff.1 hmem)
        · exact hpending (Array.mem_toList_iff.1 hmem)
      have hrev' := hrev.wf.revises_lists (fun _ _ => Iff.rfl) (mem_push_of_ne s₁.hugeFinalizers r.page)
        (fun _ _ => Iff.rfl) hnodup
      rw [← eq_huge hr] at hrev'
      have hslot := (slot_of_isHuge hr).symm.trans hrev.slot_self
      refine ⟨_, bind_eq_ok_iff.2 ⟨s₁, hs₁, if_pos hr⟩, (hrev.trans hrev').congr ?_⟩
      have hqueued := congrArg Slot.queued hslot
      have hfixed := congrArg Slot.fixed hslot
      have hpending := congrArg Slot.pending hslot
      refine Slot.ext ?_ hqueued hfixed (propext ⟨fun _ => trivial, fun _ => Array.mem_push_self⟩) hpending
      rw [← slot_of_isHuge hr]
      exact he₁
    · rw [Bool.not_eq_true] at hr
      obtain ⟨a, ha, hslot⟩ := exists_arena hr he₁
      obtain ⟨i, hi, -⟩ := (arena?_eq_some hrev.wf).1 ha
      rw [hslot] at hidle hpending
      obtain ⟨hsound, hslotA⟩ := Arena.slot_register (hrev.wf.sound hi) hidle hpending
      obtain ⟨s₂, hs₂, hrev'⟩ := hrev.wf.modifyArenaOf_spec hr ha
        (f := fun a => return { a with finalizers := a.finalizers.push r.cell }) rfl hsound rfl rfl rfl
        rfl hslotA
      refine ⟨s₂, bind_eq_ok_iff.2 ⟨s₁, hs₁, ?_⟩, (hrev.trans hrev').congr ?_⟩
      · rw [if_neg (by rw [hr]; exact Bool.false_ne_true)]
        exact hs₂
      · rw [← hslot, hrev.slot_self]
        refine Slot.ext ?_ rfl rfl rfl rfl
        rw [Slot.mapEntity_entity?, he]
        rfl

/-! ## Fixed roots -/

/-- An object is not registered twice. -/
theorem idle_not_pending (h : s.Wf) (hidle : (s.slot t).idle) : ¬ (s.slot t).pending := by
  intro hpending
  cases ht : t.isHuge with
  | true =>
    rw [slot_of_isHuge ht] at hidle hpending
    exact (List.nodup_append.1 h.registered).2.2 _ (Array.mem_toList_iff.2 hidle) _
      (Array.mem_toList_iff.2 hpending) rfl
  | false =>
    cases ha : s.arena? t.page with
    | none =>
      rw [slot_of_not_isHuge ht, ha] at hidle
      exact hidle
    | some a =>
      rw [slot_small ht ha] at hidle hpending
      obtain ⟨i, hi, -⟩ := (arena?_eq_some h).1 ha
      have heq := List.inj_on_of_nodup_map (h.sound hi).nodup hidle hpending rfl
      cases heq

theorem mem_pendingCells {f : FinalizerRegister} {c : Nat} :
    c ∈ f.pendingCells ↔ (c, true) ∈ f.entries := by
  rw [FinalizerRegister.pendingCells, List.mem_filterMap]
  constructor
  · rintro ⟨⟨d, pending⟩, hd, heq⟩
    cases pending with
    | false => cases heq
    | true =>
      cases heq
      exact hd
  · exact fun hc => ⟨(c, true), hc, rfl⟩

/-- The fixed roots are the fixed objects and those whose finalizers are due. -/
theorem mem_fixedRoots (h : s.Wf) : r ∈ s.fixedRoots ↔ (s.slot r).fixed ∨ (s.slot r).pending := by
  have hsmall : ∀ {a : Arena} {c : Nat}, c ∈ a.fixed.toList ++ a.finalizers.pendingCells ↔
      (a.slot c).fixed ∨ (a.slot c).pending := by
    intro a c
    rw [List.mem_append, Array.mem_toList_iff, mem_pendingCells]
    rfl
  rw [fixedRoots, List.mem_append, List.mem_flatMap, List.mem_map]
  constructor
  · rintro (⟨a, ha, hr⟩ | ⟨p, hp, rfl⟩)
    · obtain ⟨c, hc, rfl⟩ := List.mem_map.1 hr
      obtain ⟨i, hi⟩ := Array.getElem?_of_mem (Array.mem_toList_iff.1 ha)
      have hc' := hsmall.1 hc
      have hne : c ≠ 0 := by
        rintro rfl
        rw [h.zero hi] at hc'
        exact hc'.elim id id
      rw [slot_object h hi hne]
      exact hc'
    · rw [List.mem_append, Array.mem_toList_iff, Array.mem_toList_iff] at hp
      exact hp
  · intro hor
    cases hr : r.isHuge with
    | true =>
      rw [slot_of_isHuge hr] at hor
      refine .inr ⟨r.page, ?_, (eq_huge hr).symm⟩
      rw [List.mem_append, Array.mem_toList_iff, Array.mem_toList_iff]
      exact hor
    | false =>
      cases ha : s.arena? r.page with
      | none =>
        rw [slot_of_not_isHuge hr, ha] at hor
        exact (hor.elim id id).elim
      | some a =>
        rw [slot_small hr ha] at hor
        obtain ⟨i, hi, hp⟩ := (arena?_eq_some h).1 ha
        refine .inl ⟨a, Array.mem_toList_iff.2 (Array.mem_of_getElem? hi),
          List.mem_map.2 ⟨r.cell, hsmall.2 hor, ?_⟩⟩
        rw [Arena.object, hp]

/-- Marking the fixed roots. -/
theorem markFixed_spec (h : s.Wf)
    (hall : ∀ t, (s.slot t).fixed ∨ (s.slot t).pending → s.Holds t) :
    ∃ s', s.markFixed = .ok s' ∧ s.Shades s.fixedRoots s' :=
  foldlM_mark_spec h fun t ht => hall t ((mem_fixedRoots h).1 ht)

/-! ## Taking a finalizer that is due -/

/-- Looking through arenas for a finalizer that is due. -/
theorem takePendingSmall_spec :
    ∀ (indices : List Nat) {s : Space}, s.Wf → (∀ i ∈ indices, i < s.arenas.size) →
      ∃ r? s', s.takePendingSmall indices = .ok (r?, s') ∧
        match (r? : Option Ref) with
        | none => s' = s ∧ ∀ i ∈ indices, ∀ a, s.arenas[i]? = some a → ∀ c, ¬ (a.slot c).pending
        | some r => (s.slot r).pending ∧ s.Revises s' r { s.slot r with pending := False } := by
  intro indices
  induction indices with
  | nil => exact fun _ _ => ⟨none, _, rfl, rfl, fun _ hi => absurd hi List.not_mem_nil⟩
  | cons i rest ih =>
    intro s h hall
    obtain ⟨a, hi⟩ : ∃ a, s.arenas[i]? = some a :=
      ⟨_, Array.getElem?_eq_getElem (hall i List.mem_cons_self)⟩
    have htake := Arena.slot_takePending (h.sound hi)
    cases hp : a.finalizers.takePending with
    | none =>
      rw [hp] at htake
      obtain ⟨r?, s', hrun, hspec⟩ := ih h fun j hj => hall j (List.mem_cons_of_mem _ hj)
      refine ⟨r?, s', ?_, ?_⟩
      · rw [takePendingSmall]
        refine bind_eq_ok_iff.2 ⟨(none, s), ?_, hrun⟩
        refine updateArena_eq_ok_iff'.2 ⟨a, a, hi, by rw [hp]; rfl, (setArena_self hi).symm⟩
      · cases r? with
        | none =>
          refine ⟨hspec.1, fun j hj b hb => ?_⟩
          rcases List.mem_cons.1 hj with rfl | hj
          · rw [hi] at hb
            cases hb
            exact htake
          · exact hspec.2 j hj b hb
        | some r => exact hspec
    | some found =>
      obtain ⟨c, finalizers⟩ := found
      rw [hp] at htake
      obtain ⟨hpending, hsound, hslotA⟩ := htake
      have hc : c ≠ 0 := by
        rintro rfl
        rw [h.zero hi] at hpending
        exact hpending
      refine ⟨some (a.object c), { s with arenas := s.arenas.setIfInBounds i { a with finalizers } },
        ?_, ?_⟩
      · rw [takePendingSmall]
        exact bind_eq_ok_iff.2 ⟨(some (a.object c), _),
          updateArena_eq_ok_iff'.2 ⟨a, _, hi, by rw [hp]; rfl, rfl⟩, rfl⟩
      · simp only
        rw [slot_object h hi hc]
        exact ⟨hpending, h.revises_small hi hsound rfl rfl rfl rfl h.total_lt (object_isHuge a hc) rfl hslotA⟩

/-- Taking the finalizer of a huge block. -/
theorem takePendingHuge_spec (h : s.Wf) :
    match s.takePendingHuge with
    | (none, s') => s' = s ∧ ∀ p, ¬ (s.hugeSlot p).pending
    | (some r, s') => (s.slot r).pending ∧ s.Revises s' r { s.slot r with pending := False } := by
  rw [takePendingHuge]
  cases hb : s.hugePending.back? with
  | none =>
    rw [Array.back?_eq_none_iff] at hb
    refine ⟨rfl, fun p hp => ?_⟩
    have hp : p ∈ s.hugePending := hp
    rw [hb] at hp
    exact absurd hp (Array.not_mem_empty _)
  | some p =>
    obtain ⟨rest, hrest⟩ := Array.back?_eq_some_iff.1 hb
    have hpop : s.hugePending.pop = rest := by rw [hrest, Array.pop_push]
    have hmem : ∀ q, q ∈ s.hugePending ↔ q ∈ rest ∨ q = p := fun q => by rw [hrest, Array.mem_push]
    have hnodup := h.registered
    rw [hrest, Array.toList_push, ← List.append_assoc, List.nodup_append] at hnodup
    obtain ⟨hnodup, -, hnot⟩ := hnodup
    have hnot : p ∉ rest := fun hp => hnot p (List.mem_append_right _ (Array.mem_toList_iff.2 hp)) p
      (List.mem_singleton_self p) rfl
    simp only
    rw [hpop]
    refine ⟨(hmem p).2 (.inr rfl), ?_⟩
    have hrev := h.revises_lists (fun _ _ => Iff.rfl) (fun _ _ => Iff.rfl)
      (fun q hq => (show q ∈ rest ↔ q ∈ s.hugePending by rw [hmem, or_iff_left hq])) hnodup
    exact hrev.congr (Slot.ext rfl rfl rfl rfl (propext ⟨hnot, False.elim⟩))

/-- Taking a finalizer that is due unregisters its object; when there is none, no finalizer
is due. -/
theorem takePendingFinalizer_spec (h : s.Wf) (hall : ∀ t, (s.slot t).pending → s.Holds t) :
    ∃ r? s', s.takePendingFinalizer = .ok (r?, s') ∧
      match (r? : Option Ref) with
      | none => s' = s ∧ ∀ t, ¬ (s.slot t).pending
      | some r => (s.slot r).pending ∧ s.Revises s' r (s.slot r).taken := by
  -- both searches end the same way, in the header of the object that is found
  have hfinish : ∀ {r : Ref} {s₁ : Space}, (s.slot r).pending →
      s.Revises s₁ r { s.slot r with pending := False } →
      ∃ s', s₁.modifyHeader r (fun header => { header with hasFinalizer := false }) = .ok s' ∧
        s.Revises s' r (s.slot r).taken := by
    intro r s₁ hpending hrev
    obtain ⟨e, he⟩ := hall r hpending
    have he₁ : (s₁.slot r).entity? = some e := by rw [hrev.slot_self]; exact he
    obtain ⟨s', hs', hrev'⟩ := modifyHeader_spec hrev.wf he₁ fun header =>
      { header with hasFinalizer := false }
    refine ⟨s', hs', (hrev.trans hrev').congr ?_⟩
    rw [hrev.slot_self]
    rfl
  obtain ⟨r?, s₁, hrun, hspec⟩ := takePendingSmall_spec (List.range s.arenas.size) h
    fun i hi => List.mem_range.1 hi
  rw [takePendingFinalizer, hrun]
  cases r? with
  | some r =>
    obtain ⟨hpending, hrev⟩ := hspec
    obtain ⟨s', hs', hrev'⟩ := hfinish hpending hrev
    exact ⟨some r, s', bind_eq_ok_iff.2 ⟨(some r, s₁), rfl, bind_eq_ok_iff.2 ⟨s', hs', rfl⟩⟩, hpending, hrev'⟩
  | none =>
    obtain ⟨rfl, hnone⟩ := hspec
    have hhuge := takePendingHuge_spec h
    cases hb : s₁.takePendingHuge with
    | mk r? s₂ =>
      rw [hb] at hhuge
      cases r? with
      | none =>
        obtain ⟨rfl, hnoneHuge⟩ := hhuge
        refine ⟨none, s₂, bind_eq_ok_iff.2 ⟨(none, s₂), rfl, ?_⟩, rfl, fun t ht => ?_⟩
        · simp only [hb]
          rfl
        · cases hr : t.isHuge with
          | true =>
            rw [slot_of_isHuge hr] at ht
            exact hnoneHuge _ ht
          | false =>
            cases ha : s₂.arena? t.page with
            | none =>
              rw [slot_of_not_isHuge hr, ha] at ht
              exact ht
            | some a =>
              rw [slot_small hr ha] at ht
              obtain ⟨i, hi, -⟩ := (arena?_eq_some h).1 ha
              exact hnone i (List.mem_range.2 (Array.getElem?_eq_some_iff.1 hi).1) a hi _ ht
      | some r =>
        obtain ⟨hpending, hrev⟩ := hhuge
        obtain ⟨s', hs', hrev'⟩ := hfinish hpending hrev
        refine ⟨some r, s', bind_eq_ok_iff.2 ⟨(none, s₁), rfl, ?_⟩, hpending, hrev'⟩
        simp only [hb]
        exact bind_eq_ok_iff.2 ⟨s', hs', rfl⟩

end Space

end Tricolor
