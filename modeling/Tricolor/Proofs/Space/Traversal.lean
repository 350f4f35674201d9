import Tricolor.Proofs.Space.Marking

/-!
# Visits and grey queues

Marking a list of objects, or what a list of visits refers to, shades those objects. Popping
a grey queue answers an allocated object that waited in it and changes nothing else.
-/

namespace Tricolor

namespace Space

variable {s s' : Space} {r t : Ref} {e : Entity}

/-! ## Sequences of marks -/

section Fold

variable {α : Type} {f : Space → α → Except Fault Space}

/-- A sequence of operations that each mark some objects marks all of them. What each of
them needs and marks may not depend on what was marked before. -/
theorem foldlM_shades {allowed : Space → α → Prop} {targets : Space → α → List Ref}
    (hf : ∀ {s : Space} {x : α}, s.Wf → allowed s x →
      ∃ s', f s x = .ok s' ∧ s.Shades (targets s x) s')
    (hstable : ∀ {s s' : Space} {rs : List Ref} (x : α), s.Shades rs s' →
      (allowed s x → allowed s' x) ∧ targets s' x = targets s x) :
    ∀ {xs : List α} {s : Space}, s.Wf → (∀ x ∈ xs, allowed s x) →
      ∃ s', xs.foldlM f s = .ok s' ∧ s.Shades (xs.flatMap (targets s)) s' := by
  intro xs
  induction xs with
  | nil => exact fun h _ => ⟨_, rfl, Shades.refl h⟩
  | cons x rest ih =>
    intro s h hall
    obtain ⟨s₁, hs₁, hshades⟩ := hf h (hall x List.mem_cons_self)
    obtain ⟨s₂, hs₂, hshades'⟩ := ih hshades.wf fun y hy =>
      (hstable y hshades).1 (hall y (List.mem_cons_of_mem _ hy))
    refine ⟨s₂, ?_, ?_⟩
    · rw [List.foldlM_cons]
      exact bind_eq_ok_iff.2 ⟨s₁, hs₁, hs₂⟩
    · rw [List.flatMap_cons]
      have htargets : rest.flatMap (targets s₁) = rest.flatMap (targets s) := by
        congr 1
        funext y
        exact (hstable y hshades).2
      rw [← htargets]
      exact hshades.trans hshades'

/-- A sequence of operations that mark some objects whenever they succeed. -/
theorem foldlM_shades_of_ok {holds : Space → α → Prop}
    (hf : ∀ {s s' : Space} {x : α}, s.Wf → f s x = .ok s' → holds s x ∧ ∃ rs, s.Shades rs s')
    (hstable : ∀ {s s' : Space} {rs : List Ref} {x : α}, s.Shades rs s' → holds s' x → holds s x) :
    ∀ {xs : List α} {s s' : Space}, s.Wf → xs.foldlM f s = .ok s' →
      (∀ x ∈ xs, holds s x) ∧ ∃ rs, s.Shades rs s' := by
  intro xs
  induction xs with
  | nil =>
    intro s s' h hs
    cases hs
    exact ⟨fun _ hx => absurd hx List.not_mem_nil, [], Shades.refl h⟩
  | cons x rest ih =>
    intro s s' h hs
    rw [List.foldlM_cons] at hs
    obtain ⟨s₁, hs₁, hs⟩ := bind_eq_ok_iff.1 hs
    obtain ⟨hx, rs, hshades⟩ := hf h hs₁
    obtain ⟨hrest, ts, hshades'⟩ := ih hshades.wf hs
    refine ⟨fun y hy => ?_, rs ++ ts, hshades.trans hshades'⟩
    rcases List.mem_cons.1 hy with rfl | hy
    · exact hx
    · exact hstable hshades (hrest y hy)

end Fold

theorem Shades.holds {rs : List Ref} (h : s.Shades rs s') : s'.Holds t ↔ s.Holds t := by
  rw [← not_iff_not, not_holds, not_holds, h.entity_none]

/-- Marking a list of objects. -/
theorem foldlM_mark_spec (h : s.Wf) {rs : List Ref} (hall : ∀ r ∈ rs, s.Holds r) :
    ∃ s', rs.foldlM mark s = .ok s' ∧ s.Shades rs s' := by
  obtain ⟨s', hs', hshades⟩ := @foldlM_shades Ref mark Holds (fun _ r => [r])
    (fun h ⟨_, he⟩ => mark_spec h he) (fun _ hshades => ⟨hshades.holds.2, rfl⟩) rs s h hall
  rw [List.flatMap_singleton'] at hshades
  exact ⟨s', hs', hshades⟩

theorem foldlM_mark_eq_ok (h : s.Wf) {rs : List Ref} (hs : rs.foldlM mark s = .ok s') :
    (∀ r ∈ rs, s.Holds r) ∧ s.Shades rs s' := by
  have hall := (@foldlM_shades_of_ok Ref mark Holds
    (fun h hs => ⟨exists_of_mark h hs, _, (mark_eq_ok h hs).2⟩) (fun hshades => hshades.holds.1) rs s s'
    h hs).1
  obtain ⟨t, ht, hshades⟩ := foldlM_mark_spec h hall
  rw [ht] at hs
  cases hs
  exact ⟨hall, hshades⟩

/-- Whether the place holds a string. -/
def isString (s : Space) (r : Ref) : Bool := (s.slot r).entity?.any (·.header.kind = .str)

theorem Shades.isString {rs : List Ref} (h : s.Shades rs s') (t : Ref) :
    s'.isString t = s.isString t := by
  rw [Space.isString, Space.isString, h.slot]
  split
  · rw [Slot.shade_entity?]
    cases (s.slot t).entity? <;> rfl
  · rfl

/-- The object that a visit marks, if it marks one. -/
def targets (mode : WeakMode) (s : Space) (v : Visit) : List Ref :=
  if v.isWeak mode && !s.isString v.target then [] else [v.target]

theorem visit_spec (mode : WeakMode) {v : Visit} (h : s.Wf) (hv : s.Holds v.target) :
    ∃ s', visit mode s v = .ok s' ∧ s.Shades (targets mode s v) s' := by
  obtain ⟨e, he⟩ := hv
  have hstring : s.isString v.target = decide (e.header.kind = .str) := by
    rw [isString, he]
    rfl
  rw [visit, targets, hstring]
  cases hw : v.isWeak mode with
  | false => exact mark_spec h he
  | true =>
    show ∃ s', (s.header v.target >>= fun _ => _) = _ ∧ _
    rw [header_eq h he]
    show ∃ s', (if e.header.kind = .str then _ else _) = _ ∧ _
    by_cases hk : e.header.kind = .str
    · rw [if_pos hk, if_neg (by simp [hk])]
      exact mark_spec h he
    · rw [if_neg hk, if_pos (by simp [hk])]
      exact ⟨s, rfl, Shades.refl h⟩

theorem visit_eq_ok {mode : WeakMode} {v : Visit} (h : s.Wf) (hs : visit mode s v = .ok s') :
    ∃ rs, s.Shades rs s' := by
  rw [visit] at hs
  split at hs
  · obtain ⟨header, -, hs⟩ := bind_eq_ok_iff.1 hs
    split at hs
    · exact ⟨_, (mark_eq_ok h hs).2⟩
    · cases hs
      exact ⟨[], Shades.refl h⟩
  · exact ⟨_, (mark_eq_ok h hs).2⟩

/-- Visiting what an object refers to marks what does not stand on a weak side, and the
strings. -/
theorem foldlM_visit_spec (mode : WeakMode) (h : s.Wf) (visits : List Visit)
    (hall : ∀ v ∈ visits, s.Holds v.target) :
    ∃ s', visits.foldlM (visit mode) s = .ok s' ∧ s.Shades (visits.flatMap (targets mode s)) s' :=
  @foldlM_shades Visit (visit mode) (fun s v => s.Holds v.target) (targets mode)
    (fun h hv => visit_spec mode h hv)
    (fun v hshades => ⟨hshades.holds.2, by rw [targets, targets, hshades.isString]⟩) _ _ h hall

theorem foldlM_visit_eq_ok {mode : WeakMode} (h : s.Wf) {visits : List Visit}
    (hs : visits.foldlM (visit mode) s = .ok s') : ∃ rs, s.Shades rs s' :=
  (@foldlM_shades_of_ok Visit (visit mode) (fun _ _ => True)
    (fun h hs => ⟨trivial, visit_eq_ok h hs⟩) (fun _ => id) _ _ _ h hs).2

/-- The operation by which recorded objects are marked when the store buffer is drained. -/
def markRecorded (s : Space) (r : Ref) : Except Fault Space := do
  if ← s.isMarked r then return s else s.mark r

theorem markRecorded_spec (h : s.Wf) (hr : s.Holds r) :
    ∃ s', s.markRecorded r = .ok s' ∧ s.Shades [r] s' := by
  obtain ⟨e, he⟩ := hr
  rw [markRecorded, isMarked_eq h he]
  show ∃ s', (if e.marked = true then _ else _) = _ ∧ _
  cases hm : e.marked with
  | true =>
    refine ⟨s, rfl, Revises.shades ?_ (Nat.le_add_right _ _)⟩
    rw [Slot.shade_of_marked he hm]
    exact Revises.refl h r
  | false => exact mark_spec h he

theorem holds_of_markRecorded (h : s.Wf) (hs : s.markRecorded r = .ok s') : s.Holds r := by
  obtain ⟨b, hb, hs⟩ := bind_eq_ok_iff.1 hs
  rcases exists_of_isMarked h hb with ⟨e, he, -⟩ | ⟨-, -, rfl⟩
  · exact ⟨e, he⟩
  · exact exists_of_mark h hs

theorem foldlM_markRecorded_spec (h : s.Wf) (rs : List Ref) (hall : ∀ r ∈ rs, s.Holds r) :
    ∃ s', rs.foldlM markRecorded s = .ok s' ∧ s.Shades rs s' := by
  obtain ⟨s', hs', hshades⟩ := @foldlM_shades Ref markRecorded Holds (fun _ r => [r])
    markRecorded_spec (fun _ hshades => ⟨hshades.holds.2, rfl⟩) rs s h hall
  rw [List.flatMap_singleton'] at hshades
  exact ⟨s', hs', hshades⟩

theorem foldlM_markRecorded_eq_ok (h : s.Wf) {rs : List Ref} (hs : rs.foldlM markRecorded s = .ok s') :
    (∀ r ∈ rs, s.Holds r) ∧ s.Shades rs s' := by
  have hall := (@foldlM_shades_of_ok Ref markRecorded Holds
    (fun {s s' r} h hs => ⟨holds_of_markRecorded h hs, by
      obtain ⟨t, ht, hshades⟩ := markRecorded_spec h (holds_of_markRecorded h hs)
      rw [ht] at hs
      cases hs
      exact ⟨_, hshades⟩⟩) (fun hshades => hshades.holds.1) rs s s' h hs).1
  obtain ⟨t, ht, hshades⟩ := foldlM_markRecorded_spec h _ hall
  rw [ht] at hs
  cases hs
  exact ⟨hall, hshades⟩

/-! ## Popping -/

/-- `s'` is `s` after a queue was popped, with the answer `r?`. -/
structure Popped (s : Space) (r? : Option Ref) (s' : Space) : Prop where
  wf : s'.Wf
  slot : ∀ t, s'.slot t = { s.slot t with queued := (s'.slot t).queued }
  queued : ∀ t, (s'.slot t).queued → (s.slot t).queued
  /-- no waiting object is lost -/
  kept : ∀ t, s.Holds t → (s.slot t).queued → (s'.slot t).queued ∨ r? = some t
  found : ∀ r, r? = some r → s.Holds r ∧ (s.slot r).queued
  unswept : s'.unswept = s.unswept
  hugeNeedsSweep : s'.hugeNeedsSweep = s.hugeNeedsSweep
  arenas : s'.arenas.size = s.arenas.size

/-- How many entries a queue has. -/
def depth (s : Space) : GreySource → Nat
  | .arena index => (s.arenas[index]?).elim 0 (·.grey.size)
  | .huge => s.hugeGrey.size

/-- The queue exists. -/
def HasQueue (s : Space) : GreySource → Prop
  | .arena index => index < s.arenas.size
  | .huge => True

/-- `cells` is the grey stack of `a` after it was popped, with the answer `cell?`. -/
structure PopsCells (a : Arena) (cell? : Option Nat) (cells : Array Nat) : Prop where
  mem : ∀ c ∈ cells, c ∈ a.grey.cells
  /-- no waiting object is lost -/
  kept : ∀ c ∈ a.grey.cells, a.isAllocated c = true → c ∈ cells ∨ cell? = some c
  found : ∀ c, cell? = some c → a.isAllocated c = true ∧ c ∈ a.grey.cells
  none : a.grey.size = 0 → cell? = none ∧ cells.size = 0
  size_lt : a.grey.size ≠ 0 → cells.size < a.grey.size

theorem PopsCells.size_le {a : Arena} {cell? : Option Nat} {cells : Array Nat} (h : PopsCells a cell? cells) :
    cells.size ≤ a.grey.size := by
  by_cases h0 : a.grey.size = 0
  · exact (h.none h0).2.trans_le (Nat.zero_le _)
  · exact (h.size_lt h0).le

theorem popsCells_empty {a : Arena} (h : a.grey.size = 0) : PopsCells a .none a.grey.cells where
  mem _ := id
  kept _ hc _ := .inl hc
  found _ hc := by cases hc
  none _ := ⟨rfl, h⟩
  size_lt hne := absurd h hne

/-- The cell on top of a grey stack is the answer if it heads an object, and else the cells
below are popped. -/
theorem PopsCells.push {a : Arena} {cell : Nat} {rest : Array Nat} (hrest : a.grey.cells = rest.push cell)
    {cell? : Option Nat} {cells : Array Nat}
    (h : a.isAllocated cell = true ∧ cell? = some cell ∧ cells = rest ∨
      a.isAllocated cell = false ∧ PopsCells { a with grey := ⟨rest⟩ } cell? cells) : PopsCells a cell? cells := by
  have hmem : ∀ c, c ∈ a.grey.cells ↔ c ∈ rest ∨ c = cell := fun c => by rw [hrest, Array.mem_push]
  have hsize : a.grey.size = rest.size + 1 := by rw [GreyStack.size, hrest, Array.size_push]
  obtain ⟨halloc, rfl, rfl⟩ | ⟨hfree, h⟩ := h
  · exact
      { mem := fun c hc => (hmem c).2 (.inl hc)
        kept := fun c hc _ => ((hmem c).1 hc).imp_right fun heq => by rw [heq]
        found := fun c hc => by
          cases hc
          exact ⟨halloc, (hmem cell).2 (.inr rfl)⟩
        none := fun h0 => by omega
        size_lt := fun _ => by omega }
  · have hle : cells.size ≤ rest.size := h.size_le
    exact
      { mem := fun c hc => (hmem c).2 (.inl (h.mem c hc))
        kept := fun c hc hca => by
          rcases (hmem c).1 hc with hc | rfl
          · exact h.kept c hc hca
          · exact absurd (hfree.symm.trans hca) Bool.false_ne_true
        found := fun c hc => ⟨(h.found c hc).1, (hmem c).2 (.inl (h.found c hc).2)⟩
        none := fun h0 => by omega
        size_lt := fun _ => by omega }

/-- Popping a grey stack up to the first cell that heads an object leaves the cells below. -/
theorem popCell_spec :
    ∀ (n : Nat) {a : Arena}, a.grey.size ≤ n → ∃ (cell? : Option Nat) (cells : Array Nat),
      popCell a n = (cell?, { a with grey := ⟨cells⟩ }) ∧ PopsCells a cell? cells := by
  intro n
  induction n with
  | zero => exact fun hn => ⟨none, _, rfl, popsCells_empty (Nat.le_zero.1 hn)⟩
  | succ n ih =>
    intro a hn
    rw [popCell]
    cases hb : a.grey.cells.back? with
    | none =>
      rw [GreyStack.pop?, hb]
      refine ⟨none, _, rfl, popsCells_empty ?_⟩
      rw [GreyStack.size, Array.back?_eq_none_iff.1 hb]
      rfl
    | some cell =>
      rw [GreyStack.pop?, hb]
      obtain ⟨rest, hrest⟩ := Array.back?_eq_some_iff.1 hb
      have hsame : Arena.isAllocated { a with grey := ⟨rest⟩ } cell = a.isAllocated cell := rfl
      have hle : rest.size ≤ n := by
        rw [GreyStack.size, hrest, Array.size_push] at hn
        exact Nat.le_of_succ_le_succ hn
      have hpop : a.grey.cells.pop = rest := by rw [hrest, Array.pop_push]
      simp only
      rw [hpop, hsame]
      cases halloc : a.isAllocated cell with
      | true => exact ⟨some cell, rest, rfl, .push hrest (.inl ⟨halloc, rfl, rfl⟩)⟩
      | false =>
        obtain ⟨cell?, cells, heq, hpops⟩ := ih (a := { a with grey := ⟨rest⟩ }) hle
        exact ⟨cell?, cells, heq, .push hrest (.inr ⟨halloc, hpops⟩)⟩

/-- The queue of the huge blocks only holds registered blocks, so its last entry is the next
one. -/
theorem popPage_spec (h : s.Wf) (hsize : s.hugeGrey.size ≠ 0) :
    ∃ p s', s.popPage s.hugeGrey.size = .ok (some p, s') ∧ s.Popped (some (.huge p)) s' ∧
      s'.waiting < s.waiting := by
  obtain ⟨p, hb⟩ : ∃ p, s.hugeGrey.back? = some p := by
    cases hb : s.hugeGrey.back? with
    | none =>
      rw [Array.back?_eq_none_iff] at hb
      rw [hb] at hsize
      exact absurd rfl hsize
    | some p => exact ⟨p, rfl⟩
  obtain ⟨rest, hrest⟩ := Array.back?_eq_some_iff.1 hb
  have hpop : s.hugeGrey.pop = rest := by rw [hrest, Array.pop_push]
  have hnodup := h.greyNodup
  rw [hrest, Array.toList_push, List.nodup_append] at hnodup
  obtain ⟨hnodup, -, hnot⟩ := hnodup
  have hnot : p ∉ rest := fun hp => hnot p (Array.mem_toList_iff.2 hp) p (List.mem_singleton_self p) rfl
  have hmem : ∀ q, q ∈ s.hugeGrey ↔ q ∈ rest ∨ q = p := fun q => by rw [hrest, Array.mem_push]
  obtain ⟨b, hentry, hgrey⟩ := h.grey.1 ((hmem p).2 (.inr rfl))
  obtain ⟨blocks, heq, hrev⟩ := h.revises_flags hentry (· &&& ~~~.grey) rest
    (fun q hq => by rw [hmem, or_iff_left hq])
    (by rw [BlockFlags.isGrey_clear_grey]; exact ⟨fun hp => absurd hp hnot, fun hf => by cases hf⟩) hnodup
  obtain ⟨n, hn⟩ := Nat.exists_eq_succ_of_ne_zero hsize
  have hcontains := BlockTable.contains_eq_ok h.blocks (page_ne_zero h hentry).1
  rw [hentry] at hcontains
  refine ⟨p, { s with blocks, hugeGrey := rest }, ?_, ?_, ?_⟩
  · rw [hn, popPage, hb]
    simp only
    rw [hpop]
    refine bind_eq_ok_iff.2 ⟨true, hcontains, ?_⟩
    exact bind_eq_ok_iff.2 ⟨blocks, heq, rfl⟩
  · have hslot : ∀ t, slot { s with blocks, hugeGrey := rest } t =
        { s.slot t with queued := (slot { s with blocks, hugeGrey := rest } t).queued } := by
      intro t
      by_cases ht : t = .huge p
      · subst ht
        rw [hrev.slot_self, BlockFlags.isMarked_clear_grey, slot_huge]
        refine Slot.ext ?_ rfl rfl rfl rfl
        show _ = (s.blocks.entryOf? p).map s.entityOf
        rw [hentry]
        rfl
      · rw [hrev.slot_ne ht]
    refine ⟨hrev.wf, hslot, fun t ht => ?_, fun t _ ht => ?_, ?_, hrev.unswept, hrev.hugeNeedsSweep, rfl⟩
    · by_cases htp : t = .huge p
      · subst htp
        exact (hmem p).2 (.inr rfl)
      · rwa [hrev.slot_ne htp] at ht
    · by_cases htp : t = .huge p
      · exact .inr (by rw [htp])
      · rw [hrev.slot_ne htp]
        exact .inl ht
    · rintro _ ⟨⟩
      refine ⟨⟨s.entityOf b, ?_⟩, (hmem p).2 (.inr rfl)⟩
      show (s.blocks.entryOf? p).map s.entityOf = _
      rw [hentry]
      rfl
  · rw [waiting_eq, waiting_eq, hrest, Array.size_push]
    exact Nat.add_lt_add_left (Nat.lt_succ_self _) _

/-- The space with another grey stack in one of its arenas. -/
def setGrey (s : Space) (i : Nat) (a : Arena) (cells : Array Nat) : Space :=
  { s with arenas := s.arenas.setIfInBounds i { a with grey := ⟨cells⟩ } }

section SetGrey

variable {i : Nat} {a : Arena} {cell? : Option Nat} {cells : Array Nat}

theorem slot_grey (a : Arena) (cells : Array Nat) (c : Nat) :
    Arena.slot { a with grey := ⟨cells⟩ } c = { a.slot c with queued := c ∈ cells } :=
  Arena.slot_lists a ⟨cells⟩ a.finalizers a.fixed c

theorem slot_setGrey (h : s.Wf) (hi : s.arenas[i]? = some a) (t : Ref) : (s.setGrey i a cells).slot t =
    if t.isHuge = false ∧ t.page = a.page then { s.slot t with queued := t.cell ∈ cells } else s.slot t := by
  refine (@slot_setArena s a { a with grey := ⟨cells⟩ } i h hi s.total t).trans ?_
  split
  · next hand => rw [slot_grey, slot_small hand.1 ((arena?_eq_some h).2 ⟨i, hi, hand.2.symm⟩)]
  · rfl

/-- Dropping entries of a grey stack keeps a space well-formed. -/
theorem Wf.setGrey (h : s.Wf) (hi : s.arenas[i]? = some a) (hsub : ∀ c ∈ cells, c ∈ a.grey.cells) :
    (s.setGrey i a cells).Wf := by
  have hsound : Arena.Sound { a with grey := ⟨cells⟩ } :=
    ⟨(h.sound hi).tiled.congr _ _ _ _ _, (h.sound hi).register, (h.sound hi).nodup⟩
  have hzero : Arena.slot { a with grey := ⟨cells⟩ } 0 = .blank := by
    have h0 := h.zero hi
    have hq : 0 ∉ cells := fun hc => by
      have hqueued : (a.slot 0).queued := hsub 0 hc
      rw [h0] at hqueued
      exact hqueued
    rw [slot_grey, h0]
    exact Slot.ext rfl (propext (iff_of_false hq id)) rfl rfl rfl
  exact h.setArena hi hsound hzero rfl rfl rfl h.total_lt

/-- A space with a popped grey stack in one of its arenas was popped. -/
theorem PopsCells.popped (hp : PopsCells a cell? cells) (h : s.Wf) (hi : s.arenas[i]? = some a) :
    s.Popped (cell?.map a.object) (s.setGrey i a cells) := by
  have hold : ∀ t : Ref, t.isHuge = false ∧ t.page = a.page → s.slot t = a.slot t.cell :=
    fun t ht => slot_small ht.1 ((arena?_eq_some h).2 ⟨i, hi, ht.2.symm⟩)
  refine ⟨h.setGrey hi hp.mem, fun t => ?_, fun t ht => ?_, fun t hholds ht => ?_, fun r hr => ?_, ?_, rfl,
    Array.size_setIfInBounds⟩
  · rw [slot_setGrey h hi]
    split <;> rfl
  · rw [slot_setGrey h hi] at ht
    split at ht
    · next hand =>
      rw [hold t hand]
      exact hp.mem _ ht
    · exact ht
  · rw [slot_setGrey h hi]
    split
    · next hand =>
      rw [hold t hand] at ht
      obtain ⟨e, he⟩ := hholds
      rw [hold t hand] at he
      refine (hp.kept t.cell ht (Arena.isAllocated_of_entity? he)).imp_right fun hc => ?_
      rw [hc, Option.map_some, Arena.object, ← hand.2]
    · exact .inl ht
  · obtain ⟨c, hc, rfl⟩ := Option.map_eq_some_iff.1 hr
    obtain ⟨halloc, hq⟩ := hp.found c hc
    have hne : (a.object c).isHuge = false := by
      rw [Ref.isHuge, beq_eq_false_iff_ne]
      have hge := (Arena.isAllocated_iff.1 halloc).1
      rw [firstCell_eq] at hge
      show c ≠ 0
      omega
    rw [Holds, hold (a.object c) ⟨hne, rfl⟩]
    exact ⟨⟨_, Arena.entity?_of_allocated halloc⟩, hq⟩
  · funext j
    refine (@unswept_setArena s a { a with grey := ⟨cells⟩ } i hi s.total j).trans ?_
    split
    · next heq =>
      subst heq
      rw [unswept, hi]
      rfl
    · rfl

theorem waiting_setGrey (hi : s.arenas[i]? = some a) :
    (s.setGrey i a cells).waiting + a.grey.size = s.waiting + cells.size :=
  @waiting_setArena s i a { a with grey := ⟨cells⟩ } hi s.total

end SetGrey

/-- Popping a queue answers an object as long as one waits in it. -/
theorem popGrey_spec (h : s.Wf) {source : GreySource} (hsource : s.HasQueue source) :
    ∃ r? s', s.popGrey source = .ok (r?, s') ∧ s.Popped r? s' ∧
      (if s.depth source = 0 then r? = none ∧ s'.waiting = s.waiting else s'.waiting < s.waiting) := by
  cases source with
  | arena i =>
    obtain ⟨a, hi⟩ : ∃ a, s.arenas[i]? = some a := ⟨_, Array.getElem?_eq_getElem hsource⟩
    obtain ⟨cell?, cells, heq, hp⟩ := popCell_spec a.grey.size (a := a) le_rfl
    have hwaiting := @waiting_setGrey s i a cells hi
    have hdepth : s.depth (.arena i) = a.grey.size := by rw [depth, hi]; rfl
    refine ⟨_, _, ?_, hp.popped h hi, ?_⟩
    · rw [popGrey]
      refine updateArena_eq_ok_iff'.2 ⟨a, _, hi, ?_, rfl⟩
      rw [heq]
      rfl
    · rw [hdepth]
      split
      · next h0 =>
        obtain ⟨rfl, hcells⟩ := hp.none h0
        exact ⟨rfl, by omega⟩
      · next h0 =>
        have hlt := hp.size_lt h0
        omega
  | huge =>
    by_cases h0 : s.hugeGrey.size = 0
    · have hempty : s.hugeGrey = #[] := Array.size_eq_zero_iff.1 h0
      refine ⟨none, s, ?_, ⟨h, fun _ => rfl, fun _ => id, fun _ _ => .inl, fun _ hr => (by cases hr),
        rfl, rfl, rfl⟩, ?_⟩
      · rw [popGrey, h0]
        rfl
      · rw [depth, if_pos h0]
        exact ⟨rfl, rfl⟩
    · obtain ⟨p, s', hrun, hpopped, hlt⟩ := popPage_spec h h0
      refine ⟨some (.huge p), s', ?_, hpopped, ?_⟩
      · rw [popGrey]
        exact bind_eq_ok_iff.2 ⟨_, hrun, rfl⟩
      · rw [depth, if_neg h0]
        exact hlt

/-- The deepest queue exists and is not empty; when there is none, nothing waits. -/
theorem deepestGrey_spec (s : Space) :
    match s.deepestGrey with
    | none => s.waiting = 0
    | some source => s.HasQueue source ∧ s.depth source ≠ 0 := by
  have hmem : ∀ x ∈ s.greyDepths, s.HasQueue x.2 ∧ s.depth x.2 = x.1 := by
    intro x hx
    rw [greyDepths, List.mem_append, List.mem_singleton, List.mem_map] at hx
    rcases hx with ⟨⟨a, i⟩, hi, rfl⟩ | rfl
    · rw [List.mem_zipIdx_iff_getElem?, Array.getElem?_toList] at hi
      refine ⟨(Array.getElem?_eq_some_iff.1 hi).1, ?_⟩
      simp only [depth, hi, Option.elim_some]
    · exact ⟨trivial, rfl⟩
  -- the fold answers an entry of the list, or its start, and none is deeper
  have hfold : ∀ (l : List (Nat × GreySource)) (best : Nat × GreySource),
      let deepest := l.foldl (fun best next => if best.1 ≤ next.1 then next else best) best
      (deepest = best ∨ deepest ∈ l) ∧ best.1 ≤ deepest.1 ∧ ∀ x ∈ l, x.1 ≤ deepest.1 := by
    intro l
    induction l with
    | nil => exact fun best => ⟨.inl rfl, le_rfl, fun _ hx => absurd hx List.not_mem_nil⟩
    | cons x rest ih =>
      intro best
      obtain ⟨hor, hle, hall⟩ := ih (if best.1 ≤ x.1 then x else best)
      have hbest : best.1 ≤ (if best.1 ≤ x.1 then x else best).1 := by split <;> omega
      have hx : x.1 ≤ (if best.1 ≤ x.1 then x else best).1 := by split <;> omega
      refine ⟨?_, hbest.trans hle, fun y hy => ?_⟩
      · rcases hor with heq | hin
        · rw [List.foldl_cons, heq]
          split
          · exact .inr List.mem_cons_self
          · exact .inl rfl
        · exact .inr (List.mem_cons_of_mem _ hin)
      · rcases List.mem_cons.1 hy with rfl | hy
        · exact hx.trans hle
        · exact hall y hy
  obtain ⟨hor, -, hall⟩ := hfold s.greyDepths (0, .huge)
  rw [deepestGrey]
  set deepest := s.greyDepths.foldl (fun best next => if best.1 ≤ next.1 then next else best) (0, .huge)
  by_cases h0 : deepest.1 = 0
  · rw [if_pos h0]
    have hzero : ∀ (l : List (Nat × GreySource)), (∀ x ∈ l, x.1 = 0) →
        l.foldl (fun n depth => n + depth.1) 0 = 0 := by
      intro l
      induction l with
      | nil => exact fun _ => rfl
      | cons x rest ih =>
        intro hx
        rw [List.foldl_cons, hx x List.mem_cons_self]
        exact ih fun y hy => hx y (List.mem_cons_of_mem _ hy)
    exact hzero _ fun x hx => by
      have := hall x hx
      omega
  · rw [if_neg h0]
    rcases hor with heq | hin
    · rw [heq] at h0
      exact absurd rfl h0
    · obtain ⟨hq, hd⟩ := hmem _ hin
      exact ⟨hq, by rw [hd]; exact h0⟩

/-- When nothing waits, nothing is queued. -/
theorem not_queued_of_waiting (hw : s.waiting = 0) (t : Ref) : ¬ (s.slot t).queued := by
  rw [waiting_eq, Nat.add_eq_zero_iff] at hw
  obtain ⟨hsum, hhuge⟩ := hw
  rw [slot]
  split
  · intro hq
    have hq : t.page ∈ s.hugeGrey := hq
    rw [Array.size_eq_zero_iff.1 hhuge] at hq
    exact absurd hq (Array.not_mem_empty _)
  · cases ha : s.arena? t.page with
    | none => exact id
    | some a =>
      intro hq
      obtain ⟨i, -, hi⟩ := Option.bind_eq_some_iff.1 ha
      have hmem : a ∈ s.arenas.toList := Array.mem_toList_iff.2 (Array.mem_of_getElem? hi)
      have h0 : a.grey.size = 0 := by
        have := List.single_le_sum (l := s.arenas.toList.map (·.grey.size)) (fun _ _ => Nat.zero_le _) _
          (List.mem_map.2 ⟨a, hmem, rfl⟩)
        omega
      have hq : t.cell ∈ a.grey.cells := hq
      rw [Array.size_eq_zero_iff.1 h0] at hq
      exact absurd hq (Array.not_mem_empty _)

/-! ## Progress of the marking -/

/-- `s'` is `s` after some marking: objects are only marked, and what is listed stays. -/
structure Advances (s s' : Space) : Prop where
  wf : s'.Wf
  entity : ∀ {t e}, (s.slot t).entity? = some e →
    ∃ marked, (s'.slot t).entity? = some { e with marked } ∧ (e.marked = true → marked = true)
  none : ∀ {t}, (s.slot t).entity? = none → (s'.slot t).entity? = none
  fixed : ∀ t, (s'.slot t).fixed = (s.slot t).fixed
  idle : ∀ t, (s'.slot t).idle = (s.slot t).idle
  pending : ∀ t, (s'.slot t).pending = (s.slot t).pending
  unswept : s'.unswept = s.unswept
  hugeNeedsSweep : s'.hugeNeedsSweep = s.hugeNeedsSweep

theorem Advances.refl (h : s.Wf) : s.Advances s where
  wf := h
  entity he := ⟨_, he, id⟩
  none hn := hn
  fixed _ := rfl
  idle _ := rfl
  pending _ := rfl
  unswept := rfl
  hugeNeedsSweep := rfl

theorem Advances.trans {s'' : Space} (h : s.Advances s') (h' : s'.Advances s'') : s.Advances s'' where
  wf := h'.wf
  entity he := by
    obtain ⟨b, he', hb⟩ := h.entity he
    obtain ⟨b', he'', hb'⟩ := h'.entity he'
    exact ⟨b', he'', hb' ∘ hb⟩
  none hn := h'.none (h.none hn)
  fixed t := (h'.fixed t).trans (h.fixed t)
  idle t := (h'.idle t).trans (h.idle t)
  pending t := (h'.pending t).trans (h.pending t)
  unswept := h'.unswept.trans h.unswept
  hugeNeedsSweep := h'.hugeNeedsSweep.trans h.hugeNeedsSweep

theorem Advances.holds (h : s.Advances s') : s'.Holds t ↔ s.Holds t := by
  constructor
  · rintro ⟨e, he⟩
    by_contra hnot
    rw [h.none (not_holds.1 hnot)] at he
    cases he
  · rintro ⟨e, he⟩
    obtain ⟨b, he', -⟩ := h.entity he
    exact ⟨_, he'⟩

theorem Shades.advances {rs : List Ref} (h : s.Shades rs s') : s.Advances s' where
  wf := h.wf
  entity he := by
    obtain ⟨b, he', hb, -⟩ := h.entity he
    exact ⟨b, he', hb⟩
  none := h.entity_none.2
  fixed t := by
    rw [h.slot]
    split
    · exact Slot.shade_fixed _
    · rfl
  idle t := by
    rw [h.slot]
    split
    · exact Slot.shade_idle _
    · rfl
  pending t := by
    rw [h.slot]
    split
    · exact Slot.shade_pending _
    · rfl
  unswept := h.unswept
  hugeNeedsSweep := h.hugeNeedsSweep

theorem Popped.advances {r? : Option Ref} (h : s.Popped r? s') : s.Advances s' where
  wf := h.wf
  entity {t e} he := ⟨e.marked, by rw [h.slot]; exact he, id⟩
  none {t} hn := by
    rw [h.slot]
    exact hn
  fixed t := by rw [h.slot]
  idle t := by rw [h.slot]
  pending t := by rw [h.slot]
  unswept := h.unswept
  hugeNeedsSweep := h.hugeNeedsSweep

/-- The place holds an object that was reached. -/
def Black (s : Space) (t : Ref) : Prop := ∃ e, (s.slot t).entity? = some e ∧ e.marked = true

theorem Advances.black (h : s.Advances s') (ht : s.Black t) : s'.Black t := by
  obtain ⟨e, he, hm⟩ := ht
  obtain ⟨b, he', hb⟩ := h.entity he
  exact ⟨_, he', hb hm⟩

theorem Shades.black {rs : List Ref} (h : s.Shades rs s') (ht : t ∈ rs) (hholds : s.Holds t) :
    s'.Black t := by
  obtain ⟨e, he⟩ := hholds
  obtain ⟨b, he', -, hmem, -⟩ := h.entity he
  exact ⟨_, he', hmem ht⟩

/-- A pop that succeeds popped a queue that exists. -/
theorem popGrey_eq_ok (h : s.Wf) {source : GreySource} {r? : Option Ref}
    (hrun : s.popGrey source = .ok (r?, s')) : s.Popped r? s' := by
  have hsource : s.HasQueue source := by
    cases source with
    | huge => trivial
    | arena index =>
      rw [popGrey] at hrun
      obtain ⟨a, -, ha, -⟩ := updateArena_eq_ok_iff'.1 hrun
      exact (Array.getElem?_eq_some_iff.1 ha).1
  obtain ⟨_, _, hpop, hpopped, -⟩ := popGrey_spec h hsource
  rw [hpop] at hrun
  cases hrun
  exact hpopped

end Space

end Tricolor
