import Mathlib.Algebra.BigOperators.Group.List.Basic
import Tricolor.Proofs.Space.Slots

/-!
# Changes seen in one slot

Most operations change what is recorded of one reference. `Space.Revises` says so, and the
two ways to get there are a change of one arena and a change of the huge blocks.
-/

namespace Tricolor

/-- An entry that is not in a list without repetitions can be pushed onto it. -/
theorem nodup_push {α : Type} {xs : Array α} {x : α} (h : xs.toList.Nodup) (hx : x ∉ xs) :
    (xs.push x).toList.Nodup := by
  rw [Array.toList_push, ← List.concat_eq_append]
  exact h.concat fun hmem => hx (Array.mem_toList_iff.1 hmem)

/-- Pushing an entry lists no other one. -/
theorem mem_push_of_ne {α : Type} (xs : Array α) (x y : α) (h : y ≠ x) : y ∈ xs.push x ↔ y ∈ xs := by
  rw [Array.mem_push, or_iff_left h]

/-- Replacing one term of a sum. -/
theorem sum_map_set {α : Type} (f : α → Nat) :
    ∀ {l : List α} {i : Nat} {x : α} (y : α), l[i]? = some x →
      ((l.set i y).map f).sum + f x = (l.map f).sum + f y
  | [], i, x, y, h => by cases h
  | z :: rest, 0, x, y, h => by
    cases h
    simp only [List.set_cons_zero, List.map_cons, List.sum_cons]
    omega
  | z :: rest, i + 1, x, y, h => by
    have ih := sum_map_set f (l := rest) (i := i) (x := x) y h
    simp only [List.set_cons_succ, List.map_cons, List.sum_cons]
    omega

/-- The arena is still at its page and stores the index that it stored, and its cells are tiled. -/
structure Arena.Stays (a a' : Arena) : Prop where
  page : a'.page = a.page
  index : a'.index = a.index
  tiled : a'.Tiled

theorem Arena.Stays.refl {a : Arena} (ha : a.Tiled) : a.Stays a := ⟨rfl, rfl, ha⟩

namespace Space

/-- `s'` is `s` with the slot `v` at `r`, and the same arenas and blocks await their sweep. -/
structure Revises (s s' : Space) (r : Ref) (v : Slot) : Prop where
  wf : s'.Wf
  slot : s'.slot = Function.update s.slot r v
  unswept : s'.unswept = s.unswept
  hugeNeedsSweep : s'.hugeNeedsSweep = s.hugeNeedsSweep
  arenas_le : s.arenas.size ≤ s'.arenas.size

variable {s s' s'' : Space} {r t : Ref} {v w : Slot} {a a' : Arena} {i : Nat}

/-- A second change at the same place replaces the first one. -/
theorem Revises.trans (h : s.Revises s' r v) (h' : s'.Revises s'' r w) : s.Revises s'' r w where
  wf := h'.wf
  slot := by rw [h'.slot, h.slot, Function.update_idem]
  unswept := h'.unswept.trans h.unswept
  hugeNeedsSweep := h'.hugeNeedsSweep.trans h.hugeNeedsSweep
  arenas_le := h.arenas_le.trans h'.arenas_le

theorem Revises.slot_self (h : s.Revises s' r v) : s'.slot r = v := by
  rw [h.slot, Function.update_self]

theorem Revises.slot_ne (h : s.Revises s' r v) {t : Ref} (ht : t ≠ r) : s'.slot t = s.slot t := by
  rw [h.slot, Function.update_of_ne ht]

theorem Revises.congr (h : s.Revises s' r v) (hv : v = w) : s.Revises s' r w := hv ▸ h

/-- Nothing changes. -/
theorem Revises.refl (h : s.Wf) (r : Ref) : s.Revises s r (s.slot r) :=
  ⟨h, (Function.update_eq_self r s.slot).symm, rfl, rfl, le_rfl⟩

/-- A fixed object has a header that says so. -/
def FixedAgrees (s : Space) (r : Ref) : Prop :=
  ∀ e, (s.slot r).entity? = some e → ((s.slot r).fixed ↔ e.header.isFixed = true)

/-- A registered object has a header that says so. -/
def RegisteredAgrees (s : Space) (r : Ref) : Prop :=
  ∀ e, (s.slot r).entity? = some e →
    ((s.slot r).idle ∨ (s.slot r).pending ↔ e.header.hasFinalizer = true)

/-! ## Changes of arenas -/

/-- The indices agree as long as every arena stays where it is. -/
theorem Indexed.of_stays (h : s.Indexed) (hindices : s'.indices = s.indices) (hcurrent : s'.current = s.current)
    (hsize : s'.arenas.size = s.arenas.size)
    (hstays : ∀ (i : Nat) (a : Arena), s.arenas[i]? = some a → ∃ a', s'.arenas[i]? = some a' ∧ a.Stays a') :
    s'.Indexed := by
  have hbefore : ∀ {i : Nat} {a' : Arena}, s'.arenas[i]? = some a' → ∃ a, s.arenas[i]? = some a ∧ a.Stays a' := by
    intro i a' ha'
    have hlt := lt_of_lt_of_eq (Array.getElem?_eq_some_iff.1 ha').1 hsize
    obtain ⟨b, hb, hab⟩ := hstays i _ (Array.getElem?_eq_getElem hlt)
    rw [ha'] at hb
    cases hb
    exact ⟨_, Array.getElem?_eq_getElem hlt, hab⟩
  refine
    { tiled := fun ha' => ?_
      index := fun ha' => ?_
      page_lt := fun ha' => ?_
      indices := fun {p i} => ?_
      current := fun i hi => hsize ▸ h.current i (hcurrent ▸ hi) }
  · obtain ⟨_, -, hstay⟩ := hbefore ha'
    exact hstay.tiled
  · obtain ⟨_, ha, hstay⟩ := hbefore ha'
    exact hstay.index.trans (h.index ha)
  · obtain ⟨_, ha, hstay⟩ := hbefore ha'
    exact hstay.page ▸ h.page_lt ha
  · rw [hindices, h.indices]
    constructor
    · rintro ⟨a, ha, rfl⟩
      obtain ⟨a', ha', hstay⟩ := hstays i a ha
      exact ⟨a', ha', hstay.page⟩
    · rintro ⟨a', ha', rfl⟩
      obtain ⟨a, ha, hstay⟩ := hbefore ha'
      exact ⟨a, ha, hstay.page.symm⟩

/-- The indices do not depend on the huge blocks. -/
theorem Indexed.of_arenas (h : s.Indexed) (harenas : s'.arenas = s.arenas) (hindices : s'.indices = s.indices)
    (hcurrent : s'.current = s.current) : s'.Indexed :=
  h.of_stays hindices hcurrent (congrArg Array.size harenas) fun _ a ha =>
    ⟨a, harenas ▸ ha, .refl (h.tiled ha)⟩

/-- `s'` is `s` but for its arenas, which are sound and agree with the indices. -/
structure AltersArenas (s s' : Space) : Prop where
  indexed : s'.Indexed
  sound : ∀ {i : Nat} {a : Arena}, s'.arenas[i]? = some a → a.Sound
  zero : ∀ {i : Nat} {a : Arena}, s'.arenas[i]? = some a → a.slot 0 = .blank
  apart : ∀ {p b q}, s.blocks.entryOf? p = some b → Page.Within q p b.size → s'.indices[q]? = none
  blocks : s'.blocks = s.blocks := by rfl
  contents : s'.contents = s.contents := by rfl
  grey : s'.hugeGrey = s.hugeGrey := by rfl
  fixed : s'.hugeFixed = s.hugeFixed := by rfl
  finalizers : s'.hugeFinalizers = s.hugeFinalizers := by rfl
  pending : s'.hugePending = s.hugePending := by rfl
  total : s'.total = (s'.arenas.toList.map Arena.usedBytes).sum + s.blocks.bytes
  total_lt : s'.total < wordRange

/-- The space stays well-formed. -/
theorem AltersArenas.wf (ha : s.AltersArenas s') (h : s.Wf) : s'.Wf where
  sound := ha.sound
  index := ha.indexed.index
  page_lt := ha.indexed.page_lt
  zero := ha.zero
  indices := ha.indexed.indices
  current := ha.indexed.current
  blocks := ha.blocks ▸ h.blocks
  contents p := by
    rw [ha.contents, ha.blocks]
    exact h.contents p
  sizes hb := h.sizes (ha.blocks ▸ hb)
  grey {p} := by
    rw [ha.grey, ha.blocks]
    exact h.grey
  greyNodup := ha.grey ▸ h.greyNodup
  registered := by
    rw [ha.finalizers, ha.pending]
    exact h.registered
  apart hb := ha.apart (ha.blocks ▸ hb)
  apartBlocks hb hb' := h.apartBlocks (ha.blocks ▸ hb) (ha.blocks ▸ hb')
  total := ha.blocks ▸ ha.total
  total_lt := ha.total_lt

/-- The slots of the huge blocks stay. -/
theorem AltersArenas.slot_of_isHuge (ha : s.AltersArenas s') (hsweep : s'.hugeNeedsSweep = s.hugeNeedsSweep)
    (ht : t.isHuge = true) : s'.slot t = s.slot t := by
  rw [Space.slot_of_isHuge ht, Space.slot_of_isHuge ht]
  refine Slot.ext ?_ (congrArg (t.page ∈ ·) ha.grey) (congrArg (t.page ∈ ·) ha.fixed)
    (congrArg (t.page ∈ ·) ha.finalizers) (congrArg (t.page ∈ ·) ha.pending)
  show (s'.blocks.entryOf? t.page).map _ = (s.blocks.entryOf? t.page).map _
  rw [ha.blocks]
  refine congrArg (fun f => Option.map f _) (funext fun b => ?_)
  rw [entityOf, entityOf, blockAt, blockAt, ha.contents, hsweep]

/-! ## One arena -/

theorem getElem?_setArena (ha : s.arenas[i]? = some a) (j : Nat) :
    (s.arenas.setIfInBounds i a')[j]? = if i = j then some a' else s.arenas[j]? := by
  rw [Array.getElem?_setIfInBounds]
  split
  · next heq =>
    subst heq
    rw [if_pos (Array.getElem?_eq_some_iff.1 ha).1]
  · rfl

theorem Indexed.setArena (h : s.Indexed) (ha : s.arenas[i]? = some a) (hstays : a.Stays a') :
    Indexed { s with arenas := s.arenas.setIfInBounds i a' } := by
  refine h.of_stays rfl rfl Array.size_setIfInBounds fun j b hb => ?_
  show ∃ b', (s.arenas.setIfInBounds i a')[j]? = some b' ∧ _
  rw [getElem?_setArena ha]
  split
  · next hij =>
    subst hij
    rw [ha] at hb
    cases hb
    exact ⟨a', rfl, hstays⟩
  · exact ⟨b, hb, .refl (h.tiled hb)⟩

/-- Replacing an arena by a sound one of the same page keeps a space well formed, if the
bytes in use are counted. -/
theorem Wf.setArena (h : s.Wf) (ha : s.arenas[i]? = some a) (hsound : a'.Sound)
    (hzero : a'.slot 0 = .blank) (hpage : a'.page = a.page) (hindex : a'.index = a.index) {total : Nat}
    (htotal : total + a.usedBytes = s.total + a'.usedBytes) (hlt : total < wordRange) :
    Wf { s with arenas := s.arenas.setIfInBounds i a', total } := by
  have hcases : ∀ {j : Nat} {b : Arena}, (s.arenas.setIfInBounds i a')[j]? = some b →
      b = a' ∨ s.arenas[j]? = some b := by
    intro j b hb
    rw [getElem?_setArena ha] at hb
    split at hb
    · cases hb
      exact .inl rfl
    · exact .inr hb
  refine AltersArenas.wf
    { indexed := (h.indexed.setArena ha ⟨hpage, hindex, hsound.tiled⟩).of_arenas rfl rfl rfl
      sound := fun hb => (hcases hb).elim (fun heq => heq ▸ hsound) h.sound
      zero := fun hb => (hcases hb).elim (fun heq => heq ▸ hzero) h.zero
      apart := h.apart
      total := ?_
      total_lt := hlt } h
  have hsum := sum_map_set Arena.usedBytes (l := s.arenas.toList) (i := i) (x := a) a'
    (by rw [Array.getElem?_toList]; exact ha)
  have hs := h.total
  show total = ((s.arenas.setIfInBounds i a').toList.map Arena.usedBytes).sum + s.blocks.bytes
  rw [Array.toList_setIfInBounds]
  omega

/-- The slots after one arena was replaced. -/
theorem slot_setArena (h : s.Wf) (ha : s.arenas[i]? = some a) (total : Nat) (t : Ref) :
    slot { s with arenas := s.arenas.setIfInBounds i a', total } t =
      if t.isHuge = false ∧ t.page = a.page then a'.slot t.cell else s.slot t := by
  cases ht : t.isHuge with
  | true =>
    rw [if_neg (fun hand => by cases hand.1), slot_of_isHuge ht, slot_of_isHuge ht]
    rfl
  | false =>
    rw [slot_of_not_isHuge ht]
    by_cases hp : t.page = a.page
    · have hi : s.indices[t.page]? = some i := h.indices.2 ⟨a, ha, hp.symm⟩
      rw [if_pos ⟨rfl, hp⟩, arena?, hi, Option.bind_some, getElem?_setArena ha, if_pos rfl]
      rfl
    · rw [if_neg (fun hand => hp hand.2), slot_of_not_isHuge ht]
      have harena : arena? { s with arenas := s.arenas.setIfInBounds i a', total } t.page =
          s.arena? t.page := by
        rw [arena?, arena?]
        cases hj : s.indices[t.page]? with
        | none => rfl
        | some j =>
          obtain ⟨b, hb, hbp⟩ := h.indices.1 hj
          rw [Option.bind_some, Option.bind_some, getElem?_setArena ha, if_neg]
          rintro rfl
          rw [ha] at hb
          cases hb
          exact hp hbp.symm
      rw [harena]

theorem unswept_setArena (ha : s.arenas[i]? = some a) (total j : Nat) :
    unswept { s with arenas := s.arenas.setIfInBounds i a', total } j =
      if i = j then a'.needsSweep else s.unswept j := by
  rw [unswept, getElem?_setArena ha]
  split <;> rfl

/-- Replacing an arena by one that awaits its sweep like it. -/
theorem unswept_setArena_of_eq (ha : s.arenas[i]? = some a) (hsweep : a'.needsSweep = a.needsSweep) (total : Nat) :
    unswept { s with arenas := s.arenas.setIfInBounds i a', total } = s.unswept := by
  funext j
  rw [unswept_setArena ha]
  split
  · next heq =>
    rw [← heq, unswept, ha, hsweep]
    rfl
  · rfl

theorem setArena_self (hi : s.arenas[i]? = some a) :
    { s with arenas := s.arenas.setIfInBounds i a } = s := by
  have harenas : s.arenas.setIfInBounds i a = s.arenas := by
    refine Array.ext_getElem? fun j => ?_
    rw [getElem?_setArena hi]
    split
    · next heq => rw [← heq, hi]
    · rfl
  rw [harenas]

/-- The reference points into the arena with an index. -/
def AtIndex (s : Space) (i : Nat) (t : Ref) : Prop := t.isHuge = false ∧ s.indices[t.page]? = some i

theorem atIndex_iff (h : s.Wf) (ha : s.arenas[i]? = some a) :
    s.AtIndex i t ↔ t.isHuge = false ∧ t.page = a.page := by
  refine and_congr_right fun _ => ?_
  rw [h.indices, ha]
  simp [eq_comm]

theorem slot_atIndex (h : s.Wf) (ha : s.arenas[i]? = some a) (ht : s.AtIndex i t) :
    s.slot t = a.slot t.cell :=
  slot_small ht.1 ((arena?_eq_some h).2 ⟨i, ha, ((atIndex_iff h ha).1 ht).2.symm⟩)

/-- A change of one slot of an arena is one of the space. -/
theorem Wf.revises_small (h : s.Wf) (ha : s.arenas[i]? = some a) (hsound : a'.Sound)
    (hpage : a'.page = a.page) (hindex : a'.index = a.index) (hsweep : a'.needsSweep = a.needsSweep)
    {total : Nat} (htotal : total + a.usedBytes = s.total + a'.usedBytes) (hlt : total < wordRange)
    (hr : r.isHuge = false) (hrp : a.page = r.page) (hslot : a'.slot = Function.update a.slot r.cell v) :
    s.Revises { s with arenas := s.arenas.setIfInBounds i a', total } r v where
  wf := by
    refine h.setArena ha hsound ?_ hpage hindex htotal hlt
    rw [hslot, Function.update_of_ne, h.zero ha]
    rintro hcell
    rw [Ref.isHuge, ← hcell] at hr
    cases hr
  slot := by
    funext t
    rw [slot_setArena h ha]
    by_cases ht : t = r
    · subst ht
      rw [Function.update_self, if_pos ⟨hr, hrp.symm⟩, hslot, Function.update_self]
    · rw [Function.update_of_ne ht]
      split
      · next hand =>
        rw [hslot, Function.update_of_ne, slot_small hand.1 ((arena?_eq_some h).2 ⟨i, ha, hand.2.symm⟩)]
        intro hcell
        refine ht ?_
        cases t
        cases r
        rw [Ref.mk.injEq]
        exact ⟨hand.2.trans hrp, hcell⟩
      · rfl
  unswept := unswept_setArena_of_eq ha hsweep total
  hugeNeedsSweep := rfl
  arenas_le := by rw [Array.size_setIfInBounds]

/-- Running a change of one slot on the arena of a reference. -/
theorem Wf.modifyArenaOf_spec (h : s.Wf) (hr : r.isHuge = false) (ha : s.arena? r.page = some a)
    {f : Arena → Except Fault Arena} (hf : f a = .ok a') (hsound : a'.Sound)
    (hpage : a'.page = a.page) (hindex : a'.index = a.index) (hsweep : a'.needsSweep = a.needsSweep)
    (hused : a'.used = a.used) (hslot : a'.slot = Function.update a.slot r.cell v) :
    ∃ s', s.modifyArenaOf r f = .ok s' ∧ s.Revises s' r v := by
  obtain ⟨i, hi, hp⟩ := (arena?_eq_some h).1 ha
  refine ⟨_, (modifyArenaOf_eq_ok_iff h).2 ⟨i, a, a', hi, hp, hf, rfl⟩, ?_⟩
  exact h.revises_small hi hsound hpage hindex hsweep (by rw [Arena.usedBytes, Arena.usedBytes, hused])
    h.total_lt hr hp hslot

/-! ## Huge blocks -/

/-- No arena and no block other than the one at `p` has a page in the region. -/
def Vacant (s : Space) (p : Page) (size : Nat) : Prop :=
  ∀ q, Page.Within q p size → s.indices[q]? = none ∧
    ∀ p' b, p' ≠ p → s.blocks.entryOf? p' = some b → ¬ Page.Within q p' b.size

/-- The region of a registered block is its own. -/
theorem Wf.vacant (h : s.Wf) {p : Page} {b : BlockEntry} (hb : s.blocks.entryOf? p = some b) :
    s.Vacant p b.size :=
  fun _ hq => ⟨h.apart hb hq, fun _ _ hne hb' hq' => hne (h.apartBlocks hb' hb hq' hq)⟩

/-- The size of a registered block and its region are as they may be. -/
theorem Wf.region (h : s.Wf) {p : Page} {b : BlockEntry} (hb : s.blocks.entryOf? p = some b) :
    cellBytes ≤ b.size ∧ b.size % cellBytes = 0 ∧ s.Vacant p b.size :=
  ⟨(h.sizes hb).1, (h.sizes hb).2, h.vacant hb⟩

/-- `s'` is `s` but for what is recorded of the huge block at `p`. -/
structure AltersBlock (s : Space) (p : Page) (s' : Space) : Prop where
  arenas : s'.arenas = s.arenas := by rfl
  indices : s'.indices = s.indices := by rfl
  current : s'.current = s.current := by rfl
  hugeNeedsSweep : s'.hugeNeedsSweep = s.hugeNeedsSweep := by rfl
  blocks : s'.blocks.Wf
  entry : ∀ q, q ≠ p → s'.blocks.entryOf? q = s.blocks.entryOf? q := by exact fun _ _ => rfl
  region : ∀ {b}, s'.blocks.entryOf? p = some b → cellBytes ≤ b.size ∧ b.size % cellBytes = 0 ∧ s.Vacant p b.size
  contents : ∀ q, q ≠ p → s'.contents[q]? = s.contents[q]? := by exact fun _ _ => rfl
  content : s'.contents[p]?.isSome = (s'.blocks.entryOf? p).isSome
  grey : ∀ q, q ≠ p → (q ∈ s'.hugeGrey ↔ q ∈ s.hugeGrey) := by exact fun _ _ => Iff.rfl
  queued : p ∈ s'.hugeGrey ↔ ∃ b, s'.blocks.entryOf? p = some b ∧ b.flags.isGrey = true
  greyNodup : s'.hugeGrey.toList.Nodup
  fixed : ∀ q, q ≠ p → (q ∈ s'.hugeFixed ↔ q ∈ s.hugeFixed) := by exact fun _ _ => Iff.rfl
  finalizers : ∀ q, q ≠ p → (q ∈ s'.hugeFinalizers ↔ q ∈ s.hugeFinalizers) := by exact fun _ _ => Iff.rfl
  pending : ∀ q, q ≠ p → (q ∈ s'.hugePending ↔ q ∈ s.hugePending) := by exact fun _ _ => Iff.rfl
  registered : (s'.hugeFinalizers.toList ++ s'.hugePending.toList).Nodup
  total : s'.total + s.blocks.bytes = s.total + s'.blocks.bytes
  total_lt : s'.total < wordRange

namespace AltersBlock

variable {p : Page} (ha : s.AltersBlock p s')

include ha

/-- Every block is the one at `p` or one of before. -/
theorem entry_cases {q : Page} {b : BlockEntry} (hb : s'.blocks.entryOf? q = some b) :
    q = p ∧ s'.blocks.entryOf? p = some b ∨ q ≠ p ∧ s.blocks.entryOf? q = some b := by
  by_cases hq : q = p
  · exact .inl ⟨hq, hq ▸ hb⟩
  · exact .inr ⟨hq, ha.entry q hq ▸ hb⟩

/-- No two blocks overlap, as the region of the one at `p` is vacant otherwise. -/
theorem apartBlocks (h : s.Wf) {q q' x : Page} {b b' : BlockEntry} (hb : s'.blocks.entryOf? q = some b)
    (hb' : s'.blocks.entryOf? q' = some b') (hx : Page.Within x q b.size) (hx' : Page.Within x q' b'.size) :
    q = q' := by
  rcases ha.entry_cases hb with ⟨rfl, hb⟩ | ⟨hq, hb⟩ <;> rcases ha.entry_cases hb' with ⟨rfl, hb'⟩ | ⟨hq', hb'⟩
  · rfl
  · exact absurd hx' (((ha.region hb).2.2 x hx).2 q' b' hq' hb')
  · exact absurd hx (((ha.region hb').2.2 x hx').2 q b hq hb)
  · exact h.apartBlocks hb hb' hx hx'

/-- The space stays well-formed. -/
theorem wf (h : s.Wf) : s'.Wf where
  sound hi := h.sound (ha.arenas ▸ hi)
  index hi := h.index (ha.arenas ▸ hi)
  page_lt hi := h.page_lt (ha.arenas ▸ hi)
  zero hi := h.zero (ha.arenas ▸ hi)
  indices := by
    rw [ha.indices, ha.arenas]
    exact h.indices
  current i hi := by
    rw [ha.current] at hi
    rw [ha.arenas]
    exact h.current i hi
  blocks := ha.blocks
  contents q := by
    by_cases hq : q = p
    · rw [hq]
      exact ha.content
    · rw [ha.contents q hq, ha.entry q hq]
      exact h.contents q
  sizes hb := by
    rcases ha.entry_cases hb with ⟨-, hb⟩ | ⟨-, hb⟩
    · exact ⟨(ha.region hb).1, (ha.region hb).2.1⟩
    · exact h.sizes hb
  grey {q} := by
    by_cases hq : q = p
    · rw [hq]
      exact ha.queued
    · rw [ha.grey q hq, ha.entry q hq]
      exact h.grey
  greyNodup := ha.greyNodup
  registered := ha.registered
  apart hb hx := by
    rw [ha.indices]
    rcases ha.entry_cases hb with ⟨rfl, hb⟩ | ⟨-, hb⟩
    · exact ((ha.region hb).2.2 _ hx).1
    · exact h.apart hb hx
  apartBlocks := ha.apartBlocks h
  total := by
    have hbefore := h.total
    have hafter := ha.total
    rw [ha.arenas]
    omega
  total_lt := ha.total_lt

/-- What is recorded of other references stays. -/
theorem slot_ne (h : s.Wf) {t : Ref} (ht : t ≠ .huge p) : s'.slot t = s.slot t := by
  cases hhuge : t.isHuge with
  | false =>
    rw [slot_of_not_isHuge hhuge, slot_of_not_isHuge hhuge, arena?, arena?, ha.indices, ha.arenas]
  | true =>
    have hp : t.page ≠ p := fun hp => ht (by rw [eq_huge hhuge, hp])
    rw [slot_of_isHuge hhuge, slot_of_isHuge hhuge]
    refine Slot.ext ?_ (propext (ha.grey _ hp)) (propext (ha.fixed _ hp)) (propext (ha.finalizers _ hp))
      (propext (ha.pending _ hp))
    show (s'.blocks.entryOf? t.page).map _ = (s.blocks.entryOf? t.page).map _
    rw [ha.entry _ hp]
    cases hb : s.blocks.entryOf? t.page with
    | none => rfl
    | some b =>
      rw [Option.map_some, Option.map_some, entityOf, entityOf, blockAt, blockAt, (page_ne_zero h hb).2,
        ha.contents _ hp, ha.hugeNeedsSweep]

/-- The change is seen in the slot of the block and nowhere else. -/
theorem revises (h : s.Wf) : s.Revises s' (.huge p) (s'.hugeSlot p) where
  wf := ha.wf h
  slot := by
    funext t
    by_cases ht : t = .huge p
    · rw [ht, Function.update_self, slot_huge]
    · rw [Function.update_of_ne ht, ha.slot_ne h ht]
  unswept := by
    funext i
    rw [unswept, unswept, ha.arenas]
  hugeNeedsSweep := ha.hugeNeedsSweep
  arenas_le := by rw [ha.arenas]

end AltersBlock

/-- Listing or unlisting one huge block is seen in its slot and nowhere else. -/
theorem Wf.revises_lists (h : s.Wf) {p : Page} {fixed finalizers pending : Array Page}
    (hfixed : ∀ q, q ≠ p → (q ∈ fixed ↔ q ∈ s.hugeFixed))
    (hfinalizers : ∀ q, q ≠ p → (q ∈ finalizers ↔ q ∈ s.hugeFinalizers))
    (hpending : ∀ q, q ≠ p → (q ∈ pending ↔ q ∈ s.hugePending))
    (hregistered : (finalizers.toList ++ pending.toList).Nodup) :
    s.Revises { s with hugeFixed := fixed, hugeFinalizers := finalizers, hugePending := pending } (.huge p)
      { s.hugeSlot p with fixed := p ∈ fixed, idle := p ∈ finalizers, pending := p ∈ pending } :=
  AltersBlock.revises
    { blocks := h.blocks
      region := fun hb => h.region hb
      content := h.contents p
      queued := h.grey
      greyNodup := h.greyNodup
      fixed := hfixed
      finalizers := hfinalizers
      pending := hpending
      registered := hregistered
      total := rfl
      total_lt := h.total_lt } h

end Space

end Tricolor
