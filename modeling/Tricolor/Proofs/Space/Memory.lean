import Tricolor.Proofs.Arena.Memory
import Tricolor.Proofs.Space.Releasing
import Tricolor.Proofs.Space.Resizing
import Tricolor.Proofs.Space.Selection

/-!
# What is written into the memory of a space

`Space.Amends` is `Arena.Amends` for all arenas, together with the contents of the huge blocks:
nothing is written but the cells and blocks of `own`, flags in the headers of `flagged`, and links
in the heads of free runs. Placing an object and sweeping an arena use free runs up, so they are
`Space.Writes`, which is weaker.
-/

namespace Tricolor

/-- A huge block changed in the flags of its header at most, and only if that is permitted. -/
structure HugeBlock.Amends (flagged : Prop) (b b' : HugeBlock) : Prop where
  header : b'.header = b.header ∨ flagged ∧ b.header.SameObject b'.header
  bytes : b'.bytes = b.bytes

theorem HugeBlock.Amends.trans {flagged : Prop} {b b' b'' : HugeBlock} (h : b.Amends flagged b')
    (h' : b'.Amends flagged b'') : b.Amends flagged b'' where
  header := by
    rcases h'.header with heq | ⟨hflag, hsame⟩
    · rw [heq]
      exact h.header
    · rcases h.header with heq | ⟨-, hsame'⟩
      · exact .inr ⟨hflag, heq ▸ hsame⟩
      · exact .inr ⟨hflag, hsame.1.trans hsame'.1, hsame.2.trans hsame'.2⟩
  bytes := h'.bytes.trans h.bytes

namespace Space

variable {own flagged : Ref → Prop} {s s' s'' : Space} {r : Ref} {a a' : Arena} {i : Nat}

/-- No cell, and no block. -/
abbrev nowhere : Ref → Prop := fun _ => False

/-- The cells of a set that lie in a page. -/
abbrev cellsIn (cells : Ref → Prop) (p : Page) : Nat → Prop := fun c => cells ⟨p, c⟩

/-- The contents of a huge block that is left were there before, unless the block was written on
purpose. -/
def AmendsBlocks (own flagged : Ref → Prop) (s s' : Space) : Prop :=
  ∀ p b', s'.contents[p]? = some b' → own (.huge p) ∨ ∃ b, s.contents[p]? = some b ∧ b.Amends (flagged (.huge p)) b'

/-- The memory of `s'` is that of `s`, except for the cells and blocks of `own`, for flags in the
headers of `flagged`, and for the links of free runs. Arenas may have been added. -/
structure Writes (own flagged : Ref → Prop) (s s' : Space) : Prop where
  size_le : s.arenas.size ≤ s'.arenas.size
  arena : ∀ (i : Nat) (a' : Arena), s'.arenas[i]? = some a' → ∃ a : Arena,
    (s.arenas[i]? = some a ∨ s.arenas[i]? = none ∧ a = .new a'.page i) ∧
    a.Writes (cellsIn own a'.page) (cellsIn flagged a'.page) a'
  block : AmendsBlocks own flagged s s'

/-- The memory was written to as `Writes` says, there are the same arenas as before, and their free
runs have stayed free. -/
structure Amends (own flagged : Ref → Prop) (s s' : Space) : Prop where
  indices : s'.indices = s.indices
  size : s'.arenas.size = s.arenas.size
  arena : ∀ (i : Nat) (a : Arena), s.arenas[i]? = some a → ∃ a' : Arena, s'.arenas[i]? = some a' ∧
    a.Amends (cellsIn own a.page) (cellsIn flagged a.page) a'
  block : AmendsBlocks own flagged s s'

theorem AmendsBlocks.trans (h : AmendsBlocks own flagged s s') (h' : AmendsBlocks own flagged s' s'') :
    AmendsBlocks own flagged s s'' := by
  intro p b'' hb''
  rcases h' p b'' hb'' with hown | ⟨b', hb', hamends'⟩
  · exact .inl hown
  · rcases h p b' hb' with hown | ⟨b, hb, hamends⟩
    · exact .inl hown
    · exact .inr ⟨b, hb, hamends.trans hamends'⟩

theorem AmendsBlocks.of_subset (hcontents : ∀ p b, s'.contents[p]? = some b → own (.huge p) ∨ s.contents[p]? = some b) :
    AmendsBlocks own flagged s s' := fun p b hb =>
  (hcontents p b hb).imp_right fun hb => ⟨b, hb, .inl rfl, rfl⟩

/-- The arena at an index before the memory was amended. -/
theorem Amends.arena_before (h : s.Amends own flagged s') (ha' : s'.arenas[i]? = some a') :
    ∃ a, s.arenas[i]? = some a ∧ a.Amends (cellsIn own a.page) (cellsIn flagged a.page) a' := by
  have hlt := (Array.getElem?_eq_some_iff.1 ha').1
  rw [h.size] at hlt
  obtain ⟨b, hb, hamends⟩ := h.arena i _ (Array.getElem?_eq_getElem hlt)
  rw [ha'] at hb
  cases hb
  exact ⟨_, Array.getElem?_eq_getElem hlt, hamends⟩

theorem Amends.writes (h : s.Amends own flagged s') : s.Writes own flagged s' where
  size_le := h.size.ge
  arena i a' ha' := by
    obtain ⟨a, ha, hamends⟩ := h.arena_before ha'
    exact ⟨a, .inl ha, by rw [hamends.page]; exact hamends.toWrites⟩
  block := h.block

theorem Writes.trans (h : s.Writes own flagged s') (h' : s'.Amends own flagged s'') : s.Writes own flagged s'' where
  size_le := h'.size ▸ h.size_le
  arena i a'' ha'' := by
    obtain ⟨a', ha', hamends⟩ := h'.arena_before ha''
    obtain ⟨a, hor, hwrites⟩ := h.arena i a' ha'
    rw [hamends.page]
    exact ⟨a, hor, hwrites.trans hamends⟩
  block := h.block.trans h'.block

theorem Amends.trans (h : s.Amends own flagged s') (h' : s'.Amends own flagged s'') : s.Amends own flagged s'' where
  indices := h'.indices.trans h.indices
  size := h'.size.trans h.size
  arena i a ha := by
    obtain ⟨a', ha', hamends⟩ := h.arena i a ha
    obtain ⟨a'', ha'', hamends'⟩ := h'.arena i a' ha'
    rw [hamends.page] at hamends'
    exact ⟨a'', ha'', hamends.trans hamends'⟩
  block := h.block.trans h'.block

/-- A change that leaves the arenas alone. -/
theorem Amends.of_arenas (hindices : s'.indices = s.indices) (harenas : s'.arenas = s.arenas)
    (hcontents : ∀ p b, s'.contents[p]? = some b → own (.huge p) ∨ s.contents[p]? = some b) :
    s.Amends own flagged s' where
  indices := hindices
  size := by rw [harenas]
  arena i a ha := ⟨a, by rw [harenas]; exact ha, .refl a⟩
  block := .of_subset hcontents

theorem Amends.refl (s : Space) : s.Amends own flagged s := .of_arenas rfl rfl fun _ _ => .inr

/-- A change of one arena. -/
theorem Amends.setArena (ha : s.arenas[i]? = some a)
    (h : a.Amends (cellsIn own a.page) (cellsIn flagged a.page) a') (total : Nat) :
    s.Amends own flagged { s with arenas := s.arenas.setIfInBounds i a', total } where
  indices := rfl
  size := Array.size_setIfInBounds
  arena j b hb := by
    show ∃ b', (s.arenas.setIfInBounds i a')[j]? = some b' ∧ _
    rw [getElem?_setArena ha]
    split
    · next hij =>
      subst hij
      rw [ha] at hb
      cases hb
      exact ⟨a', rfl, h⟩
    · exact ⟨b, hb, .refl b⟩
  block := .of_subset fun _ _ => .inr

theorem Writes.setArena (ha : s.arenas[i]? = some a)
    (h : a.Writes (cellsIn own a.page) (cellsIn flagged a.page) a') (total : Nat) :
    s.Writes own flagged { s with arenas := s.arenas.setIfInBounds i a', total } where
  size_le := le_of_eq Array.size_setIfInBounds.symm
  arena j b' hb' := by
    have hget : (s.arenas.setIfInBounds i a')[j]? = some b' := hb'
    rw [getElem?_setArena ha] at hget
    split at hget
    · next hij =>
      subst hij
      cases hget
      exact ⟨a, .inl ha, by rw [h.page]; exact h⟩
    · exact ⟨b', .inl hget, (Arena.Amends.refl b').toWrites⟩
  block := .of_subset fun _ _ => .inr

theorem Amends.modifyArenaOf {f : Arena → Except Fault Arena} (hrun : s.modifyArenaOf r f = .ok s')
    (hf : ∀ (i : Nat) (a a' : Arena), s.indexOf r.page = .ok i → s.arenas[i]? = some a → f a = .ok a' →
      a.Amends (cellsIn own a.page) (cellsIn flagged a.page) a') : s.Amends own flagged s' := by
  obtain ⟨i, a, a', hi, ha, hfa, rfl⟩ := modifyArenaOf_eq_ok hrun
  exact .setArena ha (hf i a a' hi ha hfa) s.total

/-- The loops over objects write what their steps write. -/
theorem Amends.foldlM {α : Type} {f : Space → α → Except Fault Space} {xs : List α}
    (hf : ∀ {s s' : Space} {x : α}, x ∈ xs → f s x = .ok s' → s.Amends own flagged s')
    (hrun : xs.foldlM f s = .ok s') : s.Amends own flagged s' :=
  foldlM_keeps (P := s.Amends own flagged) (.refl s) (fun hmem h hx => h.trans (hf hmem hx)) hrun

/-- Arenas are found at their pages, and hand out no cells beyond their end. -/
structure Addressed (s : Space) : Prop where
  page : ∀ {p : Page} {i : Nat} {a : Arena}, s.indexOf p = .ok i → s.arenas[i]? = some a → a.page = p
  top_le : ∀ {i : Nat} {a : Arena}, s.arenas[i]? = some a → a.top ≤ arenaCells

theorem Wf.addressed (h : s.Wf) : s.Addressed where
  page hi ha := by
    obtain ⟨b, hb, hp⟩ := indexOf_eq_ok h hi
    rw [ha] at hb
    cases hb
    exact hp
  top_le ha := by
    obtain ⟨chains, htiled⟩ := (h.sound ha).tiled
    exact htiled.top_le

theorem Amends.addressed (h : s.Amends own flagged s') (hs : s.Addressed) : s'.Addressed where
  page {p i a'} hi ha' := by
    obtain ⟨a, ha, hamends⟩ := h.arena_before ha'
    rw [hamends.page]
    refine hs.page ?_ ha
    rw [indexOf, h.indices] at hi
    rw [indexOf]
    cases hp : s.indices[p]? with
    | none =>
      rw [hp] at hi
      cases hi
    | some j =>
      simp only [hp] at hi
      split at hi
      · cases hi
      · next b hb =>
        split at hi
        · next hindex =>
          cases hi
          rw [ha'] at hb
          cases hb
          simp only [ha, ← hamends.index, hindex, if_true]
        · cases hi
  top_le ha' := by
    obtain ⟨a, ha, hamends⟩ := h.arena_before ha'
    exact hamends.top_le.trans (hs.top_le ha)

/-! ## Marking -/

theorem Amends.markHuge {isLeaf : Bool} (hrun : s.markHuge r isLeaf = .ok s') : s.Amends own flagged s' := by
  obtain ⟨-, flags, -, ⟨-, rfl⟩ | ⟨-, ⟨-, blocks, -, rfl⟩ | ⟨-, blocks, -, rfl⟩⟩⟩ := markHuge_cases hrun
  · exact .refl _
  · exact .of_arenas rfl rfl fun _ _ => .inr
  · exact .of_arenas rfl rfl fun _ _ => .inr

theorem Amends.markSmall {isLeaf : Bool} (hrun : s.markSmall r isLeaf = .ok s') : s.Amends own flagged s' := by
  obtain ⟨i, a, a', -, ha, -, rfl, hcases⟩ := markSmall_cases hrun
  refine .setArena ha ?_ s.total
  obtain rfl | ⟨b, hmark, rfl | ⟨grey, -, rfl⟩⟩ := hcases
  · exact .refl _
  · exact .marked hmark
  · exact (Arena.Amends.marked hmark).trans (.of_mark rfl rfl rfl (fun _ hc => hc.2) rfl rfl rfl)

theorem Amends.mark (hrun : s.mark r = .ok s') : s.Amends own flagged s' := by
  obtain ⟨header, -, hrun⟩ := bind_eq_ok_iff.1 hrun
  simp only at hrun
  split at hrun
  · exact .markHuge hrun
  · exact .markSmall hrun

theorem Amends.setMark (hrun : s.setMark r = .ok s') : s.Amends own flagged s' := by
  rw [Space.setMark] at hrun
  split at hrun
  · obtain ⟨blocks, -, hret⟩ := bind_eq_ok_iff.1 hrun
    cases hret
    exact .of_arenas rfl rfl fun _ _ => .inr
  · exact .modifyArenaOf hrun fun _ _ _ _ _ hf => .marked hf

/-- Clearing the mark of an object that is marked. -/
theorem Amends.clearMark (hmarked : s.isMarked r = .ok true) (hrun : s.clearMark r = .ok s') :
    s.Amends own flagged s' := by
  rw [Space.clearMark] at hrun
  rw [isMarked] at hmarked
  split at hrun
  · obtain ⟨blocks, -, hret⟩ := bind_eq_ok_iff.1 hrun
    cases hret
    exact .of_arenas rfl rfl fun _ _ => .inr
  · next hr =>
    rw [if_neg hr] at hmarked
    refine .modifyArenaOf hrun fun i a a' hi ha hf => ?_
    obtain ⟨b, hb, hmarked⟩ := bind_eq_ok_iff.1 hmarked
    obtain ⟨_, halloc, -⟩ := bind_eq_ok_iff.1 hmarked
    have hb : s.arenaOf r = .ok b := hb
    rw [arenaOf, hi] at hb
    have hb : s.arenaAt i = .ok b := hb
    rw [arenaAt, ha] at hb
    cases hb
    exact .unmarked (require_eq_ok_iff.1 halloc) hf

theorem Amends.visit {mode : WeakMode} {v : Visit} (hrun : s.visit mode v = .ok s') : s.Amends own flagged s' := by
  rw [Space.visit] at hrun
  split at hrun
  · obtain ⟨header, -, hrun⟩ := bind_eq_ok_iff.1 hrun
    split at hrun
    · exact .mark hrun
    · cases hrun
      exact .refl s
  · exact .mark hrun

theorem Amends.markRecorded (hrun : s.markRecorded r = .ok s') : s.Amends own flagged s' := by
  obtain ⟨marked, -, hrun⟩ := bind_eq_ok_iff.1 hrun
  split at hrun
  · cases hrun
    exact .refl s
  · exact .mark hrun

theorem Amends.popGrey {source : GreySource} {r? : Option Ref} (hrun : s.popGrey source = .ok (r?, s')) :
    s.Amends own flagged s' := by
  cases source with
  | arena index =>
    rw [Space.popGrey] at hrun
    obtain ⟨a, a', ha, hf, rfl⟩ := updateArena_eq_ok_iff'.1 hrun
    obtain ⟨cell?, cells, heq, -⟩ := popCell_spec a.grey.size (a := a) le_rfl
    rw [heq] at hf
    cases hf
    have hpopped : a.Amends (cellsIn own a.page) (cellsIn flagged a.page) { a with grey := ⟨cells⟩ } :=
      .of_mark rfl rfl rfl (fun _ hc => hc.2) rfl rfl rfl
    exact .setArena ha hpopped s.total
  | huge =>
    obtain ⟨⟨page?, s₁⟩, hpop, hret⟩ := bind_eq_ok_iff.1 hrun
    cases hret
    obtain ⟨blocks, grey, rfl⟩ := popPage_changes hpop
    exact .of_arenas rfl rfl fun _ _ => .inr

theorem Amends.beginSweep : s.Amends own flagged s.beginSweep where
  indices := rfl
  size := Array.size_map
  arena i a ha := by
    refine ⟨if a.isEmpty then a else { a with needsSweep := true }, ?_, ?_⟩
    · show (s.arenas.map _)[i]? = _
      rw [Array.getElem?_map, ha]
      rfl
    · split
      · exact .refl a
      · exact .of_mark rfl rfl rfl (fun _ hc => hc.2) rfl rfl rfl
  block := .of_subset fun _ _ => .inr

/-! ## Headers and bytes -/

theorem Amends.modifyHeader_huge {p : Page} {f : Header → Header} (hrun : s.modifyHeader (.huge p) f = .ok s')
    (hp : own (.huge p) ∨ flagged (.huge p) ∧ ∀ header : Header, header.SameObject (f header)) :
    s.Amends own flagged s' := by
  obtain ⟨_, -, hret⟩ := bind_eq_ok_iff.1 hrun
  cases hret
  refine ⟨rfl, rfl, fun i a ha => ⟨a, ha, .refl a⟩, fun q b' hb' => ?_⟩
  have hget : (s.contents.modify p fun b => { b with header := f b.header })[q]? = some b' := hb'
  rw [Std.TreeMap.getElem?_modify] at hget
  split at hget
  · next hpq =>
    rw [← compare_eq_iff.1 hpq]
    refine hp.imp_right fun hflag => ?_
    obtain ⟨b, hb, rfl⟩ := Option.map_eq_some_iff.1 hget
    exact ⟨b, hb, .inr ⟨hflag.1, hflag.2 _⟩, rfl⟩
  · exact .inr ⟨b', hget, .inl rfl, rfl⟩

theorem Amends.modifyHeader (h : s.Addressed) {f : Header → Header} (hrun : s.modifyHeader r f = .ok s')
    (hr : own r ∨ flagged r ∧ ∀ header : Header, header.SameObject (f header)) : s.Amends own flagged s' := by
  cases hhuge : r.isHuge with
  | true =>
    rw [eq_huge hhuge] at hr hrun
    exact .modifyHeader_huge hrun hr
  | false =>
    rw [Space.modifyHeader, if_neg (by rw [hhuge]; exact Bool.false_ne_true)] at hrun
    refine .modifyArenaOf hrun fun i a a' hi ha hf => ?_
    cases hf
    exact .modifyHeader (by rw [h.page hi ha]; exact hr)

theorem Amends.modifyBytes (h : s.Addressed) {f : Zeroed UInt8 → Zeroed UInt8} (hr : own r)
    (hrun : s.modifyBytes r f = .ok s')
    (hf : ∀ m i, (f m).get i = m.get i ∨ own ⟨r.page, i / cellBytes⟩) : s.Amends own flagged s' := by
  rw [Space.modifyBytes] at hrun
  split at hrun
  · next hhuge =>
    rw [eq_huge hhuge] at hr
    obtain ⟨_, -, hret⟩ := bind_eq_ok_iff.1 hrun
    cases hret
    refine .of_arenas rfl rfl fun p b' hb' => ?_
    have hb' : (s.contents.modify r.page fun b => { b with bytes := f b.bytes })[p]? = some b' := hb'
    rw [Std.TreeMap.getElem?_modify] at hb'
    split at hb'
    · next hp => exact .inl (compare_eq_iff.1 hp ▸ hr)
    · exact .inr hb'
  · refine .modifyArenaOf hrun fun i a a' hi ha hfa => ?_
    cases hfa
    exact .modifyBytes (by rw [h.page hi ha]; exact hf)

/-! ## Registering and selecting -/

theorem Amends.fix (h : s.Addressed) (hr : own r ∨ flagged r) (hrun : s.fix r = .ok s') : s.Amends own flagged s' := by
  obtain ⟨header, -, hrun⟩ := bind_eq_ok_iff.1 hrun
  split at hrun
  · cases hrun
    exact .refl s
  · obtain ⟨s₁, hheader, hrun⟩ := bind_eq_ok_iff.1 hrun
    refine (Amends.modifyHeader h hheader (hr.imp_right fun hflag => ⟨hflag, fun _ => ⟨rfl, rfl⟩⟩)).trans ?_
    split at hrun
    · cases hrun
      exact .of_arenas rfl rfl fun _ _ => .inr
    · refine .modifyArenaOf hrun fun i a a' _ _ hf => ?_
      cases hf
      exact .of_mark rfl rfl rfl (fun _ hc => hc.2) rfl rfl rfl

theorem Amends.registerFinalizer (h : s.Addressed) (hr : own r ∨ flagged r) (hrun : s.registerFinalizer r = .ok s') :
    s.Amends own flagged s' := by
  obtain ⟨header, -, hrun⟩ := bind_eq_ok_iff.1 hrun
  split at hrun
  · cases hrun
    exact .refl s
  · obtain ⟨s₁, hheader, hrun⟩ := bind_eq_ok_iff.1 hrun
    refine (Amends.modifyHeader h hheader (hr.imp_right fun hflag => ⟨hflag, fun _ => ⟨rfl, rfl⟩⟩)).trans ?_
    split at hrun
    · cases hrun
      exact .of_arenas rfl rfl fun _ _ => .inr
    · refine .modifyArenaOf hrun fun i a a' _ _ hf => ?_
      cases hf
      exact .of_mark rfl rfl rfl (fun _ hc => hc.2) rfl rfl rfl

/-- Selecting finalizers writes flags of the objects that are asked about. -/
theorem Amends.selectInArenas {isFinalizable : Ref → Bool} {indices : List Nat} {selection : Selection}
    (hasked : ∀ r ∈ selection.asked, flagged r)
    (hrun : s.selectInArenas isFinalizable indices = .ok (selection, s')) : s.Amends own flagged s' := by
  induction indices generalizing s selection with
  | nil =>
    cases hrun
    exact .refl s'
  | cons index rest ih =>
    rw [Space.selectInArenas] at hrun
    obtain ⟨⟨here, s₁⟩, hupdate, hrun⟩ := bind_eq_ok_iff.1 hrun
    obtain ⟨⟨others, s₂⟩, hothers, hret⟩ := bind_eq_ok_iff.1 hrun
    cases hret
    obtain ⟨a, a', ha, hf, rfl⟩ := updateArena_eq_ok_iff'.1 hupdate
    obtain ⟨⟨asked, doomed, a'⟩, hselect, hret⟩ := bind_eq_ok_iff.1 hf
    cases hret
    have hselected : a.Amends (cellsIn own a.page) (· ∈ asked) a' := .selected (fun _ => id) hselect
    have hflagged : ∀ c ∈ asked, cellsIn flagged a.page c := fun c hc => by
      rw [← hselected.page]
      exact hasked _ (List.mem_append_left _ (List.mem_map_of_mem hc))
    exact (Amends.setArena ha (.selected hflagged hselect) s.total).trans
      (ih (fun r hr => hasked r (List.mem_append_right _ hr)) hothers)

theorem Amends.selectHuge {isFinalizable : Ref → Bool} {selection : Selection}
    (hasked : ∀ r ∈ selection.asked, flagged r)
    (hrun : s.selectHuge isFinalizable = .ok (selection, s')) : s.Amends own flagged s' := by
  obtain ⟨unmarked, -, hrun⟩ := bind_eq_ok_iff.1 hrun
  simp only [List.partition_eq_filter_filter] at hrun
  obtain ⟨s₁, hforget, hret⟩ := bind_eq_ok_iff.1 hrun
  cases hret
  have hheaders : Amends own flagged _ s' := .foldlM (fun hmem hheader => ?_) hforget
  · refine Amends.trans ?_ hheaders
    exact .of_arenas rfl rfl fun _ _ => .inr
  refine .modifyHeader_huge hheader (.inr ⟨hasked _ ?_, fun _ => ⟨rfl, rfl⟩⟩)
  exact List.mem_map_of_mem (List.mem_of_mem_filter hmem)

theorem Amends.selectFinalizers {isFinalizable : Ref → Bool} {selection : Selection}
    (hasked : ∀ r ∈ selection.asked, flagged r)
    (hrun : s.selectFinalizers isFinalizable = .ok (selection, s')) : s.Amends own flagged s' := by
  obtain ⟨⟨small, s₁⟩, hsmall, hrun⟩ := bind_eq_ok_iff.1 hrun
  obtain ⟨⟨huge, s₂⟩, hhuge, hret⟩ := bind_eq_ok_iff.1 hrun
  cases hret
  exact (Amends.selectInArenas (fun r hr => hasked r (List.mem_append_left _ hr)) hsmall).trans
    (.selectHuge (fun r hr => hasked r (List.mem_append_right _ hr)) hhuge)

/-! ## Taking finalizers -/

theorem Amends.takePendingSmall {indices : List Nat} {r? : Option Ref}
    (hrun : s.takePendingSmall indices = .ok (r?, s')) : s.Amends own flagged s' := by
  induction indices generalizing s with
  | nil =>
    cases hrun
    exact .refl s'
  | cons index rest ih =>
    rw [Space.takePendingSmall] at hrun
    obtain ⟨⟨found?, s₁⟩, hupdate, hrun⟩ := bind_eq_ok_iff.1 hrun
    obtain ⟨a, a', ha, hf, rfl⟩ := updateArena_eq_ok_iff'.1 hupdate
    have hamends : a.Amends (cellsIn own a.page) (cellsIn flagged a.page) a' := by
      split at hf
      · cases hf
        exact .refl a
      · cases hf
        exact .of_mark rfl rfl rfl (fun _ hc => hc.2) rfl rfl rfl
    refine (Amends.setArena ha hamends s.total).trans ?_
    cases found? with
    | none => exact ih hrun
    | some r =>
      cases hrun
      exact .refl _

theorem Amends.takePendingFinalizer (h : s.Addressed) {r? : Option Ref} (hflagged : ∀ r, r? = some r → flagged r)
    (hrun : s.takePendingFinalizer = .ok (r?, s')) : s.Amends own flagged s' := by
  obtain ⟨⟨small?, s₁⟩, hsmall, hrest⟩ := bind_eq_ok_iff.1 hrun
  have hfirst : s.Amends own flagged s₁ := .takePendingSmall hsmall
  have hhuge : s₁.Amends own flagged s₁.takePendingHuge.2 := by
    rw [takePendingHuge]
    split
    · exact .refl s₁
    · exact .of_arenas rfl rfl fun _ _ => .inr
  -- both searches end in the header of the object that is found
  have hfinish : ∀ {found : Ref} {s₂ : Space}, s.Amends own flagged s₂ →
      (do return (some found, ← s₂.modifyHeader found fun h => { h with hasFinalizer := false })) =
        Except.ok (ε := Fault) (r?, s') → s.Amends own flagged s' := fun hfound hrun => by
    obtain ⟨_, hheader, hret⟩ := bind_eq_ok_iff.1 hrun
    cases hret
    exact hfound.trans (.modifyHeader (hfound.addressed h) hheader (.inr ⟨hflagged _ rfl, fun _ => ⟨rfl, rfl⟩⟩))
  cases small? with
  | some r => exact hfinish hfirst hrest
  | none =>
    dsimp only at hrest
    obtain ⟨⟨huge?, s₂⟩, hpair⟩ : ∃ taken, s₁.takePendingHuge = taken := ⟨_, rfl⟩
    rw [hpair] at hhuge hrest
    cases huge? with
    | none =>
      cases hrest
      exact hfirst.trans hhuge
    | some r => exact hfinish (hfirst.trans hhuge) hrest

/-! ## Freeing -/

theorem Amends.freeHuge {size : Nat} (hrun : s.freeHuge r = .ok (size, s')) : s.Amends own flagged s' := by
  obtain ⟨header, blocks, -, -, -, -, rfl⟩ := freeHuge_cases hrun
  refine .of_arenas rfl rfl fun p b hb => .inr ?_
  have hb : (s.contents.erase r.page)[p]? = some b := hb
  rw [getElem?_erase] at hb
  split at hb
  · cases hb
  · exact hb

theorem Amends.freeSmall (h : s.Addressed) {size : Nat} (hrun : s.freeSmall r = .ok (size, s')) :
    s.Amends own flagged s' := by
  obtain ⟨i, a, a', cells, -, ha, hfree, -, -, rfl⟩ := freeSmall_cases hrun
  have hunlisted : a.Amends (cellsIn own a.page) (cellsIn flagged a.page) (a.unlist r.cell) :=
    .of_mark rfl rfl rfl (fun _ hc => hc.2) rfl rfl rfl
  have htop : a.top ≤ arenaCells := h.top_le ha
  have hfreed : (a.unlist r.cell).Amends (cellsIn own a.page) (cellsIn flagged a.page) a' := .freed htop hfree
  exact .setArena ha (hunlisted.trans hfreed) _

theorem Amends.free (h : s.Addressed) {size : Nat} (hrun : s.free r = .ok (size, s')) : s.Amends own flagged s' := by
  rw [Space.free] at hrun
  split at hrun
  · exact .freeHuge hrun
  · exact .freeSmall h hrun

/-! ## Huge blocks -/

section Blocks

variable {supply : Supply} {size : Nat} {result : Except AllocError Ref}

theorem Amends.allocHuge (hown : ∀ r, result = .ok r → own r)
    (hrun : s.allocHuge supply size = .ok (result, s')) : s.Amends own flagged s' := by
  obtain ⟨-, -, rfl⟩ | ⟨page, blocks, marked, -, rfl, -, -, -, rfl⟩ := allocHuge_cases hrun
  · exact .refl _
  · refine .of_arenas rfl rfl fun p b hb => ?_
    have hb : (s.contents.insert page default)[p]? = some b := hb
    rw [getElem?_insert] at hb
    split at hb
    · next hp => exact .inl (hp ▸ hown _ rfl)
    · exact .inr hb

theorem Amends.resizeHuge (hown : ∀ moved, result = .ok moved → own moved)
    (hrun : s.resizeHuge supply r size = .ok (result, s')) : s.Amends own flagged s' := by
  obtain ⟨old, -, -, ⟨-, -, rfl⟩ | ⟨q, blocks, -, rfl, -, -, -, rfl⟩⟩ := resizeHuge_cases hrun
  · exact .refl _
  · refine .of_arenas rfl rfl fun p b hb => ?_
    have hb : ((s.contents.erase r.page).insert q _)[p]? = some b := hb
    rw [getElem?_insert] at hb
    split at hb
    · next hp => exact .inl (hp ▸ hown _ rfl)
    · rw [getElem?_erase] at hb
      split at hb
      · cases hb
      · exact .inr hb

theorem Amends.sweepHuge {freed : Nat} (hrun : s.sweepHuge = .ok (freed, s')) : s.Amends own flagged s' := by
  obtain ⟨-, dead, blocks, -, -, -, rfl⟩ := sweepHuge_cases hrun
  refine .of_arenas rfl rfl fun p b hb => .inr ?_
  have hb : (dead.foldl (fun contents e => contents.erase e.page) s.contents)[p]? = some b := hb
  rw [getElem?_foldl_erase] at hb
  split at hb
  · cases hb
  · exact hb

end Blocks

/-! ## Placing and sweeping -/

section Place

variable {supply : Supply} {cells : Nat} {result : Except AllocError Ref} {r? : Option Ref}

theorem Writes.sweepArena (h : s.Addressed) {freed index : Nat} (hrun : s.sweepArena index = .ok (freed, s')) :
    s.Writes own flagged s' := by
  obtain ⟨a, a', ha, hsweep, -, -, -, rfl⟩ := sweepArena_cases hrun
  exact .setArena ha (.swept (h.top_le ha) hsweep) _

theorem Writes.allocIn (h : s.Wf) (hpos : 0 < cells) {index : Nat}
    (hrun : s.allocIn index cells = .ok (r?, s')) : s.Writes own flagged s' := by
  obtain ⟨a, a', head?, ha, halloc, hcases⟩ := allocIn_cases hrun
  have hwrites : a.Writes (cellsIn own a.page) (cellsIn flagged a.page) a' :=
    .placed (h.sound ha).tiled hpos halloc
  obtain ⟨-, -, rfl⟩ | ⟨head, -, -, -, rfl⟩ := hcases
  · exact .setArena ha hwrites s.total
  · exact .setArena ha hwrites _

theorem Writes.allocAmong (h : s.Wf) (hpos : 0 < cells) {indices : List Nat}
    (hrun : s.allocAmong cells indices = .ok (r?, s')) : s.Writes own flagged s' := by
  induction indices with
  | nil =>
    cases hrun
    exact (Amends.refl s).writes
  | cons index rest ih =>
    rw [Space.allocAmong] at hrun
    obtain ⟨⟨found?, s₁⟩, halloc, hrest⟩ := bind_eq_ok_iff.1 hrun
    cases found? with
    | some r =>
      cases hrest
      exact (Writes.allocIn h hpos halloc).trans (.of_arenas rfl rfl fun _ _ => .inr)
    | none =>
      -- an arena without room is left as it was
      cases (allocIn_eq_ok h hpos halloc).2.1 rfl
      exact ih hrest

/-- What is written after an arena was added. -/
theorem Writes.of_push {p : Page} {indices : Std.TreeMap Page Nat} {current : Option Nat}
    (h : Writes own flagged { s with arenas := s.arenas.push (.new p s.arenas.size), indices, current } s') :
    s.Writes own flagged s' where
  size_le := le_trans (by rw [Array.size_push]; exact Nat.le_succ _) h.size_le
  arena i a' ha' := by
    obtain ⟨a, hor, hwrites⟩ := h.arena i a' ha'
    refine ⟨a, ?_, hwrites⟩
    simp only [Array.getElem?_push] at hor
    split at hor
    · next hi =>
      rcases hor with ha | ⟨hnone, -⟩
      · cases ha
        exact .inr ⟨hi ▸ Array.getElem?_eq_none le_rfl, by rw [hwrites.page, hi]; rfl⟩
      · cases hnone
    · exact hor
  block := h.block

theorem Writes.allocElsewhere (h : s.Wf) (hfresh : supply.Fresh s 0) (hpos : 0 < cells)
    (hrun : s.allocElsewhere supply cells = .ok (result, s')) : s.Writes own flagged s' := by
  obtain ⟨⟨found?, s₁⟩, hamong, hrest⟩ := bind_eq_ok_iff.1 hrun
  cases found? with
  | some r =>
    cases hrest
    exact .allocAmong h hpos hamong
  | none =>
    cases (allocAmong_eq_ok h hpos hamong).1 rfl
    simp only [addArena] at hrest
    cases hp : supply pageBytes with
    | none =>
      rw [hp] at hrest
      cases hrest
      exact (Amends.refl s).writes
    | some p =>
      rw [hp] at hrest
      obtain ⟨⟨placed?, s₂⟩, halloc, hret⟩ := bind_eq_ok_iff.1 hrest
      have hwrites : Writes own flagged _ s₂ := .allocIn (addArena_alike h hfresh hp).wf hpos halloc
      cases placed? with
      | none =>
        cases hret
        exact hwrites.of_push
      | some r =>
        cases hret
        exact hwrites.of_push

theorem Writes.allocCells (h : s.Wf) (hfresh : supply.Fresh s 0) (hpos : 0 < cells)
    (hrun : s.allocCells supply cells = .ok (result, s')) : s.Writes own flagged s' := by
  rw [Space.allocCells] at hrun
  cases hc : s.current with
  | none =>
    rw [hc] at hrun
    exact .allocElsewhere h hfresh hpos hrun
  | some index =>
    rw [hc] at hrun
    obtain ⟨⟨found?, s₁⟩, halloc, hrest⟩ := bind_eq_ok_iff.1 hrun
    cases found? with
    | some r =>
      cases hrest
      exact .allocIn h hpos halloc
    | none =>
      cases (allocIn_eq_ok h hpos halloc).2.1 rfl
      exact .allocElsewhere h hfresh hpos hrest

end Place

/-! ## Releasing arenas -/

/-- An arena that is left when spare ones are released was there before, with the same memory. -/
theorem exists_of_mem_releaseFrom (keep : Nat) : ∀ {n : Nat} {s : Space} {index kept released : Nat} {a : Arena},
    a ∈ (s.releaseFrom keep index kept released n).2.arenas →
      ∃ b ∈ s.arenas, a.page = b.page ∧ a.links = b.links ∧ a.headers = b.headers ∧ a.bytes = b.bytes := by
  intro n
  induction n with
  | zero => exact fun ha => ⟨_, ha, rfl, rfl, rfl, rfl⟩
  | succ n ih =>
    intro s index kept released a ha
    rw [releaseFrom] at ha
    split at ha
    · exact ⟨_, ha, rfl, rfl, rfl, rfl⟩
    · next gone hgone =>
      split at ha
      · split at ha
        · exact ih ha
        · obtain ⟨b, hb, hpage, hlinks, hheaders, hbytes⟩ := ih ha
          obtain ⟨j, hj⟩ := Array.getElem?_of_mem hb
          obtain ⟨-, hj⟩ := (arenas_removeArena hgone).1 hj
          split at hj
          · obtain ⟨d, hd, rfl⟩ := hj
            exact ⟨d, Array.mem_of_getElem? hd, hpage, hlinks, hheaders, hbytes⟩
          · exact ⟨b, Array.mem_of_getElem? hj, hpage, hlinks, hheaders, hbytes⟩
      · exact ih ha

end Space

end Tricolor
