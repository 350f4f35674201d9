import Tricolor.Proofs.Arena.History
import Tricolor.Proofs.Space.Releasing
import Tricolor.Proofs.Space.Selection

/-!
# The indices of a space

The index of an arena is written down three times: as its place in the list, in the arena itself, and
in the map that leads from a page to it. Whatever is done with a space, `Space.Indexed` says that the
three agree. An operation on an object of an arena leaves that arena where it is (`Arena.Stays`); only
a new arena and the release of spare ones touch the list and the map.
-/

namespace Tricolor

namespace Arena

variable {a a' a'' : Arena} {c : Nat}

theorem Keeps.stays (h : a.Keeps a') (ha' : a'.Tiled) : a.Stays a' := ⟨h.page, h.index, ha'⟩

theorem Stays.trans (h : a.Stays a') (h' : a'.Stays a'') : a.Stays a'' :=
  ⟨h'.page.trans h.page, h'.index.trans h.index, h'.tiled⟩

/-- A change of the lists of an arena, or of what its objects hold. -/
theorem Stays.congr (h : a.Stays a') (headers : Zeroed Header) (bytes : Zeroed UInt8) (grey : GreyStack)
    (finalizers : FinalizerRegister) (fixed : Array Nat) :
    a.Stays { a' with headers, bytes, grey, finalizers, fixed } :=
  ⟨h.page, h.index, h.tiled.congr headers bytes grey finalizers fixed⟩

/-- Giving an object another colour. -/
theorem Tiled.stays_mark (ha : a.Tiled) (hc : a.isAllocated c = true) (bit : Bool) :
    a.Stays { a with mark := a.mark.set c bit } := ⟨rfl, rfl, (ha.measure_mark hc bit).1⟩

theorem Tiled.stays_setMark (ha : a.Tiled) (hc : a.isAllocated c = true) (hrun : a.setMark c = .ok a') :
    a.Stays a' := by
  obtain ⟨_, -, hret⟩ := bind_eq_ok_iff.1 hrun
  cases hret
  exact ha.stays_mark hc true

theorem Tiled.stays_clearMark (ha : a.Tiled) (hc : a.isAllocated c = true) (hrun : a.clearMark c = .ok a') :
    a.Stays a' := by
  obtain ⟨_, -, hret⟩ := bind_eq_ok_iff.1 hrun
  cases hret
  exact ha.stays_mark hc false

theorem Tiled.stays_sweep (ha : a.Tiled) (hrun : a.sweep = .ok a') : a.Stays a' := by
  cases hsweep : a.needsSweep with
  | true =>
    have hswept := sweep_eq_ok ha hsweep hrun
    exact hswept.keeps.stays hswept.tiled
  | false =>
    rw [sweep, hsweep] at hrun
    cases hrun
    exact .refl ha

theorem Tiled.stays_selectFinalizers (ha : a.Tiled) {isFinalizable : Ref → Bool} {asked doomed : List Nat}
    (hrun : a.selectFinalizers isFinalizable = .ok (asked, doomed, a')) : a.Stays a' := by
  obtain ⟨_, -, hrun⟩ := bind_eq_ok_iff.1 hrun
  cases hrun
  exact (Stays.refl ha).congr _ a.bytes a.grey _ a.fixed

end Arena

namespace Space

variable {s s' : Space} {r : Ref} {a a' : Arena} {i : Nat}

/-- An object of an arena heads a cell of the arena at its page. -/
theorem isAllocated_small (hr : r.isHuge = false) :
    s.isAllocated r = true ↔ ∃ a, s.arena? r.page = some a ∧ a.isAllocated r.cell = true := by
  rw [isAllocated, hr, if_neg Bool.false_ne_true, arena?]
  cases s.indices[r.page]? with
  | none => simp
  | some i => exact Option.any_eq_true _ _

namespace Indexed

/-! ## Changes of arenas -/

theorem updateArena (h : s.Indexed) {α : Type} {f : Arena → Except Fault (α × Arena)} {x : α}
    (hrun : s.updateArena i f = .ok (x, s'))
    (hf : ∀ a a', a.Tiled → f a = .ok (x, a') → a.Stays a') : s'.Indexed := by
  obtain ⟨a, a', ha, hfa, rfl⟩ := updateArena_eq_ok_iff'.1 hrun
  exact h.setArena ha (hf a a' (h.tiled ha) hfa)

theorem modifyArenaOf (h : s.Indexed) {f : Arena → Except Fault Arena} (hrun : s.modifyArenaOf r f = .ok s')
    (hf : ∀ a a', s.arena? r.page = some a → a.Tiled → f a = .ok a' → a.Stays a') : s'.Indexed := by
  obtain ⟨i, hi, hrun⟩ := bind_eq_ok_iff.1 hrun
  obtain ⟨⟨_, _⟩, hupdate, hret⟩ := bind_eq_ok_iff.1 hrun
  cases hret
  obtain ⟨a, a', ha, hfa, rfl⟩ := updateArena_eq_ok_iff'.1 hupdate
  obtain ⟨_, hfa, hret⟩ := bind_eq_ok_iff.1 hfa
  cases hret
  obtain ⟨b, hb, hp⟩ := h.indexOf_eq_ok hi
  rw [ha] at hb
  cases hb
  exact h.setArena ha (hf a _ (h.arena?_eq_some.2 ⟨i, ha, hp⟩) (h.tiled ha) hfa)

/-! ## Placing and freeing -/

section Place

variable {supply : Supply} {cells size : Nat} {result : Except AllocError Ref} {r? : Option Ref}

theorem allocIn (h : s.Indexed) (hpos : 0 < cells) (hrun : s.allocIn i cells = .ok (r?, s')) :
    (r? = none → s' = s) ∧ s'.Indexed ∧ i < s'.arenas.size := by
  obtain ⟨a, a', head?, ha, halloc, hcases⟩ := allocIn_cases hrun
  have hi := (Array.getElem?_eq_some_iff.1 ha).1
  obtain ⟨hfull, hplaced⟩ := Arena.alloc_eq_ok (h.tiled ha) hpos halloc
  obtain ⟨hnone, -, rfl⟩ | ⟨head, hhead, rfl, -, rfl⟩ := hcases
  · cases hfull hnone
    rw [setArena_self ha]
    exact ⟨fun _ => rfl, h, hi⟩
  · have hspec := hplaced head hhead
    have h₁ := h.setArena ha (hspec.keeps.stays hspec.tiled)
    exact ⟨fun hr => (by cases hr), h₁.of_arenas rfl rfl rfl, lt_of_lt_of_eq hi Array.size_setIfInBounds.symm⟩

theorem setCurrent (h : s.Indexed) (hi : i < s.arenas.size) : Indexed { s with current := some i } where
  tiled := h.tiled
  index := h.index
  page_lt := h.page_lt
  indices := h.indices
  current j hj := by
    cases hj
    exact hi

theorem allocAmong (h : s.Indexed) (hpos : 0 < cells) {indices : List Nat}
    (hrun : s.allocAmong cells indices = .ok (r?, s')) : (r? = none → s' = s) ∧ s'.Indexed := by
  induction indices with
  | nil =>
    cases hrun
    exact ⟨fun _ => rfl, h⟩
  | cons index rest ih =>
    rw [Space.allocAmong] at hrun
    obtain ⟨⟨found?, s₁⟩, halloc, hrest⟩ := bind_eq_ok_iff.1 hrun
    obtain ⟨hnone, h₁, hlt⟩ := h.allocIn hpos halloc
    cases found? with
    | none =>
      cases hnone rfl
      exact ih hrest
    | some r =>
      cases hrest
      exact ⟨fun hr => (by cases hr), h₁.setCurrent hlt⟩

theorem allocElsewhere (h : s.Indexed) (hfresh : supply.Fresh s 0) (hpos : 0 < cells)
    (hrun : s.allocElsewhere supply cells = .ok (result, s')) : s'.Indexed := by
  obtain ⟨⟨found?, s₁⟩, hamong, hrest⟩ := bind_eq_ok_iff.1 hrun
  obtain ⟨hnone, h₁⟩ := h.allocAmong hpos hamong
  cases found? with
  | some r =>
    cases hrest
    exact h₁
  | none =>
    cases hnone rfl
    simp only [Space.addArena] at hrest
    cases hp : supply pageBytes with
    | none =>
      rw [hp] at hrest
      cases hrest
      exact h
    | some p =>
      rw [hp] at hrest
      obtain ⟨hlt, hvacant, -⟩ := (hfresh pageBytes p hp).2 p (within_self p (by decide))
      obtain ⟨⟨placed?, s₂⟩, halloc, hret⟩ := bind_eq_ok_iff.1 hrest
      obtain ⟨-, h₂, -⟩ := (h.addArena hlt hvacant).allocIn hpos halloc
      cases placed? <;> (cases hret; exact h₂)

theorem allocCells (h : s.Indexed) (hfresh : supply.Fresh s 0) (hpos : 0 < cells)
    (hrun : s.allocCells supply cells = .ok (result, s')) : s'.Indexed := by
  rw [Space.allocCells] at hrun
  cases hc : s.current with
  | none =>
    rw [hc] at hrun
    exact h.allocElsewhere hfresh hpos hrun
  | some index =>
    rw [hc] at hrun
    obtain ⟨⟨found?, s₁⟩, halloc, hrest⟩ := bind_eq_ok_iff.1 hrun
    obtain ⟨hnone, h₁, -⟩ := h.allocIn hpos halloc
    cases found? with
    | some r =>
      cases hrest
      exact h₁
    | none =>
      cases hnone rfl
      exact h.allocElsewhere hfresh hpos hrest

theorem allocHuge (h : s.Indexed) (hrun : s.allocHuge supply size = .ok (result, s')) : s'.Indexed := by
  obtain ⟨-, -, rfl⟩ | ⟨p, blocks, marked, -, -, -, -, -, rfl⟩ := allocHuge_cases hrun
  · exact h
  · exact h.of_arenas rfl rfl rfl

theorem resizeHuge (h : s.Indexed) (hrun : s.resizeHuge supply r size = .ok (result, s')) : s'.Indexed := by
  obtain ⟨old, -, -, ⟨-, -, rfl⟩ | ⟨q, blocks, -, -, -, -, -, rfl⟩⟩ := resizeHuge_cases hrun
  · exact h
  · exact h.of_arenas rfl rfl rfl

theorem freeHuge (h : s.Indexed) (hrun : s.freeHuge r = .ok (size, s')) : s'.Indexed := by
  obtain ⟨header, blocks, -, -, -, -, rfl⟩ := freeHuge_cases hrun
  exact h.of_arenas rfl rfl rfl

theorem freeSmall (h : s.Indexed) (hrun : s.freeSmall r = .ok (size, s')) : s'.Indexed := by
  obtain ⟨i, a, a', cells, -, ha, hfree, -, -, rfl⟩ := freeSmall_cases hrun
  have hunlisted : a.Stays (a.unlist r.cell) := (Arena.Stays.refl (h.tiled ha)).congr _ _ _ _ _
  have hvacated := Arena.free_eq_ok hunlisted.tiled hfree
  exact (h.setArena ha (hunlisted.trans (hvacated.keeps.stays hvacated.tiled))).of_arenas rfl rfl rfl

theorem free (h : s.Indexed) (hrun : s.free r = .ok (size, s')) : s'.Indexed := by
  rw [Space.free] at hrun
  split at hrun
  · exact h.freeHuge hrun
  · exact h.freeSmall hrun

end Place

/-! ## Marking -/

theorem markHuge (h : s.Indexed) {isLeaf : Bool} (hrun : s.markHuge r isLeaf = .ok s') : s'.Indexed := by
  obtain ⟨-, flags, -, ⟨-, rfl⟩ | ⟨-, ⟨-, blocks, -, rfl⟩ | ⟨-, blocks, -, rfl⟩⟩⟩ := markHuge_cases hrun
  · exact h
  · exact h.of_arenas rfl rfl rfl
  · exact h.of_arenas rfl rfl rfl

theorem markSmall (h : s.Indexed) {isLeaf : Bool} (hrun : s.markSmall r isLeaf = .ok s') : s'.Indexed := by
  obtain ⟨i, a, a', -, ha, halloc, rfl, hcases⟩ := markSmall_cases hrun
  refine h.setArena ha ?_
  obtain rfl | ⟨b, hmark, rfl | ⟨grey, -, rfl⟩⟩ := hcases
  · exact .refl (h.tiled ha)
  · exact (h.tiled ha).stays_setMark halloc hmark
  · exact ((h.tiled ha).stays_setMark halloc hmark).congr _ _ _ _ _

theorem mark (h : s.Indexed) (hrun : s.mark r = .ok s') : s'.Indexed := by
  obtain ⟨header, -, hrun⟩ := bind_eq_ok_iff.1 hrun
  simp only at hrun
  split at hrun
  · exact h.markHuge hrun
  · exact h.markSmall hrun

/-- A change of the arena of an object that is allocated. -/
theorem modifyAllocated (h : s.Indexed) (hr : r.isHuge = false) (halloc : s.isAllocated r = true)
    {f : Arena → Except Fault Arena} (hrun : s.modifyArenaOf r f = .ok s')
    (hf : ∀ a a', a.Tiled → a.isAllocated r.cell = true → f a = .ok a' → a.Stays a') : s'.Indexed := by
  obtain ⟨b, hb, hcell⟩ := (isAllocated_small hr).1 halloc
  refine h.modifyArenaOf hrun fun a a' ha htiled hfa => hf a a' htiled ?_ hfa
  rw [hb] at ha
  cases ha
  exact hcell

theorem setMark (h : s.Indexed) (halloc : s.isAllocated r = true) (hrun : s.setMark r = .ok s') : s'.Indexed := by
  rw [Space.setMark] at hrun
  split at hrun
  · obtain ⟨blocks, -, hret⟩ := bind_eq_ok_iff.1 hrun
    cases hret
    exact h.of_arenas rfl rfl rfl
  · next hr => exact h.modifyAllocated (by simpa using hr) halloc hrun fun _ _ => Arena.Tiled.stays_setMark

theorem clearMark (h : s.Indexed) (halloc : s.isAllocated r = true) (hrun : s.clearMark r = .ok s') :
    s'.Indexed := by
  rw [Space.clearMark] at hrun
  split at hrun
  · obtain ⟨blocks, -, hret⟩ := bind_eq_ok_iff.1 hrun
    cases hret
    exact h.of_arenas rfl rfl rfl
  · next hr => exact h.modifyAllocated (by simpa using hr) halloc hrun fun _ _ => Arena.Tiled.stays_clearMark

theorem visit (h : s.Indexed) {mode : WeakMode} {v : Visit} (hrun : s.visit mode v = .ok s') : s'.Indexed := by
  rw [Space.visit] at hrun
  split at hrun
  · obtain ⟨header, -, hrun⟩ := bind_eq_ok_iff.1 hrun
    split at hrun
    · exact h.mark hrun
    · cases hrun
      exact h
  · exact h.mark hrun

theorem popGrey (h : s.Indexed) {source : GreySource} {r? : Option Ref} (hrun : s.popGrey source = .ok (r?, s')) :
    s'.Indexed := by
  cases source with
  | arena index =>
    rw [Space.popGrey] at hrun
    refine h.updateArena hrun fun a a' ha hf => ?_
    obtain ⟨cell?, cells, heq, -⟩ := popCell_spec a.grey.size (a := a) le_rfl
    rw [heq] at hf
    cases hf
    exact (Arena.Stays.refl ha).congr _ _ _ _ _
  | huge =>
    obtain ⟨⟨page?, s₁⟩, hpop, hret⟩ := bind_eq_ok_iff.1 hrun
    cases hret
    obtain ⟨blocks, grey, rfl⟩ := popPage_changes hpop
    exact h.of_arenas rfl rfl rfl

/-! ## Contents and registrations -/

theorem modifyHeader (h : s.Indexed) {f : Header → Header} (hrun : s.modifyHeader r f = .ok s') : s'.Indexed := by
  rw [Space.modifyHeader] at hrun
  split at hrun
  · obtain ⟨_, -, hret⟩ := bind_eq_ok_iff.1 hrun
    cases hret
    exact h.of_arenas rfl rfl rfl
  · refine h.modifyArenaOf hrun fun a a' _ ha hf => ?_
    cases hf
    exact (Arena.Stays.refl ha).congr _ _ _ _ _

theorem modifyBytes (h : s.Indexed) {f : Zeroed UInt8 → Zeroed UInt8} (hrun : s.modifyBytes r f = .ok s') :
    s'.Indexed := by
  rw [Space.modifyBytes] at hrun
  split at hrun
  · obtain ⟨_, -, hret⟩ := bind_eq_ok_iff.1 hrun
    cases hret
    exact h.of_arenas rfl rfl rfl
  · refine h.modifyArenaOf hrun fun a a' _ ha hf => ?_
    cases hf
    exact (Arena.Stays.refl ha).congr _ _ _ _ _

theorem fix (h : s.Indexed) (hrun : s.fix r = .ok s') : s'.Indexed := by
  obtain ⟨header, -, hrun⟩ := bind_eq_ok_iff.1 hrun
  split at hrun
  · cases hrun
    exact h
  · obtain ⟨s₁, hheader, hrun⟩ := bind_eq_ok_iff.1 hrun
    have h₁ := h.modifyHeader hheader
    split at hrun
    · cases hrun
      exact h₁.of_arenas rfl rfl rfl
    · refine h₁.modifyArenaOf hrun fun a a' _ ha hf => ?_
      cases hf
      exact (Arena.Stays.refl ha).congr _ _ _ _ _

theorem registerFinalizer (h : s.Indexed) (hrun : s.registerFinalizer r = .ok s') : s'.Indexed := by
  obtain ⟨header, -, hrun⟩ := bind_eq_ok_iff.1 hrun
  split at hrun
  · cases hrun
    exact h
  · obtain ⟨s₁, hheader, hrun⟩ := bind_eq_ok_iff.1 hrun
    have h₁ := h.modifyHeader hheader
    split at hrun
    · cases hrun
      exact h₁.of_arenas rfl rfl rfl
    · refine h₁.modifyArenaOf hrun fun a a' _ ha hf => ?_
      cases hf
      exact (Arena.Stays.refl ha).congr _ _ _ _ _

theorem markFixed (h : s.Indexed) (hrun : s.markFixed = .ok s') : s'.Indexed :=
  foldlM_keeps h (fun _ h hx => h.mark hx) hrun

theorem selectInArenas (h : s.Indexed) {isFinalizable : Ref → Bool} {indices : List Nat} {selection : Selection}
    (hrun : s.selectInArenas isFinalizable indices = .ok (selection, s')) : s'.Indexed := by
  induction indices generalizing s selection with
  | nil =>
    cases hrun
    exact h
  | cons index rest ih =>
    rw [Space.selectInArenas] at hrun
    obtain ⟨⟨here, s₁⟩, hupdate, hrun⟩ := bind_eq_ok_iff.1 hrun
    obtain ⟨⟨others, s₂⟩, hothers, hret⟩ := bind_eq_ok_iff.1 hrun
    cases hret
    refine ih (h.updateArena hupdate fun a a' ha hf => ?_) hothers
    obtain ⟨⟨asked, doomed, b⟩, hselect, hret⟩ := bind_eq_ok_iff.1 hf
    cases hret
    exact ha.stays_selectFinalizers hselect

theorem selectHuge (h : s.Indexed) {isFinalizable : Ref → Bool} {selection : Selection}
    (hrun : s.selectHuge isFinalizable = .ok (selection, s')) : s'.Indexed := by
  obtain ⟨unmarked, -, hrun⟩ := bind_eq_ok_iff.1 hrun
  simp only [List.partition_eq_filter_filter] at hrun
  obtain ⟨s₁, hforget, hret⟩ := bind_eq_ok_iff.1 hrun
  cases hret
  refine foldlM_keeps (P := Indexed) ?_ (fun _ h hx => h.modifyHeader hx) hforget
  exact h.of_arenas rfl rfl rfl

theorem selectFinalizers (h : s.Indexed) {isFinalizable : Ref → Bool} {selection : Selection}
    (hrun : s.selectFinalizers isFinalizable = .ok (selection, s')) : s'.Indexed := by
  obtain ⟨⟨small, s₁⟩, hsmall, hrun⟩ := bind_eq_ok_iff.1 hrun
  obtain ⟨⟨huge, s₂⟩, hhuge, hret⟩ := bind_eq_ok_iff.1 hrun
  cases hret
  exact (h.selectInArenas hsmall).selectHuge hhuge

theorem takePendingSmall (h : s.Indexed) {indices : List Nat} {r? : Option Ref}
    (hrun : s.takePendingSmall indices = .ok (r?, s')) : s'.Indexed := by
  induction indices generalizing s with
  | nil =>
    cases hrun
    exact h
  | cons index rest ih =>
    rw [Space.takePendingSmall] at hrun
    obtain ⟨⟨found?, s₁⟩, hupdate, hrun⟩ := bind_eq_ok_iff.1 hrun
    have h₁ : s₁.Indexed := h.updateArena hupdate fun a a' ha hf => by
      split at hf
      · cases hf
        exact .refl ha
      · cases hf
        exact (Arena.Stays.refl ha).congr _ _ _ _ _
    cases found? with
    | none => exact ih h₁ hrun
    | some r =>
      cases hrun
      exact h₁

theorem takePendingHuge (h : s.Indexed) : s.takePendingHuge.2.Indexed := by
  rw [Space.takePendingHuge]
  split
  · exact h
  · exact h.of_arenas rfl rfl rfl

theorem takePendingFinalizer (h : s.Indexed) {r? : Option Ref} (hrun : s.takePendingFinalizer = .ok (r?, s')) :
    s'.Indexed := by
  obtain ⟨⟨small?, s₁⟩, hsmall, hrest⟩ := bind_eq_ok_iff.1 hrun
  have h₁ := h.takePendingSmall hsmall
  have hhuge : s₁.takePendingHuge.2.Indexed := h₁.takePendingHuge
  -- both searches end in the header of the object that is found
  have hfinish : ∀ {found : Ref} {s₂ : Space}, s₂.Indexed →
      (do return (some found, ← s₂.modifyHeader found fun h => { h with hasFinalizer := false })) =
        Except.ok (ε := Fault) (r?, s') → s'.Indexed := fun hfound hrun => by
    obtain ⟨_, hheader, hret⟩ := bind_eq_ok_iff.1 hrun
    cases hret
    exact hfound.modifyHeader hheader
  cases small? with
  | some r => exact hfinish h₁ hrest
  | none =>
    dsimp only at hrest
    obtain ⟨⟨huge?, s₂⟩, hpair⟩ : ∃ taken, s₁.takePendingHuge = taken := ⟨_, rfl⟩
    rw [hpair] at hhuge hrest
    cases huge? with
    | none =>
      cases hrest
      exact hhuge
    | some r => exact hfinish hhuge hrest

/-! ## Sweeping -/

theorem sweepArena (h : s.Indexed) {freed : Nat} (hrun : s.sweepArena i = .ok (freed, s')) : s'.Indexed := by
  obtain ⟨a, a', ha, hsweep, -, -, -, rfl⟩ := sweepArena_cases hrun
  exact (h.setArena ha ((h.tiled ha).stays_sweep hsweep)).of_arenas rfl rfl rfl

theorem sweepHuge (h : s.Indexed) {freed : Nat} (hrun : s.sweepHuge = .ok (freed, s')) : s'.Indexed := by
  obtain ⟨-, dead, blocks, -, -, -, rfl⟩ := sweepHuge_cases hrun
  exact h.of_arenas rfl rfl rfl

end Indexed

end Space

end Tricolor
