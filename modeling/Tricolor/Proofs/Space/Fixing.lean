import Tricolor.Proofs.Space.Indices
import Tricolor.Proofs.Space.Memory

/-!
# Lists of fixed objects

An object is pushed onto a list of fixed objects only if its header does not say that it is fixed. All else
that is done with a space leaves the lists alone, drops entries, or renames a block. So no object is listed
twice, and this holds of arenas as of huge blocks (`Space.FixedOnce`).
-/

namespace Tricolor

namespace Arena

variable {a a' b : Arena} {c cells head n : Nat}

/-- What `a'` lists as fixed, `a` lists in the same order. -/
def FixesNone (a a' : Arena) : Prop := a'.fixed.toList.Sublist a.fixed.toList

theorem FixesNone.of_eq (h : a'.fixed = a.fixed) : a.FixesNone a' := by
  rw [FixesNone, h]

theorem FixesNone.refl (a : Arena) : a.FixesNone a := .of_eq rfl

theorem FixesNone.filter (a : Arena) (p : Nat → Bool) : a.FixesNone { a with fixed := a.fixed.filter p } := by
  rw [FixesNone, Array.toList_filter]
  exact List.filter_sublist

/-! ## Marking -/

theorem fixed_setMark (hrun : a.setMark c = .ok a') : a'.fixed = a.fixed := by
  obtain ⟨_, -, hret⟩ := bind_eq_ok_iff.1 hrun
  cases hret
  rfl

theorem fixed_clearMark (hrun : a.clearMark c = .ok a') : a'.fixed = a.fixed := by
  obtain ⟨_, -, hret⟩ := bind_eq_ok_iff.1 hrun
  cases hret
  rfl

/-! ## Placing and freeing -/

theorem fixed_claim {head? : Option Nat} (hrun : a.claim cells = .ok (head?, b)) : b.fixed = a.fixed := by
  obtain ⟨stop, -, hrun⟩ := bind_eq_ok_iff.1 hrun
  split at hrun
  · cases hrun
    rfl
  · obtain ⟨⟨found, runs⟩, -, hrun⟩ := bind_eq_ok_iff.1 hrun
    cases found with
    | none =>
      cases hrun
      rfl
    | some run =>
      simp only at hrun
      split at hrun
      · obtain ⟨_, -, hrun⟩ := bind_eq_ok_iff.1 hrun
        obtain ⟨_, -, hret⟩ := bind_eq_ok_iff.1 hrun
        cases hret
        rfl
      · cases hrun
        rfl

theorem fixed_alloc {head? : Option Nat} {black : Bool} (hrun : a.alloc cells black = .ok (head?, a')) :
    a'.fixed = a.fixed := by
  obtain ⟨⟨found, b⟩, hclaim, hrun⟩ := bind_eq_ok_iff.1 hrun
  cases found with
  | none =>
    cases hrun
    exact fixed_claim hclaim
  | some head =>
    obtain ⟨_, hoccupy, hret⟩ := bind_eq_ok_iff.1 hrun
    cases hret
    obtain ⟨_, -, hoccupy⟩ := bind_eq_ok_iff.1 hoccupy
    obtain ⟨_, -, hret⟩ := bind_eq_ok_iff.1 hoccupy
    cases hret
    have hclaimed := fixed_claim hclaim
    exact hclaimed

theorem fixed_free (hrun : a.free head = .ok (n, a')) : a'.fixed = a.fixed := by
  obtain ⟨cells, -, hrun⟩ := bind_eq_ok_iff.1 hrun
  obtain ⟨used, -, hrun⟩ := bind_eq_ok_iff.1 hrun
  simp only at hrun
  split at hrun
  · cases hrun
    rfl
  · obtain ⟨_, -, hret⟩ := bind_eq_ok_iff.1 hrun
    cases hret
    rfl

theorem fixesNone_unlist (a : Arena) (c : Nat) : a.FixesNone (a.unlist c) := by
  by_cases hfixed : (a.headers.get c).isFixed = true
  · have hlist : (a.unlist c).fixed = a.fixed.filter (· != c) := if_pos hfixed
    rw [FixesNone, hlist]
    exact FixesNone.filter a (· != c)
  · exact .of_eq (if_neg hfixed)

/-! ## Sweeping -/

theorem fixed_joinRuns : ∀ (n : Nat) {a : Arena} {stop : Nat}, (a.joinRuns stop n).2.fixed = a.fixed := by
  intro n
  induction n with
  | zero =>
    intro a stop
    rw [joinRuns]
  | succ n ih =>
    intro a stop
    rw [joinRuns]
    split
    · exact ih
    · rfl

theorem fixed_harvestFrom : ∀ {n : Nat} {a a' : Arena} {cursor found top found' : Nat},
    a.harvestFrom cursor found n = .ok (top, found', a') → a'.fixed = a.fixed := by
  intro n
  induction n with
  | zero =>
    intro a a' cursor found top found' hrun
    cases hrun
    rfl
  | succ n ih =>
    intro a a' cursor found top found' hrun
    rw [harvestFrom] at hrun
    split at hrun
    · cases hrun
      rfl
    · next head _ =>
      have hjoin : (a.joinRuns (a.nextBoundary (head + 1)) arenaCells).2.fixed = a.fixed := fixed_joinRuns _
      simp only at hrun
      split at hrun
      · cases hrun
        exact hjoin
      · obtain ⟨_, -, hrun⟩ := bind_eq_ok_iff.1 hrun
        have hrest := ih hrun
        exact hrest.trans hjoin

/-- A sweep drops the whole list when no object is left, and leaves it alone otherwise. -/
theorem fixesNone_sweep (hrun : a.sweep = .ok a') : a.FixesNone a' := by
  rw [Arena.sweep] at hrun
  split at hrun
  · rw [majorSweep] at hrun
    obtain ⟨-, hbulk, -⟩ := combineWords_keeps a (· &&& ·) (· ^^^ ·)
    generalize a.combineWords (· &&& ·) (· ^^^ ·) = b at hrun hbulk
    simp only at hrun
    split at hrun
    · obtain ⟨⟨found, f⟩, hharvest, hret⟩ := bind_eq_ok_iff.1 hrun
      cases hret
      obtain ⟨⟨top, found', f⟩, hfrom, hharvest⟩ := bind_eq_ok_iff.1 hharvest
      obtain ⟨used, -, hret⟩ := bind_eq_ok_iff.1 hharvest
      cases hret
      have hharvested := fixed_harvestFrom hfrom
      exact .of_eq (hharvested.trans hbulk)
    · obtain ⟨_, -, hrun⟩ := bind_eq_ok_iff.1 hrun
      obtain ⟨_, -, hrun⟩ := bind_eq_ok_iff.1 hrun
      cases hrun
      exact List.nil_sublist _
  · cases hrun
    exact .refl a

theorem fixed_selectFinalizers {isFinalizable : Ref → Bool} {asked doomed : List Nat}
    (hrun : a.selectFinalizers isFinalizable = .ok (asked, doomed, a')) : a'.fixed = a.fixed := by
  obtain ⟨_, -, hret⟩ := bind_eq_ok_iff.1 hrun
  cases hret
  rfl

end Arena

namespace Space

variable {s s' : Space} {r : Ref} {a a' : Arena} {e : Entity} {i : Nat}

/-- No object is listed as fixed twice. -/
structure FixedOnce (s : Space) : Prop where
  arena : ∀ {i : Nat} {a : Arena}, s.arenas[i]? = some a → a.fixed.toList.Nodup
  huge : s.hugeFixed.toList.Nodup

theorem fixedOnce_empty : Space.empty.FixedOnce := ⟨fun ha => (by cases ha), List.nodup_nil⟩

namespace FixedOnce

/-- What the lists of `s'` have, those of `s` have in the same order, or it is an arena without fixed objects. -/
theorem of_lists (h : s.FixedOnce)
    (harena : ∀ a' ∈ s'.arenas, a'.fixed = #[] ∨ ∃ a ∈ s.arenas, a.FixesNone a')
    (hhuge : s'.hugeFixed.toList.Sublist s.hugeFixed.toList) : s'.FixedOnce where
  arena {i a'} ha' := by
    rcases harena a' (Array.mem_of_getElem? ha') with hnone | ⟨a, ha, hfixes⟩
    · rw [hnone]
      exact List.nodup_nil
    · obtain ⟨j, hj⟩ := Array.getElem?_of_mem ha
      exact (h.arena hj).sublist hfixes
  huge := h.huge.sublist hhuge

/-- The lists are the same. -/
theorem congr (h : s.FixedOnce) (harenas : s'.arenas = s.arenas) (hhuge : s'.hugeFixed = s.hugeFixed) :
    s'.FixedOnce :=
  ⟨fun ha => h.arena (harenas ▸ ha), hhuge ▸ h.huge⟩

/-! ## Changes of arenas -/

theorem setArena (h : s.FixedOnce) (ha : s.arenas[i]? = some a) (hnodup : a'.fixed.toList.Nodup) :
    FixedOnce { s with arenas := s.arenas.setIfInBounds i a' } where
  arena {j b} hb := by
    have hb : (s.arenas.setIfInBounds i a')[j]? = some b := hb
    rw [getElem?_setArena ha] at hb
    split at hb
    · cases hb
      exact hnodup
    · exact h.arena hb
  huge := h.huge

theorem updateArena (h : s.FixedOnce) {α : Type} {f : Arena → Except Fault (α × Arena)} {x : α}
    (hrun : s.updateArena i f = .ok (x, s')) (hf : ∀ a a', f a = .ok (x, a') → a.FixesNone a') : s'.FixedOnce := by
  obtain ⟨a, a', ha, hfa, rfl⟩ := updateArena_eq_ok_iff'.1 hrun
  exact h.setArena ha ((h.arena ha).sublist (hf a a' hfa))

theorem modifyArenaOf (h : s.FixedOnce) {f : Arena → Except Fault Arena} (hrun : s.modifyArenaOf r f = .ok s')
    (hf : ∀ a a', f a = .ok a' → a.FixesNone a') : s'.FixedOnce := by
  obtain ⟨i, a, a', -, ha, hfa, rfl⟩ := modifyArenaOf_eq_ok hrun
  exact h.setArena ha ((h.arena ha).sublist (hf a a' hfa))

/-! ## Placing and freeing -/

section Place

variable {supply : Supply} {cells size : Nat} {result : Except AllocError Ref} {r? : Option Ref}

theorem allocIn (h : s.FixedOnce) (hrun : s.allocIn i cells = .ok (r?, s')) : s'.FixedOnce := by
  obtain ⟨a, a', head?, ha, halloc, hcases⟩ := allocIn_cases hrun
  have h₁ := h.setArena ha ((h.arena ha).sublist (Arena.FixesNone.of_eq (Arena.fixed_alloc halloc)))
  obtain ⟨-, -, rfl⟩ | ⟨head, -, -, -, rfl⟩ := hcases
  · exact h₁
  · exact h₁.congr rfl rfl

theorem allocAmong (h : s.FixedOnce) {indices : List Nat} (hrun : s.allocAmong cells indices = .ok (r?, s')) :
    s'.FixedOnce := by
  induction indices generalizing s with
  | nil =>
    cases hrun
    exact h
  | cons index rest ih =>
    rw [Space.allocAmong] at hrun
    obtain ⟨⟨found?, s₁⟩, halloc, hrest⟩ := bind_eq_ok_iff.1 hrun
    have h₁ := h.allocIn halloc
    cases found? with
    | none => exact ih h₁ hrest
    | some r =>
      cases hrest
      exact h₁.congr rfl rfl

/-- A new arena has no fixed objects. -/
theorem addArena (h : s.FixedOnce) (supply : Supply) : (s.addArena supply).2.FixedOnce := by
  rw [Space.addArena]
  cases supply pageBytes with
  | none => exact h
  | some page =>
    refine h.of_lists (fun a' ha' => ?_) (List.Sublist.refl _)
    rcases Array.mem_push.1 ha' with ha | rfl
    · exact .inr ⟨a', ha, .refl a'⟩
    · exact .inl rfl

theorem allocElsewhere (h : s.FixedOnce) (hrun : s.allocElsewhere supply cells = .ok (result, s')) :
    s'.FixedOnce := by
  obtain ⟨⟨found?, s₁⟩, hamong, hrest⟩ := bind_eq_ok_iff.1 hrun
  have h₁ := h.allocAmong hamong
  cases found? with
  | some r =>
    cases hrest
    exact h₁
  | none =>
    have hadded := h₁.addArena supply
    obtain ⟨⟨index?, s₂⟩, hadd⟩ : ∃ added, s₁.addArena supply = added := ⟨_, rfl⟩
    simp only [hadd] at hrest hadded
    cases index? with
    | error x =>
      cases hrest
      exact hadded
    | ok index =>
      obtain ⟨⟨placed?, s₃⟩, halloc, hret⟩ := bind_eq_ok_iff.1 hrest
      have hcurrent : FixedOnce { s₂ with current := some index } := hadded.congr rfl rfl
      have h₃ := hcurrent.allocIn halloc
      cases placed? <;>
      · cases hret
        exact h₃

theorem allocCells (h : s.FixedOnce) (hrun : s.allocCells supply cells = .ok (result, s')) : s'.FixedOnce := by
  rw [Space.allocCells] at hrun
  cases hc : s.current with
  | none =>
    rw [hc] at hrun
    exact h.allocElsewhere hrun
  | some index =>
    rw [hc] at hrun
    obtain ⟨⟨found?, s₁⟩, halloc, hrest⟩ := bind_eq_ok_iff.1 hrun
    have h₁ := h.allocIn halloc
    cases found? with
    | some r =>
      cases hrest
      exact h₁
    | none => exact h₁.allocElsewhere hrest

theorem allocHuge (h : s.FixedOnce) (hrun : s.allocHuge supply size = .ok (result, s')) : s'.FixedOnce := by
  obtain ⟨-, -, rfl⟩ | ⟨p, blocks, marked, -, -, -, -, -, rfl⟩ := allocHuge_cases hrun
  · exact h
  · exact h.congr rfl rfl

/-- A block takes its place in the list with it. It does not move to a block that is listed. -/
theorem resizeHuge (h : s.FixedOnce)
    (hmoved : ∀ moved, result = .ok moved → moved.page ∈ s.hugeFixed → moved.page = r.page)
    (hrun : s.resizeHuge supply r size = .ok (result, s')) : s'.FixedOnce := by
  obtain ⟨old, -, -, ⟨-, -, rfl⟩ | ⟨q, blocks, -, rfl, -, -, -, rfl⟩⟩ := resizeHuge_cases hrun
  · exact h
  · refine ⟨h.arena, ?_⟩
    show (renamePage r.page q s.hugeFixed).toList.Nodup
    rw [renamePage, Array.toList_map]
    exact nodup_renamePage h.huge fun hlisted => hmoved _ rfl (Array.mem_toList_iff.1 hlisted)

theorem freeHuge (h : s.FixedOnce) (hrun : s.freeHuge r = .ok (size, s')) : s'.FixedOnce := by
  obtain ⟨header, blocks, -, -, -, -, rfl⟩ := freeHuge_cases hrun
  exact h.of_lists (fun a ha => .inr ⟨a, ha, .refl a⟩) (dropPage_sublist _ _ _)

theorem freeSmall (h : s.FixedOnce) (hrun : s.freeSmall r = .ok (size, s')) : s'.FixedOnce := by
  obtain ⟨i, a, a', cells, -, ha, hfree, -, -, rfl⟩ := freeSmall_cases hrun
  have hfixed : a.FixesNone a' := by
    rw [Arena.FixesNone, Arena.fixed_free hfree]
    exact a.fixesNone_unlist r.cell
  exact (h.setArena ha ((h.arena ha).sublist hfixed)).congr rfl rfl

theorem free (h : s.FixedOnce) (hrun : s.free r = .ok (size, s')) : s'.FixedOnce := by
  rw [Space.free] at hrun
  split at hrun
  · exact h.freeHuge hrun
  · exact h.freeSmall hrun

end Place

/-! ## Marking -/

theorem markHuge (h : s.FixedOnce) {isLeaf : Bool} (hrun : s.markHuge r isLeaf = .ok s') : s'.FixedOnce := by
  obtain ⟨-, flags, -, ⟨-, rfl⟩ | ⟨-, ⟨-, blocks, -, rfl⟩ | ⟨-, blocks, -, rfl⟩⟩⟩ := markHuge_cases hrun
  · exact h
  · exact h.congr rfl rfl
  · exact h.congr rfl rfl

theorem markSmall (h : s.FixedOnce) {isLeaf : Bool} (hrun : s.markSmall r isLeaf = .ok s') : s'.FixedOnce := by
  obtain ⟨i, a, a', -, ha, -, rfl, hcases⟩ := markSmall_cases hrun
  have hfixed : a.FixesNone a' := by
    obtain rfl | ⟨b, hmark, hcases⟩ := hcases
    · exact .refl _
    · have hsame := Arena.fixed_setMark hmark
      obtain rfl | ⟨grey, -, rfl⟩ := hcases
      · exact .of_eq hsame
      · exact .of_eq hsame
  exact h.setArena ha ((h.arena ha).sublist hfixed)

theorem mark (h : s.FixedOnce) (hrun : s.mark r = .ok s') : s'.FixedOnce := by
  obtain ⟨header, -, hrun⟩ := bind_eq_ok_iff.1 hrun
  simp only at hrun
  split at hrun
  · exact h.markHuge hrun
  · exact h.markSmall hrun

theorem setMark (h : s.FixedOnce) (hrun : s.setMark r = .ok s') : s'.FixedOnce := by
  rw [Space.setMark] at hrun
  split at hrun
  · obtain ⟨blocks, -, hret⟩ := bind_eq_ok_iff.1 hrun
    cases hret
    exact h.congr rfl rfl
  · exact h.modifyArenaOf hrun fun _ _ hf => .of_eq (Arena.fixed_setMark hf)

theorem clearMark (h : s.FixedOnce) (hrun : s.clearMark r = .ok s') : s'.FixedOnce := by
  rw [Space.clearMark] at hrun
  split at hrun
  · obtain ⟨blocks, -, hret⟩ := bind_eq_ok_iff.1 hrun
    cases hret
    exact h.congr rfl rfl
  · exact h.modifyArenaOf hrun fun _ _ hf => .of_eq (Arena.fixed_clearMark hf)

theorem visit (h : s.FixedOnce) {mode : WeakMode} {v : Visit} (hrun : s.visit mode v = .ok s') : s'.FixedOnce := by
  rw [Space.visit] at hrun
  split at hrun
  · obtain ⟨header, -, hrun⟩ := bind_eq_ok_iff.1 hrun
    split at hrun
    · exact h.mark hrun
    · cases hrun
      exact h
  · exact h.mark hrun

theorem markRecorded (h : s.FixedOnce) (hrun : s.markRecorded r = .ok s') : s'.FixedOnce := by
  obtain ⟨marked, -, hrun⟩ := bind_eq_ok_iff.1 hrun
  split at hrun
  · cases hrun
    exact h
  · exact h.mark hrun

theorem popGrey (h : s.FixedOnce) {source : GreySource} {r? : Option Ref} (hrun : s.popGrey source = .ok (r?, s')) :
    s'.FixedOnce := by
  cases source with
  | arena index =>
    rw [Space.popGrey] at hrun
    refine h.updateArena hrun fun a a' hf => ?_
    obtain ⟨cell?, cells, heq, -⟩ := popCell_spec a.grey.size (a := a) le_rfl
    rw [heq] at hf
    cases hf
    exact .of_eq rfl
  | huge =>
    obtain ⟨⟨page?, s₁⟩, hpop, hret⟩ := bind_eq_ok_iff.1 hrun
    cases hret
    obtain ⟨blocks, grey, rfl⟩ := popPage_changes hpop
    exact h.congr rfl rfl

/-! ## Contents and registrations -/

theorem modifyHeader (h : s.FixedOnce) {f : Header → Header} (hrun : s.modifyHeader r f = .ok s') :
    s'.FixedOnce := by
  rw [Space.modifyHeader] at hrun
  split at hrun
  · obtain ⟨_, -, hret⟩ := bind_eq_ok_iff.1 hrun
    cases hret
    exact h.congr rfl rfl
  · refine h.modifyArenaOf hrun fun a a' hf => ?_
    cases hf
    exact .of_eq rfl

theorem modifyBytes (h : s.FixedOnce) {f : Zeroed UInt8 → Zeroed UInt8} (hrun : s.modifyBytes r f = .ok s') :
    s'.FixedOnce := by
  rw [Space.modifyBytes] at hrun
  split at hrun
  · obtain ⟨_, -, hret⟩ := bind_eq_ok_iff.1 hrun
    cases hret
    exact h.congr rfl rfl
  · refine h.modifyArenaOf hrun fun a a' hf => ?_
    cases hf
    exact .of_eq rfl

/-- An object that is not fixed yet is not listed, so it is listed once when it has been fixed. -/
theorem fix (h : s.FixedOnce) (hwf : s.Wf) (he : (s.slot r).entity? = some e) (hagrees : s.FixedAgrees r)
    (hrun : s.fix r = .ok s') : s'.FixedOnce := by
  obtain ⟨header, hheader, hrun⟩ := bind_eq_ok_iff.1 hrun
  rw [header_eq hwf he] at hheader
  cases hheader
  split at hrun
  · cases hrun
    exact h
  · next hflag =>
    obtain ⟨s₁, hmodify, hrun⟩ := bind_eq_ok_iff.1 hrun
    have h₁ := h.modifyHeader hmodify
    obtain ⟨_, hmodify', hrev⟩ := modifyHeader_spec hwf he fun header => { header with isFixed := true }
    rw [hmodify] at hmodify'
    cases hmodify'
    have hnot : ¬ (s₁.slot r).fixed := by
      rw [hrev.slot_self, Slot.mapEntity_fixed, hagrees e he]
      exact hflag
    split at hrun
    · next hr =>
      cases hrun
      rw [slot_of_isHuge hr] at hnot
      exact ⟨h₁.arena, nodup_push h₁.huge hnot⟩
    · next hr =>
      obtain ⟨i, a, a', hi, ha, hret, rfl⟩ := modifyArenaOf_eq_ok hrun
      cases hret
      have hpage := hrev.wf.addressed.page hi ha
      rw [slot_small (by simpa using hr) ((arena?_eq_some hrev.wf).2 ⟨i, ha, hpage⟩)] at hnot
      exact h₁.setArena ha (nodup_push (h₁.arena ha) hnot)

theorem registerFinalizer (h : s.FixedOnce) (hrun : s.registerFinalizer r = .ok s') : s'.FixedOnce := by
  obtain ⟨header, -, hrun⟩ := bind_eq_ok_iff.1 hrun
  split at hrun
  · cases hrun
    exact h
  · obtain ⟨s₁, hheader, hrun⟩ := bind_eq_ok_iff.1 hrun
    have h₁ := h.modifyHeader hheader
    split at hrun
    · cases hrun
      exact h₁.congr rfl rfl
    · refine h₁.modifyArenaOf hrun fun a a' hf => ?_
      cases hf
      exact .of_eq rfl

theorem markFixed (h : s.FixedOnce) (hrun : s.markFixed = .ok s') : s'.FixedOnce :=
  foldlM_keeps h (fun _ h hx => h.mark hx) hrun

theorem selectInArenas (h : s.FixedOnce) {isFinalizable : Ref → Bool} {indices : List Nat} {selection : Selection}
    (hrun : s.selectInArenas isFinalizable indices = .ok (selection, s')) : s'.FixedOnce := by
  induction indices generalizing s selection with
  | nil =>
    cases hrun
    exact h
  | cons index rest ih =>
    rw [Space.selectInArenas] at hrun
    obtain ⟨⟨here, s₁⟩, hupdate, hrun⟩ := bind_eq_ok_iff.1 hrun
    obtain ⟨⟨others, s₂⟩, hothers, hret⟩ := bind_eq_ok_iff.1 hrun
    cases hret
    refine ih (h.updateArena hupdate fun a a' hf => ?_) hothers
    obtain ⟨⟨asked, doomed, b⟩, hselect, hret⟩ := bind_eq_ok_iff.1 hf
    cases hret
    exact .of_eq (Arena.fixed_selectFinalizers hselect)

theorem selectHuge (h : s.FixedOnce) {isFinalizable : Ref → Bool} {selection : Selection}
    (hrun : s.selectHuge isFinalizable = .ok (selection, s')) : s'.FixedOnce := by
  obtain ⟨unmarked, -, hrun⟩ := bind_eq_ok_iff.1 hrun
  simp only [List.partition_eq_filter_filter] at hrun
  obtain ⟨s₁, hforget, hret⟩ := bind_eq_ok_iff.1 hrun
  cases hret
  refine foldlM_keeps (P := FixedOnce) ?_ (fun _ h hx => h.modifyHeader hx) hforget
  exact h.congr rfl rfl

theorem selectFinalizers (h : s.FixedOnce) {isFinalizable : Ref → Bool} {selection : Selection}
    (hrun : s.selectFinalizers isFinalizable = .ok (selection, s')) : s'.FixedOnce := by
  obtain ⟨⟨small, s₁⟩, hsmall, hrun⟩ := bind_eq_ok_iff.1 hrun
  obtain ⟨⟨huge, s₂⟩, hhuge, hret⟩ := bind_eq_ok_iff.1 hrun
  cases hret
  exact (h.selectInArenas hsmall).selectHuge hhuge

theorem takePendingSmall (h : s.FixedOnce) {indices : List Nat} {r? : Option Ref}
    (hrun : s.takePendingSmall indices = .ok (r?, s')) : s'.FixedOnce := by
  induction indices generalizing s with
  | nil =>
    cases hrun
    exact h
  | cons index rest ih =>
    rw [Space.takePendingSmall] at hrun
    obtain ⟨⟨found?, s₁⟩, hupdate, hrun⟩ := bind_eq_ok_iff.1 hrun
    have h₁ : s₁.FixedOnce := h.updateArena hupdate fun a a' hf => by
      split at hf
      · cases hf
        exact .refl a
      · cases hf
        exact .of_eq rfl
    cases found? with
    | none => exact ih h₁ hrun
    | some r =>
      cases hrun
      exact h₁

theorem takePendingFinalizer (h : s.FixedOnce) {r? : Option Ref} (hrun : s.takePendingFinalizer = .ok (r?, s')) :
    s'.FixedOnce := by
  obtain ⟨⟨small?, s₁⟩, hsmall, hrest⟩ := bind_eq_ok_iff.1 hrun
  have h₁ := h.takePendingSmall hsmall
  have hhuge : s₁.takePendingHuge.2.FixedOnce := by
    rw [Space.takePendingHuge]
    split
    · exact h₁
    · exact h₁.congr rfl rfl
  -- both searches end in the header of the object that is found
  have hfinish : ∀ {found : Ref} {s₂ : Space}, s₂.FixedOnce →
      (do return (some found, ← s₂.modifyHeader found fun h => { h with hasFinalizer := false })) =
        Except.ok (ε := Fault) (r?, s') → s'.FixedOnce := fun hfound hrun => by
    obtain ⟨_, hheader, hret⟩ := bind_eq_ok_iff.1 hrun
    cases hret
    exact hfound.modifyHeader hheader
  cases small? with
  | some r => exact hfinish h₁ hrest
  | none =>
    dsimp only at hrest
    obtain ⟨⟨huge?, s₂⟩, hpair⟩ : ∃ taken, s₁.takePendingHuge = taken := ⟨_, rfl⟩
    rw [hpair] at hhuge hrest
    cases huge? with
    | none =>
      cases hrest
      exact hhuge
    | some r => exact hfinish hhuge hrest

/-! ## Sweeping -/

theorem beginSweep (h : s.FixedOnce) : s.beginSweep.FixedOnce := by
  refine h.of_lists (fun a' ha' => ?_) (List.Sublist.refl _)
  obtain ⟨a, ha, rfl⟩ := Array.mem_map.1 ha'
  refine .inr ⟨a, ha, .of_eq ?_⟩
  split <;> rfl

theorem sweepArena (h : s.FixedOnce) {freed : Nat} (hrun : s.sweepArena i = .ok (freed, s')) : s'.FixedOnce := by
  obtain ⟨a, a', ha, hsweep, -, -, -, rfl⟩ := sweepArena_cases hrun
  exact (h.setArena ha ((h.arena ha).sublist (Arena.fixesNone_sweep hsweep))).congr rfl rfl

theorem sweepHuge (h : s.FixedOnce) {freed : Nat} (hrun : s.sweepHuge = .ok (freed, s')) : s'.FixedOnce := by
  obtain ⟨-, dead, blocks, -, -, -, rfl⟩ := sweepHuge_cases hrun
  exact h.congr rfl rfl

/-! ## Releasing arenas -/

theorem removeArena (h : s.FixedOnce) (i : Nat) : (s.removeArena i).FixedOnce where
  arena {j b} hb := by
    cases ha : s.arenas[i]? with
    | none =>
      rw [Space.removeArena, ha] at hb
      exact h.arena hb
    | some a =>
      obtain ⟨-, hb⟩ := (arenas_removeArena ha).1 hb
      split at hb
      · obtain ⟨d, hd, rfl⟩ := hb
        have hmoved := h.arena hd
        exact hmoved
      · exact h.arena hb
  huge := by
    have hsame : (s.removeArena i).hugeFixed = s.hugeFixed := by
      rw [Space.removeArena]
      split
      · rfl
      · simp only
        split <;> rfl
    rw [hsame]
    exact h.huge

theorem releaseFrom (keep : Nat) : ∀ {n : Nat} {s : Space} (index kept released : Nat), s.FixedOnce →
    (s.releaseFrom keep index kept released n).2.FixedOnce := by
  intro n
  induction n with
  | zero => exact fun _ _ _ h => h
  | succ n ih =>
    intro s index kept released h
    rw [Space.releaseFrom]
    split
    · exact h
    · split
      · split
        · exact ih _ _ _ h
        · exact ih _ _ _ (h.removeArena index)
      · exact ih _ _ _ h

end FixedOnce

end Space

end Tricolor
