import Tricolor.Proofs.Space.Memory
import Tricolor.Proofs.Space.Resizing
import Tricolor.Proofs.Space.Traversal

/-!
# The queue of the huge blocks

A huge block carries a flag while it waits to be traversed, in another table than the queue. Whatever is done to
the blocks, one after the other, the two agree: the queue lists exactly the blocks with the flag, each once. So
whatever is taken off the queue is a block, and one that is unmarked and marked again while it waits is still
listed once.
-/

namespace Tricolor

theorem BlockFlags.not_isGrey_zero : ¬ BlockFlags.isGrey 0 = true := by decide

namespace BlockTable

variable {t t' : BlockTable} {page : Page}

/-- No block is looked up at page 0. -/
theorem page_ne_zero_of_find {place : Option Nat} (h : t.find page = .ok place) : page ≠ 0 := by
  obtain ⟨_, hpage, -⟩ := bind_eq_ok_iff.1 h
  exact require_eq_ok_iff.1 hpage

theorem page_ne_zero_of_updateFlags {f : BlockFlags → BlockFlags} (h : t.updateFlags page f = .ok t') : page ≠ 0 := by
  obtain ⟨_, hfind, -⟩ := bind_eq_ok_iff.1 h
  exact page_ne_zero_of_find hfind

/-- Updating the flags of a block is seen at its page and nowhere else. -/
theorem updateFlags_eq_ok (h : t.Wf) {f : BlockFlags → BlockFlags} (hrun : t.updateFlags page f = .ok t') :
    t'.Wf ∧ t'.entryOf? = Function.update t.entryOf? page
      ((t.entryOf? page).map fun e => { e with flags := f e.flags }) := by
  obtain ⟨u, hu, hwf, -, hentry⟩ := updateFlags_spec h (page_ne_zero_of_updateFlags hrun) f
  cases hu.symm.trans hrun
  exact ⟨hwf, hentry⟩

end BlockTable

namespace Space

variable {s t : Space} {p q : Page} {r : Ref} {supply : Supply}

/-- From an empty queue nothing is popped. -/
theorem popGrey_empty (hempty : s.hugeGrey = #[]) : s.popGrey .huge = .ok (none, s) := by
  refine bind_eq_ok_iff.2 ⟨(none, s), ?_, rfl⟩
  rw [hempty]
  rfl

/-- The queue agrees with the flags: it lists exactly the blocks with the flag, each once. -/
structure QueueAgrees (s : Space) : Prop where
  blocks : s.blocks.Wf
  grey : ∀ {p}, p ∈ s.hugeGrey ↔ ∃ e, s.blocks.entryOf? p = some e ∧ e.flags.isGrey = true
  nodup : s.hugeGrey.toList.Nodup

namespace QueueAgrees

theorem empty : QueueAgrees .empty where
  blocks := wf_empty.blocks
  grey := wf_empty.grey
  nodup := wf_empty.greyNodup

theorem elsewhere (h : s.QueueAgrees) (hblocks : t.blocks = s.blocks) (hgrey : t.hugeGrey = s.hugeGrey) :
    t.QueueAgrees where
  blocks := hblocks ▸ h.blocks
  grey := by
    rw [hblocks, hgrey]
    exact h.grey
  nodup := hgrey ▸ h.nodup

/-- What is registered at one page changes, and the queue accordingly. -/
theorem update (h : s.QueueAgrees) {e? : Option BlockEntry} (hwf : t.blocks.Wf)
    (hentry : t.blocks.entryOf? = Function.update s.blocks.entryOf? p e?)
    (hother : ∀ q, q ≠ p → (q ∈ t.hugeGrey ↔ q ∈ s.hugeGrey))
    (hself : p ∈ t.hugeGrey ↔ ∃ e, e? = some e ∧ e.flags.isGrey = true) (hnodup : t.hugeGrey.toList.Nodup) :
    t.QueueAgrees where
  blocks := hwf
  grey {q} := by
    rw [hentry]
    by_cases hq : q = p
    · subst hq
      rw [Function.update_self]
      exact hself
    · rw [Function.update_of_ne hq, hother q hq]
      exact h.grey
  nodup := hnodup

/-- A page without a block is not queued. -/
theorem not_mem (h : s.QueueAgrees) (hnone : s.blocks.entryOf? p = none) : p ∉ s.hugeGrey := fun hp => by
  obtain ⟨e, he, -⟩ := h.grey.1 hp
  rw [hnone] at he
  cases he

/-- Flags are updated that leave the block in the queue or out of it. -/
theorem updateFlags (h : s.QueueAgrees) {f : BlockFlags → BlockFlags} (hf : ∀ flags, (f flags).isGrey = flags.isGrey)
    {blocks : BlockTable} (hrun : s.blocks.updateFlags p f = .ok blocks) :
    QueueAgrees { s with blocks } := by
  obtain ⟨hwf, hentry⟩ := BlockTable.updateFlags_eq_ok h.blocks hrun
  refine h.update hwf hentry (fun _ _ => Iff.rfl) (h.grey.trans ?_) h.nodup
  simp [hf]

/-! ## The operations -/

theorem modifyArenaOf (h : s.QueueAgrees) {f : Arena → Except Fault Arena} (hrun : s.modifyArenaOf r f = .ok t) :
    t.QueueAgrees := by
  obtain ⟨i, a, a', -, -, -, rfl⟩ := modifyArenaOf_eq_ok hrun
  exact h.elsewhere rfl rfl

theorem setMark (h : s.QueueAgrees) (hrun : s.setMark r = .ok t) : t.QueueAgrees := by
  rw [Space.setMark] at hrun
  split at hrun
  · obtain ⟨blocks, hblocks, hret⟩ := bind_eq_ok_iff.1 hrun
    cases hret
    exact h.updateFlags BlockFlags.isGrey_or_mark hblocks
  · exact h.modifyArenaOf hrun

theorem clearMark (h : s.QueueAgrees) (hrun : s.clearMark r = .ok t) : t.QueueAgrees := by
  rw [Space.clearMark] at hrun
  split at hrun
  · obtain ⟨blocks, hblocks, hret⟩ := bind_eq_ok_iff.1 hrun
    cases hret
    exact h.updateFlags BlockFlags.isGrey_clear_mark hblocks
  · exact h.modifyArenaOf hrun

theorem markHuge (h : s.QueueAgrees) {isLeaf : Bool} (hrun : s.markHuge r isLeaf = .ok t) : t.QueueAgrees := by
  obtain ⟨hfound, flags, hflags, hcases⟩ := markHuge_cases hrun
  obtain ⟨_, hfind, -⟩ := bind_eq_ok_iff.1 hfound
  have hp := BlockTable.page_ne_zero_of_find hfind
  rw [BlockTable.contains_eq_ok h.blocks hp] at hfound
  obtain ⟨e, he⟩ := Option.isSome_iff_exists.1 (Except.ok.inj hfound)
  rw [BlockTable.flags_eq_ok h.blocks hp, he] at hflags
  cases hflags
  obtain ⟨-, rfl⟩ | ⟨-, ⟨-, blocks, hblocks, rfl⟩ | ⟨hqueue, blocks, hblocks, rfl⟩⟩ := hcases
  · exact h
  · exact h.updateFlags BlockFlags.isGrey_or_mark hblocks
  · have hnot : r.page ∉ s.hugeGrey := fun hin => by
      obtain ⟨e', he', hgrey⟩ := h.grey.1 hin
      cases he.symm.trans he'
      exact Bool.false_ne_true ((Bool.or_eq_false_iff.1 hqueue).2.symm.trans hgrey)
    obtain ⟨hwf, hentry⟩ := BlockTable.updateFlags_eq_ok h.blocks hblocks
    rw [he] at hentry
    refine h.update hwf hentry (fun q hq => by rw [Array.mem_push, or_iff_left hq]) ?_ (nodup_push h.nodup hnot)
    rw [Array.mem_push]
    exact ⟨fun _ => ⟨_, rfl, BlockFlags.isGrey_or_both e.flags⟩, fun _ => .inr rfl⟩

theorem mark (h : s.QueueAgrees) (hrun : s.mark r = .ok t) : t.QueueAgrees := by
  obtain ⟨header, -, hrun⟩ := bind_eq_ok_iff.1 hrun
  split at hrun
  · exact h.markHuge hrun
  · exact h.modifyArenaOf hrun

/-- The last entry of the queue is the next block to traverse: it is registered, and taking it off clears its flag. -/
theorem popGrey_last (h : s.QueueAgrees) {rest : Array Page} (hlast : s.hugeGrey = rest.push p) :
    ∃ t, s.popGrey .huge = .ok (some (.huge p), t) ∧ t.hugeGrey = rest ∧ t.QueueAgrees := by
  obtain ⟨e, he, -⟩ := h.grey.1 (hlast ▸ Array.mem_push_self : p ∈ s.hugeGrey)
  have hp : p ≠ 0 := by
    obtain ⟨hmem, rfl⟩ := (BlockTable.entryOf?_eq_some_iff h.blocks.distinct).1 he
    exact h.blocks.distinct.2 e hmem
  have hcontains := BlockTable.contains_eq_ok h.blocks hp
  rw [he] at hcontains
  obtain ⟨blocks, hclear, hwf, -, hentry⟩ := BlockTable.updateFlags_spec h.blocks hp (· &&& ~~~.grey)
  rw [he, Option.map_some] at hentry
  have hnodup := h.nodup
  rw [hlast, Array.toList_push, List.nodup_append] at hnodup
  obtain ⟨hnodup, -, hnot⟩ := hnodup
  have hnot : p ∉ rest := fun hin => hnot p (Array.mem_toList_iff.2 hin) p (List.mem_singleton_self p) rfl
  refine ⟨{ s with blocks, hugeGrey := rest }, ?_, rfl, h.update hwf hentry (fun q hq => ?_) ?_ hnodup⟩
  · refine bind_eq_ok_iff.2 ⟨(some p, { s with blocks, hugeGrey := rest }), ?_, rfl⟩
    rw [hlast, Array.size_push, popPage, hlast, Array.back?_push]
    dsimp only
    rw [Array.pop_push]
    exact bind_eq_ok_iff.2 ⟨true, hcontains, bind_eq_ok_iff.2 ⟨blocks, hclear, rfl⟩⟩
  · rw [hlast, Array.mem_push, or_iff_left hq]
  · refine ⟨fun hin => absurd hin hnot, ?_⟩
    rintro ⟨_, ⟨⟩, hgrey⟩
    rw [BlockFlags.isGrey_clear_grey] at hgrey
    cases hgrey

theorem popGrey (h : s.QueueAgrees) {source : GreySource} {r? : Option Ref} (hrun : s.popGrey source = .ok (r?, t)) :
    t.QueueAgrees := by
  cases source with
  | arena index =>
    rw [Space.popGrey] at hrun
    obtain ⟨a, a', -, -, rfl⟩ := updateArena_eq_ok_iff'.1 hrun
    exact h.elsewhere rfl rfl
  | huge =>
    cases hback : s.hugeGrey.back? with
    | none =>
      rw [popGrey_empty (Array.back?_eq_none_iff.1 hback)] at hrun
      cases hrun
      exact h
    | some p =>
      obtain ⟨rest, hlast⟩ := Array.back?_eq_some_iff.1 hback
      obtain ⟨u, hu, -, hagrees⟩ := h.popGrey_last hlast
      cases hu.symm.trans hrun
      exact hagrees

/-- A new block is not queued. -/
theorem allocHuge (h : s.QueueAgrees) (hsupply : ∀ n, supply n ≠ some 0) {size : Nat} {result : Except AllocError Ref}
    (hrun : s.allocHuge supply size = .ok (result, t)) : t.QueueAgrees := by
  obtain ⟨-, -, rfl⟩ | ⟨p, blocks, marked, hask, -, hinsert, hmark, -, rfl⟩ := allocHuge_cases hrun
  · exact h
  · have hp : p ≠ 0 := fun hp => hsupply size (hp ▸ supplied_of_askBlock hask)
    have hnone := BlockTable.insert_fresh h.blocks hp hinsert
    obtain ⟨-, hwf, -, flags, -, hgrey, hentry⟩ := BlockTable.insert_marked h.blocks hp hnone hinsert hmark
    refine h.update hwf hentry (fun _ _ => Iff.rfl) ⟨fun hin => absurd hin (h.not_mem hnone), ?_⟩ h.nodup
    rintro ⟨_, ⟨⟩, hgrey'⟩
    exact absurd (hgrey.symm.trans hgrey') Bool.false_ne_true

/-- A freed block leaves the queue. -/
theorem freeHuge (h : s.QueueAgrees) {freed : Nat} (hrun : s.freeHuge r = .ok (freed, t)) : t.QueueAgrees := by
  obtain ⟨header, blocks, -, hremove, -, -, rfl⟩ := freeHuge_cases hrun
  have hp : r.page ≠ 0 := by
    obtain ⟨_, hfind, -⟩ := bind_eq_ok_iff.1 hremove
    exact BlockTable.page_ne_zero_of_find hfind
  have hentry : blocks.Wf ∧ blocks.entryOf? = Function.update s.blocks.entryOf? r.page none := by
    cases he : s.blocks.entryOf? r.page with
    | none =>
      rw [BlockTable.remove_of_none h.blocks hp he] at hremove
      cases hremove
    | some e =>
      obtain ⟨blocks', hblocks', hwf, -, -, hentry⟩ := BlockTable.remove_spec h.blocks hp he
      cases hblocks'.symm.trans hremove
      exact ⟨hwf, hentry⟩
  refine h.update hentry.1 hentry.2 (fun q hq => ?_) ?_ (h.nodup.sublist (withoutPage_sublist r.page s.hugeGrey))
  · rw [mem_withoutPage, and_iff_left hq]
  · exact ⟨fun hin => absurd rfl (mem_withoutPage.1 hin).2, nofun⟩

theorem free (h : s.QueueAgrees) {freed : Nat} (hrun : s.free r = .ok (freed, t)) : t.QueueAgrees := by
  rw [Space.free] at hrun
  split at hrun
  · exact h.freeHuge hrun
  · obtain ⟨i, a, a', cells, -, -, -, -, -, rfl⟩ := freeSmall_cases hrun
    exact h.elsewhere rfl rfl

/-- A resized block takes its flag and its place in the queue along. -/
theorem resizeHuge (h : s.QueueAgrees) (hsupply : ∀ n, supply n ≠ some 0) {size : Nat}
    {result : Except AllocError Ref} (hrun : s.resizeHuge supply r size = .ok (result, t)) : t.QueueAgrees := by
  obtain ⟨old, hold, -, ⟨-, -, rfl⟩ | ⟨p, blocks, hask, -, hreplace, -, -, rfl⟩⟩ := resizeHuge_cases hrun
  · exact h
  · have hp : r.page ≠ 0 := by
      obtain ⟨_, hlookup, -⟩ := bind_eq_ok_iff.1 hold
      obtain ⟨_, hfind, -⟩ := bind_eq_ok_iff.1 hlookup
      exact BlockTable.page_ne_zero_of_find hfind
    rw [BlockTable.sizeOf?_eq_ok h.blocks hp] at hold
    obtain ⟨e, he, -⟩ := Option.map_eq_some_iff.1 (Except.ok.inj hold)
    have hpz : p ≠ 0 := fun hp => hsupply size (hp ▸ supplied_of_askBlock hask)
    have hfresh := BlockTable.replace_fresh h.blocks hp hpz he hreplace
    obtain ⟨hwf, -, -, hentry⟩ := BlockTable.replace_spec h.blocks hp hpz he hfresh hreplace
    have hnew : p ∈ s.hugeGrey → p = r.page := fun hin => hfresh.resolve_right fun hnone => h.not_mem hnone hin
    refine ⟨hwf, fun {q} => ?_, ?_⟩
    · show q ∈ renamePage r.page p s.hugeGrey ↔ ∃ e, blocks.entryOf? q = some e ∧ _
      rw [hentry, mem_renamePage]
      by_cases hq : q = p
      · subst hq
        rw [Function.update_self]
        have hself : r.page ∈ s.hugeGrey ↔ e.flags.isGrey = true := by
          rw [h.grey, he]
          simp
        constructor
        · rintro (⟨hin, hne⟩ | ⟨-, hin⟩)
          · exact absurd (hnew hin) hne
          · exact ⟨_, rfl, hself.1 hin⟩
        · rintro ⟨_, ⟨⟩, hgrey⟩
          exact .inr ⟨rfl, hself.2 hgrey⟩
      · rw [Function.update_of_ne hq, or_iff_left fun h => hq h.1]
        by_cases hqr : q = r.page
        · subst hqr
          rw [Function.update_self]
          exact ⟨fun h => absurd rfl h.2, nofun⟩
        · rw [Function.update_of_ne hqr, and_iff_left hqr]
          exact h.grey
    · show (renamePage r.page p s.hugeGrey).toList.Nodup
      rw [renamePage, Array.toList_map]
      exact nodup_renamePage h.nodup fun hin => hnew (Array.mem_toList_iff.1 hin)

/-- The sweep clears all flags, and it only runs while nothing is queued. -/
theorem sweepHuge (h : s.QueueAgrees) {freed : Nat} (hrun : s.sweepHuge = .ok (freed, t)) : t.QueueAgrees := by
  obtain ⟨hgrey, dead, blocks, hsweep, -, -, rfl⟩ := sweepHuge_cases hrun
  obtain ⟨dead', blocks', hsweep', hwf, -, -, hperm⟩ := BlockTable.sweep_spec h.blocks
  cases hsweep'.symm.trans hsweep
  refine ⟨hwf, fun {p} => ?_, h.nodup⟩
  refine ⟨fun hin => absurd (hgrey ▸ hin) (Array.not_mem_empty p), ?_⟩
  rintro ⟨e, he, hflag⟩
  have he : blocks.entryOf? p = some e := he
  rw [BlockTable.entryOf?_swept h.blocks hwf hperm] at he
  obtain ⟨b, -, hb⟩ := Option.bind_eq_some_iff.1 he
  obtain ⟨-, rfl⟩ := BlockTable.swept_eq_some_iff.1 hb
  exact absurd hflag BlockFlags.not_isGrey_zero

end QueueAgrees

/-! ## Runs -/

/-- One operation on the huge blocks. The memory supply never answers page 0, and what does not touch the block
table and the queue, such as a write to an object, may happen in between. -/
inductive HugeStep : Space → Space → Prop where
  | allocHuge {s t : Space} {supply : Supply} {size : Nat} {result : Except AllocError Ref} :
      (∀ n, supply n ≠ some 0) → s.allocHuge supply size = .ok (result, t) → HugeStep s t
  | mark {s t : Space} {r : Ref} : s.mark r = .ok t → HugeStep s t
  | setMark {s t : Space} {r : Ref} : s.setMark r = .ok t → HugeStep s t
  | clearMark {s t : Space} {r : Ref} : s.clearMark r = .ok t → HugeStep s t
  | popGrey {s t : Space} {source : GreySource} {r? : Option Ref} : s.popGrey source = .ok (r?, t) → HugeStep s t
  | free {s t : Space} {r : Ref} {freed : Nat} : s.free r = .ok (freed, t) → HugeStep s t
  | resizeHuge {s t : Space} {supply : Supply} {r : Ref} {size : Nat} {result : Except AllocError Ref} :
      (∀ n, supply n ≠ some 0) → s.resizeHuge supply r size = .ok (result, t) → HugeStep s t
  | sweepHuge {s t : Space} {freed : Nat} : s.sweepHuge = .ok (freed, t) → HugeStep s t
  | elsewhere {s t : Space} : t.blocks = s.blocks → t.hugeGrey = s.hugeGrey → HugeStep s t

/-- The spaces that such operations lead to from the empty one. -/
inductive HugeRun : Space → Prop where
  | empty : HugeRun .empty
  | step {s t : Space} : HugeRun s → HugeStep s t → HugeRun t

theorem QueueAgrees.step (h : s.QueueAgrees) (hstep : HugeStep s t) : t.QueueAgrees := by
  cases hstep with
  | allocHuge hsupply hrun => exact h.allocHuge hsupply hrun
  | mark hrun => exact h.mark hrun
  | setMark hrun => exact h.setMark hrun
  | clearMark hrun => exact h.clearMark hrun
  | popGrey hrun => exact h.popGrey hrun
  | free hrun => exact h.free hrun
  | resizeHuge hsupply hrun => exact h.resizeHuge hsupply hrun
  | sweepHuge hrun => exact h.sweepHuge hrun
  | elsewhere hblocks hgrey => exact h.elsewhere hblocks hgrey

theorem HugeRun.queueAgrees (h : HugeRun s) : s.QueueAgrees := by
  induction h with
  | empty => exact .empty
  | step _ hstep ih => exact ih.step hstep

/-! ## Traversing what is queued -/

/-- Takes at most `n` blocks off the queue, until it is empty. Answers them in the order in which they are
traversed. -/
def drainHuge (s : Space) : Nat → Except Fault (List Ref × Space)
  | 0 => return ([], s)
  | n + 1 => do
    let (r?, s) ← s.popGrey .huge
    match r? with
    | none => return ([], s)
    | some r =>
      let (rest, s) ← s.drainHuge n
      return (r :: rest, s)

namespace QueueAgrees

/-- Each entry of the queue is traversed, the last one first. -/
theorem drainHuge (h : s.QueueAgrees) {n : Nat} (hn : s.hugeGrey.size ≤ n) :
    ∃ t, s.drainHuge n = .ok ((s.hugeGrey.toList.map Ref.huge).reverse, t) ∧ t.hugeGrey = #[] := by
  induction n generalizing s with
  | zero =>
    have hempty : s.hugeGrey = #[] := Array.eq_empty_of_size_eq_zero (Nat.le_zero.1 hn)
    exact ⟨s, by rw [hempty]; rfl, hempty⟩
  | succ n ih =>
    cases hback : s.hugeGrey.back? with
    | none =>
      have hempty := Array.back?_eq_none_iff.1 hback
      exact ⟨s, bind_eq_ok_iff.2 ⟨_, popGrey_empty hempty, by rw [hempty]; rfl⟩, hempty⟩
    | some p =>
      obtain ⟨rest, hlast⟩ := Array.back?_eq_some_iff.1 hback
      obtain ⟨u, hu, hrest, hagrees⟩ := h.popGrey_last hlast
      rw [hlast, Array.size_push] at hn
      obtain ⟨t, ht, hempty⟩ := ih hagrees (hrest ▸ Nat.le_of_succ_le_succ hn)
      refine ⟨t, bind_eq_ok_iff.2 ⟨_, hu, bind_eq_ok_iff.2 ⟨_, ht, ?_⟩⟩, hempty⟩
      rw [hlast, hrest, Array.toList_push, List.map_append, List.reverse_append]
      rfl

/-- The flag is read off the block table. -/
theorem flags (h : s.QueueAgrees) (hp : p ≠ 0) :
    ∃ flags, s.blocks.flags p = .ok flags ∧ (flags.isGrey = true ↔ p ∈ s.hugeGrey) := by
  refine ⟨_, BlockTable.flags_eq_ok h.blocks hp, ?_⟩
  rw [h.grey]
  cases s.blocks.entryOf? p with
  | none => exact ⟨fun hgrey => absurd hgrey BlockFlags.not_isGrey_zero, nofun⟩
  | some e => simp

theorem contains (h : s.QueueAgrees) (hp : p ∈ s.hugeGrey) : p ≠ 0 ∧ s.blocks.contains p = .ok true := by
  obtain ⟨e, he, -⟩ := h.grey.1 hp
  obtain ⟨hmem, hpage⟩ := (BlockTable.entryOf?_eq_some_iff h.blocks.distinct).1 he
  have hp : p ≠ 0 := hpage ▸ h.blocks.distinct.2 e hmem
  exact ⟨hp, by rw [BlockTable.contains_eq_ok h.blocks hp, he]; rfl⟩

/-- To unmark a block leaves the queue as it is. -/
theorem clearMark_queued (h : s.QueueAgrees) (hr : r.isHuge = true) (hq : r.page ∈ s.hugeGrey) :
    ∃ t, s.clearMark r = .ok t ∧ t.hugeGrey = s.hugeGrey ∧ t.isMarked r = .ok false := by
  obtain ⟨e, he, -⟩ := h.grey.1 hq
  obtain ⟨hp, -⟩ := h.contains hq
  obtain ⟨blocks, hrun, hwf, -, hentry⟩ := BlockTable.updateFlags_spec h.blocks hp (· &&& ~~~.mark)
  refine ⟨{ s with blocks }, ?_, rfl, ?_⟩
  · rw [Space.clearMark, if_pos hr]
    exact bind_eq_ok_iff.2 ⟨blocks, hrun, rfl⟩
  · rw [isMarked, if_pos hr, BlockTable.flags_eq_ok hwf hp, hentry, Function.update_self, he]
    exact congrArg Except.ok (BlockFlags.isMarked_clear_mark e.flags)

/-- So does to mark a block that is queued, whether it was unmarked before or not. -/
theorem mark_queued (h : s.QueueAgrees) (hr : r.isHuge = true) (hq : r.page ∈ s.hugeGrey) {header : Header}
    (hheader : s.header r = .ok header) :
    ∃ t, s.mark r = .ok t ∧ t.hugeGrey = s.hugeGrey ∧ t.isMarked r = .ok true := by
  obtain ⟨e, he, hgrey⟩ := h.grey.1 hq
  obtain ⟨hp, hcontains⟩ := h.contains hq
  have hmark : s.mark r = if e.flags.isMarked then .ok s else
      s.blocks.setFlags r.page .mark >>= fun blocks => .ok { s with blocks } := by
    rw [Space.mark, hheader]
    show (if r.isHuge = true then s.markHuge r header.kind.isLeaf else _) = _
    rw [if_pos hr, Space.markHuge, hcontains, BlockTable.flags_eq_ok h.blocks hp, he]
    show (if e.flags.isMarked = true then _ else if (_ || e.flags.isGrey) = true then _ else _) = _
    rw [hgrey, Bool.or_true, if_pos rfl]
    rfl
  rw [hmark]
  split
  · next hmarked =>
    refine ⟨s, rfl, rfl, ?_⟩
    rw [isMarked, if_pos hr, BlockTable.flags_eq_ok h.blocks hp, he]
    exact congrArg Except.ok hmarked
  · obtain ⟨blocks, hrun, hwf, -, hentry⟩ := BlockTable.updateFlags_spec h.blocks hp (· ||| .mark)
    refine ⟨{ s with blocks }, bind_eq_ok_iff.2 ⟨blocks, hrun, rfl⟩, rfl, ?_⟩
    rw [isMarked, if_pos hr, BlockTable.flags_eq_ok hwf hp, hentry, Function.update_self, he]
    exact congrArg Except.ok (BlockFlags.isMarked_or_mark e.flags)

theorem count_drained (h : s.QueueAgrees) (hr : r.isHuge = true) (hq : r.page ∈ s.hugeGrey) :
    (s.hugeGrey.toList.map Ref.huge).reverse.count r = 1 := by
  rw [List.count_reverse, eq_huge hr]
  exact List.count_eq_one_of_mem (h.nodup.map fun p q heq => congrArg Ref.page heq)
    (List.mem_map_of_mem (Array.mem_toList_iff.2 hq))

end QueueAgrees

/-- The queue of the huge blocks lists a block exactly if its flag says so, and lists it once. All entries are
blocks, so that the next one to traverse is always the last entry, and none is skipped. To unmark a block that
is queued and to mark it again, whatever happened in between, leaves the queue as it is, and when the queue is
drained the block is traversed once. -/
theorem huge_queue_mirrors_flags (h : HugeRun s) :
    (∀ p, p ≠ 0 → ∃ flags, s.blocks.flags p = .ok flags ∧ (flags.isGrey = true ↔ p ∈ s.hugeGrey)) ∧
      (∀ p, s.hugeGrey.toList.count p ≤ 1) ∧
      (∀ p ∈ s.hugeGrey, p ≠ 0 ∧ s.blocks.contains p = .ok true) ∧
      (s.hugeGrey = #[] → s.popGrey .huge = .ok (none, s)) ∧
      (∀ p rest, s.hugeGrey = rest.push p → ∃ t, s.popGrey .huge = .ok (some (.huge p), t) ∧ t.hugeGrey = rest) ∧
      (∀ r, r.isHuge = true → r.page ∈ s.hugeGrey →
        ∃ t, s.clearMark r = .ok t ∧ t.hugeGrey = s.hugeGrey ∧ t.isMarked r = .ok false) ∧
      ∀ r header, r.isHuge = true → r.page ∈ s.hugeGrey → s.header r = .ok header →
        ∃ t, s.mark r = .ok t ∧ t.hugeGrey = s.hugeGrey ∧ t.isMarked r = .ok true ∧
          ∀ n, t.hugeGrey.size ≤ n → ∃ traversed u, t.drainHuge n = .ok (traversed, u) ∧ u.hugeGrey = #[] ∧
            traversed.count r = 1 := by
  have hagrees := h.queueAgrees
  refine ⟨fun p hp => hagrees.flags hp, List.nodup_iff_count_le_one.1 hagrees.nodup, fun p hp => hagrees.contains hp,
    popGrey_empty, fun p rest hlast => ?_, fun r hr hq => hagrees.clearMark_queued hr hq,
    fun r header hr hq hheader => ?_⟩
  · obtain ⟨t, hpop, hrest, -⟩ := hagrees.popGrey_last hlast
    exact ⟨t, hpop, hrest⟩
  · obtain ⟨t, hmark, hgrey, hmarked⟩ := hagrees.mark_queued hr hq hheader
    have hagrees' := hagrees.mark hmark
    refine ⟨t, hmark, hgrey, hmarked, fun n hn => ?_⟩
    obtain ⟨u, hdrain, hempty⟩ := hagrees'.drainHuge hn
    exact ⟨_, u, hdrain, hempty, hagrees'.count_drained hr (hgrey ▸ hq)⟩

/-- A block waits, is unmarked and marked again, and is then traversed once. -/
theorem regreyed_block_traversed_once : ∃ (s t u : Space) (traversed : List Ref), HugeRun s ∧ s.hugeGrey = #[5] ∧
    s.isMarked (.huge 5) = .ok false ∧ s.mark (.huge 5) = .ok t ∧ t.hugeGrey = #[5] ∧
    t.isMarked (.huge 5) = .ok true ∧ t.drainHuge 1 = .ok (traversed, u) ∧ traversed.count (.huge 5) = 1 := by
  let supply : Supply := fun _ => some 5
  let placed := answerOf (Space.empty.allocHuge supply 4096) (by decide +kernel)
  have hplaced : Space.empty.allocHuge supply 4096 = .ok (placed.1, placed.2) :=
    eq_answerOf (by decide +kernel)
  let table := answerOf (placed.2.modifyHeader (.huge 5) fun h => { h with kind := .table }) (by decide +kernel)
  let grey := answerOf (table.mark (.huge 5)) (by decide +kernel)
  let white := answerOf (grey.clearMark (.huge 5)) (by decide +kernel)
  have hsupply : ∀ n, supply n ≠ some 0 := fun _ => by decide
  have hwritten : HugeRun table := .step (.step .empty (.allocHuge hsupply hplaced)) (.elsewhere rfl rfl)
  have hrun : HugeRun white := .step (.step hwritten (.mark (eq_answerOf (by decide +kernel))))
    (.clearMark (eq_answerOf (by decide +kernel)))
  have hqueue : white.hugeGrey = #[5] := by decide +kernel
  obtain ⟨-, -, -, -, -, -, hmark⟩ := huge_queue_mirrors_flags hrun
  obtain ⟨t, ht, hgrey, hmarked, hdrain⟩ := hmark (.huge 5) { Header.fresh .str 0 with kind := .table } rfl
    (hqueue ▸ Array.mem_singleton.2 rfl) (by decide +kernel)
  obtain ⟨traversed, u, hu, -, hcount⟩ := hdrain 1 (by rw [hgrey, hqueue]; decide)
  exact ⟨white, t, u, traversed, hrun, hqueue, by decide +kernel, ht, hgrey.trans hqueue, hmarked, hu, hcount⟩

end Space

end Tricolor
