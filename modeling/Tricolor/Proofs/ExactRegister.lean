import Tricolor.Proofs.Enumeration
import Tricolor.Proofs.FinalizerRegister

/-!
# A finalizer register is a finite map

What a register stands for is a map from the registered cells to whether their finalizer is
due. `FinalizerRegister.History` runs a register and such a map side by side through any
sequence of operations, and `exact_register` reads every answer of the register off the map.
-/

namespace Tricolor

namespace Chunk

/-- Some bit is set exactly if some entry is due. -/
theorem pending_ne_zero {c : Chunk} (h : c.Wf) : c.pending ≠ 0 ↔ ∃ x ∈ c.entries, x.2 = true := by
  constructor
  · intro hne
    obtain ⟨i, hi⟩ : ∃ i, c.isPending i = true := by
      by_contra hnone
      refine hne (BitVec.eq_of_getLsbD_eq fun i _ => ?_)
      rw [BitVec.ofNat_eq_ofNat, BitVec.getLsbD_zero, Bool.eq_false_iff]
      exact fun hi => hnone ⟨i, hi⟩
    have hlt : i < c.cells.size := by
      by_contra hge
      rw [h.clear i (not_lt.1 hge)] at hi
      cases hi
    have hlen : i < c.entries.length := by rwa [length_entries]
    refine ⟨c.entries[i], List.getElem_mem hlen, ?_⟩
    rw [getElem_entries hlen hlt]
    exact hi
  · rintro ⟨x, hx, hdue⟩ hzero
    obtain ⟨i, hlen, rfl⟩ := List.mem_iff_getElem.1 hx
    have hlt : i < c.cells.size := by rwa [length_entries] at hlen
    rw [getElem_entries hlen hlt, isPending, hzero, BitVec.ofNat_eq_ofNat, BitVec.getLsbD_zero] at hdue
    cases hdue

variable {entries : List (Nat × Bool)} {registered : Nat → Option Bool}

theorem mem_idle (h : Enumerates entries registered) :
    (idle entries).Nodup ∧ ∀ cell, cell ∈ idle entries ↔ registered cell = some false :=
  h.keys_with (by rintro ⟨_, _ | _⟩ key <;> simp)

end Chunk

namespace FinalizerRegister

/-! ## Chunks in use -/

/-- Every chunk holds a registration. -/
def InUse (chunks : List Chunk) : Prop := ∀ c ∈ chunks, 0 < c.cells.size

theorem inUse_prune (r : FinalizerRegister) : InUse r.prune.chunks := fun c hc => by
  have hkept := (List.mem_filter.1 hc).2
  rw [Bool.not_eq_true', Array.isEmpty_eq_false_iff] at hkept
  exact Array.size_pos_iff.2 hkept

/-- Nothing is unlinked as long as every chunk is in use. -/
theorem prune_eq_self {r : FinalizerRegister} (h : InUse r.chunks) : r.prune = r := by
  obtain ⟨chunks, size⟩ := r
  rw [prune, List.filter_eq_self.2 fun c hc => ?_]
  rw [Bool.not_eq_true', Array.isEmpty_eq_false_iff]
  exact Array.size_pos_iff.1 (h c hc)

theorem InUse.push {r : FinalizerRegister} (h : InUse r.chunks) (cell : Nat) : InUse (r.push cell).chunks := by
  obtain ⟨chunks, size⟩ := r
  intro d hd
  rw [FinalizerRegister.push] at hd
  cases chunks with
  | nil =>
    rw [List.mem_singleton.1 hd]
    exact Nat.one_pos
  | cons c rest =>
    simp only at hd
    split at hd
    · rcases List.mem_cons.1 hd with rfl | hd
      · exact Nat.one_pos
      · exact h d hd
    · rcases List.mem_cons.1 hd with rfl | hd
      · rw [Array.size_push]
        exact Nat.succ_pos _
      · exact h d (List.mem_cons_of_mem _ hd)

/-- The chunk from which an entry is removed, among the others. -/
theorem removeFirst_eq_some {place? : Chunk → Option Nat} {chunks chunks' : List Chunk} {cell : Nat}
    (h : removeFirst place? chunks = some (cell, chunks')) :
    ∃ before c after i, chunks = before ++ c :: after ∧ place? c = some i ∧
      chunks' = before ++ c.swapRemove i :: after := by
  induction chunks generalizing chunks' with
  | nil => cases h
  | cons c rest ih =>
    rw [removeFirst] at h
    cases hplace : place? c with
    | some i =>
      rw [hplace] at h
      cases h
      exact ⟨[], c, rest, i, rfl, hplace, rfl⟩
    | none =>
      rw [hplace] at h
      obtain ⟨⟨_, others⟩, hrest, heq⟩ := Option.map_eq_some_iff.1 h
      cases heq
      obtain ⟨before, d, after, i, rfl, hd, rfl⟩ := ih hrest
      exact ⟨c :: before, d, after, i, rfl, hd, rfl⟩

/-- After a removal at most one chunk is unlinked: the one of the removed entry, if it held no other. -/
theorem prune_removeFirst {place? : Chunk → Option Nat} {chunks chunks' : List Chunk} {cell : Nat}
    (h : InUse chunks) (hremove : removeFirst place? chunks = some (cell, chunks')) (size : Nat) :
    ∃ before c after i, chunks = before ++ c :: after ∧ place? c = some i ∧
      (prune ⟨chunks', size⟩).chunks =
        if c.cells.size = 1 then before ++ after else before ++ c.swapRemove i :: after := by
  obtain ⟨before, c, after, i, rfl, hplace, rfl⟩ := removeFirst_eq_some hremove
  have hpos := h c (List.mem_append_right _ List.mem_cons_self)
  have hsize : (c.swapRemove i).cells.size = c.cells.size - 1 := by simp [Chunk.swapRemove]
  have hothers : InUse (before ++ after) := fun d hd =>
    (List.mem_append.1 hd).elim (fun hd => h d (List.mem_append_left _ hd))
      fun hd => h d (List.mem_append_right _ (List.mem_cons_of_mem _ hd))
  refine ⟨before, c, after, i, rfl, hplace, ?_⟩
  split
  · have hempty : (c.swapRemove i).cells.isEmpty = true := by
      rw [Array.isEmpty_iff_size_eq_zero]
      omega
    have hkept := congrArg chunks (prune_eq_self (r := ⟨before ++ after, size⟩) hothers)
    rw [prune, List.filter_append] at hkept
    rw [prune, List.filter_append, List.filter_cons_of_neg (by rw [hempty]; exact Bool.false_ne_true)]
    exact hkept
  · refine congrArg chunks (prune_eq_self fun d hd => ?_)
    rcases List.mem_append.1 hd with hd | hd
    · exact hothers d (List.mem_append_left _ hd)
    · rcases List.mem_cons.1 hd with rfl | hd
      · omega
      · exact hothers d (List.mem_append_right _ hd)

/-! ## Answers -/

theorem hasPending_iff {r : FinalizerRegister} (h : r.Wf) :
    r.hasPending = true ↔ ∃ x ∈ r.entries, x.2 = true := by
  rw [hasPending, List.any_eq_true]
  constructor
  · rintro ⟨c, hc, hbits⟩
    obtain ⟨x, hx, hdue⟩ := (Chunk.pending_ne_zero (h.chunks c hc)).1 (bne_iff_ne.1 hbits)
    exact ⟨x, List.mem_flatMap.2 ⟨c, hc, hx⟩, hdue⟩
  · rintro ⟨x, hx, hdue⟩
    obtain ⟨c, hc, hx⟩ := List.mem_flatMap.1 hx
    exact ⟨c, hc, bne_iff_ne.2 ((Chunk.pending_ne_zero (h.chunks c hc)).2 ⟨x, hx, hdue⟩)⟩

theorem mem_pendingCells {r : FinalizerRegister} {registered : Nat → Option Bool}
    (h : Enumerates r.entries registered) :
    r.pendingCells.Nodup ∧ ∀ cell, cell ∈ r.pendingCells ↔ registered cell = some true :=
  h.keys_with (by rintro ⟨_, _ | _⟩ key <;> simp)

theorem remove_fst {r : FinalizerRegister} (h : r.Wf) (cell : Nat) :
    (r.remove cell).1 = true ↔ cell ∈ r.entries.map Prod.fst := by
  have hfirst := removeFirst_spec (Chunk.finds_position cell) h.chunks
  rw [remove, List.mem_map]
  cases hremove : removeFirst (·.position? cell) r.chunks with
  | none =>
    rw [hremove] at hfirst
    refine iff_of_false Bool.false_ne_true ?_
    rintro ⟨x, hx, heq⟩
    exact hfirst x hx heq
  | some found =>
    rw [hremove] at hfirst
    obtain ⟨-, pending, heq, hperm⟩ := hfirst
    exact iff_of_true rfl ⟨_, hperm.symm.subset List.mem_cons_self, heq⟩

/-! ## The map behind a register -/

/-- What a selection makes of a registration. One that is due stays as it is. -/
def settled (verdict : Nat → Verdict) (cell : Nat) : Bool → Option Bool
  | true => some true
  | false =>
    match verdict cell with
    | .keep => some false
    | .pending => some true
    | .forget => none

/-- What a selection makes of the registered cells. -/
def settle (verdict : Nat → Verdict) (registered : Nat → Option Bool) (cell : Nat) : Option Bool :=
  (registered cell).bind (settled verdict cell)

theorem judge_eq (verdict : Nat → Verdict) (cell : Nat) (pending : Bool) :
    Chunk.judge verdict (cell, pending) = (settled verdict cell pending).map (Prod.mk cell) := by
  cases pending with
  | true => rfl
  | false =>
    rw [Chunk.judge, settled]
    cases verdict cell <;> rfl

/-- A register after a sequence of operations, beside the cells that are then registered, each with whether its
finalizer is due. -/
inductive History : FinalizerRegister → (Nat → Option Bool) → Prop
  | empty : History .empty fun _ => none
  | push {r : FinalizerRegister} {registered : Nat → Option Bool} {cell : Nat} (h : History r registered)
      (hfresh : registered cell = none) : History (r.push cell) (Function.update registered cell (some false))
  | remove {r : FinalizerRegister} {registered : Nat → Option Bool} (cell : Nat) (h : History r registered) :
      History (r.remove cell).2 (Function.update registered cell none)
  | select {r : FinalizerRegister} {registered : Nat → Option Bool} (verdict : Nat → Verdict)
      (h : History r registered) : History (r.select verdict).2 (settle verdict registered)
  | take {r r' : FinalizerRegister} {registered : Nat → Option Bool} {cell : Nat} (h : History r registered)
      (htake : r.takePending = some (cell, r')) : History r' (Function.update registered cell none)
  | prune {r : FinalizerRegister} {registered : Nat → Option Bool} (h : History r registered) :
      History r.prune registered

/-- The register holds the registrations of the map, in chunks that are in use and have no bit set past their
entries, and counts them. -/
structure Agrees (r : FinalizerRegister) (registered : Nat → Option Bool) : Prop where
  wf : r.Wf
  inUse : InUse r.chunks
  holds : Enumerates r.entries registered

namespace Agrees

variable {r : FinalizerRegister} {registered : Nat → Option Bool}

theorem empty : FinalizerRegister.empty.Agrees fun _ => none :=
  ⟨wf_empty, fun _ hc => absurd hc List.not_mem_nil, .nil⟩

theorem push (h : r.Agrees registered) {cell : Nat} (hfresh : registered cell = none) :
    (r.push cell).Agrees (Function.update registered cell (some false)) := by
  obtain ⟨hwf, hperm⟩ := push_spec h.wf cell
  exact ⟨hwf, h.inUse.push cell, (h.holds.cons hfresh false).perm hperm.symm⟩

/-- A cell is removed exactly if it was registered. -/
theorem remove (h : r.Agrees registered) (cell : Nat) :
    ((r.remove cell).1 = true ↔ registered cell ≠ none) ∧
      (r.remove cell).2.Agrees (Function.update registered cell none) := by
  obtain ⟨hwf, hentries⟩ := remove_spec h.wf cell
  have hinUse : InUse (r.remove cell).2.chunks := by
    rw [FinalizerRegister.remove]
    split
    · exact h.inUse
    · exact inUse_prune _
  refine ⟨(remove_fst h.wf cell).trans h.holds.mem_keys, hwf, hinUse, ?_⟩
  rcases hentries with ⟨pending, hperm⟩ | ⟨habsent, hsame⟩
  · exact (h.holds.perm hperm).tail.2
  · have hnone : registered cell = none := by
      by_contra hsome
      obtain ⟨x, hx, heq⟩ := List.mem_map.1 (h.holds.mem_keys.2 hsome)
      exact habsent x hx heq
    rw [hsame, ← hnone, Function.update_eq_self]
    exact h.holds

/-- The cells that a selection offers are those whose finalizer is not due, each once, and each meets its
verdict. -/
theorem select (h : r.Agrees registered) (verdict : Nat → Verdict) :
    (r.select verdict).1.Nodup ∧ (∀ cell, cell ∈ (r.select verdict).1 ↔ registered cell = some false) ∧
      (r.select verdict).2.Agrees (settle verdict registered) := by
  obtain ⟨hwf, hentries, hoffered⟩ := select_spec h.wf verdict
  obtain ⟨hnodup, hmem⟩ := Chunk.mem_idle h.holds
  have hjudged : Enumerates _ (settle verdict registered) := h.holds.filterMap (judge_eq verdict)
  exact ⟨hoffered.nodup_iff.2 hnodup, fun cell => hoffered.mem_iff.trans (hmem cell), hwf, inUse_prune _,
    hjudged.perm hentries.symm⟩

/-- Nothing is unlinked by a selection that forgets nothing. -/
theorem select_of_kept (h : r.Agrees registered) {verdict : Nat → Verdict}
    (hkept : ∀ cell, registered cell = some false → verdict cell ≠ .forget) :
    (r.select verdict).2 = ⟨r.chunks.map fun c => (c.select verdict).2, r.size⟩ := by
  have hcount : ∀ cells : List Nat, (∀ cell ∈ cells, registered cell = some false) →
      cells.countP (fun cell => verdict cell == .forget) = 0 := fun cells hidle =>
    List.countP_eq_zero.2 fun cell hcell => by simpa using hkept cell (hidle cell hcell)
  have hinUse : InUse (r.chunks.map fun c => (c.select verdict).2) := fun d hd => by
    obtain ⟨c, hc, rfl⟩ := List.mem_map.1 hd
    have hidle : ∀ cell ∈ Chunk.idle c.entries, registered cell = some false := fun cell hcell => by
      obtain ⟨x, hx, heq⟩ := List.mem_filterMap.1 hcell
      exact ((Chunk.mem_idle h.holds).2 cell).1 (List.mem_filterMap.2 ⟨x, List.mem_flatMap.2 ⟨c, hc, hx⟩, heq⟩)
    have hjudged := length_judge verdict c.entries
    have hsize := (Chunk.select_spec verdict (h.wf.chunks c hc)).2.1.length_eq
    rw [hcount _ hidle, Chunk.length_entries] at hjudged
    rw [Chunk.length_entries] at hsize
    have := h.inUse c hc
    omega
  have hoffered := hcount _ fun cell hcell => ((h.select verdict).2.1 cell).1 hcell
  rw [← prune_eq_self (r := ⟨r.chunks.map fun c => (c.select verdict).2, r.size⟩) hinUse]
  show prune ⟨(r.chunks.map (Chunk.select verdict)).map Prod.snd,
    r.size - (r.select verdict).1.countP fun cell => verdict cell == .forget⟩ = _
  rw [hoffered, List.map_map]
  rfl

/-- The next cell to be finalized is one that is due; there is none exactly if none is due. -/
theorem takePending (h : r.Agrees registered) :
    (r.takePending = none ↔ ∀ cell, registered cell ≠ some true) ∧
      ∀ cell r', r.takePending = some (cell, r') →
        registered cell = some true ∧ r'.Agrees (Function.update registered cell none) := by
  have htake := takePending_spec h.wf
  cases hfirst : r.takePending with
  | none =>
    rw [hfirst] at htake
    refine ⟨iff_of_true rfl fun cell hdue => ?_, fun cell r' hsome => absurd hsome (Option.some_ne_none _).symm⟩
    exact Bool.false_ne_true (htake _ ((h.holds.mem_iff cell true).2 hdue)).symm
  | some taken =>
    obtain ⟨cell, r'⟩ := taken
    rw [hfirst] at htake
    obtain ⟨hwf, hperm⟩ := htake
    obtain ⟨hdue, hholds⟩ := (h.holds.perm hperm).tail
    have hinUse : InUse r'.chunks := by
      rw [FinalizerRegister.takePending] at hfirst
      split at hfirst
      · cases hfirst
      · cases hfirst
        exact inUse_prune _
    refine ⟨iff_of_false (Option.some_ne_none _) fun hnone => hnone cell hdue, fun other r'' heq => ?_⟩
    cases heq
    exact ⟨hdue, hwf, hinUse, hholds⟩

theorem prune (h : r.Agrees registered) : r.prune.Agrees registered := by
  rw [prune_eq_self h.inUse]
  exact h

end Agrees

/-- Throughout a history the register agrees with the map. -/
theorem History.agrees {r : FinalizerRegister} {registered : Nat → Option Bool} (h : History r registered) :
    r.Agrees registered := by
  induction h with
  | empty => exact .empty
  | push _ hfresh ih => exact ih.push hfresh
  | remove cell _ ih => exact (ih.remove cell).2
  | select verdict _ ih => exact (ih.select verdict).2.2
  | take _ htake ih => exact (ih.takePending.2 _ _ htake).2
  | prune _ ih => exact ih.prune

/-- At every point of a history a register is the map of its registrations, and so it stays: a new cell can be
pushed; exactly a registered cell can be removed; a selection offers every cell that is not due once and no
other, and does with it what the verdict says; a cell is taken exactly if one is due, and it is one that is
due; and the cells that are listed as due are those that are, each once. -/
theorem exact_register {r : FinalizerRegister} {registered : Nat → Option Bool} (h : History r registered) :
    r.Agrees registered ∧
      (∀ cell, registered cell = none →
        (r.push cell).Agrees (Function.update registered cell (some false))) ∧
      (∀ cell, ((r.remove cell).1 = true ↔ registered cell ≠ none) ∧
        (r.remove cell).2.Agrees (Function.update registered cell none)) ∧
      (∀ verdict, (r.select verdict).1.Nodup ∧
        (∀ cell, cell ∈ (r.select verdict).1 ↔ registered cell = some false) ∧
        (r.select verdict).2.Agrees (settle verdict registered)) ∧
      ((r.takePending = none ↔ ∀ cell, registered cell ≠ some true) ∧
        ∀ cell r', r.takePending = some (cell, r') →
          registered cell = some true ∧ r'.Agrees (Function.update registered cell none)) ∧
      (r.pendingCells.Nodup ∧ ∀ cell, cell ∈ r.pendingCells ↔ registered cell = some true) ∧
      (r.hasPending = true ↔ ∃ cell, registered cell = some true) ∧ r.prune = r := by
  have ha := h.agrees
  refine ⟨ha, fun cell => ha.push, ha.remove, ha.select, ha.takePending, mem_pendingCells ha.holds, ?_,
    prune_eq_self ha.inUse⟩
  rw [hasPending_iff ha.wf]
  constructor
  · rintro ⟨⟨cell, _⟩, hmem, rfl⟩
    exact ⟨cell, (ha.holds.mem_iff cell true).1 hmem⟩
  · rintro ⟨cell, hdue⟩
    exact ⟨_, (ha.holds.mem_iff cell true).2 hdue, rfl⟩

/-- Of two cells, of which a selection finds one due and forgets the other, the first is taken and the second
is not there to be removed; then nothing is left. -/
theorem due_cell_taken : ∃ r registered r', History r registered ∧ r.takePending = some (7, r') ∧
    (r.remove 9).1 = false ∧ r'.size = 0 := by
  let verdict : Nat → Verdict := fun cell => if cell = 7 then .pending else .forget
  let pushed := Function.update (Function.update (fun _ => none) 7 (some false)) 9 (some false)
  have hpushed : History ((empty.push 7).push 9) pushed :=
    (History.empty.push rfl).push (Function.update_of_ne (by decide) _ _)
  have hhistory := hpushed.select verdict
  have hdue : ∀ cell, settle verdict pushed cell = if cell = 7 then some true else none := fun cell => by
    simp only [settle, pushed, Function.update_apply, verdict]
    split_ifs <;> simp_all [settled]
  obtain ⟨-, -, hremove, -, ⟨hnone, htaken⟩, -⟩ := exact_register hhistory
  obtain ⟨⟨cell, r'⟩, htake⟩ : ∃ taken, (((empty.push 7).push 9).select verdict).2.takePending = some taken :=
    Option.ne_none_iff_exists'.1 fun h => hnone.1 h 7 (hdue 7)
  obtain ⟨hcell, hagrees⟩ := htaken cell r' htake
  obtain rfl : cell = 7 := by
    rw [hdue] at hcell
    by_contra hne
    rw [if_neg hne] at hcell
    cases hcell
  refine ⟨_, _, r', hhistory, htake, ?_, ?_⟩
  · rw [Bool.eq_false_iff]
    exact fun hremoved => (hremove 9).1.1 hremoved (hdue 9)
  · rw [hagrees.wf.size, List.length_eq_zero_iff, List.eq_nil_iff_forall_not_mem]
    rintro ⟨cell, due⟩ hmem
    have hsome := (hagrees.holds.mem_iff cell due).1 hmem
    rw [Function.update_apply, hdue] at hsome
    split_ifs at hsome

end FinalizerRegister

end Tricolor
