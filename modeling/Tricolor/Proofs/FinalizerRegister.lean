import Mathlib.Data.List.Perm.Basic
import Mathlib.Order.Nat
import Mathlib.Tactic.Common
import Tricolor.FinalizerRegister

/-!
# What a finalizer register holds

`FinalizerRegister.entries` is the view of a register: its registrations, each with
whether it is due, in an order that does not matter. Each operation changes this list as
one expects, up to a permutation, as long as the register is well formed.
-/

namespace Tricolor

/-- Moving the last element of a list into the place of another one and dropping the end
removes that other one. -/
theorem perm_cons_dropLast_set {α : Type} {l : List α} {i : Nat} (hi : i < l.length)
    (hne : l ≠ []) : l.Perm (l[i] :: (l.set i (l.getLast hne)).dropLast) := by
  obtain ⟨init, z, rfl⟩ : ∃ init z, l = init ++ [z] :=
    ⟨l.dropLast, l.getLast hne, (List.dropLast_append_getLast hne).symm⟩
  rw [List.getLast_append_singleton]
  rw [List.length_append, List.length_singleton] at hi
  rcases Nat.eq_or_lt_of_le (Nat.le_of_lt_succ hi) with rfl | hlt
  · simp
  · rw [List.getElem_append_left hlt, List.set_append_left _ _ hlt, List.dropLast_concat]
    refine List.perm_append_singleton _ _ |>.trans ?_
    refine ((List.getElem_cons_eraseIdx_perm hlt).symm.cons z).trans ?_
    refine (List.Perm.swap _ _ _).trans (List.Perm.cons _ ?_)
    exact (List.set_perm_cons_eraseIdx hlt z).symm

namespace Chunk

/-- A chunk has room for its entries, and no bit is set past them. -/
structure Wf (c : Chunk) : Prop where
  size_le : c.cells.size ≤ chunkCapacity
  clear : ∀ i, c.cells.size ≤ i → c.isPending i = false

theorem getLsbD_withBit (bits : BitVec chunkCapacity) {i : Nat} (hi : i < chunkCapacity) (bit : Bool)
    (j : Nat) : (withBit bits i bit).getLsbD j = if i = j then bit else bits.getLsbD j := by
  unfold withBit
  by_cases hij : i = j
  · subst hij
    cases bit <;> simp [hi]
  · rw [if_neg hij]
    cases bit with
    | true => simp [hij]
    | false =>
      rcases Nat.lt_or_ge j chunkCapacity with hj | hj
      · simp [Ne.symm hij, hj]
      · simp [BitVec.getLsbD_of_ge _ _ hj]

@[simp] theorem length_entries (c : Chunk) : c.entries.length = c.cells.size := by
  simp [entries]

theorem getElem?_entries (c : Chunk) (i : Nat) :
    c.entries[i]? = c.cells[i]?.map fun cell => (cell, c.isPending i) := by
  simp [entries, List.getElem?_zipIdx, Function.comp_def]

theorem getElem_entries {c : Chunk} {i : Nat} (hlen : i < c.entries.length) (hi : i < c.cells.size) :
    c.entries[i] = (c.cells[i], c.isPending i) := by
  simp [entries]

variable {c : Chunk} {i : Nat}

theorem Wf.swapRemove (h : c.Wf) (hi : i < c.cells.size) : (c.swapRemove i).Wf := by
  have hsize := h.size_le
  refine ⟨by simp [Chunk.swapRemove]; omega, fun j hj => ?_⟩
  have hj' : c.cells.size - 1 ≤ j := by simpa [Chunk.swapRemove] using hj
  rw [isPending, Chunk.swapRemove]
  simp only
  rw [getLsbD_withBit _ (by omega), getLsbD_withBit _ (by omega)]
  split
  · rfl
  · rw [if_neg (by omega)]
    exact h.clear j (by omega)

theorem Wf.schedule (h : c.Wf) (hi : i < c.cells.size) : (c.schedule i).Wf := by
  refine ⟨h.size_le, fun j hj => ?_⟩
  have hj' : c.cells.size ≤ j := hj
  have hsize := h.size_le
  rw [isPending, Chunk.schedule]
  simp only
  rw [getLsbD_withBit _ (by omega), if_neg (by omega)]
  exact h.clear j hj'

/-- Removing an entry moves the last one into its place. -/
theorem entries_swapRemove (h : c.Wf) (hi : i < c.cells.size) (hne : c.entries ≠ []) :
    (c.swapRemove i).entries = (c.entries.set i (c.entries.getLast hne)).dropLast := by
  have hsize := h.size_le
  have hlast : c.entries.getLast hne = (c.cells[c.cells.size - 1], c.isPending (c.cells.size - 1)) := by
    have hlen := length_entries c
    rw [List.getLast_eq_getElem, ← getElem_entries (by omega) (by omega)]
    simp only [length_entries]
  have hget : c.cells.getD (c.cells.size - 1) 0 = c.cells[c.cells.size - 1] := by
    rw [Array.getD_eq_getD_getElem?, Array.getElem?_eq_getElem (by omega), Option.getD_some]
  refine List.ext_getElem? fun j => ?_
  rw [getElem?_entries, List.getElem?_dropLast, List.length_set, length_entries,
    List.getElem?_set, length_entries, getElem?_entries, hlast]
  simp only [Chunk.swapRemove, isPending, Array.getElem?_pop, Array.size_setIfInBounds,
    Array.getElem?_setIfInBounds]
  rw [getLsbD_withBit _ (by omega), getLsbD_withBit _ (by omega), hget]
  by_cases hj : j < c.cells.size - 1
  · rw [if_pos hj, if_pos hj, if_neg (by omega)]
    by_cases hij : i = j
    · subst hij
      simp [hi]
    · simp [hij]
  · rw [if_neg hj, if_neg hj]
    rfl

theorem entries_swapRemove_perm (h : c.Wf) (hi : i < c.cells.size) :
    c.entries.Perm ((c.cells[i], c.isPending i) :: (c.swapRemove i).entries) := by
  have hlen : i < c.entries.length := by rw [length_entries]; exact hi
  have hne : c.entries ≠ [] := List.ne_nil_of_length_pos (by omega)
  rw [entries_swapRemove h hi hne, ← getElem_entries hlen hi]
  exact perm_cons_dropLast_set hlen hne

/-! ## Selecting -/

/-- What a verdict makes of a registration. Those that are due are not asked about. -/
def judge (verdict : Nat → Verdict) : Nat × Bool → Option (Nat × Bool)
  | (cell, true) => some (cell, true)
  | (cell, false) =>
    match verdict cell with
    | .keep => some (cell, false)
    | .pending => some (cell, true)
    | .forget => none

/-- The registrations that are not due. -/
def idle (entries : List (Nat × Bool)) : List Nat :=
  entries.filterMap fun (cell, pending) => if pending then none else some cell

/-- What is due after the verdicts was due before, or is due by its verdict. -/
theorem mem_judged_true {verdict : Nat → Verdict} {entries : List (Nat × Bool)} {cell : Nat} :
    (cell, true) ∈ entries.filterMap (judge verdict) ↔
      (cell, true) ∈ entries ∨ (cell, false) ∈ entries ∧ verdict cell = .pending := by
  rw [List.mem_filterMap]
  constructor
  · rintro ⟨⟨d, _ | _⟩, hd, hjudge⟩
    · rw [judge] at hjudge
      split at hjudge <;> cases hjudge
      exact .inr ⟨hd, ‹_›⟩
    · cases hjudge
      exact .inl hd
  · rintro (hdue | ⟨hidle, hverdict⟩)
    · exact ⟨_, hdue, rfl⟩
    · exact ⟨_, hidle, by rw [judge, hverdict]⟩

/-- What is not due is kept by its verdict. -/
theorem mem_judged_false {verdict : Nat → Verdict} {entries : List (Nat × Bool)} {cell : Nat} :
    (cell, false) ∈ entries.filterMap (judge verdict) ↔ (cell, false) ∈ entries ∧ verdict cell = .keep := by
  rw [List.mem_filterMap]
  constructor
  · rintro ⟨⟨d, _ | _⟩, hd, hjudge⟩
    · rw [judge] at hjudge
      split at hjudge <;> cases hjudge
      exact ⟨hd, ‹_›⟩
    · cases hjudge
  · rintro ⟨hidle, hverdict⟩
    exact ⟨_, hidle, by rw [judge, hverdict]⟩

/-- No verdict adds a cell. -/
theorem judged_sublist (verdict : Nat → Verdict) (entries : List (Nat × Bool)) :
    ((entries.filterMap (judge verdict)).map Prod.fst).Sublist (entries.map Prod.fst) := by
  induction entries with
  | nil => exact List.Sublist.refl _
  | cons x rest ih =>
    cases hx : judge verdict x with
    | none =>
      rw [List.filterMap_cons_none hx]
      exact ih.cons x.1
    | some y =>
      have hcell : y.1 = x.1 := by
        obtain ⟨d, _ | _⟩ := x
        · rw [judge] at hx
          split at hx <;> cases hx <;> rfl
        · cases hx
          rfl
      rw [List.filterMap_cons_some hx, List.map_cons, List.map_cons, hcell]
      exact ih.cons_cons x.1

theorem entries_schedule (h : c.Wf) (hi : i < c.cells.size) :
    (c.schedule i).entries = c.entries.set i (c.cells[i], true) := by
  have hsize := h.size_le
  refine List.ext_getElem? fun j => ?_
  rw [getElem?_entries, List.getElem?_set, length_entries, getElem?_entries, isPending,
    Chunk.schedule]
  simp only
  rw [getLsbD_withBit _ (by omega)]
  by_cases hij : i = j
  · subst hij
    simp [hi]
  · simp [hij, isPending]

theorem drop_entries (hi : i < c.cells.size) :
    c.entries.drop i = (c.cells[i], c.isPending i) :: c.entries.drop (i + 1) := by
  have hlen : i < c.entries.length := by rw [length_entries]; exact hi
  rw [List.drop_eq_getElem_cons hlen, getElem_entries hlen hi]

theorem take_entries (hi : i < c.cells.size) :
    c.entries.take (i + 1) = c.entries.take i ++ [(c.cells[i], c.isPending i)] := by
  have hlen : i < c.entries.length := by rw [length_entries]; exact hi
  rw [List.take_add_one, List.getElem?_eq_getElem hlen, getElem_entries hlen hi]
  rfl

/-- Scheduling changes no other entry. -/
theorem take_schedule (h : c.Wf) (hi : i < c.cells.size) :
    (c.schedule i).entries.take (i + 1) = c.entries.take i ++ [(c.cells[i], true)] := by
  have hlen : i < c.entries.length := by rw [length_entries]; exact hi
  rw [entries_schedule h hi, List.take_add_one, List.take_set_of_le (le_refl i), List.getElem?_set_self hlen]
  rfl

theorem drop_schedule (h : c.Wf) (hi : i < c.cells.size) :
    (c.schedule i).entries.drop (i + 1) = c.entries.drop (i + 1) := by
  rw [entries_schedule h hi, List.drop_set_of_lt (by omega)]

/-- Removing an entry reorders those behind it only. -/
theorem take_swapRemove (h : c.Wf) (hi : i < c.cells.size) :
    (c.swapRemove i).entries.take i = c.entries.take i := by
  have hlen : i < c.entries.length := by rw [length_entries]; exact hi
  have hne : c.entries ≠ [] := List.ne_nil_of_length_pos (by omega)
  rw [entries_swapRemove h hi hne, List.dropLast_eq_take, List.take_take, List.length_set, length_entries,
    min_eq_left (by omega), List.take_set_of_le (le_refl i)]

theorem drop_swapRemove_perm (h : c.Wf) (hi : i < c.cells.size) :
    ((c.swapRemove i).entries.drop i).Perm (c.entries.drop (i + 1)) := by
  have hperm := entries_swapRemove_perm h hi
  rw [← List.take_append_drop i c.entries, drop_entries hi, ← List.take_append_drop i (c.swapRemove i).entries,
    take_swapRemove h hi] at hperm
  have hrest := (List.perm_middle.symm.trans hperm).cons_inv
  exact ((List.perm_append_left_iff _).1 hrest).symm

/-- Selecting from place `i` on leaves the entries before it and judges the others, in an
order of its own. -/
theorem selectFrom_spec (verdict : Nat → Verdict) :
    ∀ (n : Nat) {c : Chunk} {i : Nat}, c.Wf → i ≤ c.cells.size → c.cells.size - i ≤ n →
      (c.selectFrom verdict i n).2.Wf ∧
      (c.selectFrom verdict i n).2.entries.Perm
        (c.entries.take i ++ (c.entries.drop i).filterMap (judge verdict)) ∧
      (c.selectFrom verdict i n).1.Perm (idle (c.entries.drop i)) := by
  have hdone : ∀ {c : Chunk} {i : Nat}, c.Wf → c.cells.size ≤ i → c.Wf ∧
      c.entries.Perm (c.entries.take i ++ (c.entries.drop i).filterMap (judge verdict)) ∧
      [].Perm (idle (c.entries.drop i)) := by
    intro c i h hi
    rw [List.drop_eq_nil_of_le (by rw [length_entries]; omega), List.take_of_length_le (by rw [length_entries]; omega),
      List.filterMap_nil, List.append_nil]
    exact ⟨h, .refl _, .refl _⟩
  intro n
  induction n with
  | zero =>
    intro c i h hi hn
    exact @hdone c i h (by omega)
  | succ n ih =>
    intro c i h hi hn
    rw [selectFrom]
    by_cases hlt : i < c.cells.size
    · have htake := take_entries hlt
      rw [dif_pos hlt, drop_entries hlt]
      cases hp : c.isPending i with
      | true =>
        rw [hp] at htake
        obtain ⟨hwf, hentries, hoffered⟩ := @ih c (i + 1) h hlt (by omega)
        rw [htake, List.append_assoc] at hentries
        rw [if_pos rfl]
        exact ⟨hwf, hentries, hoffered⟩
      | false =>
        rw [hp] at htake
        rw [if_neg Bool.false_ne_true]
        cases hv : verdict c.cells[i] with
        | keep =>
          simp only [hv]
          obtain ⟨hwf, hentries, hoffered⟩ := @ih c (i + 1) h hlt (by omega)
          rw [htake, List.append_assoc] at hentries
          rw [List.filterMap_cons_some (by rw [judge, hv])]
          exact ⟨hwf, hentries, hoffered.cons _⟩
        | pending =>
          simp only [hv]
          obtain ⟨hwf, hentries, hoffered⟩ :=
            @ih (c.schedule i) (i + 1) (h.schedule hlt) hlt (by show c.cells.size - _ ≤ n; omega)
          rw [take_schedule h hlt, drop_schedule h hlt, List.append_assoc] at hentries
          rw [drop_schedule h hlt] at hoffered
          rw [List.filterMap_cons_some (by rw [judge, hv])]
          exact ⟨hwf, hentries, hoffered.cons _⟩
        | forget =>
          -- another entry takes the place, so the selection goes on from here
          simp only [hv]
          have hsize : (c.swapRemove i).cells.size = c.cells.size - 1 := by
            simp [Chunk.swapRemove]
          obtain ⟨hwf, hentries, hoffered⟩ :=
            @ih (c.swapRemove i) i (h.swapRemove hlt) (by omega) (by omega)
          have hrest := drop_swapRemove_perm h hlt
          rw [take_swapRemove h hlt] at hentries
          rw [List.filterMap_cons_none (by rw [judge, hv])]
          exact ⟨hwf, hentries.trans ((hrest.filterMap _).append_left _),
            (hoffered.trans (hrest.filterMap _)).cons _⟩
    · rw [dif_neg hlt]
      exact @hdone c i h (by omega)

/-- Selecting judges every entry and offers those that are not due. -/
theorem select_spec (verdict : Nat → Verdict) (h : c.Wf) :
    (c.select verdict).2.Wf ∧ (c.select verdict).2.entries.Perm (c.entries.filterMap (judge verdict)) ∧
      (c.select verdict).1.Perm (idle c.entries) := by
  have := selectFrom_spec verdict c.cells.size h (Nat.zero_le _) (le_refl _)
  rwa [List.take_zero, List.drop_zero, List.nil_append] at this

/-! ## Finding entries -/

/-- The first entry that is due, looked for from place `i` on. -/
theorem firstPendingFrom_spec (c : Chunk) (i n : Nat) :
    match c.firstPendingFrom i n with
    | none => ∀ j, i ≤ j → j < i + n → c.isPending j = false
    | some j => c.isPending j = true := by
  induction n generalizing i with
  | zero =>
    intro j hj hlt
    omega
  | succ n ih =>
    rw [firstPendingFrom]
    cases hp : c.isPending i with
    | true =>
      rw [if_pos rfl]
      exact hp
    | false =>
      rw [if_neg Bool.false_ne_true]
      have := ih (i + 1)
      cases hfirst : c.firstPendingFrom (i + 1) n with
      | some j =>
        rw [hfirst] at this
        exact this
      | none =>
        rw [hfirst] at this
        intro j hj hlt
        rcases Nat.eq_or_lt_of_le hj with rfl | hj
        · exact hp
        · exact this j hj (by omega)

/-- A place that a search answers holds an entry of the kind that it looks for, and when it
answers none there is no such entry. -/
structure Finds (place? : Chunk → Option Nat) (p : Nat × Bool → Prop) : Prop where
  some : ∀ c i, c.Wf → place? c = some i → ∃ hi : i < c.cells.size, p (c.cells[i], c.isPending i)
  none : ∀ c, c.Wf → place? c = none → ∀ x ∈ c.entries, ¬ p x

theorem finds_position (cell : Nat) : Finds (·.position? cell) fun x => x.1 = cell where
  some c i _ h := by
    obtain ⟨hi, heq, -⟩ := Array.findIdx?_eq_some_iff_getElem.1 h
    exact ⟨hi, by simpa using heq⟩
  none c _ h x hx := by
    obtain ⟨i, hlen, rfl⟩ := List.mem_iff_getElem.1 hx
    have hi : i < c.cells.size := by rwa [length_entries] at hlen
    rw [getElem_entries hlen hi]
    have := Array.findIdx?_eq_none_iff.1 h c.cells[i] (Array.getElem_mem hi)
    simpa using this

theorem finds_firstPending : Finds firstPending? fun x => x.2 = true where
  some c i h hfirst := by
    have := firstPendingFrom_spec c 0 chunkCapacity
    rw [show c.firstPendingFrom 0 chunkCapacity = Option.some i from hfirst] at this
    have this : c.isPending i = true := this
    refine ⟨?_, this⟩
    by_contra hnot
    rw [h.clear i (not_lt.1 hnot)] at this
    cases this
  none c h hfirst x hx := by
    have := firstPendingFrom_spec c 0 chunkCapacity
    rw [show c.firstPendingFrom 0 chunkCapacity = Option.none from hfirst] at this
    obtain ⟨i, hlen, rfl⟩ := List.mem_iff_getElem.1 hx
    have hi : i < c.cells.size := by rwa [length_entries] at hlen
    rw [getElem_entries hlen hi]
    have hsize := h.size_le
    simp [this i (Nat.zero_le _) (by omega)]

end Chunk

namespace FinalizerRegister

/-- The chunks are well formed, and the registrations are counted. -/
structure Wf (r : FinalizerRegister) : Prop where
  chunks : ∀ c ∈ r.chunks, c.Wf
  size : r.size = r.entries.length

theorem wf_empty : empty.Wf := ⟨fun _ hc => absurd hc List.not_mem_nil, rfl⟩

variable {r : FinalizerRegister}

theorem Wf.isEmpty_iff (h : r.Wf) : r.isEmpty = true ↔ r.entries = [] := by
  rw [FinalizerRegister.isEmpty, beq_iff_eq, h.size, List.length_eq_zero_iff]

/-- Unlinking empty chunks loses no registration. -/
theorem entries_prune (r : FinalizerRegister) : r.prune.entries = r.entries := by
  obtain ⟨chunks, size⟩ := r
  rw [prune, entries, entries]
  simp only
  induction chunks with
  | nil => rfl
  | cons c rest ih =>
    rw [List.filter_cons]
    split
    · rw [List.flatMap_cons, List.flatMap_cons, ih]
    · next hempty =>
      have hnil : c.entries = [] := by
        rw [← List.length_eq_zero_iff, Chunk.length_entries]
        simpa using hempty
      rw [ih, List.flatMap_cons, hnil, List.nil_append]

theorem mem_prune {c : Chunk} (hc : c ∈ r.prune.chunks) : c ∈ r.chunks := List.mem_of_mem_filter hc

/-- A push registers the cell; its finalizer is not due. -/
theorem push_spec (h : r.Wf) (cell : Nat) :
    (r.push cell).Wf ∧ (r.push cell).entries.Perm ((cell, false) :: r.entries) := by
  obtain ⟨chunks, size⟩ := r
  have hsingle : (⟨#[cell], 0⟩ : Chunk).Wf :=
    ⟨show 1 ≤ chunkCapacity by decide, fun i _ => by simp [Chunk.isPending]⟩
  have hperm : ((push ⟨chunks, size⟩ cell).entries).Perm
      ((cell, false) :: (⟨chunks, size⟩ : FinalizerRegister).entries) := by
    rw [push]
    cases chunks with
    | nil => simp [entries, Chunk.entries, Chunk.isPending]
    | cons c rest =>
      simp only
      split
      · simp [entries, Chunk.entries, Chunk.isPending]
      · next hfull =>
        have hbit := (h.chunks c List.mem_cons_self).clear c.cells.size (le_refl _)
        have hentries : Chunk.entries { c with cells := c.cells.push cell } =
            c.entries ++ [(cell, false)] := by
          simp only [Chunk.entries, Array.toList_push, List.zipIdx_append, List.map_append]
          simp only [Nat.zero_add, Array.length_toList, List.zipIdx_singleton, List.map_cons,
            List.map_nil]
          rw [show Chunk.isPending { c with cells := c.cells.push cell } = c.isPending from rfl, hbit]
        simp only [entries, List.flatMap_cons, hentries, List.append_assoc]
        exact List.perm_middle
  refine ⟨⟨fun d hd => ?_, ?_⟩, hperm⟩
  · rw [push] at hd
    cases chunks with
    | nil =>
      rw [List.mem_singleton.1 hd]
      exact hsingle
    | cons c rest =>
      simp only at hd
      split at hd
      · rcases List.mem_cons.1 hd with rfl | hd
        · exact hsingle
        · exact h.chunks d hd
      · next hfull =>
        rcases List.mem_cons.1 hd with rfl | hd
        · have hc := h.chunks c List.mem_cons_self
          have hlt : c.cells.size ≠ chunkCapacity := by simpa [Chunk.isFull] using hfull
          have hle := hc.size_le
          refine ⟨by rw [Array.size_push]; omega, fun i hi => ?_⟩
          rw [Array.size_push] at hi
          exact hc.clear i (by omega)
        · exact h.chunks d (List.mem_cons_of_mem _ hd)
  · rw [hperm.length_eq, List.length_cons, ← h.size]
    rfl

/-- Removing the first entry of a kind leaves the others; when nothing is removed, no entry
is of that kind. -/
theorem removeFirst_spec {place? : Chunk → Option Nat} {p : Nat × Bool → Prop}
    (hplace : Chunk.Finds place? p) :
    ∀ {chunks : List Chunk}, (∀ c ∈ chunks, c.Wf) →
      match removeFirst place? chunks with
      | none => ∀ x ∈ chunks.flatMap Chunk.entries, ¬ p x
      | some (cell, chunks') => (∀ c ∈ chunks', c.Wf) ∧ ∃ pending, p (cell, pending) ∧
          (chunks.flatMap Chunk.entries).Perm ((cell, pending) :: chunks'.flatMap Chunk.entries) := by
  intro chunks
  induction chunks with
  | nil => exact fun _ x hx => absurd hx List.not_mem_nil
  | cons c rest ih =>
    intro hwf
    have hc := hwf c List.mem_cons_self
    have hrest : ∀ d ∈ rest, d.Wf := fun d hd => hwf d (List.mem_cons_of_mem _ hd)
    have ih := ih hrest
    rw [removeFirst]
    cases hp : place? c with
    | some i =>
      obtain ⟨hi, hkind⟩ := hplace.some c i hc hp
      have hget : c.cells.getD i 0 = c.cells[i] := by
        rw [Array.getD_eq_getD_getElem?, Array.getElem?_eq_getElem hi, Option.getD_some]
      simp only [hget]
      refine ⟨fun d hd => ?_, c.isPending i, hkind, ?_⟩
      · rcases List.mem_cons.1 hd with rfl | hd
        · exact hc.swapRemove hi
        · exact hrest d hd
      · rw [List.flatMap_cons, List.flatMap_cons]
        exact (Chunk.entries_swapRemove_perm hc hi).append_right _
    | none =>
      have hnone := hplace.none c hc hp
      cases hfirst : removeFirst place? rest with
      | none =>
        rw [hfirst] at ih
        intro x hx
        rw [List.flatMap_cons, List.mem_append] at hx
        exact hx.elim (hnone x) (ih x)
      | some found =>
        obtain ⟨cell, others⟩ := found
        rw [hfirst] at ih
        obtain ⟨hothers, pending, hkind, hperm⟩ := ih
        refine ⟨fun d hd => ?_, pending, hkind, ?_⟩
        · rcases List.mem_cons.1 hd with rfl | hd
          · exact hc
          · exact hothers d hd
        · rw [List.flatMap_cons, List.flatMap_cons]
          exact (hperm.append_left _).trans List.perm_middle

/-- What is left after the entry `x` was removed is well formed. -/
theorem wf_prune (h : r.Wf) {chunks : List Chunk} {x : Nat × Bool} (hchunks : ∀ c ∈ chunks, c.Wf)
    (hperm : r.entries.Perm (x :: chunks.flatMap Chunk.entries)) :
    (prune ⟨chunks, r.size - 1⟩).Wf := by
  refine ⟨fun c hc => hchunks c (mem_prune hc), ?_⟩
  rw [entries_prune]
  show r.size - 1 = (chunks.flatMap Chunk.entries).length
  rw [h.size, hperm.length_eq, List.length_cons, Nat.add_sub_cancel]

/-- Removing a cell drops one registration of it; a cell that is not registered changes
nothing. -/
theorem remove_spec (h : r.Wf) (cell : Nat) :
    (r.remove cell).2.Wf ∧
      ((∃ pending, r.entries.Perm ((cell, pending) :: (r.remove cell).2.entries)) ∨
        (∀ x ∈ r.entries, x.1 ≠ cell) ∧ (r.remove cell).2 = r) := by
  have hfirst := removeFirst_spec (Chunk.finds_position cell) h.chunks
  rw [remove]
  cases hremove : removeFirst (·.position? cell) r.chunks with
  | none =>
    rw [hremove] at hfirst
    exact ⟨h, .inr ⟨hfirst, rfl⟩⟩
  | some found =>
    obtain ⟨other, chunks⟩ := found
    rw [hremove] at hfirst
    obtain ⟨hchunks, pending, heq, hperm⟩ := hfirst
    have heq : other = cell := heq
    subst heq
    refine ⟨wf_prune h hchunks hperm, .inl ⟨pending, ?_⟩⟩
    rw [entries_prune]
    exact hperm

/-- Taking an entry that is due removes it; when there is none, nothing is due. -/
theorem takePending_spec (h : r.Wf) :
    match r.takePending with
    | none => ∀ x ∈ r.entries, x.2 = false
    | some (cell, r') => r'.Wf ∧ r.entries.Perm ((cell, true) :: r'.entries) := by
  have hfirst := removeFirst_spec Chunk.finds_firstPending h.chunks
  rw [takePending]
  cases hremove : removeFirst Chunk.firstPending? r.chunks with
  | none =>
    rw [hremove] at hfirst
    exact fun x hx => by simpa using hfirst x hx
  | some found =>
    obtain ⟨cell, chunks⟩ := found
    rw [hremove] at hfirst
    obtain ⟨hchunks, pending, hdue, hperm⟩ := hfirst
    have hdue : pending = true := hdue
    subst hdue
    refine ⟨wf_prune h hchunks hperm, ?_⟩
    rw [entries_prune]
    exact hperm

/-- What a judgement drops are the offered cells that are to be forgotten. -/
theorem length_judge (verdict : Nat → Verdict) (entries : List (Nat × Bool)) :
    (entries.filterMap (Chunk.judge verdict)).length +
      (Chunk.idle entries).countP (fun cell => verdict cell == .forget) = entries.length := by
  induction entries with
  | nil => rfl
  | cons x rest ih =>
    obtain ⟨cell, pending⟩ := x
    cases pending with
    | true =>
      rw [List.filterMap_cons_some (by rfl), Chunk.idle, List.filterMap_cons_none (by rfl)]
      simp only [List.length_cons, ← ih, Chunk.idle]
      omega
    | false =>
      have hidle : Chunk.idle ((cell, false) :: rest) = cell :: Chunk.idle rest := rfl
      rw [hidle, List.countP_cons]
      cases hv : verdict cell with
      | keep =>
        rw [List.filterMap_cons_some (by rw [Chunk.judge, hv])]
        simp [← ih]
        omega
      | pending =>
        rw [List.filterMap_cons_some (by rw [Chunk.judge, hv])]
        simp [← ih]
        omega
      | forget =>
        rw [List.filterMap_cons_none (by rw [Chunk.judge, hv])]
        simp [← ih]
        omega

/-- Selecting judges every registration that is not due and offers its cell. -/
theorem select_spec (h : r.Wf) (verdict : Nat → Verdict) :
    (r.select verdict).2.Wf ∧
      (r.select verdict).2.entries.Perm (r.entries.filterMap (Chunk.judge verdict)) ∧
      (r.select verdict).1.Perm (Chunk.idle r.entries) := by
  have hchunk : ∀ c ∈ r.chunks, _ := fun c hc => Chunk.select_spec verdict (h.chunks c hc)
  have hoffered : (r.select verdict).1.Perm (Chunk.idle r.entries) := by
    simp only [select, List.flatMap_map, entries, Chunk.idle, List.filterMap_flatMap]
    exact List.Perm.flatMap_left _ fun c hc => (hchunk c hc).2.2
  have hentries : (r.select verdict).2.entries.Perm (r.entries.filterMap (Chunk.judge verdict)) := by
    rw [select, entries_prune]
    simp only [entries, List.map_map, List.flatMap_map, List.filterMap_flatMap]
    exact List.Perm.flatMap_left _ fun c hc => (hchunk c hc).2.1
  refine ⟨⟨fun c hc => ?_, ?_⟩, hentries, hoffered⟩
  · have hc' : c ∈ (r.chunks.map (Chunk.select verdict)).map Prod.snd := mem_prune hc
    rw [List.map_map, List.mem_map] at hc'
    obtain ⟨d, hd, rfl⟩ := hc'
    exact (hchunk d hd).1
  · have hcount := hoffered.countP_eq fun cell => verdict cell == .forget
    have hlength := length_judge verdict r.entries
    rw [hentries.length_eq]
    show r.size - (r.select verdict).1.countP (fun cell => verdict cell == .forget) = _
    rw [hcount, h.size]
    omega

end FinalizerRegister

end Tricolor
