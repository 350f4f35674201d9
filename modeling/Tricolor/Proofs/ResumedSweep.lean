import Tricolor.Proofs.LinkSet

/-!
# A sweep of an intern table in instalments

A sweep of the intern table visits a few buckets at a time and is resumed where it stopped.
Between two calls objects are linked, without letting the table grow, and removed. A
`SweepLog` records what was done, and a run of calls is `Resumed` from the table that it
began with. All calls together do what one sweep of all buckets would: what is dead
throughout is unlinked once, and what is live throughout stays.

When the collector ends its sweep of the strings so, no dead string is linked any more, and
what is linked outlives the sweeps that follow.
-/

namespace Tricolor

namespace InternTable

variable {α : Type} [DecidableEq α]

/-- What was linked before and is not linked after. -/
def unlinked (before after : InternTable α) : List (Hash × α) := before.links.diff after.links

/-- A sweep in instalments, with all that was done since it began. -/
structure SweepLog (α : Type) where
  table : InternTable α
  /-- the bucket to resume from -/
  cursor : Nat
  /-- how often the sweep was called -/
  calls : Nat
  /-- the sum of the numbers that the calls answered -/
  counted : Nat
  /-- what the calls took for live -/
  judges : List (α → Bool)
  /-- what the calls unlinked -/
  swept : List (Hash × α)
  /-- what removals unlinked between the calls -/
  removed : List (Hash × α)
  /-- what was linked between the calls -/
  inserted : List (Hash × α)

namespace SweepLog

/-- The beginning of a sweep. -/
def begin (t : InternTable α) : SweepLog α := ⟨t, 0, 0, 0, [], [], [], []⟩

/-- The sweep is called for up to `count` buckets. -/
def sweep (s : SweepLog α) (count : Nat) (isLive : α → Bool) : SweepLog α :=
  let result := s.table.sweep s.cursor count isLive
  { s with
    table := result.2.2
    cursor := result.1
    calls := s.calls + 1
    counted := s.counted + result.2.1
    judges := isLive :: s.judges
    swept := s.table.unlinked result.2.2 ++ s.swept }

/-- An object is linked, and the table must not grow. -/
def insert (s : SweepLog α) (hash : Hash) (a : α) : SweepLog α :=
  { s with table := s.table.insert hash a false, inserted := (hash, a) :: s.inserted }

/-- An object is removed. -/
def remove (s : SweepLog α) (hash : Hash) (a : α) : SweepLog α :=
  let table := (s.table.remove hash a).2
  { s with table, removed := s.table.unlinked table ++ s.removed }

theorem cursor_sweep (s : SweepLog α) (count : Nat) (isLive : α → Bool) :
    (s.sweep count isLive).cursor = min (s.cursor + count) s.table.bucketCount := rfl

end SweepLog

/-- What calls of the sweep, each of at least one bucket, lead to, with insertions and removals between them. -/
inductive Resumed (start : InternTable α) : SweepLog α → Prop
  | begin : Resumed start (.begin start)
  | sweep {s : SweepLog α} {count : Nat} (isLive : α → Bool) (h : Resumed start s) (hcount : 0 < count)
      (hopen : s.cursor < s.table.bucketCount) : Resumed start (s.sweep count isLive)
  | insert {s : SweepLog α} (hash : Hash) (a : α) (h : Resumed start s) : Resumed start (s.insert hash a)
  | remove {s : SweepLog α} (hash : Hash) (a : α) (h : Resumed start s) : Resumed start (s.remove hash a)

/-- What is done to a table between two calls: nothing, or an object is linked or removed. -/
inductive Tended (t : InternTable α) : InternTable α → Prop
  | kept : Tended t t
  | inserted (hash : Hash) (a : α) : Tended t (t.insert hash a false)
  | removed (hash : Hash) (a : α) : Tended t (t.remove hash a).2

variable {t u start : InternTable α} {s : SweepLog α}

/-- What is done between two calls keeps the cursor. -/
theorem Resumed.tended (h : Resumed start s) (ht : s.table.Tended t) :
    ∃ s', Resumed start s' ∧ s'.table = t ∧ s'.cursor = s.cursor := by
  cases ht with
  | kept => exact ⟨s, h, rfl, rfl⟩
  | inserted hash a => exact ⟨_, h.insert hash a, rfl, rfl⟩
  | removed hash a => exact ⟨_, h.remove hash a, rfl, rfl⟩

/-- What is unlinked is what does not stay. -/
theorem unlinked_perm {stays : Hash × α → Bool} (hlinks : u.links.Perm (t.links.filter stays)) :
    (t.unlinked u).Perm (t.links.filter fun x => !stays x) := by
  have hcount : ∀ x ∈ u.links, u.links.count x ≤ t.links.count x := fun x _ => by
    rw [hlinks.count_eq]
    exact List.filter_sublist.count_le x
  have hsplit := (List.subperm_append_diff_self_of_count_le hcount).trans
    (List.filter_append_perm stays t.links).symm
  exact (List.perm_append_left_iff _).1 ((hlinks.symm.append_right _).trans hsplit)

/-- What was linked stays linked or is unlinked. -/
theorem unlinked_append_perm {stays : Hash × α → Bool} (hlinks : u.links.Perm (t.links.filter stays)) :
    t.links.Perm (u.links ++ t.unlinked u) :=
  (List.filter_append_perm stays t.links).symm.trans (hlinks.symm.append (unlinked_perm hlinks).symm)

/-- The books of a resumed sweep. -/
structure Accounts (start : InternTable α) (s : SweepLog α) : Prop where
  wf : s.table.Wf
  buckets : s.table.bucketCount = start.bucketCount
  calls_le : s.calls ≤ s.cursor
  cursor_le : s.cursor ≤ start.bucketCount
  /-- whatever was linked at the beginning or since is still linked, or was swept or removed -/
  links : (start.links ++ s.inserted).Perm (s.table.links ++ (s.swept ++ s.removed))
  counted : s.counted = s.swept.length
  /-- only what a call took for dead was swept -/
  dead : ∀ x ∈ s.swept, ∃ isLive ∈ s.judges, isLive x.2 = false
  /-- what all calls took for dead is not linked behind the cursor, unless it was linked there since -/
  behind : ∀ x, bucketOf start.bucketCount x.1 < s.cursor → (∀ isLive ∈ s.judges, isLive x.2 = false) →
    s.table.links.count x ≤ s.inserted.count x

namespace Accounts

theorem begin (hstart : start.Wf) : start.Accounts (.begin start) where
  wf := hstart
  buckets := rfl
  calls_le := le_refl 0
  cursor_le := Nat.zero_le _
  links := List.Perm.refl _
  counted := rfl
  dead _ hx := absurd hx List.not_mem_nil
  behind _ hlt := absurd hlt (Nat.not_lt_zero _)

theorem sweep (h : start.Accounts s) {count : Nat} (isLive : α → Bool) (hcount : 0 < count)
    (hopen : s.cursor < s.table.bucketCount) : start.Accounts (s.sweep count isLive) := by
  obtain ⟨hwf, -, hheads, -⟩ := sweep_spec h.wf s.cursor count isLive
  obtain ⟨hlinks, hanswer, -⟩ := sweep_links h.wf s.cursor count isLive
  have hsplit := unlinked_append_perm hlinks
  have hstop := s.cursor_sweep count isLive
  have hbuckets := h.buckets
  refine ⟨hwf, hheads.trans h.buckets, ?_, by omega, ?_, ?_, fun x hx => ?_, fun x hlt hdead => ?_⟩
  · have := h.calls_le
    show s.calls + 1 ≤ _
    omega
  · refine (h.links.trans (hsplit.append_right _)).trans (List.Perm.of_eq ?_)
    simp only [SweepLog.sweep, List.append_assoc]
  · have hlength := hsplit.length_eq
    have hcounted := h.counted
    rw [List.length_append] at hlength
    show s.counted + (s.table.sweep s.cursor count isLive).2.1 =
      (s.table.unlinked (s.table.sweep s.cursor count isLive).2.2 ++ s.swept).length
    rw [List.length_append]
    omega
  · rcases List.mem_append.1 hx with hx | hx
    · have hgone := (List.mem_filter.1 ((unlinked_perm hlinks).subset hx)).2
      rw [Bool.not_not, condemned, Bool.and_eq_true, Bool.not_eq_true'] at hgone
      exact ⟨isLive, List.mem_cons_self, hgone.2⟩
    · obtain ⟨judge, hjudge, hx⟩ := h.dead x hx
      exact ⟨judge, List.mem_cons_of_mem _ hjudge, hx⟩
  · show (s.table.sweep s.cursor count isLive).2.2.links.count x ≤ s.inserted.count x
    rw [hlinks.count_eq]
    by_cases hbehind : bucketOf start.bucketCount x.1 < s.cursor
    · refine (List.filter_sublist.count_le x).trans (h.behind x hbehind fun judge hjudge => ?_)
      exact hdead judge (List.mem_cons_of_mem _ hjudge)
    · -- the call has just visited its bucket
      have hgone : s.table.condemned s.cursor count isLive x = true := by
        rw [condemned, hdead isLive List.mem_cons_self, hbuckets, Bool.not_false, Bool.and_true, decide_eq_true_eq]
        omega
      rw [List.count_eq_zero_of_not_mem fun hmem => ?_]
      · exact Nat.zero_le _
      · rw [List.mem_filter, hgone] at hmem
        exact Bool.false_ne_true hmem.2

theorem insert (h : start.Accounts s) (hash : Hash) (a : α) : start.Accounts (s.insert hash a) := by
  obtain ⟨hwf, hlinks, hheads⟩ := insert_spec h.wf hash a false
  refine ⟨hwf, (hheads rfl).trans h.buckets, h.calls_le, h.cursor_le, ?_, h.counted, h.dead, fun x hlt hdead => ?_⟩
  · exact (List.perm_middle.trans (h.links.cons _)).trans (hlinks.symm.append_right _)
  · show (s.table.insert hash a false).links.count x ≤ ((hash, a) :: s.inserted).count x
    rw [hlinks.count_eq, List.count_cons, List.count_cons]
    exact Nat.add_le_add_right (h.behind x hlt hdead) _

theorem remove (h : start.Accounts s) (hash : Hash) (a : α) : start.Accounts (s.remove hash a) := by
  obtain ⟨hwf, hheads, -⟩ := remove_spec h.wf hash a
  obtain ⟨hlinks, -⟩ := remove_links h.wf hash a
  refine ⟨hwf, hheads.trans h.buckets, h.calls_le, h.cursor_le, ?_, h.counted, h.dead, fun x hlt hdead => ?_⟩
  · refine (h.links.trans ((unlinked_append_perm hlinks).append_right _)).trans ?_
    rw [List.append_assoc]
    exact (List.perm_append_comm_assoc ..).append_left _
  · show (s.table.remove hash a).2.links.count x ≤ s.inserted.count x
    rw [hlinks.count_eq]
    exact (List.filter_sublist.count_le x).trans (h.behind x hlt hdead)

end Accounts

theorem Resumed.accounts (h : Resumed start s) (hstart : start.Wf) : start.Accounts s := by
  induction h with
  | begin => exact .begin hstart
  | sweep isLive _ hcount hopen ih => exact ih.sweep isLive hcount hopen
  | insert hash a _ ih => exact ih.insert hash a
  | remove hash a _ ih => exact ih.remove hash a

/-- What is linked is found. -/
theorem Wf.find_of_mem (h : t.Wf) {x : Hash × α} (hx : x ∈ t.links) : t.find x.1 (· == x.2) = some x.2 := by
  have hsome : t.find x.1 (· == x.2) ≠ none := fun hnone =>
    Bool.false_ne_true ((h.find_eq_none hnone hx).symm.trans (beq_self_eq_true x.2))
  obtain ⟨a, ha⟩ := Option.ne_none_iff_exists'.1 hsome
  rw [ha, beq_iff_eq.1 (h.find_eq_some ha).2]

namespace Accounts

variable {x : Hash × α}

/-- What all calls took for live is still linked, unless it was removed. -/
theorem live (h : start.Accounts s) (hx : x ∈ start.links ++ s.inserted)
    (hlive : ∀ isLive ∈ s.judges, isLive x.2 = true) (hkept : x ∉ s.removed) : x ∈ s.table.links := by
  rcases List.mem_append.1 (h.links.subset hx) with hx | hx
  · exact hx
  · rcases List.mem_append.1 hx with hx | hx
    · obtain ⟨isLive, hjudge, hdead⟩ := h.dead x hx
      rw [hlive isLive hjudge] at hdead
      cases hdead
    · exact absurd hx hkept

/-- At the end of a sweep what all calls took for dead is linked at most as often as it was linked since. -/
theorem dead_at_end (h : start.Accounts s) (hend : s.cursor = start.bucketCount)
    (hdead : ∀ isLive ∈ s.judges, isLive x.2 = false) : s.table.links.count x ≤ s.inserted.count x := by
  refine h.behind x ?_ hdead
  rw [hend]
  exact bucketOf_lt (h.buckets ▸ h.wf.buckets_pos) x.1

/-- What was linked is unlinked as often as it is not linked any more. -/
theorem count_unlinked (h : start.Accounts s) (x : Hash × α) :
    s.table.links.count x + (s.swept ++ s.removed).count x = start.links.count x + s.inserted.count x := by
  rw [← List.count_append, ← List.count_append, h.links.count_eq]

/-- If all calls take the same for live and nothing else is done, all calls together are one sweep. -/
theorem whole (h : start.Accounts s) (hstart : start.Wf) (hend : s.cursor = start.bucketCount) {isLive : α → Bool}
    (hsame : ∀ judge ∈ s.judges, judge = isLive) (hinserted : s.inserted = []) (hremoved : s.removed = []) :
    s.table.links.Perm (start.sweep 0 start.bucketCount isLive).2.2.links ∧
      s.counted = (start.sweep 0 start.bucketCount isLive).2.1 := by
  obtain ⟨hlinks, hanswer, -⟩ := sweep_links hstart 0 start.bucketCount isLive
  have hall : start.links.filter (fun x => !start.condemned 0 start.bucketCount isLive x) =
      start.links.filter fun x => isLive x.2 := List.filter_congr fun x _ => by
    have hlt : bucketOf start.bucketCount x.1 < start.bucketCount := bucketOf_lt hstart.buckets_pos x.1
    simp [condemned, hlt]
  have hbooks := h.links
  rw [hinserted, hremoved, List.append_nil, List.append_nil] at hbooks
  have hswept : s.swept.filter (fun x => isLive x.2) = [] := List.filter_eq_nil_iff.2 fun x hx hlive => by
    obtain ⟨judge, hjudge, hdead⟩ := h.dead x hx
    rw [hsame judge hjudge, hlive] at hdead
    cases hdead
  have hstay : s.table.links.filter (fun x => isLive x.2) = s.table.links := List.filter_eq_self.2 fun x hx => by
    by_contra hdead
    have hcount := h.dead_at_end hend (x := x) fun judge hjudge => by
      rw [hsame judge hjudge]
      exact Bool.eq_false_iff.2 hdead
    rw [hinserted, List.count_nil] at hcount
    exact absurd (List.count_pos_iff.2 hx) (by omega)
  have hperm : s.table.links.Perm (start.sweep 0 start.bucketCount isLive).2.2.links := by
    have hfilter := hbooks.filter fun x => isLive x.2
    rw [List.filter_append, hswept, hstay, List.append_nil] at hfilter
    exact hfilter.symm.trans (hall ▸ hlinks.symm)
  refine ⟨hperm, ?_⟩
  have hlength := hbooks.length_eq
  have hcounted := h.counted
  rw [List.length_append] at hlength
  rw [← hperm.length_eq] at hanswer
  omega

end Accounts

end InternTable

end Tricolor
