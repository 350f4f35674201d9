import Mathlib.Algebra.Ring.Nat
import Tricolor.Proofs.InternTable

/-!
# An intern table is a set of links

`InternTable.History` runs a table beside the list of what is linked, through any sequence
of insertions, removals and sweeps. The table holds these links and no others, each on the
chain of the bucket of its hash, and every place is either on one chain or vacant.
-/

namespace Tricolor

namespace InternTable

variable {α : Type} {t : InternTable α} {chains : Nat → List Nat}

/-! ## How many are unlinked -/

/-- A walk answers how many it unlinked, and makes no new places. -/
theorem unlinkPlaces_count (removing : α → Bool) {b : Nat} :
    ∀ {places pre : List Nat} {t : InternTable α} {chains : Nat → List Nat}, t.Represents chains →
      b < t.heads.size → chains b = pre ++ places →
        (t.unlinkPlaces removing b pre.getLast? places).1 +
          (t.unlinkPlaces removing b pre.getLast? places).2.links.length = t.links.length ∧
        (t.unlinkPlaces removing b pre.getLast? places).2.nodes.size = t.nodes.size := by
  intro places
  induction places with
  | nil => exact fun _ _ _ => ⟨Nat.zero_add _, rfl⟩
  | cons i rest ih =>
    intro pre t chains h hb hchain
    obtain ⟨-, node, hnode, hbucket⟩ := (h.chained.mem b hb i).1 (by rw [hchain]; simp)
    obtain ⟨x, hlink, -⟩ := Option.map_eq_some_iff.1 hbucket
    simp only [unlinkPlaces, hnode]
    split
    · obtain ⟨h', hlinks, hheads⟩ := h.unlink hb hchain hnode hlink
      obtain ⟨hcount, hsize⟩ := @ih pre _ _ h' (by rw [hheads]; exact hb) (Function.update_self _ _ _)
      have hlength := hlinks.length_eq
      rw [List.length_cons] at hlength
      refine ⟨?_, hsize.trans ?_⟩
      · show (unlinkPlaces removing b _ pre.getLast? rest).1 + 1 +
          (unlinkPlaces removing b _ pre.getLast? rest).2.links.length = _
        omega
      · rw [vacate, Array.size_modify]
        cases pre.getLast? with
        | none => rfl
        | some j => exact Array.size_modify
    · have hlast : (pre ++ [i]).getLast? = some i := by simp
      have hrest := @ih (pre ++ [i]) t chains h hb (by rw [hchain, List.append_assoc]; rfl)
      rwa [hlast] at hrest

theorem unlinkIn_count (h : t.Wf) {b : Nat} (hb : b < t.heads.size) (removing : α → Bool) :
    (t.unlinkIn b removing).1 + (t.unlinkIn b removing).2.links.length = t.links.length ∧
      (t.unlinkIn b removing).2.nodes.size = t.nodes.size := by
  obtain ⟨chains, h⟩ := h
  rw [unlinkIn, h.places_eq hb]
  exact @unlinkPlaces_count α removing b (chains b) [] t chains h hb rfl

/-- Whether the sweep of some buckets is to unlink a link. -/
def doomedIn (isLive : α → Bool) (count : Nat) (buckets : List Nat) (x : Hash × α) : Bool :=
  buckets.contains (bucketOf count x.1) && !isLive x.2

/-- Sweeping some buckets, one after the other, unlinks what is doomed there and counts it. -/
theorem sweepBuckets_links (isLive : α → Bool) (buckets : List Nat) (removed : Nat) {u : InternTable α}
    (hu : u.Wf) (hlt : ∀ b ∈ buckets, b < u.heads.size) :
    let swept := buckets.foldl (fun (removed, t) bucket =>
      let (n, t) := t.unlinkIn bucket fun a => !isLive a
      (removed + n, t)) (removed, u)
    swept.2.links.Perm (u.links.filter fun x => !doomedIn isLive u.heads.size buckets x) ∧
      swept.1 + swept.2.links.length = removed + u.links.length ∧ swept.2.nodes.size = u.nodes.size := by
  induction buckets generalizing removed u with
  | nil =>
    refine ⟨?_, rfl, rfl⟩
    rw [List.filter_eq_self.2 fun _ _ => by simp [doomedIn]]
    exact List.Perm.refl _
  | cons b rest ih =>
    obtain ⟨hwf, hperm, hheads⟩ := unlinkIn_spec hu (hlt b List.mem_cons_self) fun a => !isLive a
    obtain ⟨hcount, hnodes⟩ := unlinkIn_count hu (hlt b List.mem_cons_self) fun a => !isLive a
    obtain ⟨hperm', hcount', hnodes'⟩ := ih (removed + (u.unlinkIn b fun a => !isLive a).1) hwf
      fun c hc => hheads ▸ hlt c (List.mem_cons_of_mem _ hc)
    refine ⟨hperm'.trans ((hperm.filter _).trans ?_), hcount'.trans (by omega), hnodes'.trans hnodes⟩
    rw [List.filter_filter, hheads]
    refine List.Perm.of_eq (List.filter_congr fun x _ => ?_)
    simp only [doomedIn, doomed, List.contains_cons]
    cases bucketOf u.heads.size x.1 == b <;> cases isLive x.2 <;> simp

/-- Whether a sweep of `count` buckets from `start` on unlinks a link: its bucket is visited, and its object is
dead. -/
def condemned (t : InternTable α) (start count : Nat) (isLive : α → Bool) (x : Hash × α) : Bool :=
  let bucket := bucketOf t.bucketCount x.1
  decide (start ≤ bucket ∧ bucket < start + count) && !isLive x.2

/-- A sweep unlinks the condemned links and answers how many these were. -/
theorem sweep_links (h : t.Wf) (start count : Nat) (isLive : α → Bool) :
    (t.sweep start count isLive).2.2.links.Perm
        (t.links.filter fun x => !t.condemned start count isLive x) ∧
      (t.sweep start count isLive).2.1 + (t.sweep start count isLive).2.2.links.length = t.links.length ∧
      (t.sweep start count isLive).2.2.nodes.size = t.nodes.size := by
  have hbuckets : ∀ b, b < t.heads.size →
      (b ∈ List.range' start (t.sweepEnd start count - start) ↔ start ≤ b ∧ b < start + count) := fun b hb => by
    rw [List.mem_range'_1, sweepEnd]
    omega
  have hlt : ∀ b ∈ List.range' start (t.sweepEnd start count - start), b < t.heads.size := fun b hb => by
    have := List.mem_range'_1.1 hb
    have : t.sweepEnd start count ≤ t.heads.size := Nat.min_le_right _ _
    omega
  obtain ⟨hlinks, hcount, hnodes⟩ := sweepBuckets_links isLive _ 0 h hlt
  refine ⟨hlinks.trans (List.Perm.of_eq (List.filter_congr fun x _ => ?_)), hcount.trans (Nat.zero_add _), hnodes⟩
  have hiff := hbuckets _ (bucketOf_lt h.buckets_pos x.1)
  rw [doomedIn, condemned, bucketCount, List.contains_eq_mem, decide_eq_decide.2 hiff]

/-- Removing an object unlinks it from the bucket of the hash; the answer says whether anything was unlinked. -/
theorem remove_links [BEq α] (h : t.Wf) (hash : Hash) (a : α) :
    (t.remove hash a).2.links.Perm
        (t.links.filter fun x => !doomed (· == a) t.heads.size (bucketOf t.heads.size hash) x) ∧
      ((t.remove hash a).1 = true ↔ (t.remove hash a).2.links.length < t.links.length) ∧
      (t.remove hash a).2.nodes.size = t.nodes.size := by
  have hb := bucketOf_lt h.buckets_pos hash
  obtain ⟨hcount, hnodes⟩ := unlinkIn_count h hb (· == a)
  refine ⟨(unlinkIn_spec h hb (· == a)).2.1, ?_, hnodes⟩
  show ((t.unlinkIn (bucketOf t.heads.size hash) (· == a)).1 != 0) = true ↔
    (t.unlinkIn (bucketOf t.heads.size hash) (· == a)).2.links.length < _
  rw [bne_iff_ne]
  omega

/-! ## Chains and places -/

/-- The links in the order of their places. -/
theorem links_eq_range (t : InternTable α) :
    t.links = (List.range t.nodes.size).filterMap fun i => t.nodes[i]?.bind linkOf := by
  have hnodes : (List.range t.nodes.size).map (t.nodes[·]?) = t.nodes.toList.map some := by
    refine List.ext_getElem (by simp) fun i hi _ => ?_
    rw [List.length_map, List.length_range] at hi
    simp [hi]
  have hlinks : t.links = (t.nodes.toList.map some).filterMap (·.bind linkOf) := by
    rw [List.filterMap_map]
    rfl
  rw [hlinks, ← hnodes, List.filterMap_map]
  rfl

/-- The chain of a bucket holds the links whose hashes fall into it. -/
theorem Represents.chain_links (h : t.Represents chains) {b : Nat} (hb : b < t.heads.size) :
    ((t.chain b).map linkOf).Perm
      ((t.links.filter fun x => bucketOf t.heads.size x.1 == b).map some) := by
  let inBucket : Nat → Bool := fun i => t.nodes[i]?.bind (bucketAt t.heads.size) == some b
  have hplaces : (chains b).Perm ((List.range t.nodes.size).filter inBucket) := by
    refine (List.perm_ext_iff_of_nodup (h.chained.nodup b) (List.nodup_range.filter _)).2 fun i => ?_
    rw [h.chained.mem b hb, List.mem_filter, List.mem_range, beq_iff_eq, Option.bind_eq_some_iff]
    constructor
    · rintro ⟨-, node, hnode, hbucket⟩
      exact ⟨(Array.getElem?_eq_some_iff.1 hnode).1, node, hnode, hbucket⟩
    · rintro ⟨-, node, hnode, hbucket⟩
      exact ⟨trivial, node, hnode, hbucket⟩
  rw [chain, h.places_eq hb, List.map_filterMap, links_eq_range, List.filter_filterMap, List.map_filterMap]
  refine (hplaces.filterMap _).trans (List.Perm.of_eq ?_)
  rw [List.filterMap_filter]
  refine List.filterMap_congr fun i _ => ?_
  cases hnode : t.nodes[i]? with
  | none => simp [inBucket, hnode]
  | some node =>
    cases hlink : linkOf node with
    | none => simp [inBucket, hnode, hlink, bucketAt]
    | some x => simp [inBucket, hnode, hlink, bucketAt, Option.filter]

/-- A place is on the chain of one bucket, or it is vacant and on none. -/
theorem Represents.place_cases (h : t.Represents chains) {i : Nat} (hi : i < t.nodes.size) :
    (i ∉ t.vacant ∧ ∃ b, b < t.heads.size ∧ ∀ c, c < t.heads.size → (i ∈ t.places c ↔ c = b)) ∨
      (t.vacant.count i = 1 ∧ ∀ c, c < t.heads.size → i ∉ t.places c) := by
  have hnode : t.nodes[i]? = some t.nodes[i] := Array.getElem?_eq_getElem hi
  cases hobject : t.nodes[i].object? with
  | none =>
    refine .inr ⟨List.count_eq_one_of_mem h.vacant_nodup ((h.vacant i).2 ⟨_, hnode, hobject⟩), fun c hc hmem => ?_⟩
    rw [h.places_eq hc, h.chained.mem c hc, hnode] at hmem
    obtain ⟨-, node, heq, hbucket⟩ := hmem
    cases heq
    rw [bucketAt, linkOf, hobject] at hbucket
    cases hbucket
  | some a =>
    have hbucket : bucketAt t.heads.size t.nodes[i] = some (bucketOf t.heads.size t.nodes[i].hash) := by
      rw [bucketAt, linkOf, hobject]
      rfl
    refine .inl ⟨fun hmem => ?_, _, bucketOf_lt h.buckets_pos t.nodes[i].hash, fun c hc => ?_⟩
    · obtain ⟨node, heq, hnone⟩ := (h.vacant i).1 hmem
      rw [hnode] at heq
      cases heq
      rw [hobject] at hnone
      cases hnone
    · rw [h.places_eq hc, h.chained.mem c hc, hnode]
      constructor
      · rintro ⟨-, node, heq, hc'⟩
        cases heq
        rw [hbucket] at hc'
        exact (Option.some.inj hc').symm
      · rintro rfl
        exact ⟨trivial, _, rfl, hbucket⟩

/-! ## Growing -/

/-- As long as no place is vacant, each of them links something. -/
theorem Represents.nodes_size (h : t.Represents chains) (hvacant : t.vacant = []) :
    t.nodes.size = t.links.length := by
  rw [links, List.length_filterMap_eq_countP, ← Array.length_toList, eq_comm, List.countP_eq_length]
  intro node hnode
  obtain ⟨i, hi⟩ := List.mem_iff_getElem?.1 hnode
  rw [Array.getElem?_toList] at hi
  cases hobject : node.object? with
  | none =>
    have hmem := (h.vacant i).2 ⟨node, hi, hobject⟩
    rw [hvacant] at hmem
    exact absurd hmem List.not_mem_nil
  | some a =>
    rw [linkOf, hobject]
    rfl

/-- An insertion doubles the buckets if it may and there are more links than buckets; it makes a new place only
if none is vacant. -/
theorem insert_sizes (h : t.Wf) (hash : Hash) (a : α) (mayGrow : Bool) :
    (t.insert hash a mayGrow).bucketCount =
        (if mayGrow && t.bucketCount < t.links.length + 1 then t.bucketCount * 2 else t.bucketCount) ∧
      (t.insert hash a mayGrow).nodes.size ≤ max t.nodes.size (t.links.length + 1) := by
  obtain ⟨chains, h⟩ := h
  have hgrow : ∀ u : InternTable α, u.heads.size = t.heads.size → u.size = t.links.length + 1 →
      u.nodes.size ≤ max t.nodes.size (t.links.length + 1) →
        (if mayGrow && u.heads.size < u.size then u.resize (u.heads.size * 2) else u).heads.size =
            (if mayGrow && t.bucketCount < t.links.length + 1 then t.bucketCount * 2 else t.bucketCount) ∧
          (if mayGrow && u.heads.size < u.size then u.resize (u.heads.size * 2) else u).nodes.size ≤
            max t.nodes.size (t.links.length + 1) := by
    intro u hheads hsize hnodes
    rw [hheads, hsize, bucketCount]
    split
    · have hrelinked := relinked_foldl (List.range u.nodes.size)
        { u with heads := Array.replicate (t.heads.size * 2) none }
      exact ⟨hrelinked.heads.trans Array.size_replicate, hrelinked.nodes_size.trans_le hnodes⟩
    · exact ⟨hheads, hnodes⟩
  rw [insert, bucketCount]
  cases hvacant : t.vacant with
  | cons i rest =>
    refine hgrow _ Array.size_setIfInBounds (congrArg (· + 1) h.size) ?_
    exact Array.size_setIfInBounds.trans_le (Nat.le_max_left _ _)
  | nil =>
    refine hgrow _ Array.size_setIfInBounds (congrArg (· + 1) h.size) ?_
    have hsize := h.nodes_size hvacant
    exact (Array.size_push _).trans_le (hsize ▸ Nat.le_max_right _ _)

/-! ## Histories -/

/-- A table after a sequence of operations, beside the objects that are then linked, each with the hash under
which it is. An object is linked once at a time and removed under its hash, and the places are numbered by
words of 32 bits. -/
inductive History [BEq α] : InternTable α → List (Hash × α) → Prop
  | empty : History .empty []
  | insert {t : InternTable α} {linked : List (Hash × α)} (hash : Hash) {a : α} (mayGrow : Bool)
      (h : History t linked) (hfresh : ∀ x ∈ linked, x.2 ≠ a) (hroom : linked.length + 1 < 2 ^ 32 - 1) :
      History (t.insert hash a mayGrow) ((hash, a) :: linked)
  | remove {t : InternTable α} {linked : List (Hash × α)} {hash : Hash} {a : α} (h : History t linked)
      (hhash : ∀ x ∈ linked, x.2 = a → x.1 = hash) :
      History (t.remove hash a).2 (linked.filter fun x => x.2 != a)
  | sweep {t : InternTable α} {linked : List (Hash × α)} (start count : Nat) (isLive : α → Bool)
      (h : History t linked) :
      History (t.sweep start count isLive).2.2 (linked.filter fun x => !t.condemned start count isLive x)

/-- The table holds the links, each once, and each on the chain of the bucket of its hash. -/
structure Holds (t : InternTable α) (linked : List (Hash × α)) : Prop where
  links : t.links.Perm linked
  objects : (linked.map Prod.snd).Nodup
  size : t.size = linked.length
  /-- the chains end, and run through no place twice -/
  chains : ∀ b, b < t.bucketCount → Leads t.nodes (t.heads.getD b none) (t.places b) ∧ (t.places b).Nodup
  bucket : ∀ b, b < t.bucketCount →
    ((t.chain b).map linkOf).Perm ((linked.filter fun x => bucketOf t.bucketCount x.1 == b).map some)
  /-- a place is on one chain, or once among the vacant ones -/
  place : ∀ i, i < t.nodes.size →
    (i ∉ t.vacant ∧ ∃ b, b < t.bucketCount ∧ ∀ c, c < t.bucketCount → (i ∈ t.places c ↔ c = b)) ∨
      (t.vacant.count i = 1 ∧ ∀ c, c < t.bucketCount → i ∉ t.places c)
  vacant : ∀ i ∈ t.vacant, i < t.nodes.size
  buckets : ∃ bits, t.bucketCount = 2 ^ bits
  /-- the places can be numbered from one by words of 32 bits -/
  room : t.nodes.size < 2 ^ 32 - 1

/-- What the operations preserve. The rest of `Holds` follows from it. -/
structure Linked (t : InternTable α) (linked : List (Hash × α)) : Prop where
  wf : t.Wf
  links : t.links.Perm linked
  objects : (linked.map Prod.snd).Nodup
  buckets : ∃ bits, t.bucketCount = 2 ^ bits
  room : t.nodes.size < 2 ^ 32 - 1

namespace Linked

variable {linked : List (Hash × α)}

theorem holds (h : t.Linked linked) : t.Holds linked := by
  obtain ⟨chains, hr⟩ := h.wf
  refine ⟨h.links, h.objects, hr.size.trans h.links.length_eq, fun b hb => ?_, fun b hb => ?_,
    fun i hi => hr.place_cases hi, fun i hi => ?_, h.buckets, h.room⟩
  · rw [hr.places_eq hb]
    exact ⟨hr.chained.lead b hb, hr.chained.nodup b⟩
  · exact (hr.chain_links hb).trans ((h.links.filter _).map some)
  · obtain ⟨node, hnode, -⟩ := (hr.vacant i).1 hi
    exact (Array.getElem?_eq_some_iff.1 hnode).1

theorem empty : (InternTable.empty : InternTable α).Linked [] :=
  ⟨wf_empty, List.Perm.refl _, List.nodup_nil, ⟨6, Array.size_replicate⟩, show 0 < 2 ^ 32 - 1 by decide⟩

theorem insert (h : t.Linked linked) (hash : Hash) {a : α} (mayGrow : Bool) (hfresh : ∀ x ∈ linked, x.2 ≠ a)
    (hroom : linked.length + 1 < 2 ^ 32 - 1) : (t.insert hash a mayGrow).Linked ((hash, a) :: linked) := by
  obtain ⟨hwf, hlinks, -⟩ := insert_spec h.wf hash a mayGrow
  obtain ⟨hbuckets, hnodes⟩ := insert_sizes h.wf hash a mayGrow
  refine ⟨hwf, hlinks.trans (h.links.cons _), List.nodup_cons.2 ⟨fun hmem => ?_, h.objects⟩, ?_, ?_⟩
  · obtain ⟨x, hx, heq⟩ := List.mem_map.1 hmem
    exact hfresh x hx heq
  · obtain ⟨bits, hbits⟩ := h.buckets
    rw [hbuckets, hbits]
    split
    · exact ⟨bits + 1, (Nat.pow_succ ..).symm⟩
    · exact ⟨bits, rfl⟩
  · have := h.room
    rw [h.links.length_eq] at hnodes
    omega

/-- What a part of the links leaves is linked as before. -/
theorem filter {u : InternTable α} (h : t.Linked linked) {stays : Hash × α → Bool} (hwf : u.Wf)
    (hlinks : u.links.Perm (t.links.filter stays)) (hheads : u.heads.size = t.heads.size)
    (hnodes : u.nodes.size = t.nodes.size) : u.Linked (linked.filter stays) where
  wf := hwf
  links := hlinks.trans (h.links.filter stays)
  objects := h.objects.sublist (List.filter_sublist.map _)
  buckets := h.buckets.imp fun _ => hheads.trans
  room := hnodes ▸ h.room

theorem remove [BEq α] [LawfulBEq α] (h : t.Linked linked) {hash : Hash} {a : α}
    (hhash : ∀ x ∈ linked, x.2 = a → x.1 = hash) :
    (t.remove hash a).2.Linked (linked.filter fun x => x.2 != a) ∧
      ((t.remove hash a).1 = true ↔ (hash, a) ∈ linked) := by
  obtain ⟨hwf, hheads, -⟩ := remove_spec h.wf hash a
  obtain ⟨hlinks, hanswer, hnodes⟩ := remove_links h.wf hash a
  -- whatever links the object stands in the bucket of the hash
  have hstays : t.links.filter (fun x => !doomed (· == a) t.heads.size (bucketOf t.heads.size hash) x) =
      t.links.filter fun x => x.2 != a := List.filter_congr fun x hx => by
    rw [doomed]
    by_cases heq : x.2 = a
    · rw [hhash x (h.links.subset hx) heq, beq_self_eq_true, Bool.true_and, bne]
    · rw [bne, beq_eq_false_iff_ne.2 heq, Bool.and_false]
  rw [hstays] at hlinks
  refine ⟨h.filter hwf hlinks hheads hnodes, ?_⟩
  rw [hanswer, hlinks.length_eq, List.length_filter_lt_length_iff_exists]
  constructor
  · rintro ⟨x, hx, hsame⟩
    have heq : x.2 = a := by simpa using hsame
    have hx := h.links.subset hx
    rw [← hhash x hx heq, ← heq]
    exact hx
  · exact fun hmem => ⟨_, h.links.symm.subset hmem, by simp⟩

theorem sweep (h : t.Linked linked) (start count : Nat) (isLive : α → Bool) :
    (t.sweep start count isLive).2.2.Linked (linked.filter fun x => !t.condemned start count isLive x) ∧
      (t.sweep start count isLive).2.1 = linked.countP (t.condemned start count isLive) := by
  obtain ⟨hwf, -, hheads, -⟩ := sweep_spec h.wf start count isLive
  obtain ⟨hlinks, hcount, hnodes⟩ := sweep_links h.wf start count isLive
  refine ⟨h.filter hwf hlinks hheads hnodes, ?_⟩
  have hsplit := (List.filter_append_perm (t.condemned start count isLive) t.links).length_eq
  have hleft := hlinks.length_eq
  rw [List.length_append] at hsplit
  rw [← h.links.countP_eq, List.countP_eq_length_filter]
  omega

end Linked

/-- Throughout a history the table links what is recorded. -/
theorem History.linked [BEq α] [LawfulBEq α] {linked : List (Hash × α)} (h : History t linked) :
    t.Linked linked := by
  induction h with
  | empty => exact .empty
  | insert hash mayGrow _ hfresh hroom ih => exact ih.insert hash mayGrow hfresh hroom
  | remove _ hhash ih => exact (ih.remove hhash).1
  | sweep start count isLive _ ih => exact (ih.sweep start count isLive).1

/-- At every point of a history the table is the set of its links: a search finds an object that matches among
those under exactly the hash, if there is one; an insertion adds a link, and only an insertion that may do so
doubles the buckets; a removal answers whether the object was linked and unlinks nothing else; and a sweep
unlinks the dead objects of the buckets that it visits. -/
theorem exact_links [BEq α] [LawfulBEq α] {linked : List (Hash × α)} (h : History t linked) :
    t.Holds linked ∧
      (∀ hash, bucketOf t.bucketCount hash = hash.toNat &&& (t.bucketCount - 1)) ∧
      (∀ hash matching,
        (∀ a, t.find hash matching = some a → (hash, a) ∈ linked ∧ matching a = true) ∧
        (t.find hash matching = none ↔ ∀ a, (hash, a) ∈ linked → matching a = false)) ∧
      (∀ hash a mayGrow, (∀ x ∈ linked, x.2 ≠ a) → linked.length + 1 < 2 ^ 32 - 1 →
        (t.insert hash a mayGrow).Holds ((hash, a) :: linked) ∧
        (t.insert hash a mayGrow).bucketCount =
          if mayGrow && t.bucketCount < linked.length + 1 then t.bucketCount * 2 else t.bucketCount) ∧
      (∀ hash a, (∀ x ∈ linked, x.2 = a → x.1 = hash) →
        ((t.remove hash a).1 = true ↔ (hash, a) ∈ linked) ∧
        (t.remove hash a).2.Holds (linked.filter fun x => x.2 != a) ∧
        (t.remove hash a).2.bucketCount = t.bucketCount) ∧
      ∀ start count isLive,
        (t.sweep start count isLive).1 = min (start + count) t.bucketCount ∧
        (t.sweep start count isLive).2.1 = linked.countP (t.condemned start count isLive) ∧
        (t.sweep start count isLive).2.2.Holds (linked.filter fun x => !t.condemned start count isLive x) ∧
        (t.sweep start count isLive).2.2.bucketCount = t.bucketCount := by
  have hl := h.linked
  refine ⟨hl.holds, fun hash => ?_, fun hash matching => ⟨fun a ha => ?_, ?_⟩,
    fun hash a mayGrow hfresh hroom => ⟨(hl.insert hash mayGrow hfresh hroom).holds, ?_⟩,
    fun hash a hhash => ?_, fun start count isLive => ?_⟩
  · obtain ⟨bits, hbits⟩ := hl.buckets
    rw [hbits, Nat.and_two_pow_sub_one_eq_mod]
    rfl
  · obtain ⟨hmem, hmatch⟩ := hl.wf.find_eq_some ha
    exact ⟨hl.links.subset hmem, hmatch⟩
  · constructor
    · exact fun hnone a ha => hl.wf.find_eq_none hnone (hl.links.symm.subset ha)
    · intro hnone
      by_contra hsome
      obtain ⟨a, ha⟩ := Option.ne_none_iff_exists'.1 hsome
      obtain ⟨hmem, hmatch⟩ := hl.wf.find_eq_some ha
      exact Bool.false_ne_true ((hnone a (hl.links.subset hmem)).symm.trans hmatch)
  · rw [(insert_sizes hl.wf hash a mayGrow).1, hl.links.length_eq]
  · obtain ⟨hlinked, hanswer⟩ := hl.remove hhash
    exact ⟨hanswer, hlinked.holds, (remove_spec hl.wf hash a).2.1⟩
  · obtain ⟨hlinked, hcount⟩ := hl.sweep start count isLive
    exact ⟨rfl, hcount, hlinked.holds, (sweep_spec hl.wf start count isLive).2.2.1⟩

/-- Of two objects whose hashes collide, the one that is removed is not found any more, and the other still is. -/
theorem collision_survives : ∃ t : InternTable Nat, History t [(5, 1)] ∧ t.find 69 (· == 2) = none ∧
    t.find 5 (· == 1) = some 1 ∧ (t.remove 69 2).1 = false := by
  have hone : History (empty.insert 5 1 true) [(5, 1)] :=
    History.empty.insert 5 true (fun _ hx => absurd hx List.not_mem_nil) (by decide)
  have htwo : History ((empty.insert 5 1 true).insert 69 2 true) [(69, 2), (5, 1)] :=
    hone.insert 69 true (by decide) (by decide)
  have hhash : ∀ x ∈ [((69 : Hash), 2), (5, 1)], x.2 = 2 → x.1 = 69 := by decide
  have hhistory : History _ [(5, 1)] := htwo.remove hhash
  obtain ⟨-, -, hfind, -, hremove, -⟩ := exact_links hhistory
  refine ⟨_, hhistory, (hfind 69 _).2.2 fun a ha => absurd ha (by simp), ?_, ?_⟩
  · obtain ⟨a, ha⟩ := Option.ne_none_iff_exists'.1 fun hnone =>
      absurd ((hfind 5 (· == 1)).2.1 hnone 1 List.mem_cons_self) (by decide)
    rw [ha, beq_iff_eq.1 ((hfind 5 (· == 1)).1 a ha).2]
  · rw [Bool.eq_false_iff]
    exact fun hremoved => absurd ((hremove 69 2 (by decide)).1.1 hremoved) (by decide)

end InternTable

end Tricolor
