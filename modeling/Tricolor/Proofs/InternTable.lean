import Mathlib.Data.List.Nodup
import Mathlib.Data.List.Perm.Basic
import Mathlib.Data.List.Perm.Subperm
import Mathlib.Logic.Function.Basic
import Mathlib.Order.Nat
import Mathlib.Tactic.Common
import Tricolor.InternTable

/-!
# What an intern table holds

`InternTable.links` is the view of an intern table: its objects, each with the hash under
which it is linked, in an order that does not matter. A table is well formed if the
chain of every bucket runs through exactly the occupied places whose hashes fall into the
bucket. Each operation changes the links as one expects, up to a permutation.
-/

namespace Tricolor

namespace InternTable

variable {α : Type} {t : InternTable α} {nodes : Array (InternNode α)}

/-! ## Chains -/

/-- The link leads through the places of the list, in order. -/
def Leads (nodes : Array (InternNode α)) : Option Nat → List Nat → Prop
  | link, [] => link = none
  | link, i :: rest => link = some i ∧ ∃ node, nodes[i]? = some node ∧ Leads nodes node.next rest

/-- A chain does not depend on places that it does not run through. -/
theorem Leads.congr {nodes' : Array (InternNode α)} :
    ∀ {places : List Nat} {link : Option Nat}, Leads nodes link places →
      (∀ i ∈ places, nodes'[i]? = nodes[i]?) → Leads nodes' link places := by
  intro places
  induction places with
  | nil => exact fun h _ => h
  | cons i rest ih =>
    rintro link ⟨hlink, node, hnode, hrest⟩ hsame
    exact ⟨hlink, node, (hsame i List.mem_cons_self).trans hnode,
      ih hrest fun j hj => hsame j (List.mem_cons_of_mem i hj)⟩

/-- Walking a chain visits its places. -/
theorem placesFrom_eq :
    ∀ {places : List Nat} {link : Option Nat} {n : Nat}, Leads nodes link places →
      places.length ≤ n → placesFrom nodes link n = places := by
  intro places
  induction places with
  | nil =>
    intro link n h _
    have h : link = none := h
    subst h
    cases n <;> rfl
  | cons i rest ih =>
    rintro link n ⟨rfl, node, hnode, hrest⟩ hn
    cases n with
    | zero => exact absurd hn (Nat.not_succ_le_zero _)
    | succ n =>
      rw [placesFrom, hnode]
      exact congrArg (i :: ·) (ih hrest (Nat.le_of_succ_le_succ hn))

/-- The rest of a chain behind some of its places. -/
theorem Leads.append :
    ∀ {before rest : List Nat} {link : Option Nat}, Leads nodes link (before ++ rest) →
      ∃ next, Leads nodes next rest ∧
        (before.getLast? = none → next = link) ∧
        ∀ j, before.getLast? = some j → ∃ node, nodes[j]? = some node ∧ next = node.next := by
  intro before
  induction before with
  | nil =>
    intro rest link h
    exact ⟨link, h, fun _ => rfl, fun j hj => by cases hj⟩
  | cons i before ih =>
    rintro rest link ⟨hlink, node, hnode, hrest⟩
    obtain ⟨next, hnext, hnone, hsome⟩ := ih hrest
    refine ⟨next, hnext, fun hlast => by simp at hlast, fun j hj => ?_⟩
    cases before with
    | nil =>
      cases hj
      exact ⟨node, hnode, hnone rfl⟩
    | cons k before =>
      rw [List.getLast?_cons_cons] at hj
      exact hsome j hj

/-- Pointing the link at the end of some places to another chain continues with it. -/
theorem Leads.relink {j : Nat} {next : Option Nat} {rest : List Nat} :
    ∀ {before tail : List Nat} {link : Option Nat}, Leads nodes link (before ++ tail) →
      before.getLast? = some j → before.Nodup → j ∉ rest → Leads nodes next rest →
        Leads (nodes.modify j fun node => { node with next }) link (before ++ rest) := by
  intro before
  induction before with
  | nil =>
    intro tail link _ hj
    cases hj
  | cons i before ih =>
    rintro tail link ⟨hlink, node, hnode, hbefore⟩ hj hnodup hjrest hrest
    obtain ⟨hi, hnodup⟩ := List.nodup_cons.1 hnodup
    cases before with
    | nil =>
      have hj : i = j := Option.some.inj hj
      subst hj
      refine ⟨hlink, { node with next }, ?_, ?_⟩
      · rw [Array.getElem?_modify, if_pos rfl, hnode]
        rfl
      · refine hrest.congr fun k hk => ?_
        rw [Array.getElem?_modify, if_neg]
        rintro rfl
        exact hjrest hk
    | cons k before =>
      rw [List.getLast?_cons_cons] at hj
      refine ⟨hlink, node, ?_, ih hbefore hj hnodup hjrest hrest⟩
      rw [Array.getElem?_modify, if_neg]
      · exact hnode
      · rintro rfl
        exact hi (List.mem_of_getLast? hj)

/-! ## The links -/

/-- What a place links. -/
def linkOf (node : InternNode α) : Option (Hash × α) := node.object?.map fun a => (node.hash, a)

/-- The linked objects, each with its hash. -/
def links (t : InternTable α) : List (Hash × α) := t.nodes.toList.filterMap linkOf

theorem mem_links {x : Hash × α} :
    x ∈ t.links ↔ ∃ (i : Nat) (node : InternNode α), t.nodes[i]? = some node ∧ linkOf node = some x := by
  rw [links, List.mem_filterMap]
  constructor
  · rintro ⟨node, hnode, hx⟩
    obtain ⟨i, hi⟩ := List.mem_iff_getElem?.1 hnode
    exact ⟨i, node, by rwa [Array.getElem?_toList] at hi, hx⟩
  · rintro ⟨i, node, hnode, hx⟩
    exact ⟨node, List.mem_of_getElem? (Array.getElem?_toList ▸ hnode), hx⟩

/-- Places that link the same agree in whatever depends on that only. -/
theorem exists_linkOf_iff {nodes' : Array (InternNode α)} {j : Nat}
    (hsame : nodes'[j]?.map linkOf = nodes[j]?.map linkOf) (p : Option (Hash × α) → Prop) :
    (∃ node, nodes'[j]? = some node ∧ p (linkOf node)) ↔ ∃ node, nodes[j]? = some node ∧ p (linkOf node) := by
  have hlinks : ∀ places : Array (InternNode α), (∃ node, places[j]? = some node ∧ p (linkOf node)) ↔
      ∃ link, places[j]?.map linkOf = some link ∧ p link := fun places => by
    simp only [Option.map_eq_some_iff, exists_exists_and_eq_and]
  rw [hlinks, hlinks, hsame]

theorem object?_eq_none_iff {node : InternNode α} : node.object? = none ↔ linkOf node = none := Option.map_eq_none_iff.symm

/-- The bucket of a place that links something. -/
def bucketAt (count : Nat) (node : InternNode α) : Option Nat :=
  (linkOf node).map fun x => bucketOf count x.1

/-- The places in `p` that link something are on the chains of their buckets, and nothing
else is. -/
structure Chained (t : InternTable α) (p : Nat → Prop) (chains : Nat → List Nat) : Prop where
  lead : ∀ b, b < t.heads.size → Leads t.nodes (t.heads.getD b none) (chains b)
  nodup : ∀ b, (chains b).Nodup
  mem : ∀ b, b < t.heads.size → ∀ i, i ∈ chains b ↔
    p i ∧ ∃ node, t.nodes[i]? = some node ∧ bucketAt t.heads.size node = some b

/-- The invariant of an intern table with the given chains. -/
structure Represents (t : InternTable α) (chains : Nat → List Nat) : Prop where
  buckets_pos : 0 < t.heads.size
  chained : t.Chained (fun _ => True) chains
  vacant_nodup : t.vacant.Nodup
  vacant : ∀ i, i ∈ t.vacant ↔ ∃ node, t.nodes[i]? = some node ∧ node.object? = none
  size : t.size = t.links.length

/-- The invariant of an intern table. -/
def Wf (t : InternTable α) : Prop := ∃ chains, t.Represents chains

theorem bucketOf_lt {count : Nat} (h : 0 < count) (hash : Hash) : bucketOf count hash < count :=
  Nat.mod_lt _ h

variable {chains : Nat → List Nat}

theorem Chained.lt {p : Nat → Prop} (h : t.Chained p chains) {b i : Nat} (hb : b < t.heads.size)
    (hi : i ∈ chains b) : i < t.nodes.size := by
  obtain ⟨-, node, hnode, -⟩ := (h.mem b hb i).1 hi
  exact (Array.getElem?_eq_some_iff.1 hnode).1

/-- The places of a bucket are those of its chain. -/
theorem Represents.places_eq (h : t.Represents chains) {b : Nat} (hb : b < t.heads.size) :
    t.places b = chains b := by
  refine placesFrom_eq (h.chained.lead b hb) ?_
  have hsub : chains b ⊆ List.range t.nodes.size := fun i hi =>
    List.mem_range.2 (h.chained.lt hb hi)
  have := (List.subperm_of_subset (h.chained.nodup b) hsub).length_le
  rwa [List.length_range] at this

/-- The objects on the chain of a bucket are those that are linked in it. -/
theorem Represents.mem_chainObjects (h : t.Represents chains) {b : Nat} (hb : b < t.heads.size)
    {a : α} : a ∈ t.chainObjects b ↔ ∃ hash, (hash, a) ∈ t.links ∧ bucketOf t.heads.size hash = b := by
  rw [chainObjects, chain, h.places_eq hb]
  simp only [List.mem_filterMap]
  constructor
  · rintro ⟨node, ⟨i, hi, hnode⟩, ha⟩
    obtain ⟨-, node', hnode', hbucket⟩ := (h.chained.mem b hb i).1 hi
    rw [hnode] at hnode'
    cases hnode'
    have hlink : linkOf node = some (node.hash, a) := by rw [linkOf, ha]; rfl
    rw [bucketAt, hlink] at hbucket
    exact ⟨node.hash, mem_links.2 ⟨i, node, hnode, hlink⟩, Option.some.inj hbucket⟩
  · rintro ⟨hash, hmem, hbucket⟩
    obtain ⟨i, node, hnode, hlink⟩ := mem_links.1 hmem
    refine ⟨node, ⟨i, (h.chained.mem b hb i).2 ⟨trivial, node, hnode, ?_⟩, hnode⟩, ?_⟩
    · rw [bucketAt, hlink, Option.map_some, hbucket]
    · obtain ⟨a', ha', heq⟩ := Option.map_eq_some_iff.1 hlink
      cases heq
      exact ha'

/-- The objects offered for a hash are those that are linked under it. -/
theorem Represents.mem_candidates (h : t.Represents chains) {hash : Hash} {a : α} :
    a ∈ t.candidates hash ↔ (hash, a) ∈ t.links := by
  have hb := bucketOf_lt h.buckets_pos hash
  rw [candidates, chain, h.places_eq hb]
  simp only [List.mem_filterMap, List.mem_filter]
  constructor
  · rintro ⟨node, ⟨⟨i, hi, hnode⟩, hhash⟩, ha⟩
    have hhash : node.hash = hash := by simpa using hhash
    exact mem_links.2 ⟨i, node, hnode, by rw [linkOf, ha, hhash]; rfl⟩
  · intro hmem
    obtain ⟨i, node, hnode, hlink⟩ := mem_links.1 hmem
    obtain ⟨a', ha', heq⟩ := Option.map_eq_some_iff.1 hlink
    cases heq
    refine ⟨node, ⟨⟨i, (h.chained.mem _ hb i).2 ⟨trivial, node, hnode, ?_⟩, hnode⟩, by simp⟩, ha'⟩
    rw [bucketAt, hlink]
    rfl

/-- A match that is found is linked under the hash. -/
theorem Wf.find_eq_some (h : t.Wf) {hash : Hash} {matching : α → Bool} {a : α}
    (ha : t.find hash matching = some a) : (hash, a) ∈ t.links ∧ matching a = true := by
  obtain ⟨chains, h⟩ := h
  exact ⟨h.mem_candidates.1 (List.mem_of_find?_eq_some ha), List.find?_some ha⟩

/-- When no match is found, nothing that is linked under the hash matches. -/
theorem Wf.find_eq_none (h : t.Wf) {hash : Hash} {matching : α → Bool}
    (hnone : t.find hash matching = none) {a : α} (ha : (hash, a) ∈ t.links) :
    matching a = false := by
  obtain ⟨chains, h⟩ := h
  simpa using List.find?_eq_none.1 hnone a (h.mem_candidates.2 ha)

/-- A table without objects is well formed. -/
theorem wf_empty : (empty : InternTable α).Wf := by
  refine ⟨fun _ => [], show 0 < (Array.replicate initialBuckets none).size by decide, ⟨fun b hb => ?_, fun _ => List.nodup_nil, fun b _ i => ?_⟩,
    List.nodup_nil, fun i => ?_, rfl⟩
  · show Array.getD _ b none = none
    simp [empty, Array.getD_eq_getD_getElem?, Array.getElem?_replicate]
    split <;> rfl
  · simp [empty]
  · simp [empty]

/-! ## Linking -/

theorem getD_setIfInBounds {heads : Array (Option Nat)} {b : Nat} (hb : b < heads.size)
    (v : Option Nat) (c : Nat) :
    (heads.setIfInBounds b v).getD c none = if b = c then v else heads.getD c none := by
  rw [Array.getD_eq_getD_getElem?, Array.getD_eq_getD_getElem?, Array.getElem?_setIfInBounds]
  split
  · rfl
  · rfl

/-- What one place links and what the others link make up the links. -/
theorem links_perm {i : Nat} (hi : i < nodes.size) :
    (nodes.toList.filterMap linkOf).Perm
      ((linkOf nodes[i]).toList ++ (nodes.toList.eraseIdx i).filterMap linkOf) := by
  have hlen : i < nodes.toList.length := by simpa using hi
  have hperm := (List.getElem_cons_eraseIdx_perm hlen).symm.filterMap linkOf
  refine hperm.trans ?_
  rw [List.filterMap_cons, Array.getElem_toList]
  cases linkOf nodes[i] with
  | none => exact List.Perm.refl _
  | some x => exact List.Perm.refl _

theorem links_set_perm {i : Nat} (hi : i < nodes.size) (node : InternNode α) :
    ((nodes.setIfInBounds i node).toList.filterMap linkOf).Perm
      ((linkOf node).toList ++ (nodes.toList.eraseIdx i).filterMap linkOf) := by
  have hsize : i < (nodes.setIfInBounds i node).size := by simpa using hi
  have hperm := links_perm hsize
  have herase : (nodes.setIfInBounds i node).toList.eraseIdx i = nodes.toList.eraseIdx i := by
    rw [Array.toList_setIfInBounds, List.eraseIdx_set_eq]
  rwa [herase, Array.getElem_setIfInBounds_self] at hperm

/-- A place that links something new is put before the chain of its bucket. -/
theorem Chained.prepend {p p' : Nat → Prop} (h : t.Chained p chains) {i b : Nat}
    (hb : b < t.heads.size) {node : InternNode α} (hnode : nodes[i]? = some node)
    (hbucket : bucketAt t.heads.size node = some b) (hnext : node.next = t.heads.getD b none)
    (hsame : ∀ j, j ≠ i → nodes[j]? = t.nodes[j]?) (hfresh : ∀ c, c < t.heads.size → i ∉ chains c)
    (hp : ∀ j, j ≠ i → (p' j ↔ p j)) (hi : p' i) {vacant : List Nat} {size : Nat} :
    Chained ⟨t.heads.setIfInBounds b (some i), nodes, vacant, size⟩ p'
      (Function.update chains b (i :: chains b)) := by
  have hcount : (t.heads.setIfInBounds b (some i)).size = t.heads.size := Array.size_setIfInBounds
  have hkeep : ∀ c, c < t.heads.size → ∀ j ∈ chains c, nodes[j]? = t.nodes[j]? := fun c hc j hj =>
    hsame j fun heq => hfresh c hc (heq ▸ hj)
  refine ⟨fun c hc => ?_, fun c => ?_, fun c hc j => ?_⟩
  · simp only at hc ⊢
    rw [hcount] at hc
    rw [getD_setIfInBounds hb]
    by_cases hbc : b = c
    · subst hbc
      rw [if_pos rfl, Function.update_self]
      refine ⟨rfl, node, hnode, ?_⟩
      rw [hnext]
      exact (h.lead b hb).congr (hkeep b hb)
    · rw [if_neg hbc, Function.update_of_ne (Ne.symm hbc)]
      exact (h.lead c hc).congr (hkeep c hc)
  · by_cases hbc : c = b
    · rw [hbc, Function.update_self]
      exact List.nodup_cons.2 ⟨hfresh b hb, h.nodup b⟩
    · rw [Function.update_of_ne hbc]
      exact h.nodup c
  · simp only at hc ⊢
    rw [hcount] at hc ⊢
    by_cases hji : j = i
    · subst hji
      have hiff : j ∈ Function.update chains b (j :: chains b) c ↔ c = b := by
        by_cases hbc : c = b
        · simp [hbc]
        · simp [hbc, hfresh c hc]
      rw [hiff]
      constructor
      · rintro rfl
        exact ⟨hi, node, hnode, hbucket⟩
      · rintro ⟨-, node', hnode', hbucket'⟩
        rw [hnode] at hnode'
        cases hnode'
        rw [hbucket] at hbucket'
        exact (Option.some.inj hbucket').symm
    · have hiff : j ∈ Function.update chains b (i :: chains b) c ↔ j ∈ chains c := by
        by_cases hbc : c = b
        · simp [hbc, hji]
        · simp [hbc]
      rw [hiff, h.mem c hc, hp j hji, hsame j hji]

/-- The tables differ only in how their places are chained. -/
structure Relinked (t u : InternTable α) : Prop where
  nodes : u.nodes.toList.map linkOf = t.nodes.toList.map linkOf
  heads : u.heads.size = t.heads.size
  vacant : u.vacant = t.vacant
  size : u.size = t.size

namespace Relinked

variable {u v : InternTable α}

theorem trans (h : t.Relinked u) (h' : u.Relinked v) : t.Relinked v where
  nodes := h'.nodes.trans h.nodes
  heads := h'.heads.trans h.heads
  vacant := h'.vacant.trans h.vacant
  size := h'.size.trans h.size

/-- Every place links what it linked. -/
theorem linkOf (h : t.Relinked u) (i : Nat) : u.nodes[i]?.map linkOf = t.nodes[i]?.map linkOf := by
  have hget := congrArg (·[i]?) h.nodes
  simpa only [List.getElem?_map, Array.getElem?_toList] using hget

theorem links (h : t.Relinked u) : u.links = t.links := by
  have hlinks : ∀ v : InternTable α, v.links = (v.nodes.toList.map InternTable.linkOf).filterMap id := fun v => by
    rw [List.filterMap_map]
    rfl
  rw [hlinks, hlinks, h.nodes]

theorem nodes_size (h : t.Relinked u) : u.nodes.size = t.nodes.size := by
  simpa using congrArg List.length h.nodes

end Relinked

theorem relinked_relink (t : InternTable α) (i : Nat) : t.Relinked (t.relink i) := by
  rw [relink]
  split
  · exact ⟨rfl, rfl, rfl, rfl⟩
  · next node hnode =>
    split
    · exact ⟨rfl, rfl, rfl, rfl⟩
    · refine ⟨?_, Array.size_setIfInBounds, rfl, rfl⟩
      obtain ⟨hi, rfl⟩ := Array.getElem?_eq_some_iff.1 hnode
      refine List.ext_getElem? fun j => ?_
      rw [Array.toList_setIfInBounds, List.map_set, List.getElem?_set]
      split
      · next heq =>
        subst heq
        simp [hi, InternTable.linkOf]
      · rfl

theorem relinked_foldl (places : List Nat) (t : InternTable α) :
    t.Relinked (places.foldl InternTable.relink t) := by
  induction places generalizing t with
  | nil => exact ⟨rfl, rfl, rfl, rfl⟩
  | cons i rest ih => exact (relinked_relink t i).trans (ih _)

/-- Relinking the place `i` adds it to its chain, if it links something. -/
theorem Chained.relink {i : Nat} (h : t.Chained (· < i) chains) (hpos : 0 < t.heads.size) :
    ∃ chains', (t.relink i).Chained (· < i + 1) chains' := by
  have hfresh : ∀ c, c < t.heads.size → i ∉ chains c := fun c hc hi =>
    absurd ((h.mem c hc i).1 hi).1 (lt_irrefl i)
  rw [InternTable.relink]
  cases hnode : t.nodes[i]? with
  | none =>
    refine ⟨chains, h.lead, h.nodup, fun b hb j => ?_⟩
    rw [h.mem b hb]
    constructor
    · rintro ⟨hj, hrest⟩
      exact ⟨Nat.lt_succ_of_lt hj, hrest⟩
    · rintro ⟨hj, node, hnode', hrest⟩
      have hne : j ≠ i := by
        rintro rfl
        rw [hnode] at hnode'
        cases hnode'
      exact ⟨by omega, node, hnode', hrest⟩
  | some node =>
    simp only
    cases hobject : node.object? with
    | none =>
      rw [if_pos (by rfl)]
      refine ⟨chains, h.lead, h.nodup, fun b hb j => ?_⟩
      rw [h.mem b hb]
      constructor
      · rintro ⟨hj, hrest⟩
        exact ⟨Nat.lt_succ_of_lt hj, hrest⟩
      · rintro ⟨hj, node', hnode', hrest⟩
        have hne : j ≠ i := by
          rintro rfl
          rw [hnode] at hnode'
          cases hnode'
          rw [bucketAt, linkOf, hobject] at hrest
          cases hrest
        exact ⟨by omega, node', hnode', hrest⟩
    | some a =>
      rw [if_neg (by simp)]
      have hb := bucketOf_lt hpos node.hash
      obtain ⟨hi, -⟩ := Array.getElem?_eq_some_iff.1 hnode
      refine ⟨_, @Chained.prepend α t _ chains _ (· < i + 1) h i _ hb
        { node with next := t.heads.getD (bucketOf t.heads.size node.hash) none } ?_ ?_ rfl ?_
        hfresh ?_ (Nat.lt_succ_self i) _ _⟩
      · rw [Array.getElem?_setIfInBounds, if_pos rfl, if_pos hi, hobject]
      · rw [bucketAt, linkOf]
        simp [hobject]
      · intro j hj
        rw [Array.getElem?_setIfInBounds, if_neg (Ne.symm hj)]
      · intro j hj
        show j < i + 1 ↔ j < i
        omega

/-- After `k` places were relinked, exactly these are on the new chains. -/
theorem chained_foldl_relink (hpos : 0 < t.heads.size) (hblank : ∀ b, t.heads.getD b none = none) (k : Nat) :
    ∃ chains, ((List.range k).foldl InternTable.relink t).Chained (· < k) chains := by
  induction k with
  | zero => exact ⟨fun _ => [], fun b _ => hblank b, fun _ => List.nodup_nil, fun b _ i => by simp⟩
  | succ k ih =>
    obtain ⟨chains, hchained⟩ := ih
    rw [List.range_succ, List.foldl_append, List.foldl_cons, List.foldl_nil]
    exact hchained.relink ((relinked_foldl (List.range k) t).heads ▸ hpos)

/-- Spreading the objects over other buckets keeps what is linked. -/
theorem Wf.resize (h : t.Wf) {count : Nat} (hcount : 0 < count) :
    (t.resize count).Wf ∧ (t.resize count).links = t.links ∧ (t.resize count).heads.size = count := by
  obtain ⟨chains, h⟩ := h
  have hrelinked : { t with heads := Array.replicate count none }.Relinked (t.resize count) :=
    relinked_foldl (List.range t.nodes.size) _
  have hheads : (t.resize count).heads.size = count := hrelinked.heads.trans Array.size_replicate
  have hlinks : (t.resize count).links = t.links := hrelinked.links
  obtain ⟨chains', hchained⟩ : ∃ chains', (t.resize count).Chained (· < t.nodes.size) chains' := by
    refine chained_foldl_relink (show 0 < (Array.replicate count none).size by simpa using hcount) (fun b => ?_) _
    simp [Array.getD_eq_getD_getElem?, Array.getElem?_replicate]
    split <;> rfl
  refine ⟨⟨chains', hcount.trans_eq hheads.symm, ⟨hchained.lead, hchained.nodup, fun b hb i => ?_⟩, ?_, fun i => ?_, ?_⟩,
    hlinks, hheads⟩
  · rw [hchained.mem b hb]
    refine and_congr_left fun ⟨node, hnode, _⟩ => iff_of_true ?_ trivial
    exact hrelinked.nodes_size ▸ (Array.getElem?_eq_some_iff.1 hnode).1
  · rw [hrelinked.vacant]
    exact h.vacant_nodup
  · rw [hrelinked.vacant, h.vacant]
    simp only [object?_eq_none_iff, exists_linkOf_iff (hrelinked.linkOf i) (· = none)]
  · rw [hrelinked.size, hlinks]
    exact h.size

/-- Linking an object in a place that links nothing, or in a new one. -/
theorem Represents.link (h : t.Represents chains) (hash : Hash) (a : α) {i : Nat}
    {nodes : Array (InternNode α)} {vacant : List Nat}
    (hnode : nodes[i]? =
      some ⟨hash, some a, t.heads.getD (bucketOf t.heads.size hash) none⟩)
    (hsame : ∀ j, j ≠ i → nodes[j]? = t.nodes[j]?)
    (hold : ∀ node, t.nodes[i]? = some node → node.object? = none)
    (hvacant : ∀ j, j ∈ vacant ↔ j ≠ i ∧ j ∈ t.vacant) (hnodup : vacant.Nodup)
    (hlinks : (nodes.toList.filterMap linkOf).Perm ((hash, a) :: t.links)) :
    Wf ⟨t.heads.setIfInBounds (bucketOf t.heads.size hash) (some i), nodes, vacant, t.size + 1⟩ := by
  have hb := bucketOf_lt h.buckets_pos hash
  have hfresh : ∀ c, c < t.heads.size → i ∉ chains c := by
    intro c hc hi
    obtain ⟨-, node, hnode', hbucket⟩ := (h.chained.mem c hc i).1 hi
    rw [bucketAt, linkOf, hold node hnode'] at hbucket
    cases hbucket
  refine ⟨_, by rw [Array.size_setIfInBounds]; exact h.buckets_pos,
    h.chained.prepend hb hnode rfl rfl hsame hfresh (fun _ _ => Iff.rfl) trivial, hnodup,
    fun j => ?_, ?_⟩
  · rw [hvacant, h.vacant]
    by_cases hji : j = i
    · subst hji
      rw [hnode]
      simp
    · simp only [hsame j hji, ne_eq, hji, not_false_eq_true, true_and]
  · show t.size + 1 = (nodes.toList.filterMap linkOf).length
    rw [hlinks.length_eq, List.length_cons, ← h.size]

/-- Linking an object adds one link. -/
theorem insert_spec (h : t.Wf) (hash : Hash) (a : α) (mayGrow : Bool) :
    (t.insert hash a mayGrow).Wf ∧ (t.insert hash a mayGrow).links.Perm ((hash, a) :: t.links) ∧
      (mayGrow = false → (t.insert hash a mayGrow).heads.size = t.heads.size) := by
  have hwf := h
  obtain ⟨chains, h⟩ := h
  rw [insert]
  -- what is linked before the table grows
  suffices hlinked : ∀ u : InternTable α, u.Wf → u.links.Perm ((hash, a) :: t.links) →
      u.heads.size = t.heads.size → ∀ v,
        v = (if mayGrow && u.heads.size < u.size then u.resize (u.heads.size * 2) else u) →
        v.Wf ∧ v.links.Perm ((hash, a) :: t.links) ∧
          (mayGrow = false → v.heads.size = t.heads.size) by
    cases hvacant : t.vacant with
    | cons i rest =>
      obtain ⟨node, hnode, hobject⟩ := (h.vacant i).1 (by rw [hvacant]; exact List.mem_cons_self)
      obtain ⟨hi, hget⟩ := Array.getElem?_eq_some_iff.1 hnode
      have hnodup := h.vacant_nodup
      rw [hvacant] at hnodup
      have hperm := links_perm hi
      rw [hget, linkOf, hobject] at hperm
      have hlinks := (links_set_perm hi
        ⟨hash, some a, t.heads.getD (bucketOf t.heads.size hash) none⟩).trans
          (hperm.symm.cons (hash, a))
      refine hlinked _ (h.link hash a ?_ ?_ ?_ ?_ (List.nodup_cons.1 hnodup).2 hlinks) hlinks
        Array.size_setIfInBounds _ rfl
      · rw [Array.getElem?_setIfInBounds, if_pos rfl, if_pos hi]
      · intro j hj
        rw [Array.getElem?_setIfInBounds, if_neg (Ne.symm hj)]
      · intro node' hnode'
        rw [hnode] at hnode'
        cases hnode'
        exact hobject
      · intro j
        rw [hvacant, List.mem_cons]
        constructor
        · intro hj
          refine ⟨?_, .inr hj⟩
          rintro rfl
          exact (List.nodup_cons.1 hnodup).1 hj
        · rintro ⟨hne, hj⟩
          exact hj.resolve_left hne
    | nil =>
      have hlinks : ((t.nodes.push ⟨hash, some a,
          t.heads.getD (bucketOf t.heads.size hash) none⟩).toList.filterMap linkOf).Perm
            ((hash, a) :: t.links) := by
        rw [Array.toList_push, List.filterMap_append]
        exact List.perm_append_singleton _ _
      refine hlinked _ (h.link hash a ?_ ?_ ?_ ?_ List.nodup_nil hlinks) hlinks
        Array.size_setIfInBounds _ rfl
      · rw [Array.getElem?_push, if_pos rfl]
      · intro j hj
        rw [Array.getElem?_push, if_neg hj]
      · intro node hnode
        have := (Array.getElem?_eq_some_iff.1 hnode).1
        omega
      · intro j
        rw [hvacant]
        simp
  intro u hu hlinks hheads v hv
  subst hv
  split
  · next hgrow =>
    have hpos : 0 < u.heads.size * 2 := by
      have := h.buckets_pos
      omega
    obtain ⟨hwf', hlinks', -⟩ := hu.resize hpos
    refine ⟨hwf', hlinks' ▸ hlinks, fun hfalse => ?_⟩
    rw [hfalse] at hgrow
    cases hgrow
  · exact ⟨hu, hlinks, fun _ => hheads⟩

/-! ## Unlinking -/

theorem modify_eq_set {i : Nat} (hi : i < nodes.size) (f : InternNode α → InternNode α) :
    nodes.modify i f = nodes.setIfInBounds i (f nodes[i]) := by
  refine Array.ext_getElem? fun j => ?_
  rw [Array.getElem?_modify, Array.getElem?_setIfInBounds]
  by_cases hij : i = j
  · subst hij
    rw [if_pos rfl, if_pos rfl, if_pos hi, Array.getElem?_eq_getElem hi, Option.map_some]
  · rw [if_neg hij, if_neg hij]

/-- A change of a place that keeps what it links keeps the links. -/
theorem links_modify {f : InternNode α → InternNode α} (hf : ∀ node, linkOf (f node) = linkOf node)
    (j : Nat) : ((nodes.modify j f).toList.filterMap linkOf).Perm (nodes.toList.filterMap linkOf) := by
  by_cases hj : j < nodes.size
  · rw [modify_eq_set hj]
    have hset := links_set_perm hj (f nodes[j])
    rw [hf] at hset
    exact hset.trans (links_perm hj).symm
  · have hsame : nodes.modify j f = nodes := by
      refine Array.ext_getElem? fun k => ?_
      rw [Array.getElem?_modify]
      split
      · next heq =>
        rw [Array.getElem?_eq_none (by omega)]
        rfl
      · rfl
    rw [hsame]

/-- A place is on the chain of one bucket only. -/
theorem Chained.bucket_eq {p : Nat → Prop} (h : t.Chained p chains) {b c i : Nat}
    (hb : b < t.heads.size) (hc : c < t.heads.size) (hi : i ∈ chains b) (hi' : i ∈ chains c) :
    b = c := by
  obtain ⟨-, node, hnode, hbucket⟩ := (h.mem b hb i).1 hi
  obtain ⟨-, node', hnode', hbucket'⟩ := (h.mem c hc i).1 hi'
  rw [hnode] at hnode'
  cases hnode'
  rw [hbucket] at hbucket'
  exact Option.some.inj hbucket'

/-! ### Changing a link between places -/

section SetLink

variable (t : InternTable α) (b : Nat) (before next : Option Nat)

/-- The nodes after the link at the end of some places was changed, seen at other places. -/
theorem getElem?_setLink (j : Nat) :
    (t.setLink b before next).nodes[j]? =
      if before = some j then t.nodes[j]?.map fun node => { node with next } else t.nodes[j]? := by
  cases before with
  | none => rfl
  | some i =>
    rw [setLink, Array.getElem?_modify]
    by_cases hij : i = j
    · simp [hij]
    · simp [hij]

theorem size_heads_setLink : (t.setLink b before next).heads.size = t.heads.size := by
  cases before with
  | none => exact Array.size_setIfInBounds
  | some j => rfl

/-- The heads of the other chains stay. -/
theorem getD_heads_setLink {c : Nat} (hb : b < t.heads.size) (hne : c ≠ b) :
    (t.setLink b before next).heads.getD c none = t.heads.getD c none := by
  cases before with
  | none => rw [setLink, getD_setIfInBounds hb, if_neg (Ne.symm hne)]
  | some j => rfl

theorem vacant_setLink : (t.setLink b before next).vacant = t.vacant := by
  cases before <;> rfl

theorem size_setLink : (t.setLink b before next).size = t.size := by
  cases before <;> rfl

/-- Every place links what it linked. -/
theorem linkOf_setLink (j : Nat) :
    (t.setLink b before next).nodes[j]?.map linkOf = t.nodes[j]?.map linkOf := by
  rw [getElem?_setLink]
  split
  · rw [Option.map_map]
    rfl
  · rfl

theorem links_setLink : (t.setLink b before next).links.Perm t.links := by
  cases before with
  | none => exact List.Perm.refl _
  | some j => exact @links_modify α t.nodes (fun node => { node with next }) (fun _ => rfl) j

end SetLink

variable {b c i : Nat} {pre rest : List Nat} {node : InternNode α} {x : Hash × α}

/-- The place is not among those in front of it on its chain, or behind it. -/
theorem Represents.not_mem_of_chain (h : t.Represents chains) (hchain : chains b = pre ++ i :: rest) :
    i ∉ pre ∧ i ∉ rest := by
  have hnodup := h.chained.nodup b
  rw [hchain] at hnodup
  exact ⟨fun hmem => (List.nodup_append.1 hnodup).2.2 i hmem i List.mem_cons_self rfl,
    (List.nodup_cons.1 (List.nodup_append.1 hnodup).2.1).1⟩

/-- A chain whose link in front of a place was pointed behind it skips the place. -/
theorem Represents.leads_skip (h : t.Represents chains) (hb : b < t.heads.size)
    (hchain : chains b = pre ++ i :: rest) (hnode : t.nodes[i]? = some node) :
    Leads (t.setLink b pre.getLast? node.next).nodes
      ((t.setLink b pre.getLast? node.next).heads.getD b none) (pre ++ rest) := by
  have hnodup := h.chained.nodup b
  have hlead := h.chained.lead b hb
  rw [hchain] at hnodup hlead
  obtain ⟨next, ⟨-, node', hnode', hrest⟩, -⟩ := hlead.append
  rw [hnode] at hnode'
  cases hnode'
  cases hj : pre.getLast? with
  | none =>
    rw [List.getLast?_eq_none_iff.1 hj, setLink, getD_setIfInBounds hb, if_pos rfl]
    exact hrest
  | some j =>
    refine hlead.relink hj (List.nodup_append.1 hnodup).1 (fun hmem => ?_) hrest
    exact (List.nodup_append.1 hnodup).2.2 j (List.mem_of_getLast? hj) j (List.mem_cons_of_mem _ hmem) rfl

/-- The other chains stay. -/
theorem Represents.leads_other (h : t.Represents chains) (hb : b < t.heads.size) (hc : c < t.heads.size)
    (hne : c ≠ b) (hpre : pre ⊆ chains b) (next : Option Nat) :
    Leads (t.setLink b pre.getLast? next).nodes
      ((t.setLink b pre.getLast? next).heads.getD c none) (chains c) := by
  rw [getD_heads_setLink t b _ _ hb hne]
  refine (h.chained.lead c hc).congr fun j hj => ?_
  rw [getElem?_setLink, if_neg]
  exact fun hlast => hne (h.chained.bucket_eq hc hb hj (hpre (List.mem_of_getLast? hlast)))

/-! ### Vacating a place -/

theorem getElem?_vacate (t : InternTable α) (i j : Nat) :
    (t.vacate i).nodes[j]? = if i = j then
      t.nodes[j]?.map fun node => { node with object? := none, next := none } else t.nodes[j]? := by
  rw [vacate, Array.getElem?_modify]

/-- A vacated place is there, and links nothing. -/
theorem exists_vacated (hnode : t.nodes[i]? = some node) :
    ∃ vacated, (t.vacate i).nodes[i]? = some vacated ∧ vacated.object? = none := by
  refine ⟨{ node with object? := none, next := none }, ?_, rfl⟩
  rw [getElem?_vacate, if_pos rfl, hnode]
  rfl

/-- Vacating a place drops its link. -/
theorem links_vacate (hnode : t.nodes[i]? = some node) (hlink : linkOf node = some x) :
    t.links.Perm (x :: (t.vacate i).links) := by
  obtain ⟨hi, rfl⟩ := Array.getElem?_eq_some_iff.1 hnode
  have hperm := links_perm hi
  rw [hlink] at hperm
  refine hperm.trans (List.Perm.cons x ?_)
  rw [links, vacate, modify_eq_set hi]
  exact (links_set_perm hi { t.nodes[i] with object? := none, next := none }).symm

/-- The link in front of a place is none of its own. -/
theorem Represents.getElem?_setLink_self (h : t.Represents chains) (hchain : chains b = pre ++ i :: rest)
    (hnode : t.nodes[i]? = some node) (next : Option Nat) :
    (t.setLink b pre.getLast? next).nodes[i]? = some node := by
  have hipre := (h.not_mem_of_chain hchain).1
  rw [getElem?_setLink, if_neg fun hlast => hipre (List.mem_of_getLast? hlast), hnode]

/-- Every other place links what it linked. -/
theorem linkOf_unlinked (t : InternTable α) (b : Nat) (before next : Option Nat) {i j : Nat} (hne : j ≠ i) :
    ((t.setLink b before next).vacate i).nodes[j]?.map linkOf = t.nodes[j]?.map linkOf := by
  rw [getElem?_vacate, if_neg (Ne.symm hne), linkOf_setLink]

/-- A place that is taken out of its chain and vacated is on no chain. -/
theorem Represents.chained_unlink (h : t.Represents chains) (hb : b < t.heads.size)
    (hchain : chains b = pre ++ i :: rest) (hnode : t.nodes[i]? = some node) :
    ((t.setLink b pre.getLast? node.next).vacate i).Chained (fun _ => True)
      (Function.update chains b (pre ++ rest)) := by
  obtain ⟨hipre, hirest⟩ := h.not_mem_of_chain hchain
  have hpre : pre ⊆ chains b := hchain ▸ List.subset_append_left _ _
  have hmem : i ∈ chains b := hchain ▸ List.mem_append_right _ List.mem_cons_self
  have hheads := size_heads_setLink t b pre.getLast? node.next
  have hnot : ∀ c, c < t.heads.size → i ∉ Function.update chains b (pre ++ rest) c := by
    intro c hc hi
    by_cases hcb : c = b
    · rw [hcb, Function.update_self] at hi
      exact (List.mem_append.1 hi).elim hipre hirest
    · rw [Function.update_of_ne hcb] at hi
      exact hcb (h.chained.bucket_eq hc hb hi hmem)
  refine ⟨fun c hlt => ?_, fun c => ?_, fun c hlt j => ?_⟩
  · have hc : c < t.heads.size := hheads ▸ hlt
    have hlead : Leads (t.setLink b pre.getLast? node.next).nodes
        ((t.setLink b pre.getLast? node.next).heads.getD c none)
        (Function.update chains b (pre ++ rest) c) := by
      by_cases hcb : c = b
      · subst hcb
        rw [Function.update_self]
        exact h.leads_skip hb hchain hnode
      · rw [Function.update_of_ne hcb]
        exact h.leads_other hb hc hcb hpre node.next
    refine hlead.congr fun j hj => ?_
    rw [getElem?_vacate, if_neg]
    rintro rfl
    exact hnot c hc hj
  · by_cases hcb : c = b
    · have hnodup := h.chained.nodup b
      rw [hchain] at hnodup
      rw [hcb, Function.update_self]
      exact hnodup.sublist ((List.sublist_cons_self i rest).append_left pre)
    · rw [Function.update_of_ne hcb]
      exact h.chained.nodup c
  · have hc : c < t.heads.size := hheads ▸ hlt
    show _ ↔ True ∧ ∃ node', _ ∧ bucketAt (t.setLink b pre.getLast? node.next).heads.size node' = some c
    rw [hheads]
    by_cases hji : j = i
    · subst hji
      refine iff_of_false (hnot c hc) ?_
      rintro ⟨-, node', hnode', hbucket⟩
      obtain ⟨vacated, hvacated, hobject⟩ := exists_vacated (h.getElem?_setLink_self hchain hnode node.next)
      cases hvacated.symm.trans hnode'
      rw [bucketAt, object?_eq_none_iff.1 hobject] at hbucket
      cases hbucket
    · have hsame := exists_linkOf_iff (linkOf_unlinked t b pre.getLast? node.next hji) fun link =>
        link.map (fun y => bucketOf t.heads.size y.1) = some c
      refine Iff.trans ?_ ((h.chained.mem c hc j).trans (and_congr_right' hsame.symm))
      by_cases hcb : c = b
      · rw [hcb, Function.update_self, hchain]
        simp [hji]
      · rw [Function.update_of_ne hcb]

/-- Taking a place out of its chain and vacating it removes one link. -/
theorem Represents.unlink (h : t.Represents chains) (hb : b < t.heads.size)
    (hchain : chains b = pre ++ i :: rest) (hnode : t.nodes[i]? = some node) (hlink : linkOf node = some x) :
    ((t.setLink b pre.getLast? node.next).vacate i).Represents
        (Function.update chains b (pre ++ rest)) ∧
      t.links.Perm (x :: ((t.setLink b pre.getLast? node.next).vacate i).links) ∧
      ((t.setLink b pre.getLast? node.next).vacate i).heads.size = t.heads.size := by
  have hnode' := h.getElem?_setLink_self hchain hnode node.next
  have hheads := size_heads_setLink t b pre.getLast? node.next
  have hdrop := (links_setLink t b pre.getLast? node.next).symm.trans (links_vacate hnode' hlink)
  refine ⟨⟨hheads ▸ h.buckets_pos, h.chained_unlink hb hchain hnode, ?_, fun j => ?_, ?_⟩, hdrop, hheads⟩
  · show (i :: (t.setLink b pre.getLast? node.next).vacant).Nodup
    rw [vacant_setLink]
    refine List.nodup_cons.2 ⟨fun hi => ?_, h.vacant_nodup⟩
    obtain ⟨occupied, hoccupied, hobject⟩ := (h.vacant i).1 hi
    cases hnode.symm.trans hoccupied
    rw [object?_eq_none_iff.1 hobject] at hlink
    cases hlink
  · show j ∈ i :: (t.setLink b pre.getLast? node.next).vacant ↔ _
    rw [vacant_setLink, List.mem_cons, h.vacant]
    by_cases hji : j = i
    · subst hji
      exact iff_of_true (.inl rfl) (exists_vacated hnode')
    · simp only [object?_eq_none_iff, exists_linkOf_iff (linkOf_unlinked t b _ _ hji) (· = none)]
      exact or_iff_right hji
  · show (t.setLink b pre.getLast? node.next).size - 1 = _
    have hlength := hdrop.length_eq
    rw [List.length_cons, ← h.size] at hlength
    rw [size_setLink]
    omega

/-- Whether a link stands in the bucket and is to be removed. -/
def doomed (removing : α → Bool) (count bucket : Nat) (x : Hash × α) : Bool :=
  bucketOf count x.1 == bucket && removing x.2

/-- None of the places holds a link that is to be removed. -/
def Keeps (t : InternTable α) (removing : α → Bool) (places : List Nat) : Prop :=
  ∀ i ∈ places, ∀ node x, t.nodes[i]? = some node → linkOf node = some x → removing x.2 = false

/-- A bucket whose chain is kept loses no link. -/
theorem Represents.filter_kept {removing : α → Bool} {b : Nat} {t : InternTable α} {chains : Nat → List Nat}
    (h : t.Represents chains) (hb : b < t.heads.size) (hkept : t.Keeps removing (chains b)) :
    t.links.filter (fun x => !doomed removing t.heads.size b x) = t.links := by
  refine List.filter_eq_self.2 fun x hx => ?_
  obtain ⟨i, node, hnode, hlink⟩ := mem_links.1 hx
  rw [doomed, Bool.not_eq_true', Bool.and_eq_false_imp]
  intro hbucket
  have hi : i ∈ chains b := (h.chained.mem b hb i).2
    ⟨trivial, node, hnode, by rw [bucketAt, hlink, Option.map_some, ← beq_iff_eq.1 hbucket]⟩
  exact hkept i hi node x hnode hlink

/-- Unlinking another place keeps what is kept. -/
theorem Keeps.unlink {removing : α → Bool} {places : List Nat} {t : InternTable α}
    (hkept : t.Keeps removing places) {i : Nat} (hi : i ∉ places) (b : Nat) (previous next : Option Nat) :
    ((t.setLink b previous next).vacate i).Keeps removing places := by
  intro j hj node x hnode hx
  have hne : i ≠ j := fun heq => hi (heq ▸ hj)
  rw [vacate, Array.getElem?_modify, if_neg hne, getElem?_setLink] at hnode
  split at hnode
  · obtain ⟨m, hm, rfl⟩ := Option.map_eq_some_iff.1 hnode
    exact hkept j hj m x hm hx
  · exact hkept j hj node x hnode hx

theorem Keeps.concat {removing : α → Bool} {places : List Nat} {t : InternTable α}
    (hkept : t.Keeps removing places) {i : Nat} {node : InternNode α} {x : Hash × α} (hnode : t.nodes[i]? = some node)
    (hlink : linkOf node = some x) (hx : removing x.2 = false) : t.Keeps removing (places ++ [i]) := by
  intro j hj node' y hnode' hy
  rcases List.mem_append.1 hj with hj | hj
  · exact hkept j hj node' y hnode' hy
  · rw [List.mem_singleton.1 hj, hnode] at hnode'
    cases hnode'
    cases hlink.symm.trans hy
    exact hx

/-- Walking the rest of a chain unlinks what is to be removed there. -/
theorem unlinkPlaces_spec (removing : α → Bool) {b : Nat} :
    ∀ {places pre : List Nat} {t : InternTable α} {chains : Nat → List Nat}, t.Represents chains →
      b < t.heads.size → chains b = pre ++ places →
      t.Keeps removing pre → (t.unlinkPlaces removing b pre.getLast? places).2.Wf ∧
        (t.unlinkPlaces removing b pre.getLast? places).2.links.Perm
          (t.links.filter fun x => !doomed removing t.heads.size b x) ∧
        (t.unlinkPlaces removing b pre.getLast? places).2.heads.size = t.heads.size := by
  intro places
  induction places with
  | nil =>
    intro pre t chains h hb hchain hkept
    refine ⟨⟨chains, h⟩, ?_, rfl⟩
    rw [List.append_nil] at hchain
    rw [h.filter_kept hb (hchain ▸ hkept)]
    exact List.Perm.refl _
  | cons i rest ih =>
    intro pre t chains h hb hchain hkept
    have hmem : i ∈ chains b := by rw [hchain]; simp
    obtain ⟨-, node, hnode, hbucket⟩ := (h.chained.mem b hb i).1 hmem
    obtain ⟨x, hlink, hxb⟩ := Option.map_eq_some_iff.1 hbucket
    obtain ⟨a, hobject, hx⟩ := Option.map_eq_some_iff.1 hlink
    have hany : node.object?.any removing = removing x.2 := by
      rw [hobject, ← hx]
      rfl
    simp only [unlinkPlaces, hnode, hany]
    cases hremoving : removing x.2 with
    | true =>
      obtain ⟨h', hlinks, hheads⟩ := h.unlink hb hchain hnode hlink
      rw [if_pos rfl]
      have hnot : i ∉ pre := fun hi => by
        have hnodup := h.chained.nodup b
        rw [hchain] at hnodup
        exact (List.nodup_append.1 hnodup).2.2 i hi i List.mem_cons_self rfl
      obtain ⟨hwf, hperm, hsize⟩ := @ih pre _ _ h' (by rw [hheads]; exact hb)
        (Function.update_self _ _ _) (hkept.unlink hnot b _ _)
      refine ⟨hwf, hperm.trans ?_, hsize.trans hheads⟩
      rw [hheads]
      have hfilter := hlinks.filter fun y => !doomed removing t.heads.size b y
      have hdrop : (!doomed removing t.heads.size b x) = false := by
        rw [doomed, hremoving, Bool.and_true, beq_iff_eq.2 hxb]
        rfl
      rw [List.filter_cons_of_neg (by rw [hdrop]; exact Bool.false_ne_true)] at hfilter
      exact hfilter.symm
    | false =>
      rw [if_neg Bool.false_ne_true]
      have hlast : (pre ++ [i]).getLast? = some i := by simp
      have hrest := @ih (pre ++ [i]) t chains h hb (by rw [hchain, List.append_assoc]; rfl)
        (hkept.concat hnode hlink hremoving)
      rw [hlast] at hrest
      exact hrest

/-- Unlinking in a bucket removes the links of the bucket that are to be removed. -/
theorem unlinkIn_spec (h : t.Wf) {b : Nat} (hb : b < t.heads.size) (removing : α → Bool) :
    (t.unlinkIn b removing).2.Wf ∧
      (t.unlinkIn b removing).2.links.Perm
        (t.links.filter fun x => !doomed removing t.heads.size b x) ∧
      (t.unlinkIn b removing).2.heads.size = t.heads.size := by
  obtain ⟨chains, h⟩ := h
  rw [unlinkIn, h.places_eq hb]
  exact @unlinkPlaces_spec α removing b (chains b) [] t chains h hb rfl
    fun i hi => absurd hi List.not_mem_nil

theorem Wf.buckets_pos (h : t.Wf) : 0 < t.heads.size := h.elim fun _ h => h.buckets_pos

/-- An object that is removed is no longer linked under the hash; the other links stay. -/
theorem remove_spec [BEq α] [LawfulBEq α] (h : t.Wf) (hash : Hash) (a : α) :
    (t.remove hash a).2.Wf ∧ (t.remove hash a).2.heads.size = t.heads.size ∧
      ∀ x, x ∈ (t.remove hash a).2.links ↔ x ∈ t.links ∧
        ¬ (bucketOf t.heads.size x.1 = bucketOf t.heads.size hash ∧ x.2 = a) := by
  obtain ⟨hwf, hperm, hheads⟩ := unlinkIn_spec h (bucketOf_lt h.buckets_pos hash) (· == a)
  refine ⟨hwf, hheads, fun x => ?_⟩
  have hmem : x ∈ (t.remove hash a).2.links ↔ _ := hperm.mem_iff
  rw [hmem, List.mem_filter, doomed, Bool.not_eq_true', Bool.and_eq_false_iff]
  simp only [beq_eq_false_iff_ne, ne_eq]
  tauto

/-- The buckets that a sweep visits. -/
def Swept (t : InternTable α) (start count bucket : Nat) : Prop :=
  start ≤ bucket ∧ bucket < t.sweepEnd start count

/-- Unlinking the dead objects of some buckets, one bucket after the other. -/
theorem sweepBuckets_spec (isLive : α → Bool) (buckets : List Nat) (removed : Nat) {u : InternTable α}
    (hu : u.Wf) (hlt : ∀ b ∈ buckets, b < u.heads.size) :
    let swept := buckets.foldl (fun (removed, t) bucket =>
      let (n, t) := t.unlinkIn bucket fun a => !isLive a
      (removed + n, t)) (removed, u)
    swept.2.Wf ∧ swept.2.heads.size = u.heads.size ∧ ∀ x, x ∈ swept.2.links ↔
      x ∈ u.links ∧ (bucketOf u.heads.size x.1 ∈ buckets → isLive x.2 = true) := by
  induction buckets generalizing removed u with
  | nil => exact ⟨hu, rfl, fun x => by simp⟩
  | cons b rest ih =>
    obtain ⟨hwf, hperm, hsize⟩ := unlinkIn_spec hu (hlt b List.mem_cons_self) fun a => !isLive a
    obtain ⟨hwf', hheads', hmem⟩ := ih (removed + (u.unlinkIn b fun a => !isLive a).1) hwf
      fun c hc => hsize ▸ hlt c (List.mem_cons_of_mem _ hc)
    refine ⟨hwf', hheads'.trans hsize, fun x => (hmem x).trans ?_⟩
    rw [hperm.mem_iff, List.mem_filter, doomed, hsize, List.mem_cons, Bool.not_eq_true',
      Bool.and_eq_false_iff]
    simp only [beq_eq_false_iff_ne, ne_eq, Bool.not_eq_false']
    tauto

/-- A sweep unlinks exactly the dead objects of the buckets that it visits. -/
theorem sweep_spec (h : t.Wf) (start count : Nat) (isLive : α → Bool) :
    (t.sweep start count isLive).2.2.Wf ∧
      (t.sweep start count isLive).1 = t.sweepEnd start count ∧
      (t.sweep start count isLive).2.2.heads.size = t.heads.size ∧
      ∀ x, x ∈ (t.sweep start count isLive).2.2.links ↔ x ∈ t.links ∧
        (t.Swept start count (bucketOf t.heads.size x.1) → isLive x.2 = true) := by
  have hlt : ∀ b ∈ List.range' start (t.sweepEnd start count - start), b < t.heads.size := by
    intro b hb
    have := List.mem_range'_1.1 hb
    have : t.sweepEnd start count ≤ t.heads.size := Nat.min_le_right _ _
    omega
  obtain ⟨hwf, hheads, hmem⟩ := sweepBuckets_spec isLive _ 0 h hlt
  refine ⟨hwf, rfl, hheads, fun x => (hmem x).trans ?_⟩
  rw [List.mem_range'_1, Swept]
  constructor
  · rintro ⟨hx, hlive⟩
    exact ⟨hx, fun hin => hlive ⟨hin.1, by omega⟩⟩
  · rintro ⟨hx, hlive⟩
    exact ⟨hx, fun hin => hlive ⟨hin.1, by omega⟩⟩

end InternTable

end Tricolor
