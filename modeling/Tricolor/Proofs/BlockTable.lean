import Mathlib.Algebra.BigOperators.Group.List.Basic
import Mathlib.Algebra.Ring.Nat
import Mathlib.Data.List.Nodup
import Mathlib.Data.List.Perm.Basic
import Mathlib.Order.Nat
import Mathlib.Tactic.Common
import Tricolor.BlockTable

/-!
# What a block table holds

`BlockTable.entries` is the view of a block table: its blocks in an order that does not
matter. A well formed table keeps, for every block, the slots from the block's home to
its slot occupied, so that a probe finds it; the removal of a block shifts others so that
this stays true. Each operation changes the entries as one expects, up to a permutation.
-/

namespace Tricolor

/-! ## Round the table -/

/-- How far one walks from slot `x` to slot `y`, round a table of `n` slots. -/
def distance (n x y : Nat) : Nat := (y + n - x) % n

section Distance

variable {n x y z : Nat}

theorem distance_of_le (hx : x ≤ y) (hy : y < n) : distance n x y = y - x := by
  have heq : y + n - x = y - x + n := by omega
  rw [distance, heq, Nat.add_mod_right, Nat.mod_eq_of_lt (by omega)]

theorem distance_of_lt (hx : x < n) (hlt : y < x) : distance n x y = y + n - x := by
  rw [distance, Nat.mod_eq_of_lt (by omega)]

/-- The two ways to walk: without and with the end of the table between the slots. -/
theorem distance_cases (hx : x < n) (hy : y < n) :
    (x ≤ y ∧ distance n x y = y - x) ∨ (y < x ∧ distance n x y = y + n - x) := by
  rcases Nat.lt_or_ge y x with hlt | hle
  · exact .inr ⟨hlt, distance_of_lt hx hlt⟩
  · exact .inl ⟨hle, distance_of_le hle hy⟩

theorem succ_mod_cases (hx : x < n) :
    (x + 1 < n ∧ (x + 1) % n = x + 1) ∨ (x + 1 = n ∧ (x + 1) % n = 0) := by
  rcases Nat.lt_or_ge (x + 1) n with hlt | hle
  · exact .inl ⟨hlt, Nat.mod_eq_of_lt hlt⟩
  · have heq : x + 1 = n := by omega
    exact .inr ⟨heq, by rw [heq, Nat.mod_self]⟩

/-- A slot that is no farther than another one stands on the way to it. -/
theorem distance_add (hx : x < n) (hy : y < n) (hz : z < n) (h : distance n x y ≤ distance n x z) :
    distance n x y + distance n y z = distance n x z := by
  have hxy := distance_cases hx hy
  have hyz := distance_cases hy hz
  have hxz := distance_cases hx hz
  omega

/-- A slot from which another one is no farther stands on the way to it. -/
theorem distance_add' (hx : x < n) (hy : y < n) (hz : z < n) (h : distance n y z ≤ distance n x z) :
    distance n x y + distance n y z = distance n x z := by
  have hxy := distance_cases hx hy
  have hyz := distance_cases hy hz
  have hxz := distance_cases hx hz
  omega

theorem distance_eq_zero (hx : x < n) (hy : y < n) : distance n x y = 0 ↔ x = y := by
  have hxy := distance_cases hx hy
  omega

theorem distance_lt (hx : x < n) (hy : y < n) : distance n x y < n := by
  have hxy := distance_cases hx hy
  omega

/-- One more step, unless it leads back to the start. -/
theorem distance_succ (hx : x < n) (hy : y < n) :
    distance n x ((y + 1) % n) = distance n x y + 1 ∨ (y + 1) % n = x := by
  have hlt : (y + 1) % n < n := Nat.mod_lt _ (by omega)
  have hstep := succ_mod_cases hy
  have hxy := distance_cases hx hy
  have hxy' := distance_cases hx hlt
  omega

/-- A step towards another slot. -/
theorem distance_step (hx : x < n) (hy : y < n) (hne : x ≠ y) :
    distance n ((x + 1) % n) y + 1 = distance n x y := by
  have hlt : (x + 1) % n < n := Nat.mod_lt _ (by omega)
  have hstep := succ_mod_cases hx
  have hxy := distance_cases hx hy
  have hxy' := distance_cases hlt hy
  omega

end Distance

namespace BlockTable

variable {slots : Array (Option BlockEntry)} {bits i j : Nat} {e : BlockEntry} {page : Page}

/-! ## Slots -/

/-- The blocks in the slots, in their order. -/
def entriesIn (slots : Array (Option BlockEntry)) : List BlockEntry := slots.toList.filterMap id

theorem entryAt_lt (h : entryAt slots i = some e) : i < slots.size := by
  by_contra hnot
  rw [entryAt, Array.getD_eq_getD_getElem?, Array.getElem?_eq_none (not_lt.1 hnot)] at h
  cases h

/-- An occupied slot is not an empty one. -/
theorem ne_of_entryAt (he : entryAt slots i = some e) (hempty : entryAt slots j = none) : i ≠ j := by
  rintro rfl
  rw [hempty] at he
  cases he

theorem after_lt (hi : i < slots.size) : after slots i < slots.size := Nat.mod_lt _ (Nat.zero_lt_of_lt hi)

theorem distance_after (hi : i < slots.size) (hj : j < slots.size) (hne : i ≠ j) :
    distance slots.size (after slots i) j + 1 = distance slots.size i j := distance_step hi hj hne

theorem getElem?_of_entryAt (h : entryAt slots i = some e) : slots.toList[i]? = some (some e) := by
  have hi := entryAt_lt h
  rw [entryAt, Array.getD_eq_getD_getElem?, Array.getElem?_eq_getElem hi, Option.getD_some] at h
  rw [Array.getElem?_toList, Array.getElem?_eq_getElem hi, h]

theorem entryAt_set (hi : i < slots.size) (v : Option BlockEntry) (j : Nat) :
    entryAt (slots.setIfInBounds i v) j = if i = j then v else entryAt slots j := by
  rw [entryAt, entryAt, Array.getD_eq_getD_getElem?, Array.getD_eq_getD_getElem?,
    Array.getElem?_setIfInBounds]
  split
  · rfl
  · rfl

theorem mem_entriesIn : e ∈ entriesIn slots ↔ ∃ i, entryAt slots i = some e := by
  rw [entriesIn, List.mem_filterMap]
  constructor
  · rintro ⟨v, hv, rfl⟩
    obtain ⟨i, hi, hget⟩ := List.mem_iff_getElem.1 hv
    rw [Array.length_toList] at hi
    refine ⟨i, ?_⟩
    rw [entryAt, Array.getD_eq_getD_getElem?, Array.getElem?_eq_getElem hi, Option.getD_some]
    simpa using hget
  · rintro ⟨i, hi⟩
    exact ⟨some e, List.mem_of_getElem? (getElem?_of_entryAt hi), rfl⟩

/-- What is in a slot and what is in the others make up the entries. -/
theorem entriesIn_set (hi : i < slots.size) (v : Option BlockEntry) :
    (entriesIn (slots.setIfInBounds i v)).Perm
      (v.toList ++ (slots.toList.eraseIdx i).filterMap id) := by
  have hset : (slots.setIfInBounds i v).toList = slots.toList.set i v := by simp
  rw [entriesIn, hset]
  refine ((List.set_perm_cons_eraseIdx (by simpa using hi) v).filterMap id).trans ?_
  cases v with
  | none => exact List.Perm.refl _
  | some e => exact List.Perm.refl _

theorem entriesIn_perm (hi : i < slots.size) :
    (entriesIn slots).Perm
      ((entryAt slots i).toList ++ (slots.toList.eraseIdx i).filterMap id) := by
  have hsame : slots.setIfInBounds i (entryAt slots i) = slots := by
    refine Array.ext_getElem? fun j => ?_
    rw [Array.getElem?_setIfInBounds]
    split
    · next heq =>
      subst heq
      rw [entryAt, Array.getD_eq_getD_getElem?, Array.getElem?_eq_getElem hi, Option.getD_some]
    · rfl
  have := entriesIn_set hi (entryAt slots i)
  rwa [hsame] at this

/-- Emptying a slot removes its entry. -/
theorem entriesIn_clear (h : entryAt slots i = some e) :
    (entriesIn slots).Perm (e :: entriesIn (slots.setIfInBounds i none)) := by
  have hperm := entriesIn_perm (entryAt_lt h)
  rw [h] at hperm
  exact hperm.trans ((entriesIn_set (entryAt_lt h) none).symm.cons e)

/-- Filling an empty slot adds an entry. -/
theorem entriesIn_fill (hi : i < slots.size) (h : entryAt slots i = none) (e : BlockEntry) :
    (entriesIn (slots.setIfInBounds i (some e))).Perm (e :: entriesIn slots) := by
  have hperm := entriesIn_perm hi
  rw [h] at hperm
  exact (entriesIn_set hi (some e)).trans (hperm.symm.cons e)

/-- As long as there are fewer entries than slots, some slot is empty. -/
theorem exists_empty (h : (entriesIn slots).length < slots.size) :
    ∃ z, z < slots.size ∧ entryAt slots z = none := by
  by_contra hnone
  refine absurd h (not_lt.2 (le_of_eq ?_))
  rw [entriesIn, ← Array.length_toList]
  have hall : ∀ v ∈ slots.toList, v.isSome = true := by
    intro v hv
    obtain ⟨i, hi, hget⟩ := List.mem_iff_getElem.1 hv
    rw [Array.length_toList] at hi
    rw [← Option.ne_none_iff_isSome]
    rintro rfl
    refine hnone ⟨i, hi, ?_⟩
    rw [entryAt, Array.getD_eq_getD_getElem?, Array.getElem?_eq_getElem hi, Option.getD_some]
    simpa using hget
  clear h hnone
  generalize slots.toList = l at hall
  induction l with
  | nil => rfl
  | cons v rest ih =>
    obtain ⟨e, rfl⟩ := Option.isSome_iff_exists.1 (hall v List.mem_cons_self)
    have hcons : (some e :: rest).filterMap id = e :: rest.filterMap id := rfl
    rw [hcons, List.length_cons, List.length_cons, ih fun w hw => hall w (List.mem_cons_of_mem _ hw)]

/-! ## Probing -/

/-- The slots from the home of an entry to its slot are occupied. -/
def Reachable (bits : Nat) (slots : Array (Option BlockEntry)) (hole : Option Nat) : Prop :=
  ∀ i e, some i ≠ hole → entryAt slots i = some e → ∀ x, x < slots.size →
    distance slots.size (home bits e.page) x < distance slots.size (home bits e.page) i →
      entryAt slots x ≠ none

/-- The entries are of different pages, none of them page 0. -/
def Distinct (entries : List BlockEntry) : Prop :=
  (entries.map BlockEntry.page).Nodup ∧ ∀ e ∈ entries, e.page ≠ 0

theorem Distinct.perm {entries entries' : List BlockEntry} (h : Distinct entries)
    (hperm : entries.Perm entries') : Distinct entries' :=
  ⟨(hperm.map _).nodup_iff.1 h.1, fun e he => h.2 e (hperm.symm.subset he)⟩

theorem Distinct.of_cons {entries : List BlockEntry} (h : Distinct (e :: entries)) :
    Distinct entries ∧ ∀ f ∈ entries, f.page ≠ e.page := by
  obtain ⟨hnodup, hne⟩ := h
  rw [List.map_cons, List.nodup_cons] at hnodup
  refine ⟨⟨hnodup.2, fun f hf => hne f (List.mem_cons_of_mem _ hf)⟩, fun f hf heq => hnodup.1 ?_⟩
  exact heq ▸ List.mem_map_of_mem hf

theorem Distinct.cons {entries : List BlockEntry} (h : Distinct entries) (he : e.page ≠ 0)
    (hfresh : ∀ f ∈ entries, f.page ≠ e.page) : Distinct (e :: entries) := by
  refine ⟨?_, fun f hf => (List.mem_cons.1 hf).elim (fun heq => heq ▸ he) (h.2 f)⟩
  rw [List.map_cons, List.nodup_cons]
  refine ⟨fun hmem => ?_, h.1⟩
  obtain ⟨f, hf, heq⟩ := List.mem_map.1 hmem
  exact hfresh f hf heq

/-- Two slots do not hold the same page. -/
theorem Distinct.slot_eq (h : Distinct (entriesIn slots)) {e f : BlockEntry}
    (hi : entryAt slots i = some e) (hj : entryAt slots j = some f) (heq : e.page = f.page) :
    i = j := by
  by_contra hne
  have hclear := (h.perm (entriesIn_clear hi)).of_cons.2 f
  refine hclear (mem_entriesIn.2 ⟨j, ?_⟩) heq.symm
  rw [entryAt_set (entryAt_lt hi), if_neg hne, hj]

/-- The size of the array of slots, and the home of every page in it. -/
theorem home_lt (hsize : slots.size = 1 <<< bits) (page : Page) : home bits page < slots.size := by
  rw [hsize, home, Nat.one_shiftLeft, Nat.shiftRight_eq_div_pow]
  have hlt : page * goldenRatio % wordRange < 2 ^ 64 := Nat.mod_lt _ (by decide)
  rw [Nat.div_lt_iff_lt_mul (Nat.two_pow_pos _), ← Nat.pow_add]
  exact lt_of_lt_of_le hlt (Nat.pow_le_pow_right (by decide) (by omega))

/-- A probe that answers a slot answers one with the page. -/
theorem probe_eq_some {n : Nat} (h : probe slots page i n = some j) :
    ∃ e, entryAt slots j = some e ∧ e.page = page := by
  induction n generalizing i with
  | zero => cases h
  | succ n ih =>
    rw [probe] at h
    cases he : entryAt slots i with
    | none =>
      rw [he] at h
      cases h
    | some e =>
      rw [he] at h
      simp only at h
      split at h
      · next hpage => exact ⟨e, Option.some.inj h ▸ he, hpage⟩
      · exact ih h

/-- A probe reaches a slot with the page if all slots on the way are occupied by others. -/
theorem probe_of_entryAt {n : Nat} (he : entryAt slots j = some e) :
    ∀ {i : Nat}, i < slots.size → distance slots.size i j < n →
      (∀ x, x < slots.size → distance slots.size i x < distance slots.size i j →
        ∃ f, entryAt slots x = some f ∧ f.page ≠ e.page) →
      probe slots e.page i n = some j := by
  have hj := entryAt_lt he
  induction n with
  | zero =>
    intro i _ hn
    omega
  | succ n ih =>
    intro i hi hn hpath
    rw [probe]
    by_cases hij : i = j
    · subst hij
      rw [he]
      simp
    · have hzero : distance slots.size i i = 0 := (distance_eq_zero hi hi).2 rfl
      have hnear := distance_after hi hj hij
      obtain ⟨f, hf, hpage⟩ := hpath i hi (by omega)
      rw [hf]
      simp only [if_neg hpage]
      refine ih (after_lt hi) (by omega) fun x hx hlt => ?_
      by_cases hix : i = x
      · exact ⟨f, hix ▸ hf, hpage⟩
      · have hnear' := distance_after hi hx hix
        exact hpath x hx (by omega)

/-- The table answers a slot for a page exactly if an entry with the page is there. -/
theorem probe_spec (hsize : slots.size = 1 <<< bits) (hreach : Reachable bits slots none)
    (hdistinct : Distinct (entriesIn slots)) (page : Page) :
    (probe slots page (home bits page) slots.size).bind (entryAt slots) =
      (entriesIn slots).find? (·.page = page) := by
  cases hfind : (entriesIn slots).find? (·.page = page) with
  | some e =>
    have hmem := List.mem_of_find?_eq_some hfind
    have hpage : e.page = page := by simpa using List.find?_some hfind
    obtain ⟨j, hj⟩ := mem_entriesIn.1 hmem
    have hhome := home_lt hsize page
    have hjlt := entryAt_lt hj
    have hdist := distance_cases hhome hjlt
    have hprobe : probe slots page (home bits page) slots.size = some j := by
      subst hpage
      refine probe_of_entryAt hj hhome (by omega) fun x hx hlt => ?_
      obtain ⟨f, hf⟩ := Option.ne_none_iff_exists'.1 (hreach j e (by simp) hj x hx hlt)
      refine ⟨f, hf, fun heq => ?_⟩
      rw [hdistinct.slot_eq hf hj heq] at hlt
      exact lt_irrefl _ hlt
    rw [hprobe, Option.bind_some, hj]
  | none =>
    cases hprobe : probe slots page (home bits page) slots.size with
    | none => rfl
    | some j =>
      obtain ⟨e, he, hpage⟩ := probe_eq_some hprobe
      have := List.find?_eq_none.1 hfind e (mem_entriesIn.2 ⟨j, he⟩)
      simp [hpage] at this

/-! ## Placing an entry -/

/-- An entry is placed into the first empty slot from `i` on. -/
theorem placeFrom_spec (hfresh : ∀ f ∈ entriesIn slots, f.page ≠ e.page) {z : Nat}
    (hz : z < slots.size) (hempty : entryAt slots z = none) :
    ∀ {n i : Nat}, i < slots.size → distance slots.size i z < n →
      ∃ j, placeFrom slots e i n = .ok (slots.setIfInBounds j (some e)) ∧ j < slots.size ∧
        entryAt slots j = none ∧
        ∀ x, x < slots.size → distance slots.size i x < distance slots.size i j →
          entryAt slots x ≠ none := by
  intro n
  induction n with
  | zero =>
    intro i _ hn
    omega
  | succ n ih =>
    intro i hi hn
    rw [placeFrom]
    cases he : entryAt slots i with
    | none =>
      refine ⟨i, rfl, hi, he, fun x hx hlt => ?_⟩
      rw [distance_of_le (le_refl i) hi] at hlt
      omega
    | some f =>
      have hpage : f.page ≠ e.page := hfresh f (mem_entriesIn.2 ⟨i, he⟩)
      simp only [if_neg hpage]
      have hnear := distance_after hi hz (ne_of_entryAt he hempty)
      obtain ⟨j, hplace, hj, hjempty, hpath⟩ := ih (after_lt hi) (by omega)
      refine ⟨j, hplace, hj, hjempty, fun x hx hlt => ?_⟩
      by_cases hix : i = x
      · rw [← hix, he]
        exact Option.some_ne_none f
      · have hnearx := distance_after hi hx hix
        have hnearj := distance_after hi hj (ne_of_entryAt he hjempty)
        exact hpath x hx (by omega)

/-- Placing an entry of a new page keeps every entry within reach. -/
theorem place_spec (hsize : slots.size = 1 <<< bits) (hreach : Reachable bits slots none)
    (hroom : (entriesIn slots).length < slots.size) (hpage : e.page ≠ 0)
    (hfresh : ∀ f ∈ entriesIn slots, f.page ≠ e.page) :
    ∃ slots', place bits slots e = .ok slots' ∧ slots'.size = slots.size ∧
      Reachable bits slots' none ∧ (entriesIn slots').Perm (e :: entriesIn slots) := by
  obtain ⟨z, hz, hempty⟩ := exists_empty hroom
  have hhome := home_lt hsize e.page
  have hdist := distance_cases hhome hz
  obtain ⟨j, hplace, hj, hjempty, hpath⟩ :=
    @placeFrom_spec slots e hfresh z hz hempty slots.size (home bits e.page) hhome (by omega)
  refine ⟨_, by rw [place, if_neg hpage, hplace], Array.size_setIfInBounds, ?_,
    entriesIn_fill hj hjempty e⟩
  intro i f _ hf x hx hlt
  rw [Array.size_setIfInBounds] at hx hlt
  rw [entryAt_set hj] at hf ⊢
  split
  · exact Option.some_ne_none e
  · split at hf
    · next heq =>
      cases hf
      exact hpath x hx (heq ▸ hlt)
    · exact hreach i f (by simp) hf x hx hlt

/-! ## Closing a hole -/

/-- While a hole is closed the hole itself counts as occupied, and no entry between the
hole and the slot that is looked at next has the hole on its way. -/
structure Closing (bits : Nat) (slots : Array (Option BlockEntry)) (hole i : Nat) : Prop where
  reach : Reachable bits slots (some hole)
  occupied : entryAt slots hole ≠ none
  between : ∀ x f, x < slots.size → x ≠ hole →
    distance slots.size hole x < distance slots.size hole i → entryAt slots x = some f →
      distance slots.size (home bits f.page) x < distance slots.size hole x
  passed : ∀ x, x < slots.size → distance slots.size hole x < distance slots.size hole i →
    entryAt slots x ≠ none

/-- At an empty slot the hole can be left empty. -/
theorem Closing.finish (h : Closing bits slots i j) (hsize : slots.size = 1 <<< bits)
    (hhole : i < slots.size) (hj : j < slots.size) (hempty : entryAt slots j = none) :
    Reachable bits (slots.setIfInBounds i none) none := by
  intro k f _ hf x hx hlt
  rw [Array.size_setIfInBounds] at hx hlt
  rw [entryAt_set hhole] at hf
  split at hf
  · cases hf
  · next hik =>
    have hk := entryAt_lt hf
    have hhome := home_lt hsize f.page
    have hreach := h.reach k f (by simpa using Ne.symm hik) hf
    have hxne : x ≠ i := by
      rintro rfl
      -- then the hole is on the way to the entry, and so is the empty slot
      have hway := distance_add hhome hhole hk (le_of_lt hlt)
      rcases Nat.lt_or_ge (distance slots.size x k) (distance slots.size x j) with hbetween | hpast
      · have := h.between k f hk (Ne.symm hik) hbetween hf
        omega
      · have hkj : k ≠ j := by
          rintro rfl
          rw [hempty] at hf
          cases hf
        have hway' := distance_add hhole hj hk hpast
        have hpos : distance slots.size j k ≠ 0 := fun hzero =>
          hkj ((distance_eq_zero hj hk).1 hzero).symm
        refine hreach j hj ?_ hempty
        have hdj := distance_cases hhome hj
        have hdh := distance_cases hhome hhole
        have hdhj := distance_cases hhole hj
        omega
    rw [entryAt_set hhole, if_neg (Ne.symm hxne)]
    exact hreach x hx hlt

/-- An entry that has the hole on its way moves into it and leaves a hole behind. -/
theorem Closing.move (h : Closing bits slots i j) (hsize : slots.size = 1 <<< bits)
    (hhole : i < slots.size) (hij : j ≠ i) (he : entryAt slots j = some e)
    (hway : distance slots.size i j ≤ distance slots.size (home bits e.page) j) :
    Closing bits (slots.setIfInBounds i (some e)) j (after slots j) := by
  have hj := entryAt_lt he
  have hsame : ∀ x, entryAt slots x ≠ none → entryAt (slots.setIfInBounds i (some e)) x ≠ none := by
    intro x hx
    rw [entryAt_set hhole]
    split
    · exact Option.some_ne_none e
    · exact hx
  have hnear : ∀ x, x < slots.size →
      distance slots.size j x < distance slots.size j (after slots j) → x = j := by
    intro x hx hlt
    have hnext := after_lt hj
    have hstep := succ_mod_cases hj
    have hdx := distance_cases hj hx
    have hdn := distance_cases hj hnext
    rw [after] at hdn hlt
    omega
  refine ⟨?_, hsame j (by rw [he]; exact Option.some_ne_none e), ?_, ?_⟩
  · intro k f hk hf x hx hlt
    rw [Array.size_setIfInBounds] at hx hlt
    refine hsame x ?_
    rw [entryAt_set hhole] at hf
    split at hf
    · next hik =>
      cases hf
      have hhome := home_lt hsize e.page
      have hadd := distance_add' hhome hhole hj hway
      exact h.reach j e (by simpa using hij) he x hx (by rw [hik] at hadd; omega)
    · next hik =>
      exact h.reach k f (by simpa using Ne.symm hik) hf x hx hlt
  · intro x f hx hne hlt _
    rw [Array.size_setIfInBounds] at hx hlt
    exact absurd (hnear x hx hlt) hne
  · intro x hx hlt
    rw [Array.size_setIfInBounds] at hx hlt
    rw [hnear x hx hlt]
    exact hsame j (by rw [he]; exact Option.some_ne_none e)

/-- An entry that does not have the hole on its way stays. -/
theorem Closing.skip (h : Closing bits slots i j) (hhole : i < slots.size)
    (he : entryAt slots j = some e)
    (hway : ¬ distance slots.size i j ≤ distance slots.size (home bits e.page) j)
    (hnext : after slots j ≠ i) : Closing bits slots i (after slots j) := by
  have hj := entryAt_lt he
  have hsucc := (distance_succ hhole hj).resolve_right hnext
  have hnear : ∀ x, x < slots.size →
      distance slots.size i x < distance slots.size i (after slots j) →
        distance slots.size i x < distance slots.size i j ∨ x = j := by
    intro x hx hlt
    rw [after, hsucc] at hlt
    by_cases hxj : x = j
    · exact .inr hxj
    · have hdx := distance_cases hhole hx
      have hdj := distance_cases hhole hj
      omega
  refine ⟨h.reach, h.occupied, fun x f hx hne hlt hf => ?_, fun x hx hlt => ?_⟩
  · rcases hnear x hx hlt with hlt | rfl
    · exact h.between x f hx hne hlt hf
    · rw [he] at hf
      cases hf
      exact not_le.1 hway
  · rcases hnear x hx hlt with hlt | rfl
    · exact h.passed x hx hlt
    · rw [he]
      exact Option.some_ne_none e

/-- Closing a hole drops what is in it and keeps every other entry within reach. -/
theorem closeHole_spec :
    ∀ {n : Nat} {slots : Array (Option BlockEntry)} {hole i z : Nat}, slots.size = 1 <<< bits →
      hole < slots.size → i < slots.size → i ≠ hole → z < slots.size → entryAt slots z = none →
      distance slots.size i z < n → Closing bits slots hole i →
        (closeHole bits slots hole i n).size = slots.size ∧
        Reachable bits (closeHole bits slots hole i n) none ∧
        (entriesIn (closeHole bits slots hole i n)).Perm
          (entriesIn (slots.setIfInBounds hole none)) := by
  intro n
  induction n with
  | zero =>
    intro slots hole i z _ _ _ _ _ _ hn
    omega
  | succ n ih =>
    intro slots hole i z hsize hhole hi hne hz hempty hn h
    rw [closeHole]
    cases he : entryAt slots i with
    | none =>
      exact ⟨Array.size_setIfInBounds, h.finish hsize hhole hi he, List.Perm.refl _⟩
    | some e =>
      have hiz := ne_of_entryAt he hempty
      have hnext := after_lt hi
      have hnear := distance_after hi hz hiz
      -- the empty slot is still ahead, so the next slot is not the hole
      have hahead : distance slots.size hole i ≤ distance slots.size hole z :=
        not_lt.1 fun hlt => h.passed z hz hlt hempty
      have hadd := distance_add hhole hi hz hahead
      have hnextne : after slots i ≠ hole := fun heq => by
        rw [heq] at hnear
        omega
      have hnexti : after slots i ≠ i := fun heq => by
        rw [heq] at hnear
        omega
      simp only
      by_cases hway : distance slots.size hole i ≤ distance slots.size (home bits e.page) i
      · rw [if_pos (show (i + slots.size - hole) % slots.size ≤
          (i + slots.size - home bits e.page) % slots.size from hway)]
        have hzhole : hole ≠ z := by
          rintro rfl
          exact h.occupied hempty
        obtain ⟨hs, hr, hp⟩ := @ih (slots.setIfInBounds hole (some e)) i (after slots i) z
          (by rw [Array.size_setIfInBounds, hsize]) (by rw [Array.size_setIfInBounds]; exact hi)
          (by rw [Array.size_setIfInBounds]; exact hnext) hnexti
          (by rw [Array.size_setIfInBounds]; exact hz)
          (by rw [entryAt_set hhole, if_neg hzhole, hempty])
          (by rw [Array.size_setIfInBounds]; omega) (h.move hsize hhole hne he hway)
        refine ⟨hs.trans Array.size_setIfInBounds, hr, hp.trans ?_⟩
        have hclear := @entriesIn_clear (slots.setIfInBounds hole none) i e
          (by rw [entryAt_set hhole, if_neg (Ne.symm hne), he])
        have hfill := @entriesIn_fill ((slots.setIfInBounds hole none).setIfInBounds i none) hole
          (by simpa using hhole)
          (by rw [entryAt_set (by simpa using hi), if_neg hne, entryAt_set hhole, if_pos rfl]) e
        have hcomm : ((slots.setIfInBounds hole none).setIfInBounds i none).setIfInBounds hole (some e) =
            (slots.setIfInBounds hole (some e)).setIfInBounds i none := by
          rw [Array.setIfInBounds_comm none (some e) hne, Array.setIfInBounds_setIfInBounds]
        rw [hcomm] at hfill
        exact hfill.trans hclear.symm
      · rw [if_neg (show ¬ (i + slots.size - hole) % slots.size ≤
          (i + slots.size - home bits e.page) % slots.size from hway)]
        exact ih hsize hhole hnext hnextne hz hempty (by omega) (h.skip hhole he hway hnextne)

/-! ## Tables -/

/-- The invariant of a block table. -/
structure Wf (t : BlockTable) : Prop where
  bits_ge : initialBits ≤ t.bits
  slots : t.slots.size = 1 <<< t.bits
  reach : Reachable t.bits t.slots none
  distinct : Distinct t.entries
  size : t.size = t.entries.length
  bytes : t.bytes = (t.entries.map BlockEntry.size).sum
  /-- at most three quarters of the slots are taken -/
  room : t.size * 4 ≤ t.slots.size * 3

/-- The block at a page. -/
def entryOf? (t : BlockTable) (page : Page) : Option BlockEntry := t.entries.find? (·.page = page)

variable {t : BlockTable}

theorem entryOf?_eq_some_iff (h : Distinct t.entries) :
    t.entryOf? page = some e ↔ e ∈ t.entries ∧ e.page = page := by
  rw [entryOf?]
  constructor
  · intro he
    exact ⟨List.mem_of_find?_eq_some he, by simpa using List.find?_some he⟩
  · rintro ⟨hmem, rfl⟩
    cases hfind : t.entries.find? (·.page = e.page) with
    | none => exact absurd (List.find?_eq_none.1 hfind e hmem) (by simp)
    | some f =>
      have hpage : f.page = e.page := by simpa using List.find?_some hfind
      rw [List.inj_on_of_nodup_map h.1 (List.mem_of_find?_eq_some hfind) hmem hpage]

theorem entryOf?_eq_none_iff : t.entryOf? page = none ↔ ∀ e ∈ t.entries, e.page ≠ page := by
  rw [entryOf?, List.find?_eq_none]
  simp

theorem Wf.slots_pos (h : t.Wf) : 16 ≤ t.slots.size := by
  rw [h.slots, Nat.one_shiftLeft]
  exact Nat.pow_le_pow_right (show 0 < 2 by decide) h.bits_ge

theorem Wf.exists_room (h : t.Wf) : (entriesIn t.slots).length < t.slots.size := by
  have hsize : t.size = (entriesIn t.slots).length := h.size
  have := h.room
  have := h.slots_pos
  omega

theorem entriesIn_replicate (n : Nat) : entriesIn (Array.replicate n none) = [] := by
  simp [entriesIn]

theorem wf_empty : empty.Wf := by
  have hentries : empty.entries = [] := entriesIn_replicate _
  refine ⟨le_refl _, by simp [empty], fun i e _ he => ?_, ?_, ?_, ?_, Nat.zero_le _⟩
  · have := mem_entriesIn.2 ⟨i, he⟩
    rw [show entriesIn empty.slots = [] from hentries] at this
    exact absurd this List.not_mem_nil
  · rw [hentries]
    exact ⟨List.nodup_nil, fun e he => absurd he List.not_mem_nil⟩
  · rw [hentries]
    rfl
  · rw [hentries]
    rfl

/-- Looking up a page finds its block. -/
theorem lookup_eq_ok (h : t.Wf) (hpage : page ≠ 0) : t.lookup page = .ok (t.entryOf? page) := by
  have hprobe := probe_spec h.slots h.reach h.distinct page
  rw [lookup, find, require_eq_ok_iff.2 hpage]
  exact congrArg Except.ok hprobe

theorem sizeOf?_eq_ok (h : t.Wf) (hpage : page ≠ 0) :
    t.sizeOf? page = .ok ((t.entryOf? page).map BlockEntry.size) := by
  rw [sizeOf?, lookup_eq_ok h hpage]
  rfl

theorem flags_eq_ok (h : t.Wf) (hpage : page ≠ 0) :
    t.flags page = .ok ((t.entryOf? page).elim 0 BlockEntry.flags) := by
  rw [flags, lookup_eq_ok h hpage]
  rfl

/-- The slot of a page, if it has one. -/
theorem find_cases (h : t.Wf) (hpage : page ≠ 0) :
    (∃ i e, t.find page = .ok (some i) ∧ entryAt t.slots i = some e ∧ t.entryOf? page = some e) ∨
      t.find page = .ok none ∧ t.entryOf? page = none := by
  have hprobe := probe_spec h.slots h.reach h.distinct page
  have hfind : t.find page = .ok (probe t.slots page (home t.bits page) t.slots.size) := by
    rw [find, require_eq_ok_iff.2 hpage]
    rfl
  rw [hfind]
  cases hp : probe t.slots page (home t.bits page) t.slots.size with
  | none =>
    rw [hp] at hprobe
    exact .inr ⟨rfl, hprobe.symm⟩
  | some i =>
    obtain ⟨e, he, -⟩ := probe_eq_some hp
    rw [hp, Option.bind_some, he] at hprobe
    exact .inl ⟨i, e, rfl, he, hprobe.symm⟩

theorem contains_eq_ok (h : t.Wf) (hpage : page ≠ 0) :
    t.contains page = .ok (t.entryOf? page).isSome := by
  rw [contains]
  rcases find_cases h hpage with ⟨i, e, hfind, -, hentry⟩ | ⟨hfind, hentry⟩
  · rw [hfind, hentry]
    rfl
  · rw [hfind, hentry]
    rfl

/-! ## Changing tables -/

/-- The blocks of a table by their pages do not depend on the order of the entries. -/
theorem entryOf?_perm {t' : BlockTable} (h : Distinct t.entries) (hperm : t.entries.Perm t'.entries) :
    t'.entryOf? = t.entryOf? := by
  funext page
  have h' := h.perm hperm
  cases he : t.entryOf? page with
  | none =>
    rw [entryOf?_eq_none_iff] at he ⊢
    exact fun e hmem => he e (hperm.symm.subset hmem)
  | some e =>
    obtain ⟨hmem, hpage⟩ := (entryOf?_eq_some_iff h).1 he
    exact (entryOf?_eq_some_iff h').2 ⟨hperm.subset hmem, hpage⟩

/-- One more block is seen at its page and nowhere else. -/
theorem entryOf?_cons {t' : BlockTable} (h : Distinct t'.entries) (hperm : t'.entries.Perm (e :: t.entries)) :
    t'.entryOf? = Function.update t.entryOf? e.page (some e) := by
  funext page
  have h' := (h.perm hperm).of_cons.1
  by_cases hpage : page = e.page
  · subst hpage
    rw [Function.update_self, entryOf?_eq_some_iff h]
    exact ⟨hperm.symm.subset List.mem_cons_self, rfl⟩
  · rw [Function.update_of_ne hpage]
    cases he : t.entryOf? page with
    | none =>
      rw [entryOf?_eq_none_iff] at he ⊢
      intro f hf
      rcases List.mem_cons.1 (hperm.subset hf) with rfl | hf
      · exact Ne.symm hpage
      · exact he f hf
    | some f =>
      obtain ⟨hmem, hf⟩ := (entryOf?_eq_some_iff h').1 he
      exact (entryOf?_eq_some_iff h).2 ⟨hperm.symm.subset (List.mem_cons_of_mem e hmem), hf⟩

/-- Changing entries without their pages and sizes keeps a table well formed. -/
theorem Wf.map (h : t.Wf) (k : BlockEntry → BlockEntry) (hpage : ∀ e, (k e).page = e.page)
    (hsize : ∀ e, (k e).size = e.size) :
    Wf { t with slots := t.slots.map (Option.map k) } ∧
      entries { t with slots := t.slots.map (Option.map k) } = t.entries.map k := by
  have hentry : ∀ i, entryAt (t.slots.map (Option.map k)) i = (entryAt t.slots i).map k := by
    intro i
    rw [entryAt, entryAt, Array.getD_eq_getD_getElem?, Array.getD_eq_getD_getElem?, Array.getElem?_map]
    cases t.slots[i]? <;> rfl
  have hentries : entries { t with slots := t.slots.map (Option.map k) } = t.entries.map k := by
    rw [entries, entries, Array.toList_map, List.filterMap_map, List.map_filterMap]
    rfl
  have hpages : (t.entries.map k).map BlockEntry.page = t.entries.map BlockEntry.page := by
    rw [List.map_map]
    exact List.map_congr_left fun e _ => hpage e
  refine ⟨⟨h.bits_ge, by rw [Array.size_map]; exact h.slots, ?_, ?_, ?_, ?_, ?_⟩, hentries⟩
  · intro i e _ he x hx hlt
    simp only at he hx hlt ⊢
    rw [Array.size_map] at hx hlt
    rw [hentry] at he ⊢
    obtain ⟨f, hf, rfl⟩ := Option.map_eq_some_iff.1 he
    rw [hpage] at hlt
    exact fun hnone => h.reach i f (by simp) hf x hx hlt (Option.map_eq_none_iff.1 hnone)
  · rw [hentries]
    refine ⟨by rw [hpages]; exact h.distinct.1, fun e he => ?_⟩
    obtain ⟨f, hf, rfl⟩ := List.mem_map.1 he
    rw [hpage]
    exact h.distinct.2 f hf
  · rw [hentries, List.length_map]
    exact h.size
  · rw [hentries, List.map_map]
    refine h.bytes.trans (congrArg List.sum (List.map_congr_left fun e _ => ?_))
    exact (hsize e).symm
  · rw [Array.size_map]
    exact h.room

/-- Updating the flags of a page is seen at that page and nowhere else. -/
theorem updateFlags_spec (h : t.Wf) (hpage : page ≠ 0) (f : BlockFlags → BlockFlags) :
    ∃ t', t.updateFlags page f = .ok t' ∧ t'.Wf ∧ t'.bytes = t.bytes ∧
      t'.entryOf? = Function.update t.entryOf? page
        ((t.entryOf? page).map fun e => { e with flags := f e.flags }) := by
  rw [updateFlags]
  rcases find_cases h hpage with ⟨i, e, hfind, he, hentry⟩ | ⟨hfind, hentry⟩
  · have hep : e.page = page := ((entryOf?_eq_some_iff h.distinct).1 hentry).2
    let k (g : BlockEntry) : BlockEntry := if g.page = page then { g with flags := f g.flags } else g
    have hkp : ∀ g, (k g).page = g.page := fun g => by simp only [k]; split <;> rfl
    have hks : ∀ g, (k g).size = g.size := fun g => by simp only [k]; split <;> rfl
    have hslots : t.slots.modify i (Option.map fun e => { e with flags := f e.flags }) =
        t.slots.map (Option.map k) := by
      refine Array.ext_getElem? fun j => ?_
      rw [Array.getElem?_modify, Array.getElem?_map]
      cases hj : t.slots[j]? with
      | none => split <;> rfl
      | some v =>
        have hv : entryAt t.slots j = v := by
          rw [entryAt, Array.getD_eq_getD_getElem?, hj, Option.getD_some]
        cases v with
        | none => split <;> rfl
        | some g =>
          by_cases hij : i = j
          · subst hij
            rw [he] at hv
            cases hv
            simp [k, hep]
          · have hgp : g.page ≠ page := fun heq =>
              hij (h.distinct.slot_eq he hv (hep.trans heq.symm))
            simp [k, hij, hgp]
    obtain ⟨hwf, hentries⟩ := h.map k hkp hks
    rw [hfind]
    refine ⟨_, rfl, ?_, rfl, ?_⟩
    · simp only [hslots]
      exact hwf
    · simp only [hslots]
      funext q
      rw [entryOf?, hentries, List.find?_map]
      have hcomp : ((fun e : BlockEntry => decide (e.page = q)) ∘ k) = fun e => decide (e.page = q) := by
        funext g
        simp only [Function.comp, hkp]
      rw [hcomp]
      show (t.entryOf? q).map k = _
      by_cases hq : q = page
      · subst hq
        rw [Function.update_self, hentry]
        simp [k, hep]
      · rw [Function.update_of_ne hq]
        cases hg : t.entryOf? q with
        | none => rfl
        | some g =>
          have hgp := ((entryOf?_eq_some_iff h.distinct).1 hg).2
          simp [k, hgp, hq]
  · rw [hfind]
    refine ⟨t, rfl, h, rfl, ?_⟩
    rw [hentry, Option.map_none, ← hentry, Function.update_eq_self]

/-- Growing keeps the entries and makes room for as many again. -/
theorem grow_spec (h : t.Wf) :
    ∃ t', t.grow = .ok t' ∧ t'.Wf ∧ t'.entries.Perm t.entries ∧ t'.bytes = t.bytes ∧
      t'.size = t.size ∧ (t'.size + 1) * 4 ≤ t'.slots.size * 3 := by
  have hdouble : 1 <<< (t.bits + 1) = t.slots.size * 2 := by
    rw [h.slots, Nat.one_shiftLeft, Nat.one_shiftLeft, Nat.pow_succ]
  -- the entries are placed one after the other into the new slots
  have hfold : ∀ (es done : List BlockEntry) (slots : Array (Option BlockEntry)),
      slots.size = 1 <<< (t.bits + 1) → Reachable (t.bits + 1) slots none →
      (entriesIn slots).Perm done → (es ++ done).Perm t.entries →
      ∃ slots', es.foldlM (place (t.bits + 1)) slots = .ok slots' ∧
        slots'.size = 1 <<< (t.bits + 1) ∧ Reachable (t.bits + 1) slots' none ∧
        (entriesIn slots').Perm t.entries := by
    intro es
    induction es with
    | nil =>
      intro done slots hsize hreach hdone hall
      exact ⟨slots, rfl, hsize, hreach, hdone.trans hall⟩
    | cons e rest ih =>
      intro done slots hsize hreach hdone hall
      have hdistinct := h.distinct.perm hall.symm
      have hmiddle : (e :: (rest ++ done)).Perm (rest ++ (e :: done)) := List.perm_middle.symm
      have hfresh : ∀ f ∈ entriesIn slots, f.page ≠ e.page := fun f hf =>
        hdistinct.of_cons.2 f (List.mem_append_right _ (hdone.subset hf))
      have hroom : (entriesIn slots).length < slots.size := by
        have hlen := hall.length_eq
        rw [List.length_append, List.length_cons] at hlen
        have hsz : t.size = t.entries.length := h.size
        have := h.room
        have := h.slots_pos
        rw [hdone.length_eq, hsize, hdouble]
        omega
      obtain ⟨slots', hplace, hsize', hreach', hperm⟩ :=
        place_spec hsize hreach hroom (hdistinct.2 e List.mem_cons_self) hfresh
      obtain ⟨slots'', hrest, hsize'', hreach'', hperm'⟩ :=
        ih (e :: done) slots' (hsize'.trans hsize) hreach' (hperm.trans (hdone.cons e))
          (hmiddle.symm.trans hall)
      refine ⟨slots'', ?_, hsize'', hreach'', hperm'⟩
      rw [List.foldlM_cons, hplace]
      exact hrest
  obtain ⟨slots, hslots, hsize, hreach, hperm⟩ := hfold t.entries []
    (Array.replicate (1 <<< (t.bits + 1)) none) (by simp)
    (fun i e _ he => by
      have := mem_entriesIn.2 ⟨i, he⟩
      rw [entriesIn_replicate] at this
      exact absurd this List.not_mem_nil)
    (by rw [entriesIn_replicate]) (by rw [List.append_nil])
  have hgrow : t.grow = .ok { t with slots, bits := t.bits + 1 } := by
    rw [grow]
    rw [show t.slots.toList.filterMap id = t.entries from rfl, hslots]
    rfl
  have hroom := h.room
  have hpos := h.slots_pos
  have hslotsSize : slots.size = t.slots.size * 2 := hsize.trans hdouble
  refine ⟨_, hgrow, ⟨?_, hsize, hreach, ?_, ?_, ?_, ?_⟩, hperm, rfl, rfl, ?_⟩
  · have := h.bits_ge
    show initialBits ≤ t.bits + 1
    omega
  · exact h.distinct.perm hperm.symm
  · exact h.size.trans hperm.length_eq.symm
  · exact h.bytes.trans ((hperm.map BlockEntry.size).sum_eq).symm
  · show t.size * 4 ≤ slots.size * 3
    omega
  · show (t.size + 1) * 4 ≤ slots.size * 3
    omega

/-- The table into which a block is placed: a larger one if this one is too full. -/
def roomy (t : BlockTable) : Except Fault BlockTable :=
  if t.slots.size * 3 < (t.size + 1) * 4 then t.grow else .ok t

theorem insert_eq (t : BlockTable) (page : Page) (size : Nat) :
    t.insert page size = require (size % cellBytes = 0) (.misalignedSize size) >>= fun _ =>
      t.roomy >>= fun g => place g.bits g.slots ⟨page, size, 0⟩ >>= fun slots =>
        checkedAdd wordRange g.bytes size >>= fun bytes =>
          .ok { g with slots, size := g.size + 1, bytes } := by
  rw [insert, roomy]
  split
  · rfl
  · rfl

theorem roomy_spec (h : t.Wf) :
    ∃ g, t.roomy = .ok g ∧ g.Wf ∧ g.entries.Perm t.entries ∧ g.bytes = t.bytes ∧
      g.size = t.size ∧ (g.size + 1) * 4 ≤ g.slots.size * 3 := by
  rw [roomy]
  split
  · exact grow_spec h
  · next hroom => exact ⟨t, rfl, h, List.Perm.refl _, rfl, rfl, not_lt.1 hroom⟩

/-- Registering a block at a page without one is seen at that page and nowhere else. -/
theorem insert_spec (h : t.Wf) (hpage : page ≠ 0) (hfresh : t.entryOf? page = none) {size : Nat}
    (hsize : size % cellBytes = 0) (hbytes : t.bytes + size < wordRange) :
    ∃ t', t.insert page size = .ok t' ∧ t'.Wf ∧ t'.bytes = t.bytes + size ∧
      t'.entryOf? = Function.update t.entryOf? page (some ⟨page, size, 0⟩) := by
  obtain ⟨g, hg, hwf, hperm, hgb, hgs, hroom⟩ := roomy_spec h
  have hnew : ∀ f ∈ entriesIn g.slots, f.page ≠ page := fun f hf =>
    entryOf?_eq_none_iff.1 hfresh f (hperm.subset hf)
  obtain ⟨slots, hplace, hslots, hreach, hentries⟩ :=
    @place_spec g.slots g.bits ⟨page, size, 0⟩ hwf.slots hwf.reach hwf.exists_room hpage hnew
  have hdistinct : Distinct (⟨page, size, 0⟩ :: entriesIn g.slots) := hwf.distinct.cons hpage hnew
  have hwf' : Wf { g with slots, size := g.size + 1, bytes := g.bytes + size } := by
    refine ⟨hwf.bits_ge, hslots.trans hwf.slots, hreach, hdistinct.perm hentries.symm, ?_, ?_, ?_⟩
    · show g.size + 1 = (entriesIn slots).length
      rw [hentries.length_eq, List.length_cons]
      exact congrArg (· + 1) hwf.size
    · show g.bytes + size = ((entriesIn slots).map BlockEntry.size).sum
      rw [(hentries.map BlockEntry.size).sum_eq, List.map_cons, List.sum_cons, hwf.bytes]
      exact Nat.add_comm _ _
    · show (g.size + 1) * 4 ≤ slots.size * 3
      rw [hslots]
      exact hroom
  refine ⟨_, ?_, hwf', by simp only [hgb], ?_⟩
  · have hadd : checkedAdd wordRange g.bytes size = .ok (g.bytes + size) :=
      checkedAdd_eq_ok_iff.2 ⟨by omega, rfl⟩
    rw [insert_eq]
    exact bind_eq_ok_iff.2 ⟨(), require_eq_ok_iff.2 hsize, bind_eq_ok_iff.2 ⟨g, hg,
      bind_eq_ok_iff.2 ⟨slots, hplace, bind_eq_ok_iff.2 ⟨_, hadd, rfl⟩⟩⟩⟩
  · rw [entryOf?_perm hwf.distinct hperm]
    exact entryOf?_cons hwf'.distinct hentries

/-- What has to hold for a block to be registered. -/
theorem insert_eq_ok {t' : BlockTable} {size : Nat} (h : t.insert page size = .ok t') :
    size % cellBytes = 0 ∧ t.bytes + size < wordRange := by
  rw [insert_eq] at h
  obtain ⟨_, hsize, h⟩ := bind_eq_ok_iff.1 h
  obtain ⟨g, hg, h⟩ := bind_eq_ok_iff.1 h
  obtain ⟨slots, -, h⟩ := bind_eq_ok_iff.1 h
  obtain ⟨bytes, hbytes, -⟩ := bind_eq_ok_iff.1 h
  refine ⟨require_eq_ok_iff.1 hsize, ?_⟩
  have hgb : g.bytes = t.bytes := by
    rw [roomy] at hg
    split at hg
    · obtain ⟨slots', -, hg⟩ := bind_eq_ok_iff.1 hg
      cases hg
      rfl
    · cases hg
      rfl
  rw [← hgb]
  exact (checkedAdd_eq_ok_iff.1 hbytes).1

/-- An entry is only placed where a probe for its page finds nothing. -/
theorem probe_of_placeFrom {slots' : Array (Option BlockEntry)} {n : Nat}
    (h : placeFrom slots e i n = .ok slots') : probe slots e.page i n = none := by
  induction n generalizing i with
  | zero => rfl
  | succ n ih =>
    rw [placeFrom] at h
    rw [probe]
    cases hother : entryAt slots i with
    | none => rfl
    | some other =>
      rw [hother] at h
      dsimp only at h ⊢
      split at h
      · cases h
      · next hne =>
        rw [if_neg hne]
        exact ih h

/-- A block is only registered at a page without one. -/
theorem insert_fresh (h : t.Wf) (hpage : page ≠ 0) {size : Nat} {t' : BlockTable}
    (hrun : t.insert page size = .ok t') : t.entryOf? page = none := by
  obtain ⟨g, hg, hwf, hperm, -⟩ := roomy_spec h
  rw [insert_eq] at hrun
  obtain ⟨_, -, hrun⟩ := bind_eq_ok_iff.1 hrun
  obtain ⟨g', hg', hrun⟩ := bind_eq_ok_iff.1 hrun
  cases hg.symm.trans hg'
  obtain ⟨slots, hplace, -⟩ := bind_eq_ok_iff.1 hrun
  rw [place, if_neg hpage] at hplace
  have hnone := probe_of_placeFrom hplace
  rw [← entryOf?_perm h.distinct hperm.symm]
  rcases find_cases hwf hpage with ⟨i, e, hfind, -, -⟩ | ⟨-, hentry⟩
  · obtain ⟨_, -, hret⟩ := bind_eq_ok_iff.1 hfind
    rw [hnone] at hret
    cases hret
  · exact hentry

/-- Unregistering a block empties its page. -/
theorem remove_spec (h : t.Wf) (hpage : page ≠ 0) (he : t.entryOf? page = some e) :
    ∃ t', t.remove page = .ok (some e.size, t') ∧ t'.Wf ∧ t'.bytes + e.size = t.bytes ∧
      t.entries.Perm (e :: t'.entries) ∧ t'.entryOf? = Function.update t.entryOf? page none := by
  have hep : e.page = page := ((entryOf?_eq_some_iff h.distinct).1 he).2
  rcases find_cases h hpage with ⟨i, f, hfind, hf, hentry⟩ | ⟨hfind, hentry⟩
  · rw [he] at hentry
    cases hentry
    have hi := entryAt_lt hf
    have hpos := h.slots_pos
    have hnext := after_lt hi
    have hstep := succ_mod_cases hi
    have hnextne : after t.slots i ≠ i := by rw [after]; omega
    obtain ⟨z, hz, hempty⟩ := exists_empty h.exists_room
    have hnear : ∀ x, x < t.slots.size →
        distance t.slots.size i x < distance t.slots.size i (after t.slots i) → x = i := by
      intro x hx hlt
      have hdx := distance_cases hi hx
      have hdn := distance_cases hi hnext
      rw [after] at hdn hlt
      omega
    have hclosing : Closing t.bits t.slots i (after t.slots i) := by
      refine ⟨fun k g hk => h.reach k g (by simp), by rw [hf]; exact Option.some_ne_none e, ?_, ?_⟩
      · intro x g hx hne hlt _
        exact absurd (hnear x hx hlt) hne
      · intro x hx hlt
        rw [hnear x hx hlt, hf]
        exact Option.some_ne_none e
    obtain ⟨hsize, hreach, hperm⟩ := @closeHole_spec t.bits t.slots.size t.slots i (after t.slots i) z
      h.slots hi hnext hnextne hz hempty (distance_lt hnext hz) hclosing
    have hentries : t.entries.Perm
        (e :: entriesIn (closeHole t.bits t.slots i (after t.slots i) t.slots.size)) :=
      (entriesIn_clear hf).trans (hperm.symm.cons e)
    have hdistinct := h.distinct.perm hentries
    have hsum : t.bytes = e.size + ((entriesIn (closeHole t.bits t.slots i (after t.slots i)
        t.slots.size)).map BlockEntry.size).sum := by
      rw [h.bytes, (hentries.map BlockEntry.size).sum_eq, List.map_cons, List.sum_cons]
    have hcount := hentries.length_eq
    rw [List.length_cons] at hcount
    have hlen : t.size = t.entries.length := h.size
    have hsub : checkedSub t.bytes e.size = .ok (t.bytes - e.size) :=
      checkedSub_eq_ok_iff.2 ⟨by omega, rfl⟩
    obtain ⟨t', ht'⟩ : ∃ t', t' = { t with
        slots := closeHole t.bits t.slots i (after t.slots i) t.slots.size
        size := t.size - 1
        bytes := t.bytes - e.size } := ⟨_, rfl⟩
    have hslots : t'.entries =
        entriesIn (closeHole t.bits t.slots i (after t.slots i) t.slots.size) := by rw [ht']; rfl
    rw [← hslots] at hentries hdistinct hsum hcount
    have hwf : t'.Wf := by
      refine ⟨by rw [ht']; exact h.bits_ge, by rw [ht']; exact hsize.trans h.slots,
        by rw [ht']; exact hreach, hdistinct.of_cons.1, ?_, ?_, ?_⟩
      · have heq : t'.size = t.size - 1 := by rw [ht']
        omega
      · have heq : t'.bytes = t.bytes - e.size := by rw [ht']
        omega
      · have := h.room
        rw [ht']
        show (t.size - 1) * 4 ≤ (closeHole t.bits t.slots i (after t.slots i) t.slots.size).size * 3
        rw [hsize]
        omega
    refine ⟨t', ?_, hwf, by rw [ht']; show t.bytes - e.size + e.size = t.bytes; omega, hentries, ?_⟩
    · rw [remove, hfind, ht']
      simp only [bind, Except.bind, hf, hsub]
      rfl
    · rw [entryOf?_cons h.distinct hentries, hep, Function.update_idem]
      refine (Function.update_eq_self_iff.2 (entryOf?_eq_none_iff.2 fun g hg => ?_).symm).symm
      rw [← hep]
      exact hdistinct.of_cons.2 g hg
  · rw [he] at hentry
    cases hentry

/-- A page without a block has nothing to unregister. -/
theorem remove_of_none (h : t.Wf) (hpage : page ≠ 0) (hnone : t.entryOf? page = none) :
    t.remove page = .ok (none, t) := by
  rcases find_cases h hpage with ⟨i, e, -, -, hentry⟩ | ⟨hfind, -⟩
  · rw [hnone] at hentry
    cases hentry
  · rw [remove, hfind]
    rfl

theorem or_flags (flags : BlockFlags) : (0 : BlockFlags) ||| flags = flags := BitVec.zero_or

/-- Registering a block anew moves it to its new page with its flags. -/
theorem replace_spec (h : t.Wf) {old : Page} (hold : old ≠ 0) (hpage : page ≠ 0)
    (he : t.entryOf? old = some e) (hfresh : page = old ∨ t.entryOf? page = none) {size : Nat}
    {t' : BlockTable} (ht : t.replace old page size = .ok t') :
    t'.Wf ∧ size % cellBytes = 0 ∧ t'.bytes + e.size = t.bytes + size ∧
      t'.entryOf? = Function.update (Function.update t.entryOf? old none) page
        (some ⟨page, size, e.flags⟩) := by
  obtain ⟨r, hremove, hr, hrb, -, hre⟩ := remove_spec h hold he
  rw [replace, flags_eq_ok h hold, he] at ht
  obtain ⟨_, hflags, ht⟩ := bind_eq_ok_iff.1 ht
  cases hflags
  obtain ⟨x, hx, ht⟩ := bind_eq_ok_iff.1 ht
  rw [hremove] at hx
  cases hx
  obtain ⟨u, hu, ht⟩ := bind_eq_ok_iff.1 ht
  obtain ⟨haligned, hbytes⟩ := insert_eq_ok hu
  have hnone : r.entryOf? page = none := by
    rw [hre]
    rcases hfresh with rfl | hfresh
    · exact Function.update_self _ _ _
    · rw [Function.update_apply]
      split
      · rfl
      · exact hfresh
  obtain ⟨u', hu', huwf, hub, hue⟩ := insert_spec hr hpage hnone haligned hbytes
  rw [hu] at hu'
  cases hu'
  obtain ⟨v, hv, hvwf, hvb, hve⟩ := updateFlags_spec huwf hpage (· ||| e.flags)
  rw [show u.updateFlags page (· ||| e.flags) = .ok t' from ht] at hv
  cases hv
  refine ⟨hvwf, haligned, by omega, ?_⟩
  rw [hve, hue, hre, Function.update_self, Function.update_idem, Option.map_some, or_flags]

/-- A block only moves to its own page or to one without a block. -/
theorem replace_fresh (h : t.Wf) {old : Page} (hold : old ≠ 0) (hpage : page ≠ 0)
    (he : t.entryOf? old = some e) {size : Nat} {t' : BlockTable} (ht : t.replace old page size = .ok t') :
    page = old ∨ t.entryOf? page = none := by
  obtain ⟨r, hremove, hr, -, -, hre⟩ := remove_spec h hold he
  obtain ⟨_, -, ht⟩ := bind_eq_ok_iff.1 ht
  obtain ⟨x, hx, ht⟩ := bind_eq_ok_iff.1 ht
  cases hremove.symm.trans hx
  obtain ⟨_, hinsert, -⟩ := bind_eq_ok_iff.1 ht
  have hnone := insert_fresh hr hpage hinsert
  by_cases heq : page = old
  · exact .inl heq
  · rw [hre, Function.update_of_ne heq] at hnone
    exact .inr hnone

/-- A new block is marked at once if a sweep is to come. -/
theorem insert_marked (h : t.Wf) (hpage : page ≠ 0) (hnone : t.entryOf? page = none) {size : Nat}
    {t' marked : BlockTable} {sweep : Bool} (hinsert : t.insert page size = .ok t')
    (hmark : (if sweep then t'.setFlags page .mark else pure t') = .ok marked) :
    size % cellBytes = 0 ∧ marked.Wf ∧ marked.bytes = t.bytes + size ∧
      ∃ flags : BlockFlags, flags.isMarked = sweep ∧ flags.isGrey = false ∧
        marked.entryOf? = Function.update t.entryOf? page (some ⟨page, size, flags⟩) := by
  obtain ⟨hmod, hfits⟩ := insert_eq_ok hinsert
  obtain ⟨_, hinsert', hwf, hbytes, hentry⟩ := insert_spec h hpage hnone hmod hfits
  cases hinsert'.symm.trans hinsert
  refine ⟨hmod, ?_⟩
  cases sweep with
  | false =>
    cases hmark
    exact ⟨hwf, hbytes, 0, rfl, rfl, hentry⟩
  | true =>
    obtain ⟨_, hset, hwf', hbytes', hentry'⟩ := updateFlags_spec hwf hpage (· ||| .mark)
    have hmark : t'.updateFlags page (· ||| .mark) = .ok marked := hmark
    cases hset.symm.trans hmark
    refine ⟨hwf', hbytes'.trans hbytes, 0 ||| .mark, by decide, by decide, ?_⟩
    rw [hentry', hentry, Function.update_idem, Function.update_self]
    rfl

/-- A sweep unregisters the blocks without a mark and clears the flags of the others. -/
theorem sweep_spec (h : t.Wf) :
    ∃ dead t', t.sweep = .ok (dead, t') ∧ t'.Wf ∧ dead = t.entries.filter (!·.flags.isMarked) ∧
      t'.bytes + (dead.map BlockEntry.size).sum = t.bytes ∧
      t'.entries.Perm ((t.entries.filter (·.flags.isMarked)).map fun e => { e with flags := 0 }) := by
  obtain ⟨hwf, hentries⟩ := h.map (fun e => { e with flags := 0 }) (fun _ => rfl) fun _ => rfl
  -- every dead block is removed from a table whose other blocks are the rest
  have hfold : ∀ (es rest : List BlockEntry) (u : BlockTable), u.Wf →
      u.entries.Perm ((es.map fun e => { e with flags := 0 }) ++ rest) →
      ∃ u', es.foldlM (fun t e => return (← t.remove e.page).2) u = Except.ok (ε := Fault) u' ∧
        u'.Wf ∧ u'.entries.Perm rest ∧ u'.bytes + (es.map BlockEntry.size).sum = u.bytes := by
    intro es
    induction es with
    | nil =>
      intro rest u hu hperm
      exact ⟨u, rfl, hu, hperm, rfl⟩
    | cons e es ih =>
      intro rest u hu hperm
      rw [List.map_cons, List.cons_append] at hperm
      have hmem := hperm.symm.subset List.mem_cons_self
      have he : u.entryOf? e.page = some { e with flags := 0 } :=
        (entryOf?_eq_some_iff hu.distinct).2 ⟨hmem, rfl⟩
      obtain ⟨v, hremove, hv, hvb, hvperm, -⟩ := remove_spec hu (hu.distinct.2 _ hmem) he
      obtain ⟨u', hrest, hu', hperm', hbytes⟩ := ih rest v hv ((hvperm.symm.trans hperm).cons_inv)
      refine ⟨u', ?_, hu', hperm', ?_⟩
      · rw [List.foldlM_cons, hremove]
        exact hrest
      · have hvb' : v.bytes + e.size = u.bytes := hvb
        rw [List.map_cons, List.sum_cons]
        omega
  obtain ⟨t', hfoldl, ht', hperm, hbytes⟩ := hfold (t.entries.filter (!·.flags.isMarked))
    ((t.entries.filter (·.flags.isMarked)).map fun e => { e with flags := 0 }) _ hwf (by
      rw [hentries, ← List.map_append]
      exact ((List.filter_append_perm (!·.flags.isMarked) t.entries).symm.map _).trans
        (by simp only [Bool.not_not]; exact List.Perm.refl _))
  refine ⟨_, t', ?_, ht', rfl, hbytes, hperm⟩
  rw [sweep]
  exact bind_eq_ok_iff.2 ⟨t', hfoldl, rfl⟩

/-- What a sweep leaves of a block. -/
def swept (e : BlockEntry) : Option BlockEntry :=
  if e.flags.isMarked then some { e with flags := 0 } else none

theorem swept_eq_some_iff {e' : BlockEntry} :
    swept e = some e' ↔ e.flags.isMarked = true ∧ e' = { e with flags := 0 } := by
  rw [swept]
  split
  · next hm => exact ⟨fun h => ⟨hm, (Option.some.inj h).symm⟩, fun h => congrArg some h.2.symm⟩
  · next hm => exact iff_of_false nofun fun h => hm h.1

theorem swept_eq_none_iff : swept e = none ↔ e.flags.isMarked = false := by
  rw [swept, ← Bool.not_eq_true]
  split
  · next hm => exact iff_of_false nofun fun h => h hm
  · next hm => exact iff_of_true rfl hm

/-- The blocks of a table by their pages, after its sweep. -/
theorem entryOf?_swept {t' : BlockTable} (h : t.Wf) (h' : t'.Wf)
    (hperm : t'.entries.Perm ((t.entries.filter (·.flags.isMarked)).map fun e => { e with flags := 0 }))
    (page : Page) : t'.entryOf? page = (t.entryOf? page).bind swept := by
  refine Option.ext fun x => ?_
  rw [entryOf?_eq_some_iff h'.distinct, hperm.mem_iff, List.mem_map, Option.bind_eq_some_iff]
  constructor
  · rintro ⟨⟨e, he, rfl⟩, hpage⟩
    obtain ⟨hmem, hm⟩ := List.mem_filter.1 he
    exact ⟨e, (entryOf?_eq_some_iff h.distinct).2 ⟨hmem, hpage⟩, swept_eq_some_iff.2 ⟨hm, rfl⟩⟩
  · rintro ⟨e, he, hswept⟩
    obtain ⟨hmem, hpage⟩ := (entryOf?_eq_some_iff h.distinct).1 he
    obtain ⟨hm, rfl⟩ := swept_eq_some_iff.1 hswept
    exact ⟨⟨e, List.mem_filter.2 ⟨hmem, hm⟩, rfl⟩, hpage⟩

/-- The dead blocks of a table are those of which its sweep leaves nothing. -/
theorem exists_dead_iff (h : t.Wf) (page : Page) :
    (∃ e ∈ t.entries.filter (!·.flags.isMarked), e.page = page) ↔
      ∃ e, t.entryOf? page = some e ∧ swept e = none := by
  simp only [List.mem_filter, Bool.not_eq_true', entryOf?_eq_some_iff h.distinct, swept_eq_none_iff,
    and_right_comm]

end BlockTable

end Tricolor
