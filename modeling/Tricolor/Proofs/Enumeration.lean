import Mathlib.Data.List.Nodup
import Mathlib.Data.List.Perm.Basic
import Mathlib.Logic.Function.Basic
import Mathlib.Tactic.Common

/-!
# Lists that hold a finite map

A table in memory is an array or a list of pairs; what it stands for is a map from keys to
values. `Enumerates` ties the two together.
-/

namespace Tricolor

variable {κ ν μ : Type}

/-- The list holds the pairs of the map and no others, each key once. -/
structure Enumerates (pairs : List (κ × ν)) (map : κ → Option ν) : Prop where
  nodup : (pairs.map Prod.fst).Nodup
  mem_iff : ∀ key value, (key, value) ∈ pairs ↔ map key = some value

namespace Enumerates

variable {pairs pairs' : List (κ × ν)} {map : κ → Option ν} {key : κ} {value : ν}

theorem nil : Enumerates ([] : List (κ × ν)) fun _ => none :=
  ⟨List.nodup_nil, fun _ _ => iff_of_false List.not_mem_nil (Option.some_ne_none _).symm⟩

theorem perm (h : Enumerates pairs map) (hperm : pairs.Perm pairs') : Enumerates pairs' map :=
  ⟨(hperm.map Prod.fst).nodup_iff.1 h.nodup, fun key value => hperm.mem_iff.symm.trans (h.mem_iff key value)⟩

theorem mem_keys (h : Enumerates pairs map) : key ∈ pairs.map Prod.fst ↔ map key ≠ none := by
  rw [Option.ne_none_iff_exists']
  constructor
  · intro hkey
    obtain ⟨⟨_, value⟩, hmem, rfl⟩ := List.mem_map.1 hkey
    exact ⟨value, (h.mem_iff _ _).1 hmem⟩
  · rintro ⟨value, hvalue⟩
    exact List.mem_map_of_mem ((h.mem_iff key value).2 hvalue)

/-- Two lists that hold one map differ in their order only. -/
theorem unique (h : Enumerates pairs map) (h' : Enumerates pairs' map) : pairs.Perm pairs' :=
  (List.perm_ext_iff_of_nodup h.nodup.of_map h'.nodup.of_map).2 fun pair =>
    (h.mem_iff pair.1 pair.2).trans (h'.mem_iff pair.1 pair.2).symm

/-- The keys with one value. -/
theorem keys_with (h : Enumerates pairs map) {f : κ × ν → Option κ}
    (hf : ∀ pair key, f pair = some key ↔ pair = (key, value)) :
    (pairs.filterMap f).Nodup ∧ ∀ key, key ∈ pairs.filterMap f ↔ map key = some value := by
  refine ⟨h.nodup.of_map.filterMap fun pair pair' key hpair hpair' => ?_, fun key => ?_⟩
  · exact ((hf _ _).1 hpair).trans ((hf _ _).1 hpair').symm
  · rw [List.mem_filterMap, ← h.mem_iff]
    constructor
    · rintro ⟨pair, hmem, hpair⟩
      exact (hf _ _).1 hpair ▸ hmem
    · exact fun hmem => ⟨_, hmem, (hf _ _).2 rfl⟩

/-- A function that changes or drops pairs and keeps their keys does the same to the map. -/
theorem filterMap (h : Enumerates pairs map) {f : κ × ν → Option (κ × μ)} {g : κ → ν → Option μ}
    (hf : ∀ key value, f (key, value) = (g key value).map (Prod.mk key)) :
    Enumerates (pairs.filterMap f) fun key => (map key).bind (g key) := by
  have hmem : ∀ key value, (key, value) ∈ pairs.filterMap f ↔ (map key).bind (g key) = some value := by
    intro key value
    rw [List.mem_filterMap, Option.bind_eq_some_iff]
    constructor
    · rintro ⟨⟨key', before⟩, hbefore, heq⟩
      rw [hf, Option.map_eq_some_iff] at heq
      obtain ⟨_, hg, heq⟩ := heq
      cases heq
      exact ⟨before, (h.mem_iff _ _).1 hbefore, hg⟩
    · rintro ⟨before, hbefore, hg⟩
      exact ⟨(key, before), (h.mem_iff _ _).2 hbefore, by rw [hf, hg, Option.map_some]⟩
  refine ⟨?_, hmem⟩
  have hkeys : ((pairs.filterMap f).map Prod.fst).Sublist (pairs.map Prod.fst) := by
    clear h hmem
    induction pairs with
    | nil => exact List.Sublist.slnil
    | cons pair rest ih =>
      obtain ⟨key, before⟩ := pair
      cases hg : g key before with
      | none =>
        rw [List.filterMap_cons_none (by rw [hf, hg, Option.map_none])]
        exact ih.cons key
      | some value =>
        rw [List.filterMap_cons_some (by rw [hf, hg, Option.map_some])]
        exact ih.cons_cons key
  exact h.nodup.sublist hkeys

variable [DecidableEq κ]

theorem cons (h : Enumerates pairs map) (hfresh : map key = none) (value : ν) :
    Enumerates ((key, value) :: pairs) (Function.update map key (some value)) := by
  refine ⟨List.nodup_cons.2 ⟨fun hkey => h.mem_keys.1 hkey hfresh, h.nodup⟩, fun other value' => ?_⟩
  rw [List.mem_cons, h.mem_iff]
  by_cases heq : other = key
  · subst heq
    rw [Function.update_self, hfresh]
    simp [eq_comm]
  · rw [Function.update_of_ne heq]
    simp [heq]

theorem tail (h : Enumerates ((key, value) :: pairs) map) :
    map key = some value ∧ Enumerates pairs (Function.update map key none) := by
  obtain ⟨hfresh, hnodup⟩ := List.nodup_cons.1 h.nodup
  refine ⟨(h.mem_iff key value).1 List.mem_cons_self, hnodup, fun other value' => ?_⟩
  by_cases heq : other = key
  · subst heq
    rw [Function.update_self]
    exact iff_of_false (fun hmem => hfresh (List.mem_map.2 ⟨_, hmem, rfl⟩)) (Option.some_ne_none _).symm
  · rw [Function.update_of_ne heq, ← h.mem_iff, List.mem_cons]
    simp [heq]

end Enumerates

end Tricolor
