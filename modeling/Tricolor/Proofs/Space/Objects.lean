import Mathlib.Algebra.BigOperators.Group.Finset.Basic
import Mathlib.Algebra.BigOperators.Ring.List
import Mathlib.Algebra.Ring.Nat
import Mathlib.Data.List.Nodup
import Tricolor.Proofs.Space.Updates

/-!
# The objects of a space

All allocated objects, each once. The bytes in use are the sum of their sizes, so a space
holds no more objects than its bytes have cells.
-/

namespace Tricolor

namespace Space

variable {s : Space} {r : Ref} {e : Entity}

/-- The allocated objects. -/
def objects (s : Space) : List Ref :=
  (s.arenas.toList.flatMap fun a => a.heads.map a.object) ++
    s.blocks.entries.map fun b => .huge b.page

/-- The bytes of the object at a place. -/
def sizeAt (s : Space) (r : Ref) : Nat := (s.slot r).entity?.elim 0 Entity.size

theorem mem_objects (h : s.Wf) : r ∈ s.objects ↔ s.Holds r := by
  rw [objects, List.mem_append, List.mem_flatMap, List.mem_map]
  constructor
  · rintro (⟨a, ha, hr⟩ | ⟨b, hb, rfl⟩)
    · obtain ⟨c, hc, rfl⟩ := List.mem_map.1 hr
      rw [Arena.mem_heads] at hc
      obtain ⟨i, hi, hget⟩ := List.mem_iff_getElem.1 ha
      have ha' : s.arenas[i]? = some a := by
        rw [← Array.getElem?_toList, List.getElem?_eq_getElem hi, hget]
      have hzero : c ≠ 0 := by
        have := (Arena.isAllocated_iff.1 hc).1
        rw [firstCell_eq] at this
        omega
      have hat : s.AtIndex i (a.object c) :=
        (atIndex_iff h ha').2 ⟨by rw [Ref.isHuge, beq_eq_false_iff_ne]; exact hzero, rfl⟩
      exact ⟨_, (congrArg Slot.entity? (slot_atIndex h ha' hat)).trans (Arena.entity?_of_allocated hc)⟩
    · have hb' := (BlockTable.entryOf?_eq_some_iff h.blocks.distinct).2 ⟨hb, rfl⟩
      exact ⟨_, congrArg (Option.map s.entityOf) hb'⟩
  · rintro ⟨e, he⟩
    cases hr : r.isHuge with
    | true =>
      obtain ⟨b, hb, -⟩ := exists_entry hr he
      obtain ⟨hmem, hp⟩ := (BlockTable.entryOf?_eq_some_iff h.blocks.distinct).1 hb
      exact .inr ⟨b, hmem, by rw [hp, ← eq_huge hr]⟩
    | false =>
      obtain ⟨a, ha, hslot⟩ := exists_arena hr he
      obtain ⟨i, hi, hp⟩ := (arena?_eq_some h).1 ha
      rw [hslot] at he
      refine .inl ⟨a, Array.mem_toList_iff.2 (Array.mem_of_getElem? hi), List.mem_map.2 ⟨r.cell, ?_, ?_⟩⟩
      · exact Arena.mem_heads.2 (Arena.isAllocated_of_entity? he)
      · rw [Arena.object, hp]

theorem nodup_objects (h : s.Wf) : s.objects.Nodup := by
  rw [objects, List.nodup_append]
  refine ⟨List.nodup_flatMap.2 ⟨fun a _ => ?_, ?_⟩, ?_, ?_⟩
  · exact (Arena.nodup_heads a).map fun c d hcd => by injection hcd
  · rw [List.pairwise_iff_getElem]
    intro i j hi hj hlt r hri hrj
    obtain ⟨c, -, rfl⟩ := List.mem_map.1 hri
    obtain ⟨d, -, heq⟩ := List.mem_map.1 hrj
    have hp : s.arenas.toList[j].page = s.arenas.toList[i].page := congrArg Ref.page heq
    have hi' := h.indices.2 ⟨s.arenas.toList[i], by rw [← Array.getElem?_toList, List.getElem?_eq_getElem hi], rfl⟩
    have hj' := h.indices.2 ⟨s.arenas.toList[j], by rw [← Array.getElem?_toList, List.getElem?_eq_getElem hj], hp⟩
    rw [hi'] at hj'
    exact absurd (Option.some.inj hj') (Nat.ne_of_lt hlt)
  · have hmap : s.blocks.entries.map (fun b => Ref.huge b.page) =
        (s.blocks.entries.map BlockEntry.page).map Ref.huge := by rw [List.map_map]; rfl
    rw [hmap]
    exact h.blocks.distinct.1.map fun p q hpq => by injection hpq
  · intro r hr t ht heq
    obtain ⟨a, -, hr⟩ := List.mem_flatMap.1 hr
    obtain ⟨c, hc, rfl⟩ := List.mem_map.1 hr
    obtain ⟨b, -, rfl⟩ := List.mem_map.1 ht
    have hge := (Arena.isAllocated_iff.1 (Arena.mem_heads.1 hc)).1
    have hzero : c = 0 := congrArg Ref.cell heq
    rw [hzero, firstCell_eq] at hge
    exact absurd hge (by decide)

/-- The bytes in use are those of the objects. -/
theorem sum_objects (h : s.Wf) : (s.objects.map s.sizeAt).sum = s.total := by
  have hsmall : ∀ l : List Arena, (∀ a ∈ l, a ∈ s.arenas.toList) →
      ((l.flatMap fun a => a.heads.map a.object).map s.sizeAt).sum = (l.map Arena.usedBytes).sum := by
    intro l
    induction l with
    | nil => exact fun _ => rfl
    | cons a rest ih =>
      intro hall
      obtain ⟨i, hi, hget⟩ := List.mem_iff_getElem.1 (hall a List.mem_cons_self)
      have ha : s.arenas[i]? = some a := by
        rw [← Array.getElem?_toList, List.getElem?_eq_getElem hi, hget]
      have hsizes : (a.heads.map a.object).map s.sizeAt = a.heads.map fun c => a.extent c * cellBytes := by
        rw [List.map_map]
        refine List.map_congr_left fun c hc => ?_
        have hc := Arena.mem_heads.1 hc
        have hzero : c ≠ 0 := by
          have := (Arena.isAllocated_iff.1 hc).1
          rw [firstCell_eq] at this
          omega
        have hat : s.AtIndex i (a.object c) :=
          (atIndex_iff h ha).2 ⟨by rw [Ref.isHuge, beq_eq_false_iff_ne]; exact hzero, rfl⟩
        rw [Function.comp_apply, sizeAt, slot_atIndex h ha hat]
        exact congrArg (Option.elim · 0 Entity.size) (Arena.entity?_of_allocated hc)
      rw [List.flatMap_cons, List.map_append, List.sum_append, hsizes, List.sum_map_mul_right,
        (h.sound ha).tiled.sum_extent, List.map_cons, List.sum_cons,
        ih fun b hb => hall b (List.mem_cons_of_mem _ hb)]
      rfl
  have hhuge : ((s.blocks.entries.map fun b => Ref.huge b.page).map s.sizeAt).sum = s.blocks.bytes := by
    rw [h.blocks.bytes, List.map_map]
    refine congrArg List.sum (List.map_congr_left fun b hb => ?_)
    have hb' := (BlockTable.entryOf?_eq_some_iff h.blocks.distinct).2 ⟨hb, rfl⟩
    rw [Function.comp_apply, sizeAt, slot_huge, hugeSlot, hb']
    rfl
  rw [objects, List.map_append, List.sum_append, hsmall _ fun _ => id, hhuge, ← h.total]

theorem sizeAt_of_some (he : (s.slot r).entity? = some e) : s.sizeAt r = e.size := by
  rw [sizeAt, he]
  rfl

theorem sizeAt_of_none (hnone : (s.slot r).entity? = none) : s.sizeAt r = 0 := by
  rw [sizeAt, hnone]
  rfl

/-- The bytes in use are those at any places that have all objects among them. -/
theorem total_eq_sum (h : s.Wf) {places : Finset Ref} (hall : ∀ r ∈ s.objects, r ∈ places) :
    s.total = ∑ r ∈ places, s.sizeAt r := by
  rw [← sum_objects h, ← List.sum_toFinset _ (nodup_objects h)]
  refine Finset.sum_subset (fun r hr => hall r (List.mem_toFinset.1 hr)) fun r _ hr => ?_
  exact sizeAt_of_none (not_holds.1 fun hholds => hr (List.mem_toFinset.2 ((mem_objects h).2 hholds)))

/-- The bytes in use change by what changes at some places, if nothing changes elsewhere. -/
theorem total_of_others {s' : Space} (h : s.Wf) (h' : s'.Wf) {places : Finset Ref}
    (hothers : ∀ r, r ∉ places → s'.sizeAt r = s.sizeAt r) :
    s'.total + ∑ r ∈ places, s.sizeAt r = s.total + ∑ r ∈ places, s'.sizeAt r := by
  let all := s.objects.toFinset ∪ s'.objects.toFinset ∪ places
  have hsub : places ⊆ all := Finset.subset_union_right
  have hobjects : ∀ r ∈ s.objects, r ∈ all := fun r hr =>
    Finset.mem_union_left _ (Finset.mem_union_left _ (List.mem_toFinset.2 hr))
  have hobjects' : ∀ r ∈ s'.objects, r ∈ all := fun r hr =>
    Finset.mem_union_left _ (Finset.mem_union_right _ (List.mem_toFinset.2 hr))
  have hrest : ∑ r ∈ all \ places, s'.sizeAt r = ∑ r ∈ all \ places, s.sizeAt r :=
    Finset.sum_congr rfl fun r hr => hothers r (Finset.mem_sdiff.1 hr).2
  rw [total_eq_sum h hobjects, total_eq_sum h' hobjects', ← Finset.sum_sdiff hsub, ← Finset.sum_sdiff hsub, hrest]
  omega

/-- An object occupies whole cells, at least one. -/
theorem cellBytes_le_size (h : s.Wf) (he : (s.slot r).entity? = some e) :
    cellBytes ≤ e.size ∧ e.size % cellBytes = 0 := by
  cases hr : r.isHuge with
  | true =>
    obtain ⟨b, hb, rfl⟩ := exists_entry hr he
    exact h.sizes hb
  | false =>
    obtain ⟨a, ha, hslot⟩ := exists_arena hr he
    obtain ⟨i, hi, -⟩ := (arena?_eq_some h).1 ha
    rw [hslot] at he
    obtain ⟨chains, htiled⟩ := (h.sound hi).tiled
    have hc := Arena.isAllocated_of_entity? he
    obtain ⟨-, hlt, -⟩ := Arena.isAllocated_iff.1 hc
    have hle := (Arena.stretch_extent htiled.top_le hlt).le
    rw [(Arena.eq_entityOf he).1]
    exact ⟨Nat.le_mul_of_pos_left _ (by omega), Nat.mul_mod_left _ _⟩

/-- There are no more objects than cells in use. -/
theorem length_objects_le (h : s.Wf) : s.objects.length ≤ s.total / cellBytes := by
  rw [Nat.le_div_iff_mul_le (by decide), ← sum_objects h]
  have hcard := List.card_nsmul_le_sum (s.objects.map s.sizeAt) cellBytes fun n hn => by
    obtain ⟨r, hr, rfl⟩ := List.mem_map.1 hn
    obtain ⟨e, he⟩ := (mem_objects h).1 hr
    rw [sizeAt, he]
    exact (cellBytes_le_size h he).1
  rw [List.length_map] at hcard
  exact hcard

end Space

end Tricolor
