import Mathlib.Algebra.Order.BigOperators.Group.Finset
import Mathlib.Algebra.Ring.Nat
import Mathlib.Data.Finset.Card
import Mathlib.Order.Interval.Finset.Nat
import Mathlib.Tactic.Common

/-!
# Regions

A region is a stretch of numbers, of cells or of addresses: its start and its length. Regions that are apart
have no more in them, taken together, than there is room for.
-/

namespace Tricolor

/-- The two regions have nothing in common. -/
def Apart (r s : Nat × Nat) : Prop := r.1 + r.2 ≤ s.1 ∨ s.1 + s.2 ≤ r.1

instance (r s : Nat × Nat) : Decidable (Apart r s) := inferInstanceAs (Decidable (_ ∨ _))

/-- What regions that are apart have in them, counted. -/
theorem exists_cover {regions : List (Nat × Nat)} (hapart : regions.Pairwise Apart) :
    ∃ cover : Finset Nat, cover.card = (regions.map Prod.snd).sum ∧
      ∀ x ∈ cover, ∃ r ∈ regions, r.1 ≤ x ∧ x < r.1 + r.2 := by
  induction regions with
  | nil => exact ⟨∅, rfl, fun x hx => absurd hx (Finset.notMem_empty x)⟩
  | cons r rest ih =>
    obtain ⟨hr, hrest⟩ := List.pairwise_cons.1 hapart
    obtain ⟨cover, hcard, hcover⟩ := ih hrest
    have hdisjoint : Disjoint (Finset.Ico r.1 (r.1 + r.2)) cover := by
      refine Finset.disjoint_left.2 fun x hx hx' => ?_
      obtain ⟨s, hs, hge, hlt⟩ := hcover x hx'
      rw [Finset.mem_Ico] at hx
      rcases hr s hs with h | h <;> omega
    refine ⟨Finset.Ico r.1 (r.1 + r.2) ∪ cover, ?_, fun x hx => ?_⟩
    · rw [Finset.card_union_of_disjoint hdisjoint, Nat.card_Ico, hcard, List.map_cons, List.sum_cons]
      omega
    · rcases Finset.mem_union.1 hx with hx | hx
      · exact ⟨r, List.mem_cons_self, Finset.mem_Ico.1 hx⟩
      · obtain ⟨s, hs, hin⟩ := hcover x hx
        exact ⟨s, List.mem_cons_of_mem r hs, hin⟩

/-- Regions below `n` that are apart have at most `n` in them. -/
theorem sum_le_of_apart {regions : List (Nat × Nat)} {n : Nat} (hbelow : ∀ r ∈ regions, r.1 + r.2 ≤ n)
    (hapart : regions.Pairwise Apart) : (regions.map Prod.snd).sum ≤ n := by
  obtain ⟨cover, hcard, hcover⟩ := exists_cover hapart
  rw [← hcard, ← Finset.card_range n]
  refine Finset.card_le_card fun x hx => ?_
  obtain ⟨r, hr, -, hlt⟩ := hcover x hx
  exact Finset.mem_range.2 (lt_of_lt_of_le hlt (hbelow r hr))

end Tricolor
