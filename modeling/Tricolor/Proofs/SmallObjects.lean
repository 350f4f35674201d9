import Tricolor.Proofs.AddressSpace
import Tricolor.Proofs.Ledger

/-!
# Small objects

At every point of a run there is a place for a small object, unless all arenas are full and the memory supply
refuses another one. The object gets cells that no other object has, in an arena that becomes the current one,
and is marked exactly if the sweep of that arena is still to come. All other objects stay as they are, and so
do the free runs but for the cells that are taken from one of them.
-/

namespace Tricolor

namespace Space

variable {s s' : Space} {supply : Supply} {r : Ref} {cells : Nat} {result : Except AllocError Ref}

/-- There is one more object, of `cells` cells at `r`. -/
structure Gains (s : Space) (r : Ref) (cells : Nat) (s' : Space) : Prop where
  vacant : s.isAllocated r = false
  allocated : s'.isAllocated r = true
  size : s'.objectSize r = .ok (cells * cellBytes)
  total : s'.total = s.total + cells * cellBytes
  /-- every other object is as it was -/
  others : ∀ t, s.isAllocated t = true → s'.isAllocated t = true ∧ s'.objectSize t = s.objectSize t ∧
    s'.isMarked t = s.isMarked t
  only : ∀ t, s'.isAllocated t = true → t = r ∨ s.isAllocated t = true
  /-- and has none of the new object's bytes -/
  apart : ∀ t n, s.isAllocated t = true → s.objectSize t = .ok n →
    r.address + cells * cellBytes ≤ t.address ∨ t.address + n ≤ r.address

theorem Settles.total_eq (h : s.Settles supply cells (.ok r) s') : s'.total = s.total + cells * cellBytes := by
  cases h <;> rfl

/-- An object that is placed is one more. -/
theorem PlacedAt.gains (h : s.Wf) (hplaced : s.PlacedAt r (cells * cellBytes) s')
    (htotal : s'.total = s.total + cells * cellBytes) : s.Gains r cells s' := by
  obtain ⟨hnone, black, header, content, hrev⟩ := hplaced
  have hr : (s'.slot r).entity? = some (placed (cells * cellBytes) black header content) := by
    rw [hrev.slot_self]
  have hne : ∀ {t e}, (s.slot t).entity? = some e → t ≠ r := by
    rintro t e he rfl
    rw [hnone] at he
    cases he
  have hother : ∀ {t e}, (s.slot t).entity? = some e → (s'.slot t).entity? = some e := fun he => by
    rw [hrev.slot_ne (hne he)]
    exact he
  refine
    { vacant := by rw [← Bool.not_eq_true, holds_iff h, not_holds]; exact hnone
      allocated := (holds_iff hrev.wf).2 ⟨_, hr⟩
      size := objectSize_eq hrev.wf hr
      total := htotal
      others := fun t ht => ?_
      only := fun t ht => ?_
      apart := fun t n ht hn => ?_ }
  · obtain ⟨e, he⟩ := (holds_iff h).1 ht
    rw [objectSize_eq hrev.wf (hother he), objectSize_eq h he, isMarked_eq hrev.wf (hother he), isMarked_eq h he]
    exact ⟨(holds_iff hrev.wf).2 ⟨e, hother he⟩, rfl, rfl⟩
  · refine or_iff_not_imp_left.2 fun htr => (holds_iff h).2 ?_
    rw [Holds, ← hrev.slot_ne htr]
    exact (holds_iff hrev.wf).1 ht
  · obtain ⟨e, he⟩ := (holds_iff h).1 ht
    cases (objectSize_eq h he).symm.trans hn
    exact memory_apart hrev.wf hr (hother he) (hne he).symm

/-- Wherever an object is hosted, its cells can be counted. -/
theorem Settles.total_lt (h : s.Wf) (hreach : s.InReach) (hfresh : supply.Fresh s 0)
    (hsettles : s.Settles supply cells (.ok r) s') : s.total + cells * cellBytes < wordRange := by
  have hroom : ∀ {a a' : Arena} {head : Nat}, a.Hosts cells head a' → a.used + cells ≤ usableCells := fun hosts =>
    hosts.used ▸ hosts.tiled.used_le
  cases hsettles with
  | arena ha hosts => exact total_add_lt h hreach ha (hroom hosts)
  | @enlarged page head a' _ hp hosts =>
    have hlast : (s.arenas.push (.new page s.arenas.size))[s.arenas.size]? = some (.new page s.arenas.size) := by
      rw [Array.getElem?_push, if_pos rfl]
    have hwf : ({ s.enlarged page with current := some s.arenas.size } : Space).Wf := (addArena_alike h hfresh hp).wf
    have hlt := total_add_lt hwf hreach hlast (hroom hosts)
    exact hlt

/-- A request settles as it should, and the cells can be counted. -/
theorem allocCells_settles (h : s.Wf) (hreach : s.InReach) (hfresh : supply.Fresh s 0) (hpos : 0 < cells)
    (hle : cells ≤ usableCells) : ∃ result s', s.allocCells supply cells = .ok (result, s') ∧
      s.Settles supply cells result s' := by
  obtain ⟨result, s', hsettles, hanswer⟩ : s.Settled supply cells (s.allocCells supply cells) :=
    allocCells_settled (fun ha => (h.sound ha).tiled) h.current hpos hle
  refine ⟨result, s', ?_, hsettles⟩
  rcases hanswer with heq | ⟨r, rfl, heq⟩
  · exact heq
  · rw [heq, checkedAdd_eq_ok_iff.2 ⟨hsettles.total_lt h hreach hfresh, rfl⟩]
    rfl

end Space

namespace Machine

variable {σ : Type} {mu : Mutator σ} {m : Machine σ} {config : Config} {hashOf : List UInt8 → Hash}
  {supply : Supply} {cells : Nat}

/-- Whatever was allocated, freed and swept before, a small object finds its place, or all arenas are full and
no other one is to be had. -/
theorem small_objects_find_a_place (hm : Reachable mu Heap.anyResizing config hashOf m)
    (hfresh : supply.Fresh m.heap.space 0) (hpos : 0 < cells) (hle : cells ≤ usableCells) :
    ∃ result s', m.heap.space.allocCells supply cells = .ok (result, s') ∧
      m.heap.space.Settles supply cells result s' ∧ ∀ r, result = .ok r → m.heap.space.Gains r cells s' := by
  have hwf := hm.sound.wf
  obtain ⟨result, s', hrun, hsettles⟩ := Space.allocCells_settles hwf hm.inReach hfresh hpos hle
  refine ⟨result, s', hrun, hsettles, fun r hr => ?_⟩
  subst hr
  exact ((Space.allocCells_eq_ok hwf hfresh hpos hrun).2 r rfl).gains hwf hsettles.total_eq

/-- With no more memory to be had, three cells are found behind an object of two in the first arena. -/
theorem three_cells_behind_two : ∃ (m : Machine Ledger) (s : Space),
    (∀ old, Supply.Fresh (fun _ => none) m.heap.space old) ∧ m.heap.space.total = 32 ∧
      m.heap.space.allocCells (fun _ => none) 3 = .ok (.ok ⟨5, 1026⟩, s) ∧
      m.heap.space.Gains ⟨5, 1026⟩ 3 s ∧ s.objectSize ⟨5, 1026⟩ = .ok 48 ∧ s.total = 80 := by
  let config : Config := {}
  let start := answerOf (Heap.build config fun _ => 0) (by decide +kernel)
  have hstart : Heap.withConfig config (fun _ => 0) = .ok (.ok start) := rfl
  obtain ⟨one, s, hone, htotal, hrun⟩ :
      ∃ (one : Heap) (s : Space), start.alloc (.page 5) .udata 24 = .ok (.ok ⟨5, 1024⟩, one) ∧
        one.space.total = 32 ∧ one.space.allocCells (fun _ => none) 3 = .ok (.ok ⟨5, 1026⟩, s) :=
    ⟨_, _, eq_answerOf_of_fst (by decide +kernel) (by decide +kernel), by decide +kernel,
      eq_answerOf_of_fst (by decide +kernel) (by decide +kernel)⟩
  have hop : Heap.Operation Heap.anyResizing start one :=
    .alloc (Supply.page_fresh (by decide) rfl (by decide +kernel) 0) hone
  have hreach : Reachable Ledger.mutator Heap.anyResizing config (fun _ => 0) ⟨{}, one⟩ :=
    (Reachable.initial {} hstart).step (.operate hop)
  have hfresh : ∀ old, Supply.Fresh (fun _ => none) one.space old := fun _ _ _ hp => by cases hp
  obtain ⟨result, s', hsettled, -, hgains⟩ :=
    small_objects_find_a_place hreach (hfresh 0) (show 0 < 3 by decide) (show 3 ≤ usableCells by decide)
  cases hrun.symm.trans hsettled
  have hgain := hgains _ rfl
  refine ⟨⟨{}, one⟩, s, hfresh, htotal, hrun, hgain, hgain.size, ?_⟩
  rw [hgain.total]
  exact congrArg (· + 48) htotal

end Machine

end Tricolor
