import Mathlib.Algebra.BigOperators.Ring.List
import Tricolor.Proofs.Arena.Coalescing
import Tricolor.Proofs.Arena.History
import Tricolor.Proofs.Space.Reclaiming

/-!
# Sweeping one arena

Whichever objects of an arena are marked, its sweep leaves exactly those, white, where they were. All other
cells are vacant then: the free list holds the maximal runs of vacant cells between the objects, and what is
behind the last object is bump region again. The bytes of the other objects are reclaimed and subtracted from
the total of the space. An arena without marked objects is like a new one.
-/

namespace Tricolor

namespace Arena

variable {a a' : Arena} {chains : Nat → List Nat} {c n : Nat}

/-- The bytes of the objects that are not marked. -/
def garbageBytes (a : Arena) : Nat := ((a.heads.filter fun c => !a.mark.get c).map fun c => a.extent c * cellBytes).sum

/-- What a sweep of `a` leaves: `a'`, which lists `runs`. -/
structure SweepLeaves (a a' : Arena) (runs : List (Nat × Nat)) : Prop where
  /-- the memory of the arena, its index and its lists of cells are kept -/
  keeps : a.Keeps a'
  needsSweep : a'.needsSweep = false
  /-- exactly the marked objects are left -/
  objects : ∀ c, a'.isAllocated c = true ↔ a.isAllocated c = true ∧ a.mark.get c = true
  lengths : ∀ c, a'.isAllocated c = true → a'.objectCells c = a.objectCells c
  white : ∀ c, a'.isAllocated c = true → a'.cellState c = .ok .white
  /-- every other cell is bump region or in a free run -/
  vacant : ∀ c, firstCell ≤ c → c < arenaCells → ¬ a.Survives c →
    a'.top ≤ c ∨ ∃ head n, (head, n) ∈ runs ∧ head ≤ c ∧ c < head + n
  /-- and the cells of the objects that are left are neither -/
  occupied : ∀ c, a.Survives c → c < a'.top ∧ ∀ head n, (head, n) ∈ runs → ¬ (head ≤ c ∧ c < head + n)
  /-- the first cell of a free run is free, and the cells behind heads are extents -/
  free : ∀ c n, (c, n) ∈ runs → a'.cellState c = .ok .free
  extent : ∀ c, firstCell ≤ c → c < arenaCells → a'.isAllocated c = false → (∀ n, (c, n) ∉ runs) →
    a'.cellState c = .ok .extent
  /-- no run is listed twice -/
  nodup : (runs.map Prod.fst).Nodup
  /-- no free run ends at another one or at the top -/
  apart : ∀ c n, (c, n) ∈ runs → c + n < a'.top ∧ ∀ m, (c + n, m) ∉ runs
  /-- the free runs are listed as far as they reach -/
  listed : ∀ c n, (c, n) ∈ runs ↔ MaximalRun a.Survives c n
  /-- the last object ends at the top -/
  top : a'.top = firstCell ∨ a.Survives (a'.top - 1)
  /-- the cells of the unmarked objects are no longer in use -/
  used : a'.usedBytes + a.garbageBytes = a.usedBytes

/-- The arena is as a new one, but for its memory. -/
structure IsBlank (a : Arena) : Prop where
  isEmpty : a.isEmpty = true
  top : a.top = firstCell
  used : a.used = 0
  runs : a.runs = .empty firstCell
  fixed : a.fixed = #[]
  grey : a.grey.isEmpty = true
  finalizers : a.finalizers.isEmpty = true
  bits : ∀ c, firstCell ≤ c → c < arenaCells → a.block.get c = false ∧ a.mark.get c = false

theorem isBlank_new (page : Page) (index : Nat) : (new page index).IsBlank where
  isEmpty := rfl
  top := rfl
  used := rfl
  runs := rfl
  fixed := rfl
  grey := rfl
  finalizers := rfl
  bits c hc hlt := by
    obtain ⟨chains, h⟩ := tiled_new page index
    exact Bool.or_eq_false_iff.1 (h.blank c hc hlt)

/-! ## One sweep -/

theorem Swept.used_add (ha : a.Tiled) (h : a.Swept a') : a'.usedBytes + a.garbageBytes = a.usedBytes := by
  have hgarbage : a.garbageBytes = ((a.heads.filter fun c => !a.mark.get c).map a.extent).sum * cellBytes := by
    rw [garbageBytes, List.sum_map_mul_right]
  rw [usedBytes, usedBytes, hgarbage, ← Nat.add_mul, h.used, sum_filter_add, ha.sum_extent]

theorem Swept.sweepLeaves (ha : a.Tiled) (h : a.Swept a') (ht : a'.TiledBy chains) :
    a.SweepLeaves a' (a'.runs.listed chains) where
  keeps := h.keeps
  needsSweep := h.needsSweep
  objects := h.allocated
  lengths c hc := by
    rw [objectCells_eq hc, objectCells_eq ((h.allocated c).1 hc).1, h.extent c hc]
  white c hc := by
    obtain ⟨-, hlt, hblock⟩ := isAllocated_iff.1 hc
    rw [cellState_eq_ofBits (lt_of_lt_of_le hlt ht.top_le), hblock, h.white c hc]
    rfl
  vacant c hc _ hnone := by
    rcases Nat.lt_or_ge c a'.top with hlt | hle
    · exact .inr ((ht.occupied_or_listed hc hlt).resolve_left (mt h.occupied_iff.1 hnone))
    · exact .inl hle
  occupied c hc := by
    have hoccupied := h.occupied_iff.2 hc
    exact ⟨(ht.occupied_lt hoccupied).2, fun head n hx ⟨hle, hlt⟩ => ht.not_occupied hx hle hlt hoccupied⟩
  free c n hx := by
    obtain ⟨-, hlt, hblock, hmark, -⟩ := (ht.listed c n).1 hx
    exact (cellState_eq_free (lt_of_lt_of_le hlt ht.top_le)).2 ⟨hblock, hmark⟩
  extent c hc hcells hnone hnotListed := by
    have hbits : a'.block.get c = false ∧ a'.mark.get c = false := by
      rcases Nat.lt_or_ge c a'.top with hlt | hle
      · have hblock : a'.block.get c = false := by simpa [isAllocated, hc, hlt] using hnone
        refine ⟨hblock, ?_⟩
        by_contra hmark
        exact hnotListed _ (ht.mem_listed hc hlt hblock (by simpa using hmark))
      · exact Bool.or_eq_false_iff.1 (ht.blank c hle hcells)
    rw [cellState_eq_ofBits hcells, hbits.1, hbits.2]
    rfl
  nodup := ht.nodup
  apart c n hx := ht.apart h.coalesced hx
  listed c n := (ht.mem_listed_iff h.coalesced).trans (MaximalRun.congr fun _ => h.occupied_iff)
  top := (ht.top_spec h.coalesced).imp_right h.occupied_iff.1
  used := h.used_add ha

/-- Where nothing was marked, nothing is left. -/
theorem Swept.isBlank (h : a.Swept a') (hgrey : a.grey.isEmpty = true) (hfinalizers : a.finalizers.isEmpty = true)
    (hnone : ∀ c, a.isAllocated c = true → a.mark.get c = false) : a'.IsBlank := by
  have hempty : ∀ c, a'.isAllocated c = false := by
    intro c
    rw [← Bool.not_eq_true, h.allocated]
    rintro ⟨halloc, hmark⟩
    rw [hnone c halloc] at hmark
    cases hmark
  obtain ⟨hisEmpty, hfixed, hruns⟩ := h.isEmpty hempty
  obtain ⟨chains, ht⟩ := h.tiled
  have htop : a'.top = firstCell := by
    refine (ht.top_spec h.coalesced).resolve_right fun ⟨head, halloc, _⟩ => ?_
    rw [hempty head] at halloc
    cases halloc
  refine ⟨hisEmpty, htop, ?_, hruns, hfixed, h.keeps.grey ▸ hgrey, h.keeps.finalizers ▸ hfinalizers,
    fun c hc hlt => ?_⟩
  · have := ht.used
    omega
  · exact Bool.or_eq_false_iff.1 (ht.blank c (htop ▸ hc) hlt)

end Arena

namespace Space

variable {s : Space} {i : Nat} {a : Arena}

/-- Whatever is marked in a tiled arena that awaits its sweep, the sweep keeps exactly that, hands all other cells
back, and reclaims the bytes of what was not marked. -/
theorem sweepArena_keeps_marked_objects (ha : s.arenas[i]? = some a) (htiled : a.Tiled) (hsweep : a.needsSweep = true)
    (hgrey : a.grey.isEmpty = true)
    (hfinalizers : (∀ c, a.isAllocated c = true → a.mark.get c = false) → a.finalizers.isEmpty = true) :
    ∃ a' chains, a'.TiledBy chains ∧ a.SweepLeaves a' (a'.runs.listed chains) ∧
      ((∀ c, a.isAllocated c = true → a.mark.get c = false) → a'.IsBlank) ∧
      (s.sweepArena i = do
        let total ← checkedSub s.total a.garbageBytes
        return (a.garbageBytes, { s with arenas := s.arenas.setIfInBounds i a', total })) ∧
      (s.Wf → a.garbageBytes ≤ s.total) := by
  obtain ⟨a', hrun, hswept⟩ := Arena.sweep_spec htiled hsweep hgrey hfinalizers
  obtain ⟨chains, ht⟩ := hswept.tiled
  have hadd := hswept.used_add htiled
  have hfreed : a.usedBytes - a'.usedBytes = a.garbageBytes := by omega
  refine ⟨a', chains, ht, hswept.sweepLeaves htiled ht, fun hnone => ?_, ?_, fun h => ?_⟩
  · exact hswept.isBlank hgrey (hfinalizers hnone) hnone
  · rw [← hfreed]
    exact sweepArena_eq ha hrun (by omega)
  · exact le_trans (by omega) (h.usedBytes_le ha)

/-- Of four objects the first and the third are marked. The cells of the second become a free run, and those of
the last one bump region. -/
theorem sweep_lists_gap_and_lowers_top : ∃ (s s' : Space) (a' : Arena) (chains : Nat → List Nat),
    s.total = 304 ∧ s.sweepArena 0 = .ok (112, s') ∧ s'.total = 192 ∧ s'.arenas[0]? = some a' ∧ a'.top = 1039 ∧
      a'.cellState 1024 = .ok .white ∧ a'.cellState 1037 = .ok .white ∧
      a'.runs.Represents a'.links chains ∧ (1034, 3) ∈ a'.runs.listed chains := by
  let first := answerOf ((Arena.new 1 0).alloc 10 true) (by decide +kernel)
  have hfirst : (Arena.new 1 0).alloc 10 true = .ok (some 1024, first.2) :=
    eq_answerOf_of_fst (by decide +kernel) (by decide +kernel)
  let second := answerOf (first.2.alloc 3 false) (by decide +kernel)
  have hsecond : first.2.alloc 3 false = .ok (some 1034, second.2) :=
    eq_answerOf_of_fst (by decide +kernel) (by decide +kernel)
  let third := answerOf (second.2.alloc 2 true) (by decide +kernel)
  have hthird : second.2.alloc 2 true = .ok (some 1037, third.2) :=
    eq_answerOf_of_fst (by decide +kernel) (by decide +kernel)
  let fourth := answerOf (third.2.alloc 4 false) (by decide +kernel)
  have hfourth : third.2.alloc 4 false = .ok (some 1039, fourth.2) :=
    eq_answerOf_of_fst (by decide +kernel) (by decide +kernel)
  have hmeasured := (Arena.Evolves.placed (.placed (.placed (.placed .new (by decide) hfirst) (by decide) hsecond)
    (by decide) hthird) (by decide) hfourth).measured
  let last : Arena := { fourth.2 with needsSweep := true }
  let s : Space := { Space.empty with arenas := #[last], total := 304 }
  obtain ⟨a', chains, ht, hleaves, -, hrun, -⟩ :=
    sweepArena_keeps_marked_objects (s := s) (i := 0) (a := last) rfl (hmeasured.tiled.setNeedsSweep true) rfl
      (by decide +kernel) fun _ => by decide +kernel
  have hgarbage : last.garbageBytes = 112 := by decide +kernel
  rw [hgarbage] at hrun
  have hheads : last.heads.filter last.mark.get = [1024, 1037] := by decide +kernel
  have hextent : last.extent 1024 = 10 ∧ last.extent 1037 = 2 := by decide +kernel
  have hsurvives : ∀ c, last.Survives c ↔ 1024 ≤ c ∧ c < 1034 ∨ 1037 ≤ c ∧ c < 1039 := by
    intro c
    simp only [Arena.survives_iff, hheads, List.mem_cons, List.not_mem_nil, or_false, exists_eq_or_imp,
      exists_eq_left, hextent]
  have hwhite : ∀ c, last.isAllocated c = true ∧ last.mark.get c = true → a'.cellState c = .ok .white :=
    fun c hc => hleaves.white c ((hleaves.objects c).2 hc)
  have htop : a'.top = 1039 := by
    have hlt := (hleaves.occupied 1038 ((hsurvives 1038).2 (by omega))).1
    rcases hleaves.top with heq | hlast
    · exact absurd (heq ▸ hlt) (by decide)
    · have := (hsurvives _).1 hlast
      omega
  refine ⟨s, _, a', chains, rfl, hrun, rfl, rfl, htop, hwhite 1024 (by decide +kernel),
    hwhite 1037 (by decide +kernel), ht.represents, (hleaves.listed 1034 3).2 ⟨by decide, by decide, ?_, ?_, ?_⟩⟩
  · intro d _ _
    rw [hsurvives]
    omega
  · exact .inr ((hsurvives _).2 (by omega))
  · exact (hsurvives _).2 (by omega)

end Space

end Tricolor
