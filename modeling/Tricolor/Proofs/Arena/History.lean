import Tricolor.Proofs.Arena.Slots

/-!
# The history of an arena

An arena keeps no list of its objects and no lengths: both are read off its bitmaps. `Arena.Evolves`
is a history of an arena, and remembers for every object that is left how many cells it was allocated
with. After any history the bitmaps, the top, the number of used cells and the listed free runs agree
with that: the objects and the free runs lie one behind the other and fill the cells below the top.
-/

namespace Tricolor

/-- The stretches of cells in a list, each a first cell with a length, lie one behind the other and
fill the cells from `start` to `stop`. -/
inductive Tiles : Nat → List (Nat × Nat) → Nat → Prop where
  | nil {start : Nat} : Tiles start [] start
  | cons {start stop n : Nat} {rest : List (Nat × Nat)} : 0 < n → Tiles (start + n) rest stop →
      Tiles start ((start, n) :: rest) stop

namespace Arena

/-- A history of an arena, with the cells that each of its objects was allocated with. -/
inductive Evolves (page : Page) (index : Nat) : Arena → (Nat → Option Nat) → Prop where
  | new : Evolves page index (new page index) fun _ => none
  | full {a a' : Arena} {lengths : Nat → Option Nat} {cells : Nat} {black : Bool} :
      Evolves page index a lengths → 0 < cells → a.alloc cells black = .ok (none, a') →
      Evolves page index a' lengths
  | placed {a a' : Arena} {lengths : Nat → Option Nat} {cells head : Nat} {black : Bool} :
      Evolves page index a lengths → 0 < cells → a.alloc cells black = .ok (some head, a') →
      Evolves page index a' (Function.update lengths head (some cells))
  | freed {a a' : Arena} {lengths : Nat → Option Nat} {head n : Nat} :
      Evolves page index a lengths → a.isAllocated head = true → a.free head = .ok (n, a') →
      Evolves page index a' (Function.update lengths head none)
  | marked {a a' : Arena} {lengths : Nat → Option Nat} {head : Nat} :
      Evolves page index a lengths → a.isAllocated head = true → a.setMark head = .ok a' →
      Evolves page index a' lengths
  | unmarked {a a' : Arena} {lengths : Nat → Option Nat} {head : Nat} :
      Evolves page index a lengths → a.isAllocated head = true → a.clearMark head = .ok a' →
      Evolves page index a' lengths
  | harvested {a a' : Arena} {lengths : Nat → Option Nat} {found : Nat} :
      Evolves page index a lengths → a.majorSweep.2.harvest = .ok (found, a') →
      Evolves page index a' fun c => if a.mark.get c then lengths c else none
  /-- nothing has survived the sweep -/
  | reset {a a' : Arena} {lengths : Nat → Option Nat} : Evolves page index a lengths →
      a.majorSweep.1 = false → a.majorSweep.2.reset = .ok a' → Evolves page index a' fun _ => none

variable {page : Page} {index : Nat} {a a' : Arena} {lengths : Nat → Option Nat} {chains : Nat → List Nat}
  {c head cells n : Nat} {black : Bool}

/-! ## What the bitmaps say -/

/-- The length of the object that a cell heads, read off the bitmaps. -/
def measure (a : Arena) (c : Nat) : Option Nat := if a.isAllocated c then some (a.extent c) else none

theorem measure_eq_some_iff : a.measure c = some n ↔ a.isAllocated c = true ∧ a.extent c = n := by
  rw [measure]
  split
  · next h => simp [h]
  · next h => simp [h]

theorem measure_eq_none_iff : a.measure c = none ↔ ¬ a.isAllocated c = true := by
  rw [measure]
  split
  · next h => simp [h]
  · next h => simp [h]

/-- What the bitmaps say is settled by the objects and their lengths. -/
theorem measure_ext (hallocated : ∀ c, a.isAllocated c = true ↔ (lengths c).isSome = true)
    (hextent : ∀ c n, lengths c = some n → a.extent c = n) : a.measure = lengths := by
  funext c
  cases h : lengths c with
  | none =>
    rw [measure_eq_none_iff, hallocated, h]
    exact Bool.false_ne_true
  | some n => exact measure_eq_some_iff.2 ⟨(hallocated c).2 (by rw [h]; rfl), hextent c n h⟩

theorem isSome_measure : (a.measure c).isSome = true ↔ a.isAllocated c = true := by
  rw [measure]
  split
  · next h => simp [h]
  · next h => simp [h]

/-- An object that is placed is measured with the cells that were asked for. -/
theorem Placed.measure (h : Placed a a' head cells black) :
    a'.measure = Function.update a.measure head (some cells) := by
  refine measure_ext (fun c => ?_) fun c n hn => ?_ <;> by_cases hc : c = head
  · subst hc
    rw [Function.update_self]
    exact iff_of_true ((h.allocated c).2 (.inl rfl)) rfl
  · rw [Function.update_of_ne hc, isSome_measure, h.allocated]
    exact or_iff_right hc
  · subst hc
    rw [Function.update_self] at hn
    cases hn
    exact h.extent_head
  · rw [Function.update_of_ne hc] at hn
    obtain ⟨hallocated, hextent⟩ := measure_eq_some_iff.1 hn
    exact (h.extent c hallocated).trans hextent

/-- What is left when an object was freed has the lengths that it had. -/
theorem Vacated.measure (h : Vacated a a' head) : a'.measure = Function.update a.measure head none := by
  refine measure_ext (fun c => ?_) fun c n hn => ?_ <;> by_cases hc : c = head
  · subst hc
    rw [Function.update_self]
    exact iff_of_false (fun hallocated => ((h.allocated c).1 hallocated).1 rfl) Bool.false_ne_true
  · rw [Function.update_of_ne hc, isSome_measure, h.allocated]
    exact and_iff_right hc
  · subst hc
    rw [Function.update_self] at hn
    cases hn
  · rw [Function.update_of_ne hc] at hn
    obtain ⟨hallocated, hextent⟩ := measure_eq_some_iff.1 hn
    exact (h.extent c ((h.allocated c).2 ⟨hc, hallocated⟩)).trans hextent

/-- Changing the mark of an object changes no length. -/
theorem Tiled.measure_mark (ha : a.Tiled) (hc : a.isAllocated c = true) (bit : Bool) :
    Tiled { a with mark := a.mark.set c bit } ∧ measure { a with mark := a.mark.set c bit } = a.measure := by
  obtain ⟨-, hlt, hblock⟩ := isAllocated_iff.1 hc
  have hcells : c < arenaCells := by
    obtain ⟨chains, h⟩ := ha
    exact lt_of_lt_of_le hlt h.top_le
  have hothers : ∀ d, a.block.get d = false → (a.mark.set c bit).get d = a.mark.get d := by
    intro d hd
    rw [Bitmap.get_set _ _ _ _ hcells, if_neg]
    rintro rfl
    rw [hblock] at hd
    cases hd
  obtain ⟨htiled, hextent⟩ := ha.recolor hothers
  refine ⟨htiled, measure_ext (fun d => (@isSome_measure a d).symm) fun d n hn => ?_⟩
  obtain ⟨hallocated, hn⟩ := measure_eq_some_iff.1 hn
  exact (hextent d (isAllocated_iff.1 hallocated).2.1).trans hn

/-- After a bulk sweep and a harvest the marked objects are left, with the lengths that they had. -/
theorem Bulk.measure {b : Arena} (hb : a.Bulk b) (h : a.TiledBy chains) (hf : b.Harvested a') :
    a'.measure = fun c => if a.mark.get c then a.measure c else none := by
  refine measure_ext (fun c => ?_) fun c n hn => ?_
  · rw [hf.allocated, hb.isAllocated h.top_le]
    split
    · next hm => rw [isSome_measure, and_iff_left hm]
    · next hm => exact iff_of_false (fun hand => hm hand.2) Bool.false_ne_true
  · split at hn
    · next hm =>
      obtain ⟨hallocated, hn⟩ := measure_eq_some_iff.1 hn
      have hleft := (hb.isAllocated h.top_le c).2 ⟨hallocated, hm⟩
      exact ((hf.extent c ((hf.allocated c).2 hleft)).trans (hb.extent h hleft)).trans hn
    · cases hn

/-! ## Histories -/

/-- What every history keeps. -/
structure Measured (a : Arena) (lengths : Nat → Option Nat) : Prop where
  tiled : a.Tiled
  measure : a.measure = lengths
  grey : a.grey.isEmpty = true
  finalizers : a.finalizers.isEmpty = true

theorem Measured.congr (h : a.Measured lengths) {lengths' : Nat → Option Nat} (hkeeps : a.Keeps a')
    (htiled : a'.Tiled) (hmeasure : a'.measure = lengths') : a'.Measured lengths' where
  tiled := htiled
  measure := hmeasure
  grey := hkeeps.grey ▸ h.grey
  finalizers := hkeeps.finalizers ▸ h.finalizers

/-- An allocation places an object, or finds no room. -/
theorem Measured.alloc (h : a.Measured lengths) {found : Option Nat} (hpos : 0 < cells)
    (hrun : a.alloc cells black = .ok (found, a')) :
    a'.Measured (found.elim lengths fun head => Function.update lengths head (some cells)) := by
  obtain ⟨hfull, hplaced⟩ := alloc_eq_ok h.tiled hpos hrun
  cases found with
  | none =>
    cases hfull rfl
    exact h
  | some head =>
    have hspec := hplaced head rfl
    exact h.congr hspec.keeps hspec.tiled (h.measure ▸ hspec.measure)

/-- Freeing takes an object out of the arena, and answers the cells that it was allocated with. -/
theorem Measured.free (h : a.Measured lengths) (hhead : a.isAllocated head = true) :
    ∃ n a', a.free head = .ok (n, a') ∧ lengths head = some n ∧
      a'.Measured (Function.update lengths head none) := by
  obtain ⟨a', hrun, hspec⟩ := free_spec h.tiled hhead
  exact ⟨_, a', hrun, h.measure ▸ measure_eq_some_iff.2 ⟨hhead, rfl⟩,
    h.congr hspec.keeps hspec.tiled (h.measure ▸ hspec.measure)⟩

/-- Marking an object, or taking its mark away. -/
theorem Measured.mark (h : a.Measured lengths) (hhead : a.isAllocated head = true) :
    (∃ a', a.setMark head = .ok a' ∧ a'.Measured lengths) ∧ ∃ a', a.clearMark head = .ok a' ∧ a'.Measured lengths := by
  have hcells : head < arenaCells := by
    obtain ⟨chains, ht⟩ := h.tiled
    exact lt_of_lt_of_le (isAllocated_iff.1 hhead).2.1 ht.top_le
  have hmark : ∀ bit, Measured { a with mark := a.mark.set head bit } lengths := fun bit => by
    obtain ⟨htiled, hmeasure⟩ := h.tiled.measure_mark hhead bit
    exact h.congr ⟨rfl, rfl, rfl, rfl, rfl, rfl⟩ htiled (hmeasure.trans h.measure)
  constructor
  · refine ⟨_, ?_, hmark true⟩
    rw [setMark, require_eq_ok_iff.2 hcells]
    rfl
  · refine ⟨_, ?_, hmark false⟩
    rw [clearMark, require_eq_ok_iff.2 hcells]
    rfl

/-- A bulk sweep and a harvest leave the marked objects. -/
theorem Measured.harvest (h : a.Measured lengths) : ∃ found a', a.majorSweep.2.harvest = .ok (found, a') ∧
    a'.Measured fun c => if a.mark.get c then lengths c else none := by
  obtain ⟨chains, ht⟩ := h.tiled
  have hb := bulk_majorSweep ht
  obtain ⟨found, a', hrun, hf⟩ := hb.harvest_spec ht
  exact ⟨found, a', hrun, h.congr (hb.keeps.trans hf.keeps) hf.tiled (h.measure ▸ hb.measure ht hf)⟩

/-- When nothing survives a bulk sweep, the arena can be reset. -/
theorem Measured.reset (h : a.Measured lengths) (hnone : a.majorSweep.1 = false) :
    ∃ a', a.majorSweep.2.reset = .ok a' ∧ a'.Measured fun _ => none := by
  obtain ⟨chains, ht⟩ := h.tiled
  obtain ⟨hb, hsurvived⟩ := majorSweep_spec ht
  have hdead : ∀ c, a.majorSweep.2.isAllocated c = false := by simpa [hnone] using hsurvived
  obtain ⟨a', hrun, hswept⟩ := reset_spec hb ht hdead (by rw [hb.keeps.grey]; exact h.grey)
    (by rw [hb.keeps.finalizers]; exact h.finalizers)
  refine ⟨a', hrun, h.congr hswept.keeps hswept.tiled (measure_ext (fun c => ?_) fun c n hn => by cases hn)⟩
  rw [hswept.allocated, ← hb.isAllocated ht.top_le, hdead c]
  exact iff_of_false Bool.false_ne_true Bool.false_ne_true

/-- Every history keeps the lengths measurable. -/
theorem Evolves.measured (h : Evolves page index a lengths) : a.Measured lengths := by
  induction h with
  | new =>
    refine ⟨tiled_new page index, measure_ext (fun c => ?_) (fun c n hn => by cases hn), rfl, rfl⟩
    -- the bump region of a new arena starts at the first cell
    refine iff_of_false (fun hc => ?_) Bool.false_ne_true
    obtain ⟨hge, hlt, -⟩ := isAllocated_iff.1 hc
    exact absurd hlt (not_lt.2 hge)
  | full _ hpos hrun ih => exact ih.alloc hpos hrun
  | placed _ hpos hrun ih => exact ih.alloc hpos hrun
  | freed _ hhead hrun ih =>
    obtain ⟨n, a', hrun', -, hmeasured⟩ := ih.free hhead
    rw [hrun] at hrun'
    cases hrun'
    exact hmeasured
  | marked _ hhead hrun ih =>
    obtain ⟨a', hrun', hmeasured⟩ := (ih.mark hhead).1
    rw [hrun] at hrun'
    cases hrun'
    exact hmeasured
  | unmarked _ hhead hrun ih =>
    obtain ⟨a', hrun', hmeasured⟩ := (ih.mark hhead).2
    rw [hrun] at hrun'
    cases hrun'
    exact hmeasured
  | harvested _ hrun ih =>
    obtain ⟨found, a', hrun', hmeasured⟩ := ih.harvest
    rw [hrun] at hrun'
    cases hrun'
    exact hmeasured
  | reset _ hnone hrun ih =>
    obtain ⟨a', hrun', hmeasured⟩ := ih.reset hnone
    rw [hrun] at hrun'
    cases hrun'
    exact hmeasured

/-! ## The representation -/

/-- The objects and the free runs of an arena fill its cells below the top. -/
theorem tiles_boundaries (htop : a.top ≤ arenaCells) :
    ∀ (n start : Nat), a.top - start ≤ n → start ≤ a.top → (start < a.top → a.isBoundary start = true) →
      Tiles start ((a.boundaries start).map fun c => (c, a.extent c)) a.top := by
  intro n
  induction n with
  | zero =>
    intro start hn hle _
    obtain rfl : start = a.top := by omega
    rw [boundaries, Nat.sub_self, List.range'_zero, List.filter_nil, List.map_nil]
    exact .nil
  | succ n ih =>
    intro start hn hle hset
    rcases Nat.lt_or_ge start a.top with hlt | hge
    · have hstretch := stretch_extent htop hlt
      rw [boundaries_eq_cons htop hlt (hset hlt), List.map_cons]
      have hpos := hstretch.le
      exact .cons (by omega) (ih _ (by omega) hstretch.le_top hstretch.ends)
    · exact ih start (by omega) hle hset

/-- The objects with their lengths, and the listed runs, are the boundaries with their stretches. -/
theorem TiledBy.boundaries_perm (h : a.TiledBy chains) :
    ((a.boundaries firstCell).map fun c => (c, a.extent c)).Perm
      ((a.heads.map fun c => (c, a.extent c)) ++ a.runs.listed chains) := by
  have hsplit := List.filter_append_perm a.block.get (a.boundaries firstCell)
  rw [filter_boundaries] at hsplit
  refine (hsplit.map fun c => (c, a.extent c)).symm.trans ?_
  rw [List.map_append]
  refine List.Perm.append_left _ ((h.listed_perm.map fun c => (c, a.extent c)).symm.trans (.of_eq ?_))
  rw [List.map_map, List.map_congr_left fun x hx => ?_, List.map_id]
  rw [Function.comp_apply, ← h.eq_extent hx]
  rfl

/-- The bits of a cell say what is at the cell. -/
theorem cellState_eq_ofBits (hc : c < arenaCells) :
    a.cellState c = .ok (.ofBits (a.block.get c) (a.mark.get c)) := by
  rw [cellState, require_eq_ok_iff.2 hc]
  rfl

/-- The state of a cell is that of a free run's head. -/
theorem cellState_eq_free (hc : c < arenaCells) :
    a.cellState c = .ok .free ↔ a.block.get c = false ∧ a.mark.get c = true := by
  rw [cellState_eq_ofBits hc]
  cases a.block.get c <;> cases a.mark.get c <;> simp [CellState.ofBits]

/-- An arena agrees with the lengths that its objects were allocated with, and with a list of free runs. -/
structure Represented (a : Arena) (lengths : Nat → Option Nat) (runs : List (Nat × Nat)) : Prop where
  /-- the objects head their cells -/
  objects : ∀ c, c ∈ a.heads ↔ ∃ n, lengths c = some n
  /-- the length read off the bitmaps is the one that was asked for -/
  length : ∀ c n, lengths c = some n → a.objectCells c = .ok n
  /-- objects and free runs lie one behind the other from the first cell to the top -/
  tiles : ∃ stretches, stretches.Perm ((a.heads.map fun c => (c, (lengths c).getD 0)) ++ runs) ∧
    Tiles firstCell stretches a.top
  /-- both bitmaps are zero from the top on -/
  blank : ∀ c, a.top ≤ c → c < arenaCells → a.block.get c = false ∧ a.mark.get c = false
  /-- the cells in use are those of the objects -/
  used : a.used = (a.heads.map fun c => (lengths c).getD 0).sum
  /-- no free run is listed twice -/
  nodup : (runs.map Prod.fst).Nodup
  /-- the listed runs are the free ones, each with the cells up to the next boundary -/
  free : ∀ c n, (c, n) ∈ runs ↔
    firstCell ≤ c ∧ c < a.top ∧ a.cellState c = .ok .free ∧ c + n = a.nextBoundary (c + 1)
  /-- no free run starts below the hint -/
  hint : ∀ c, firstCell ≤ c → a.cellState c = .ok .free → a.runs.hint ≤ c

theorem TiledBy.represented (h : a.TiledBy chains) : a.Represented a.measure (a.runs.listed chains) := by
  have hlength : (a.heads.map fun c => ((a.measure c).getD 0)) = a.heads.map a.extent :=
    List.map_congr_left fun c hc => by rw [measure, if_pos (mem_heads.1 hc)]; rfl
  have hpair : (a.heads.map fun c => (c, (a.measure c).getD 0)) = a.heads.map fun c => (c, a.extent c) :=
    List.map_congr_left fun c hc => by rw [measure, if_pos (mem_heads.1 hc)]; rfl
  have hblank : ∀ c, a.top ≤ c → c < arenaCells → a.block.get c = false ∧ a.mark.get c = false :=
    fun c hc hlt => Bool.or_eq_false_iff.1 (h.blank c hc hlt)
  have hfree : ∀ c n, (c, n) ∈ a.runs.listed chains ↔
      firstCell ≤ c ∧ c < a.top ∧ a.cellState c = .ok .free ∧ c + n = a.nextBoundary (c + 1) := by
    intro c n
    rw [h.listed]
    refine and_congr_right fun _ => and_congr_right fun hlt => ?_
    rw [cellState_eq_free (lt_of_lt_of_le hlt h.top_le), and_assoc]
    have hstretch : Stretch a.isBoundary a.top (c + 1) (a.nextBoundary (c + 1)) :=
      stretch_nextBoundary a hlt h.top_le
    exact and_congr_right fun _ => and_congr_right fun _ => ⟨fun hs => hs.unique hstretch, fun heq => heq ▸ hstretch⟩
  exact
    { objects := fun c => by rw [mem_heads, ← isSome_measure, Option.isSome_iff_exists]
      length := fun c n hn => by
        obtain ⟨hc, rfl⟩ := measure_eq_some_iff.1 hn
        exact objectCells_eq hc
      tiles := by
        have htiles := tiles_boundaries h.top_le (a.top - firstCell) firstCell le_rfl h.top_ge h.first
        rw [hpair]
        exact ⟨_, h.boundaries_perm, htiles⟩
      blank := hblank
      used := by rw [hlength, h.sum_extent]
      nodup := h.nodup
      free := hfree
      hint := fun c hc hstate => by
        have hcells : c < arenaCells := by
          by_contra hnot
          rw [cellState, require, if_neg hnot] at hstate
          cases hstate
        obtain ⟨hb, hm⟩ := (cellState_eq_free hcells).1 hstate
        have hlt : c < a.top := by
          by_contra hnot
          rw [(hblank c (not_lt.1 hnot) hcells).2] at hm
          cases hm
        exact h.hint _ (h.mem_listed hc hlt hb hm) }

/-- After any history of an arena its objects and the free runs that it lists tile the cells below the
top, the lengths read off the bitmaps are those that were asked for, and the used cells, the free list
and its hint agree with that. Nothing that may be asked of the arena next goes wrong. -/
theorem history_is_represented (h : Evolves page index a lengths) :
    (∃ chains, a.runs.Represents a.links chains ∧ a.Represented lengths (a.runs.listed chains)) ∧
    (∀ cells black, 0 < cells → a.top + cells < halfWordRange → ∃ found a', a.alloc cells black = .ok (found, a')) ∧
    (∀ head n, lengths head = some n → (∃ a', a.free head = .ok (n, a')) ∧
      (∃ a', a.setMark head = .ok a') ∧ ∃ a', a.clearMark head = .ok a') ∧
    (∃ found a', a.majorSweep.2.harvest = .ok (found, a')) ∧
    (a.majorSweep.1 = false → ∃ a', a.majorSweep.2.reset = .ok a') := by
  have hm := h.measured
  refine ⟨?_, fun cells black hpos hrange => ?_, fun head n hn => ?_, ?_, fun hnone => ?_⟩
  · obtain ⟨chains, ht⟩ := hm.tiled
    exact ⟨chains, ht.represents, hm.measure ▸ ht.represented⟩
  · obtain ⟨found, a', hrun, -⟩ := alloc_spec hm.tiled hpos hrange black
    exact ⟨found, a', hrun⟩
  · have hhead := (measure_eq_some_iff.1 (hm.measure ▸ hn)).1
    obtain ⟨n', a', hrun, hn', -⟩ := hm.free hhead
    rw [hn] at hn'
    cases hn'
    obtain ⟨⟨b, hset, -⟩, b', hclear, -⟩ := hm.mark hhead
    exact ⟨⟨a', hrun⟩, ⟨b, hset⟩, b', hclear⟩
  · obtain ⟨found, a', hrun, -⟩ := hm.harvest
    exact ⟨found, a', hrun⟩
  · obtain ⟨a', hrun, -⟩ := hm.reset hnone
    exact ⟨a', hrun⟩

/-- Three objects are placed, and the second one is freed: its three cells are a free run between the others. -/
theorem freed_cells_are_listed : ∃ (a : Arena) (lengths : Nat → Option Nat), Evolves 1 0 a lengths ∧
    a.objectCells 1024 = .ok 10 ∧ lengths 1034 = none ∧ a.objectCells 1037 = .ok 2 ∧
    ∃ chains, a.runs.Represents a.links chains ∧ (1034, 3) ∈ a.runs.listed chains := by
  let first := answerOf ((new 1 0).alloc 10 false) (by decide +kernel)
  have hfirst : (new 1 0).alloc 10 false = .ok (some 1024, first.2) :=
    eq_answerOf_of_fst (by decide +kernel) (by decide +kernel)
  let second := answerOf (first.2.alloc 3 false) (by decide +kernel)
  have hsecond : first.2.alloc 3 false = .ok (some 1034, second.2) :=
    eq_answerOf_of_fst (by decide +kernel) (by decide +kernel)
  let third := answerOf (second.2.alloc 2 true) (by decide +kernel)
  have hthird : second.2.alloc 2 true = .ok (some 1037, third.2) :=
    eq_answerOf_of_fst (by decide +kernel) (by decide +kernel)
  let last := answerOf (third.2.free 1034) (by decide +kernel)
  have hlast : third.2.free 1034 = .ok (3, last.2) :=
    eq_answerOf_of_fst (by decide +kernel) (by decide +kernel)
  have hevolves := Evolves.freed (.placed (.placed (.placed .new (by decide) hfirst) (by decide) hsecond)
    (by decide) hthird) (by decide +kernel) hlast
  obtain ⟨⟨chains, hrep, h⟩, -⟩ := history_is_represented hevolves
  exact ⟨last.2, _, hevolves, h.length 1024 10 rfl, rfl, h.length 1037 2 rfl, chains, hrep,
    (h.free 1034 3).2 ⟨by decide, by decide +kernel, by decide +kernel, by decide +kernel⟩⟩

end Arena

end Tricolor
