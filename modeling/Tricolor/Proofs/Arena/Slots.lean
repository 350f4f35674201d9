import Tricolor.Proofs.Arena.Sweep
import Tricolor.Proofs.Entity
import Tricolor.Proofs.FinalizerRegister

/-!
# The slots of an arena

`Arena.slot` is the view of an arena that the rest of the heap builds on: for every cell,
the object that it heads and the lists that it stands in. `Arena.Sound` is the invariant,
and every operation on an arena keeps it and changes the slots as its lemma says.
-/

namespace Tricolor

namespace Arena

/-- The invariant of an arena: its cells are tiled, and no object is registered twice. -/
structure Sound (a : Arena) : Prop where
  tiled : a.Tiled
  register : a.finalizers.Wf
  nodup : (a.finalizers.entries.map Prod.fst).Nodup

/-- The byte at an offset behind the header of the object headed by a cell. -/
def byteAt (a : Arena) (c i : Nat) : UInt8 := a.bytes.get (c * cellBytes + headerBytes + i)

/-- The object of the given size that a cell heads. -/
def entityOf (a : Arena) (c size : Nat) : Entity where
  size
  marked := a.mark.get c
  awaits := a.needsSweep
  header := a.headers.get c
  content := fun i => if headerBytes + i < size then a.byteAt c i else 0

/-- The object that a cell heads. -/
def entity? (a : Arena) (c : Nat) : Option Entity :=
  if a.isAllocated c then some (a.entityOf c (a.extent c * cellBytes)) else none

/-- What is recorded of a cell. -/
def slot (a : Arena) (c : Nat) : Slot where
  entity? := a.entity? c
  queued := c ∈ a.grey.cells
  fixed := c ∈ a.fixed
  idle := (c, false) ∈ a.finalizers.entries
  pending := (c, true) ∈ a.finalizers.entries

variable {a a' : Arena} {c : Nat} {e : Entity}

theorem entity?_of_allocated (h : a.isAllocated c = true) :
    a.entity? c = some (a.entityOf c (a.extent c * cellBytes)) := if_pos h

theorem entity?_of_not_allocated (h : a.isAllocated c = false) : a.entity? c = none := by
  rw [entity?, h]
  rfl

theorem isAllocated_of_entity? (h : a.entity? c = some e) : a.isAllocated c = true := by
  rw [entity?] at h
  split at h
  · next halloc => exact halloc
  · cases h

theorem entity?_isSome : (a.entity? c).isSome = a.isAllocated c := by
  rw [entity?]
  split
  · next h => rw [h]; rfl
  · next h => rw [Bool.not_eq_true] at h; rw [h]; rfl

theorem eq_entityOf (h : a.entity? c = some e) :
    e.size = a.extent c * cellBytes ∧ e.marked = a.mark.get c ∧ e.awaits = a.needsSweep ∧
      e.header = a.headers.get c := by
  rw [entity?_of_allocated (isAllocated_of_entity? h)] at h
  cases h
  exact ⟨rfl, rfl, rfl, rfl⟩

/-! ## Cells and bytes of different objects -/

/-- The cells of two objects do not overlap. -/
theorem Tiled.apart (ha : a.Tiled) {d : Nat} (hc : a.isAllocated c = true)
    (hd : a.isAllocated d = true) (hne : c ≠ d) :
    c + a.extent c ≤ d ∨ d + a.extent d ≤ c := by
  obtain ⟨chains, h⟩ := ha
  obtain ⟨-, hclt, hcb⟩ := isAllocated_iff.1 hc
  obtain ⟨-, hdlt, hdb⟩ := isAllocated_iff.1 hd
  rcases Nat.lt_or_gt_of_ne hne with hlt | hgt
  · exact .inl (h.stretch_le hclt hlt (by rw [isBoundary, hdb, Bool.true_or]))
  · exact .inr (h.stretch_le hdlt hgt (by rw [isBoundary, hcb, Bool.true_or]))

/-! ## Marks -/

/-- Changing the marks of objects changes neither the tiling nor the lengths. -/
theorem Tiled.recolor (ha : a.Tiled) {mark : Bitmap}
    (hmark : ∀ d, a.block.get d = false → mark.get d = a.mark.get d) :
    Tiled { a with mark } ∧ ∀ d, d < a.top → extent { a with mark } d = a.extent d := by
  obtain ⟨chains, h⟩ := ha
  have hbound : isBoundary { a with mark } = a.isBoundary := by
    funext d
    rw [isBoundary, isBoundary]
    cases hb : a.block.get d with
    | true => simp
    | false => simp [hmark d hb]
  have hextent : ∀ d, d < a.top → extent { a with mark } d = a.extent d := by
    intro d hd
    have htop : top { a with mark } ≤ arenaCells := h.top_le
    refine extent_eq_of_stretch htop hd ?_
    rw [hbound]
    exact stretch_extent h.top_le hd
  refine ⟨⟨chains, ?_⟩, hextent⟩
  refine
    { top_ge := h.top_ge
      top_le := h.top_le
      blank := by rw [hbound]; exact h.blank
      first := by rw [hbound]; exact h.first
      represents := h.represents
      nodup := h.nodup
      listed := fun d n => ?_
      used := h.used
      hint := h.hint
      empty := h.empty }
  rw [hbound]
  refine (h.listed d n).trans ?_
  constructor
  · rintro ⟨hd, hlt, hb, hm, hs⟩
    exact ⟨hd, hlt, hb, (hmark d hb).trans hm, hs⟩
  · rintro ⟨hd, hlt, hb, hm, hs⟩
    exact ⟨hd, hlt, hb, (hmark d hb).symm.trans hm, hs⟩

/-- Setting or clearing the mark of an object is seen in its slot and nowhere else. -/
theorem slot_mark (ha : a.Sound) (hc : a.isAllocated c = true) (bit : Bool) :
    Sound { a with mark := a.mark.set c bit } ∧
      slot { a with mark := a.mark.set c bit } =
        Function.update a.slot c ((a.slot c).mapEntity fun e => { e with marked := bit }) := by
  obtain ⟨hge, hlt, hb⟩ := isAllocated_iff.1 hc
  have hcells : c < arenaCells := by
    obtain ⟨chains, h⟩ := ha.tiled
    exact lt_of_lt_of_le hlt h.top_le
  have hget : ∀ d, (a.mark.set c bit).get d = if c = d then bit else a.mark.get d :=
    fun d => Bitmap.get_set _ _ _ _ hcells
  obtain ⟨htiled, hextent⟩ := @Tiled.recolor a ha.tiled (a.mark.set c bit) fun d hd => by
    rw [hget, if_neg]
    rintro rfl
    rw [hb] at hd
    cases hd
  refine ⟨⟨htiled, ha.register, ha.nodup⟩, ?_⟩
  funext d
  have hentity : entity? { a with mark := a.mark.set c bit } d =
      if c = d then (a.entity? d).map fun e => { e with marked := bit } else a.entity? d := by
    by_cases hd : a.isAllocated d = true
    · rw [entity?_of_allocated hd, entity?_of_allocated (a := { a with mark := a.mark.set c bit }) hd,
        hextent d (isAllocated_iff.1 hd).2.1]
      by_cases hcd : c = d
      · subst hcd
        simp [entityOf, byteAt, hget]
      · simp [entityOf, byteAt, hget, hcd]
    · rw [Bool.not_eq_true] at hd
      rw [entity?_of_not_allocated hd,
        entity?_of_not_allocated (a := { a with mark := a.mark.set c bit }) hd]
      split <;> rfl
  by_cases hcd : d = c
  · subst hcd
    rw [Function.update_self, slot, hentity, if_pos rfl]
    rfl
  · rw [Function.update_of_ne hcd, slot, hentity, if_neg (Ne.symm hcd)]
    rfl

/-! ## Lists -/

/-- The tiling only depends on the cells. -/
theorem Tiled.congr (ha : a.Tiled) (headers : Zeroed Header) (bytes : Zeroed UInt8)
    (grey : GreyStack) (finalizers : FinalizerRegister) (fixed : Array Nat) :
    Tiled { a with headers, bytes, grey, finalizers, fixed } := by
  obtain ⟨chains, h⟩ := ha
  exact ⟨chains, h.top_ge, h.top_le, h.blank, h.first, h.represents, h.nodup, h.listed, h.used,
    h.hint, h.empty⟩

theorem Tiled.setNeedsSweep (ha : a.Tiled) (needsSweep : Bool) : Tiled { a with needsSweep } := by
  obtain ⟨chains, h⟩ := ha
  exact ⟨chains, h.top_ge, h.top_le, h.blank, h.first, h.represents, h.nodup, h.listed, h.used,
    h.hint, h.empty⟩

/-- The lists of an arena are seen in its slots as they are. -/
theorem slot_lists (a : Arena) (grey : GreyStack) (finalizers : FinalizerRegister)
    (fixed : Array Nat) (d : Nat) :
    slot { a with grey, finalizers, fixed } d =
      { a.slot d with
        queued := d ∈ grey.cells
        fixed := d ∈ fixed
        idle := (d, false) ∈ finalizers.entries
        pending := (d, true) ∈ finalizers.entries } := rfl

/-- Queueing a cell is seen in its slot and nowhere else. -/
theorem slot_queue (ha : a.Sound) (c : Nat) :
    Sound { a with grey := ⟨a.grey.cells.push c⟩ } ∧
      slot { a with grey := ⟨a.grey.cells.push c⟩ } =
        Function.update a.slot c { a.slot c with queued := True } := by
  refine ⟨⟨ha.tiled.congr _ _ _ _ _, ha.register, ha.nodup⟩, ?_⟩
  funext d
  rw [slot_lists a ⟨a.grey.cells.push c⟩ a.finalizers a.fixed]
  by_cases hcd : d = c
  · subst hcd
    rw [Function.update_self]
    simp only [Array.mem_push, or_true]
    rfl
  · rw [Function.update_of_ne hcd]
    simp only [Array.mem_push, hcd, or_false]
    rfl

/-- Fixing a cell is seen in its slot and nowhere else. -/
theorem slot_fix (ha : a.Sound) (c : Nat) :
    Sound { a with fixed := a.fixed.push c } ∧
      slot { a with fixed := a.fixed.push c } =
        Function.update a.slot c { a.slot c with fixed := True } := by
  refine ⟨⟨ha.tiled.congr _ _ _ _ _, ha.register, ha.nodup⟩, ?_⟩
  funext d
  rw [slot_lists a a.grey a.finalizers (a.fixed.push c)]
  by_cases hcd : d = c
  · subst hcd
    rw [Function.update_self]
    simp only [Array.mem_push, or_true]
    rfl
  · rw [Function.update_of_ne hcd]
    simp only [Array.mem_push, hcd, or_false]
    rfl

/-- Registering a cell is seen in its slot and nowhere else. -/
theorem slot_register (ha : a.Sound) (hidle : ¬ (a.slot c).idle) (hpending : ¬ (a.slot c).pending) :
    Sound { a with finalizers := a.finalizers.push c } ∧
      slot { a with finalizers := a.finalizers.push c } =
        Function.update a.slot c { a.slot c with idle := True } := by
  obtain ⟨hwf, hperm⟩ := FinalizerRegister.push_spec ha.register c
  have hmem : ∀ x, x ∈ (a.finalizers.push c).entries ↔ x = (c, false) ∨ x ∈ a.finalizers.entries :=
    fun x => by rw [hperm.mem_iff, List.mem_cons]
  refine ⟨⟨ha.tiled.congr _ _ _ _ _, hwf, (hperm.map Prod.fst).nodup_iff.2
    (List.nodup_cons.2 ⟨fun hc => ?_, ha.nodup⟩)⟩, ?_⟩
  · obtain ⟨⟨d, pending⟩, hd, heq⟩ := List.mem_map.1 hc
    have heq : d = c := heq
    subst heq
    cases pending with
    | true => exact hpending hd
    | false => exact hidle hd
  · funext d
    rw [slot_lists a a.grey (a.finalizers.push c) a.fixed]
    by_cases hcd : d = c
    · subst hcd
      rw [Function.update_self]
      simp only [hmem, true_or, Prod.mk.injEq, Bool.true_eq_false, and_false, false_or]
      rfl
    · rw [Function.update_of_ne hcd]
      simp only [hmem, Prod.mk.injEq, hcd, false_and, false_or]
      rfl

/-- Unregistering a cell whose finalizer is due is seen in its slot and nowhere else; when
there is no such cell, no finalizer is due. -/
theorem slot_takePending (ha : a.Sound) :
    match a.finalizers.takePending with
    | none => ∀ c, ¬ (a.slot c).pending
    | some (c, finalizers) => (a.slot c).pending ∧ Sound { a with finalizers } ∧
        slot { a with finalizers } = Function.update a.slot c { a.slot c with pending := False } := by
  have htake := FinalizerRegister.takePending_spec ha.register
  cases hp : a.finalizers.takePending with
  | none =>
    rw [hp] at htake
    intro c hc
    have := htake _ hc
    cases this
  | some found =>
    obtain ⟨c, finalizers⟩ := found
    rw [hp] at htake
    obtain ⟨hwf, hperm⟩ := htake
    have hnodup := (hperm.map Prod.fst).nodup_iff.1 ha.nodup
    rw [List.map_cons, List.nodup_cons] at hnodup
    have hmem : ∀ x, x ∈ a.finalizers.entries ↔ x = (c, true) ∨ x ∈ finalizers.entries :=
      fun x => by rw [hperm.mem_iff, List.mem_cons]
    have hnot : ∀ pending, (c, pending) ∉ finalizers.entries := fun pending hc =>
      hnodup.1 (List.mem_map.2 ⟨_, hc, rfl⟩)
    have hkeep : ∀ d pending, (d, pending) ≠ (c, true) →
        ((d, pending) ∈ finalizers.entries ↔ (d, pending) ∈ a.finalizers.entries) :=
      fun d pending hne => by rw [hmem, or_iff_right hne]
    refine ⟨hperm.symm.subset List.mem_cons_self, ⟨ha.tiled.congr _ _ _ _ _, hwf, hnodup.2⟩, ?_⟩
    funext d
    rw [slot_lists a a.grey finalizers a.fixed]
    by_cases hcd : d = c
    · subst hcd
      rw [Function.update_self]
      simp only [hkeep d false (by simp), hnot true]
      rfl
    · rw [Function.update_of_ne hcd]
      simp only [hkeep d _ (fun heq => hcd (Prod.mk.inj heq).1)]
      rfl

/-! ## Headers and contents -/

/-- Changing the header of a cell is seen in its slot and nowhere else. -/
theorem slot_header (ha : a.Sound) (c : Nat) (f : Header → Header) :
    Sound { a with headers := a.headers.modify c f } ∧
      slot { a with headers := a.headers.modify c f } =
        Function.update a.slot c ((a.slot c).mapEntity fun e => { e with header := f e.header }) := by
  refine ⟨⟨ha.tiled.congr _ _ _ _ _, ha.register, ha.nodup⟩, ?_⟩
  have hentity : ∀ d, entity? { a with headers := a.headers.modify c f } d =
      if c = d then (a.entity? d).map fun e => { e with header := f e.header } else a.entity? d := by
    intro d
    by_cases hd : a.isAllocated d = true
    · rw [entity?_of_allocated hd, entity?_of_allocated (a := { a with headers := a.headers.modify c f }) hd]
      by_cases hcd : c = d
      · subst hcd
        rw [if_pos rfl, Option.map_some]
        simp only [entityOf, Zeroed.get_modify, if_true]
        rfl
      · rw [if_neg hcd]
        simp only [entityOf, Zeroed.get_modify, hcd, if_false]
        rfl
    · rw [Bool.not_eq_true] at hd
      rw [entity?_of_not_allocated hd,
        entity?_of_not_allocated (a := { a with headers := a.headers.modify c f }) hd]
      split <;> rfl
  funext d
  by_cases hcd : d = c
  · subst hcd
    rw [Function.update_self, slot, hentity, if_pos rfl]
    rfl
  · rw [Function.update_of_ne hcd, slot, hentity, if_neg (Ne.symm hcd)]
    rfl

/-- Changing bytes of one object only is seen in its slot and nowhere else. -/
theorem slot_bytes (ha : a.Sound) (hc : a.isAllocated c = true) (bytes : Zeroed UInt8)
    (hbytes : ∀ i, i < c * cellBytes ∨ (c + a.extent c) * cellBytes ≤ i →
      bytes.get i = a.bytes.get i) :
    Sound { a with bytes } ∧
      slot { a with bytes } = Function.update a.slot c ((a.slot c).mapEntity fun e =>
        { e with content := fun i => if headerBytes + i < e.size then
            bytes.get (c * cellBytes + headerBytes + i) else 0 }) := by
  refine ⟨⟨ha.tiled.congr _ _ _ _ _, ha.register, ha.nodup⟩, ?_⟩
  have hentity : ∀ d, entity? { a with bytes } d =
      if c = d then (a.entity? d).map fun e =>
        { e with content := fun i => if headerBytes + i < e.size then
            bytes.get (c * cellBytes + headerBytes + i) else 0 }
      else a.entity? d := by
    intro d
    by_cases hd : a.isAllocated d = true
    · rw [entity?_of_allocated hd, entity?_of_allocated (a := { a with bytes }) hd]
      by_cases hcd : c = d
      · subst hcd
        rw [if_pos rfl]
        rfl
      · rw [if_neg hcd, Option.some.injEq]
        have hcontent : ∀ i, headerBytes + i < a.extent d * cellBytes →
            byteAt { a with bytes } d i = a.byteAt d i := by
          intro i hi
          have happart := ha.tiled.apart hc hd hcd
          simp only [cellBytes] at hi hbytes
          exact hbytes (d * 16 + headerBytes + i) (by omega)
        simp only [entityOf]
        congr 1
        funext i
        show (if headerBytes + i < a.extent d * cellBytes then _ else 0) = _
        split
        · next hi => exact hcontent i hi
        · rfl
    · rw [Bool.not_eq_true] at hd
      rw [entity?_of_not_allocated hd, entity?_of_not_allocated (a := { a with bytes }) hd]
      split <;> rfl
  funext d
  by_cases hcd : d = c
  · subst hcd
    rw [Function.update_self, slot, hentity, if_pos rfl]
    rfl
  · rw [Function.update_of_ne hcd, slot, hentity, if_neg (Ne.symm hcd)]
    rfl

/-! ## Placing, freeing and sweeping -/

/-- A placed object is seen in the slot of its head and nowhere else. -/
theorem slot_placed (ha : a.Sound) {cells : Nat} {black : Bool} (h : Placed a a' c cells black) :
    a'.Sound ∧ a'.slot = Function.update a.slot c
      { a.slot c with
        entity? := some { a.entityOf c (cells * cellBytes) with marked := black } } := by
  have hentityOf : ∀ d size, a'.entityOf d size = { a.entityOf d size with marked := a'.mark.get d } := by
    intro d size
    simp only [entityOf, byteAt, h.keeps.headers, h.keeps.bytes, h.needsSweep]
  refine ⟨⟨h.tiled, by rw [h.keeps.finalizers]; exact ha.register,
    by rw [h.keeps.finalizers]; exact ha.nodup⟩, ?_⟩
  funext d
  by_cases hcd : d = c
  · subst hcd
    rw [Function.update_self, slot, slot, h.keeps.grey, h.keeps.finalizers, h.fixed,
      entity?_of_allocated ((h.allocated d).2 (.inl rfl)), h.extent_head, hentityOf, h.mark_head]
  · rw [Function.update_of_ne hcd, slot, slot, h.keeps.grey, h.keeps.finalizers, h.fixed]
    by_cases hd : a.isAllocated d = true
    · rw [entity?_of_allocated hd, entity?_of_allocated ((h.allocated d).2 (.inr hd)), hentityOf,
        h.mark d hd, h.extent d hd]
      rfl
    · have hd' : a'.isAllocated d = false := by
        rw [← Bool.not_eq_true, h.allocated]
        exact fun hor => hor.elim hcd hd
      rw [Bool.not_eq_true] at hd
      rw [entity?_of_not_allocated hd, entity?_of_not_allocated hd']

/-- The arena without the registrations of a cell, as its header gives them. -/
def unlist (a : Arena) (c : Nat) : Arena :=
  let header := a.headers.get c
  let fixed := if header.isFixed then a.fixed.filter (· != c) else a.fixed
  let finalizers := if header.hasFinalizer then (a.finalizers.remove c).2 else a.finalizers
  { a with fixed, finalizers }

/-- Dropping the registrations of a cell is seen in its slot and nowhere else. -/
theorem slot_unlist (ha : a.Sound) (hfixed : (a.slot c).fixed → (a.headers.get c).isFixed = true)
    (hregistered : (a.slot c).idle ∨ (a.slot c).pending → (a.headers.get c).hasFinalizer = true) :
    (a.unlist c).Sound ∧ (a.unlist c).slot = Function.update a.slot c
      { a.slot c with fixed := False, idle := False, pending := False } := by
  have hfixedMem : ∀ d, d ∈ (a.unlist c).fixed ↔ d ∈ a.fixed ∧ d ≠ c := by
    intro d
    rw [unlist]
    simp only
    split
    · simp
    · next hnot =>
      refine ⟨fun hd => ⟨hd, ?_⟩, fun hd => hd.1⟩
      rintro rfl
      exact hnot (hfixed hd)
  have hregister : (a.unlist c).finalizers.Wf ∧
      ((a.unlist c).finalizers.entries.map Prod.fst).Nodup ∧
      ∀ x, x ∈ (a.unlist c).finalizers.entries ↔ x ∈ a.finalizers.entries ∧ x.1 ≠ c := by
    rw [unlist]
    simp only
    split
    · obtain ⟨hwf, hremove⟩ := FinalizerRegister.remove_spec ha.register c
      rcases hremove with ⟨pending, hperm⟩ | ⟨hnone, heq⟩
      · have hnodup := (hperm.map Prod.fst).nodup_iff.1 ha.nodup
        rw [List.map_cons, List.nodup_cons] at hnodup
        refine ⟨hwf, hnodup.2, fun x => ?_⟩
        rw [hperm.mem_iff, List.mem_cons]
        constructor
        · intro hx
          refine ⟨.inr hx, ?_⟩
          rintro rfl
          exact hnodup.1 (List.mem_map.2 ⟨x, hx, rfl⟩)
        · rintro ⟨rfl | hx, hne⟩
          · exact absurd rfl hne
          · exact hx
      · rw [heq]
        exact ⟨ha.register, ha.nodup, fun x => ⟨fun hx => ⟨hx, hnone x hx⟩, fun hx => hx.1⟩⟩
    · next hnot =>
      refine ⟨ha.register, ha.nodup, fun x => ⟨fun hx => ⟨hx, ?_⟩, fun hx => hx.1⟩⟩
      rintro rfl
      refine hnot (hregistered ?_)
      obtain ⟨d, pending⟩ := x
      cases pending with
      | true => exact .inr hx
      | false => exact .inl hx
  obtain ⟨hwf, hnodup, hmem⟩ := hregister
  refine ⟨⟨ha.tiled.congr _ _ _ _ _, hwf, hnodup⟩, ?_⟩
  have hentity : (a.unlist c).entity? = a.entity? := rfl
  funext d
  by_cases hcd : d = c
  · subst hcd
    rw [Function.update_self, slot, slot, hentity]
    simp [hfixedMem, hmem]
    rfl
  · rw [Function.update_of_ne hcd, slot, slot, hentity]
    simp [hfixedMem, hmem, hcd]
    rfl

/-- A freed object is gone from its slot, and nothing else changes. -/
theorem slot_vacated (ha : a.Sound) (h : Vacated a a' c) :
    a'.Sound ∧ a'.slot = Function.update a.slot c { a.slot c with entity? := none } := by
  refine ⟨⟨h.tiled, by rw [h.keeps.finalizers]; exact ha.register,
    by rw [h.keeps.finalizers]; exact ha.nodup⟩, ?_⟩
  funext d
  by_cases hcd : d = c
  · subst hcd
    have hd : a'.isAllocated d = false := by
      rw [← Bool.not_eq_true, h.allocated]
      exact fun hand => hand.1 rfl
    rw [Function.update_self, slot, slot, h.keeps.grey, h.keeps.finalizers, h.fixed,
      entity?_of_not_allocated hd]
  · rw [Function.update_of_ne hcd, slot, slot, h.keeps.grey, h.keeps.finalizers, h.fixed]
    by_cases hd : a.isAllocated d = true
    · have hd' := (h.allocated d).2 ⟨hcd, hd⟩
      rw [entity?_of_allocated hd, entity?_of_allocated hd']
      simp only [entityOf, byteAt, h.keeps.headers, h.keeps.bytes, h.needsSweep, h.mark d hd',
        h.extent d hd']
    · have hd' : a'.isAllocated d = false := by
        rw [← Bool.not_eq_true, h.allocated]
        exact fun hand => hd hand.2
      rw [Bool.not_eq_true] at hd
      rw [entity?_of_not_allocated hd, entity?_of_not_allocated hd']

/-- A sweep settles every object and leaves the lists alone, if everything in them
survives. -/
theorem slot_swept (ha : a.Sound) (h : Swept a a')
    (hfixed : ∀ c ∈ a.fixed, a.isAllocated c = true ∧ a.mark.get c = true) :
    a'.Sound ∧ ∀ c, a'.slot c = { a.slot c with entity? := (a.slot c).entity?.bind Entity.settle } := by
  refine ⟨⟨h.tiled, by rw [h.keeps.finalizers]; exact ha.register,
    by rw [h.keeps.finalizers]; exact ha.nodup⟩, fun c => ?_⟩
  have hfixed' : a'.fixed = a.fixed := by
    by_cases hsome : ∃ c, a'.isAllocated c = true
    · exact h.fixed hsome
    · have hnone : ∀ c, a'.isAllocated c = false := fun c => by
        rw [← Bool.not_eq_true]
        exact fun hc => hsome ⟨c, hc⟩
      rw [(h.isEmpty hnone).2.1, eq_comm, Array.eq_empty_iff_forall_not_mem]
      exact fun c hc => hsome ⟨c, (h.allocated c).2 (hfixed c hc)⟩
  have hentity : a'.entity? c = (a.entity? c).bind Entity.settle := by
    by_cases hc : a.isAllocated c = true
    · rw [entity?_of_allocated hc, Option.bind_some, Entity.settle]
      cases hm : a.mark.get c with
      | true =>
        have hc' := (h.allocated c).2 ⟨hc, hm⟩
        rw [if_pos (by simp [entityOf, hm]), entity?_of_allocated hc', h.extent c hc']
        simp only [entityOf, byteAt, h.keeps.headers, h.keeps.bytes, h.needsSweep, h.white c hc']
      | false =>
        have hc' : a'.isAllocated c = false := by
          rw [← Bool.not_eq_true, h.allocated, hm]
          exact fun hand => Bool.false_ne_true hand.2
        rw [if_neg (by simp [entityOf, hm]), entity?_of_not_allocated hc']
    · have hc' : a'.isAllocated c = false := by
        rw [← Bool.not_eq_true, h.allocated]
        exact fun hand => hc hand.1
      rw [Bool.not_eq_true] at hc
      rw [entity?_of_not_allocated hc, entity?_of_not_allocated hc']
      rfl
  rw [slot, slot, h.keeps.grey, h.keeps.finalizers, hfixed', hentity]

/-! ## Selecting finalizers -/

/-- Modifying some headers is seen at their cells and nowhere else. -/
theorem get_foldl_modify (f : Header → Header) (hf : ∀ h, f (f h) = f h) (cells : List Nat)
    (headers : Zeroed Header) (c : Nat) :
    (cells.foldl (fun headers cell => headers.modify cell f) headers).get c =
      if c ∈ cells then f (headers.get c) else headers.get c := by
  induction cells generalizing headers with
  | nil => rw [List.foldl_nil, if_neg List.not_mem_nil]
  | cons d rest ih =>
    rw [List.foldl_cons, ih, Zeroed.get_modify]
    by_cases hdc : d = c
    · subst hdc
      rw [if_pos rfl, if_pos List.mem_cons_self, hf]
      split <;> rfl
    · rw [if_neg hdc]
      have hiff : c ∈ d :: rest ↔ c ∈ rest := by
        rw [List.mem_cons, or_iff_right (Ne.symm hdc)]
      simp only [hiff]

/-- The verdict on a registration: objects that were reached stay. -/
def verdict (a : Arena) (isFinalizable : Ref → Bool) (cell : Nat) : Verdict :=
  if a.mark.get cell then .keep
  else if isFinalizable (a.object cell) then .pending
  else .forget

section Selection

variable {isFinalizable : Ref → Bool}

theorem verdict_eq_keep : a.verdict isFinalizable c = .keep ↔ a.mark.get c = true := by
  rw [verdict]
  split
  · next hm => exact iff_of_true rfl hm
  · next hm => exact iff_of_false (by split <;> exact Verdict.noConfusion) hm

theorem verdict_eq_pending :
    a.verdict isFinalizable c = .pending ↔ a.mark.get c = false ∧ isFinalizable (a.object c) = true := by
  rw [verdict, ← Bool.not_eq_true]
  split
  · next hm => exact iff_of_false Verdict.noConfusion fun h => h.1 hm
  · next hm =>
    split
    · next hf => exact iff_of_true rfl ⟨hm, hf⟩
    · next hf => exact iff_of_false Verdict.noConfusion fun h => hf h.2

/-- The cells that are offered for selection are the registered ones that are not due. -/
theorem mem_idle : c ∈ Chunk.idle a.finalizers.entries ↔ (a.slot c).idle := by
  rw [Chunk.idle, List.mem_filterMap]
  constructor
  · rintro ⟨⟨d, _ | _⟩, hd, heq⟩
    · cases heq
      exact hd
    · cases heq
  · exact fun hc => ⟨(c, false), hc, rfl⟩

/-- A registered object was not reached if it is not marked. -/
theorem unreached_iff (hidle : (a.slot c).idle → a.isAllocated c = true) :
    (a.slot c).Unreached ↔ (a.slot c).idle ∧ a.mark.get c = false := by
  refine and_congr_right fun hc => ⟨?_, fun hm => ⟨_, entity?_of_allocated (hidle hc), hm⟩⟩
  rintro ⟨e, he, hm⟩
  rw [← (eq_entityOf he).2.1, hm]

/-- All cells that are offered lie in the arena. -/
theorem forM_require_idle (ha : a.Sound) (hidle : ∀ c, (a.slot c).idle → a.isAllocated c = true) :
    (Chunk.idle a.finalizers.entries).forM (fun cell => require
      (cell < arenaCells ∧ (a.mark.get cell = true ∨ firstCell ≤ cell)) (.cellOutOfRange cell)) =
        Except.ok () := by
  have hall : ∀ c ∈ Chunk.idle a.finalizers.entries,
      c < arenaCells ∧ (a.mark.get c = true ∨ firstCell ≤ c) := by
    intro c hc
    obtain ⟨hge, hlt, -⟩ := isAllocated_iff.1 (hidle c (mem_idle.1 hc))
    obtain ⟨chains, h⟩ := ha.tiled
    exact ⟨lt_of_lt_of_le hlt h.top_le, .inr hge⟩
  generalize Chunk.idle a.finalizers.entries = cells at hall
  induction cells with
  | nil => rfl
  | cons c rest ih =>
    exact bind_eq_ok_iff.2 ⟨(), require_eq_ok_iff.2 (hall c List.mem_cons_self),
      ih fun d hd => hall d (List.mem_cons_of_mem _ hd)⟩

/-- The slots after the objects at some cells were forgotten and the others judged. -/
theorem slot_select {finalizers : FinalizerRegister} {headers : Zeroed Header} {forgotten : List Nat}
    (hidle : (a.slot c).idle → a.isAllocated c = true)
    (hentries : finalizers.entries.Perm
      (a.finalizers.entries.filterMap (Chunk.judge (a.verdict isFinalizable))))
    (hheaders : headers.get c = if c ∈ forgotten then { a.headers.get c with hasFinalizer := false }
      else a.headers.get c)
    (hforgotten : c ∈ forgotten ↔ (a.slot c).Unreached ∧ isFinalizable (a.object c) = false) :
    (a.slot c).Selected (isFinalizable (a.object c)) (slot { a with finalizers, headers } c) := by
  have hunreached := unreached_iff hidle
  have hidle' : ((c, false) ∈ finalizers.entries) ↔ (a.slot c).idle ∧ ¬ (a.slot c).Unreached := by
    rw [hentries.mem_iff, Chunk.mem_judged_false, verdict_eq_keep, hunreached]
    refine and_congr_right fun hc => ?_
    rw [not_and, Bool.not_eq_false]
    exact ⟨fun hm _ => hm, fun hm => hm hc⟩
  have hpending' : ((c, true) ∈ finalizers.entries) ↔
      (a.slot c).pending ∨ (a.slot c).Unreached ∧ isFinalizable (a.object c) = true := by
    rw [hentries.mem_iff, Chunk.mem_judged_true, verdict_eq_pending, hunreached, and_assoc]
    exact Iff.rfl
  have hentity : entity? { a with finalizers, headers } c =
      (a.entity? c).map fun e => { e with header := if c ∈ forgotten then
        { e.header with hasFinalizer := false } else e.header } := by
    cases hc : a.isAllocated c with
    | true =>
      rw [entity?_of_allocated hc, entity?_of_allocated (a := { a with finalizers, headers }) hc,
        Option.map_some]
      simp only [entityOf, hheaders]
      rfl
    | false =>
      rw [entity?_of_not_allocated hc, entity?_of_not_allocated (a := { a with finalizers, headers }) hc]
      rfl
  refine Slot.Selected.of_judged (fun hnot => ?_) fun hand => ?_
  · refine Slot.ext (hentity.trans ?_) rfl rfl (propext hidle') (propext hpending')
    simp only [if_neg (mt hforgotten.1 hnot)]
    exact Option.map_id'
  · refine Slot.ext (hentity.trans ?_) rfl rfl (propext hidle') (propext hpending')
    simp only [if_pos (hforgotten.2 hand)]
    rfl

/-- Selecting finalizers judges every registered object and answers those that were not
reached, and those of them whose finalizers are now due. -/
theorem selectFinalizers_spec (ha : a.Sound) (isFinalizable : Ref → Bool)
    (hidle : ∀ c, (a.slot c).idle → a.isAllocated c = true) :
    ∃ asked doomed a', a.selectFinalizers isFinalizable = .ok (asked, doomed, a') ∧ a'.Sound ∧
      a'.page = a.page ∧ a'.index = a.index ∧ a'.needsSweep = a.needsSweep ∧ a'.used = a.used ∧
      a'.grey = a.grey ∧
      (∀ c, (a.slot c).Selected (isFinalizable (a.object c)) (a'.slot c)) ∧
      (∀ c, c ∈ asked ↔ (a.slot c).Unreached) ∧
      ∀ c, c ∈ doomed ↔ (a.slot c).Unreached ∧ isFinalizable (a.object c) = true := by
  obtain ⟨hwf, hentries, hoffered⟩ := FinalizerRegister.select_spec ha.register (a.verdict isFinalizable)
  set offered := (a.finalizers.select (a.verdict isFinalizable)).1
  set finalizers := (a.finalizers.select (a.verdict isFinalizable)).2
  let asked := offered.filter fun cell => !a.mark.get cell
  let forgotten := asked.filter fun cell => !isFinalizable (a.object cell)
  let unregister (h : Header) : Header := { h with hasFinalizer := false }
  let headers := forgotten.foldl (fun headers cell => headers.modify cell unregister) a.headers
  have hasked : ∀ c, c ∈ asked ↔ (a.slot c).Unreached := fun c => by
    rw [List.mem_filter, hoffered.mem_iff, mem_idle, unreached_iff (hidle c), Bool.not_eq_true']
  have hforgotten : ∀ c, c ∈ forgotten ↔ (a.slot c).Unreached ∧ isFinalizable (a.object c) = false :=
    fun c => by rw [List.mem_filter, hasked, Bool.not_eq_true']
  have hnodup : (finalizers.entries.map Prod.fst).Nodup :=
    (hentries.map Prod.fst).nodup_iff.2 (ha.nodup.sublist (Chunk.judged_sublist _ _))
  refine ⟨asked, asked.filter fun cell => isFinalizable (a.object cell), { a with finalizers, headers },
    bind_eq_ok_iff.2 ⟨(), forM_require_idle ha hidle, rfl⟩, ⟨ha.tiled.congr _ _ _ _ _, hwf, hnodup⟩,
    rfl, rfl, rfl, rfl, rfl, fun c => ?_, hasked, fun c => by rw [List.mem_filter, hasked]⟩
  exact slot_select (hidle c) hentries
    (get_foldl_modify unregister (fun _ => rfl) forgotten a.headers c) (hforgotten c)

end Selection

end Arena

end Tricolor
