import Mathlib.Logic.Function.Basic
import Tricolor.Object
import Tricolor.Layout

/-!
# What a heap knows of an object

An `Entity` is an allocated object as the collector sees it, wherever it is stored. A
`Slot` is all that is recorded of one place: the object there, if there is one, and the
lists that the place stands in. Arenas, huge blocks and spaces are all viewed as functions
from places to slots, so what an operation does to them is said once.
-/

namespace Tricolor

/-- An allocated object. -/
@[ext] structure Entity where
  /-- the bytes that it occupies -/
  size : Nat
  /-- it was reached in this cycle -/
  marked : Bool
  /-- it awaits the sweep of this cycle -/
  awaits : Bool
  /-- its header -/
  header : Header
  /-- the bytes behind its header, zero from its end on -/
  content : Nat → UInt8

namespace Entity

/-- The object outlives the pending sweep, if there is one. -/
def survives (e : Entity) : Bool := e.marked || !e.awaits

/-- The payload of an object. -/
def payload (e : Entity) : List UInt8 := (List.range e.header.size).map e.content

@[simp]
theorem length_payload (e : Entity) : e.payload.length = e.header.size := by
  rw [payload, List.length_map, List.length_range]

theorem getElem_payload (e : Entity) {i : Nat} (h : i < e.payload.length) : e.payload[i] = e.content i := by
  simp only [payload, List.getElem_map, List.getElem_range]

/-- The payload of an object once it is resized to `size` bytes: what fits of it, then zeros. -/
def refitted (e : Entity) (size : Nat) : List UInt8 :=
  e.payload.take size ++ List.replicate (size - e.header.size) 0

@[simp]
theorem length_refitted (e : Entity) (size : Nat) : (e.refitted size).length = size := by
  rw [refitted, List.length_append, List.length_take, length_payload, List.length_replicate]
  omega

/-- An object of the new length with the same bytes, and zeros behind them, has the payload of the resized
object. -/
theorem payload_eq_refitted {e x : Entity} (h : ∀ i, i < x.header.size →
    x.content i = if i < e.header.size then e.content i else 0) : x.payload = e.refitted x.header.size := by
  refine List.ext_getElem (by rw [length_payload, length_refitted]) fun i hi _ => ?_
  rw [length_payload] at hi
  have hlength : (e.payload.take x.header.size).length = min x.header.size e.header.size := by
    rw [List.length_take, length_payload]
  rw [getElem_payload, h i hi]
  by_cases hlt : i < e.header.size
  · rw [if_pos hlt]
    simp only [refitted]
    rw [List.getElem_append_left (by omega), List.getElem_take, getElem_payload]
  · rw [if_neg hlt]
    simp only [refitted]
    rw [List.getElem_append_right (by omega), List.getElem_replicate]

/-- What the pending sweep makes of an object. -/
def settle (e : Entity) : Option Entity :=
  if e.marked then some { e with marked := false, awaits := false } else none

end Entity

/-- All that is recorded of a place. -/
@[ext] structure Slot where
  /-- the object there -/
  entity? : Option Entity
  /-- the place stands in a queue of objects to be traversed -/
  queued : Prop
  /-- the place stands in a list of fixed objects -/
  fixed : Prop
  /-- the place is registered for finalization -/
  idle : Prop
  /-- the finalizer for the object at the place is due -/
  pending : Prop

namespace Slot

/-- A place of which nothing is recorded. -/
def blank : Slot := ⟨none, False, False, False, False⟩

/-- Changes the object at a place. -/
def mapEntity (v : Slot) (f : Entity → Entity) : Slot := { v with entity? := v.entity?.map f }

@[simp] theorem mapEntity_entity? (v : Slot) (f : Entity → Entity) :
    (v.mapEntity f).entity? = v.entity?.map f := rfl

@[simp] theorem mapEntity_queued (v : Slot) (f : Entity → Entity) :
    (v.mapEntity f).queued = v.queued := rfl

@[simp] theorem mapEntity_fixed (v : Slot) (f : Entity → Entity) :
    (v.mapEntity f).fixed = v.fixed := rfl

@[simp] theorem mapEntity_idle (v : Slot) (f : Entity → Entity) :
    (v.mapEntity f).idle = v.idle := rfl

@[simp] theorem mapEntity_pending (v : Slot) (f : Entity → Entity) :
    (v.mapEntity f).pending = v.pending := rfl

theorem mapEntity_of_some {v : Slot} {e : Entity} (he : v.entity? = some e) (f : Entity → Entity) :
    v.mapEntity f = { v with entity? := some (f e) } := by
  rw [mapEntity, he]
  rfl

/-- What marking makes of a place: an object that was not reached before is marked, and
queued unless it is a leaf. -/
def shade (v : Slot) : Slot :=
  match v.entity? with
  | none => v
  | some e =>
    if e.marked then v
    else
      { v with
        entity? := some { e with marked := true }
        queued := v.queued ∨ e.header.kind.isLeaf = false }

theorem shade_of_none {v : Slot} (h : v.entity? = none) : v.shade = v := by
  rw [shade, h]

theorem shade_of_marked {v : Slot} {e : Entity} (h : v.entity? = some e) (hm : e.marked = true) :
    v.shade = v := by
  rw [shade, h]
  exact if_pos hm

theorem shade_of_white {v : Slot} {e : Entity} (h : v.entity? = some e) (hm : e.marked = false) :
    v.shade = { v with
      entity? := some { e with marked := true }
      queued := v.queued ∨ e.header.kind.isLeaf = false } := by
  rw [shade, h]
  exact if_neg (by rw [hm]; exact Bool.false_ne_true)

@[simp] theorem shade_entity? (v : Slot) :
    v.shade.entity? = v.entity?.map fun e => { e with marked := true } := by
  cases h : v.entity? with
  | none => rw [shade_of_none h, h]; rfl
  | some e =>
    cases hm : e.marked with
    | true =>
      rw [shade_of_marked h hm, h, Option.map_some, ← hm]
    | false => rw [shade_of_white h hm]; rfl

@[simp] theorem shade_fixed (v : Slot) : v.shade.fixed = v.fixed := by
  unfold shade
  split
  · rfl
  · split <;> rfl

@[simp] theorem shade_idle (v : Slot) : v.shade.idle = v.idle := by
  unfold shade
  split
  · rfl
  · split <;> rfl

@[simp] theorem shade_pending (v : Slot) : v.shade.pending = v.pending := by
  unfold shade
  split
  · rfl
  · split <;> rfl

@[simp] theorem shade_shade (v : Slot) : v.shade.shade = v.shade := by
  cases h : v.entity? with
  | none => rw [shade_of_none h, shade_of_none h]
  | some e =>
    exact shade_of_marked (e := { e with marked := true }) (by rw [shade_entity?, h]; rfl) rfl

/-- A place is queued after it was marked if it was before, or if it holds an object that was
white and is no leaf. -/
theorem shade_queued (v : Slot) : v.shade.queued ↔ v.queued ∨
    ∃ e, v.entity? = some e ∧ e.marked = false ∧ e.header.kind.isLeaf = false := by
  cases h : v.entity? with
  | none =>
    rw [shade_of_none h]
    exact ⟨.inl, fun hor => hor.elim id fun ⟨_, he, _⟩ => by cases he⟩
  | some e =>
    cases hm : e.marked with
    | true =>
      rw [shade_of_marked h hm]
      refine ⟨.inl, fun hor => hor.elim id ?_⟩
      rintro ⟨_, he, hwhite, -⟩
      cases he
      rw [hm] at hwhite
      cases hwhite
    | false =>
      rw [shade_of_white h hm]
      refine or_congr_right ⟨fun hleaf => ⟨e, rfl, hm, hleaf⟩, ?_⟩
      rintro ⟨_, he, -, hleaf⟩
      cases he
      exact hleaf

/-- An object that this cycle has not reached is registered at the place. -/
def Unreached (v : Slot) : Prop := v.idle ∧ ∃ e, v.entity? = some e ∧ e.marked = false

/-- What the selection of finalizers makes of a place: an unreached object becomes due if
it still has to be finalized, and is forgotten if not. -/
structure Selected (isFinalizable : Bool) (v v' : Slot) : Prop where
  keep : ¬ v.Unreached → v' = v
  doom : v.Unreached → isFinalizable = true → v' = { v with idle := False, pending := True }
  forget : v.Unreached → isFinalizable = false → v' = ({ v with idle := False }).mapEntity
    fun e => { e with header := { e.header with hasFinalizer := false } }

/-- A place whose lists were judged: an unreached object is no longer registered, and its
finalizer is due if it still has to be finalized. -/
def judged (v : Slot) (isFinalizable : Bool) : Slot :=
  { v with
    idle := v.idle ∧ ¬ v.Unreached
    pending := v.pending ∨ v.Unreached ∧ isFinalizable = true }

/-- To judge the lists and to clear the flag of what is forgotten is to select. -/
theorem Selected.of_judged {v v' : Slot} {isFinalizable : Bool}
    (hkeep : ¬ (v.Unreached ∧ isFinalizable = false) → v' = v.judged isFinalizable)
    (hforget : v.Unreached ∧ isFinalizable = false → v' = (v.judged isFinalizable).mapEntity
      fun e => { e with header := { e.header with hasFinalizer := false } }) :
    v.Selected isFinalizable v' where
  keep hu := by
    rw [hkeep fun hand => hu hand.1]
    exact Slot.ext rfl rfl rfl (propext (and_iff_left hu)) (propext (or_iff_left fun hand => hu hand.1))
  doom hu hf := by
    rw [hkeep fun hand => Bool.false_ne_true (hand.2.symm.trans hf)]
    exact Slot.ext rfl rfl rfl (propext (iff_of_false (fun hand => hand.2 hu) id))
      (propext (iff_of_true (.inr ⟨hu, hf⟩) trivial))
  forget hu hf := by
    rw [hforget ⟨hu, hf⟩]
    exact Slot.ext rfl rfl rfl (propext (iff_of_false (fun hand => hand.2 hu) id))
      (propext (or_iff_left fun hand => Bool.false_ne_true (hf.symm.trans hand.2)))

/-- What is left at a place when its finalizer, which was due, is taken. -/
def taken (v : Slot) : Slot :=
  { v with pending := False }.mapEntity fun e =>
    { e with header := { e.header with hasFinalizer := false } }

end Slot

end Tricolor
