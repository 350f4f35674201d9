import Tricolor.Proofs.References

/-!
# Moving objects during marking

The collector knows that an object was reached by its mark, by its place in a queue, by the
store buffer, and for weak tables by the list of those that it will clear. An object that is
moved while objects are being marked takes its mark along, and nothing is forgotten of any
other object. It does not take along that it was recorded: an object that a barrier turned
white again is unknown to the collector once it was moved. A table that is resized as a block
does not take along either that it is to be cleared.
-/

namespace Tricolor

namespace Heap

variable {h h' h₁ : Heap} {r t moved : Ref} {e x : Entity} {size : Nat}

/-- The object was marked. -/
def Reached (h : Heap) (r : Ref) : Prop := h.space.isMarked r = .ok true

/-- The collector knows of an object that it was reached, or will mark it. -/
def Known (h : Heap) (r : Ref) : Prop := h.Reached r ∨ r ∈ h.stores.entries

/-- The object waits to be traversed. -/
def Waits (h : Heap) (r : Ref) : Prop := (h.space.slot r).queued

/-- What an object that moves from `r` to `moved` takes along. -/
structure Carries (h : Heap) (r moved : Ref) (size : Nat) (h' : Heap) : Prop where
  live : h'.Live moved
  /-- its mark goes with it, and nothing but its mark -/
  known : h'.Known moved ↔ h.Reached r
  reached : h'.Reached moved ↔ h.Reached r
  /-- a marked object that was moved by copying it is traversed again -/
  traversedAgain : ¬ h.StaysHuge r size → h.Reached r →
    (∀ kind, h.kind r = .ok kind → kind.isLeaf = false) → h'.Waits moved
  /-- a block that stays one waits if it did, and is not remembered as a weak table -/
  block : h.StaysHuge r size → (h'.Waits moved ↔ h.Waits r) ∧ moved ∉ h'.cycle.weakTables
  /-- nothing is forgotten of any other object -/
  others : ∀ t, t ≠ r → t ≠ moved → (h'.Reached t ↔ h.Reached t) ∧ (h'.Waits t ↔ h.Waits t) ∧
    (t ∈ h'.stores.entries ↔ t ∈ h.stores.entries) ∧ (t ∈ h'.cycle.weakTables ↔ t ∈ h.cycle.weakTables)

theorem reached_iff (hwf : h.space.Wf) (he : (h.space.slot r).entity? = some e) :
    h.Reached r ↔ e.marked = true := by
  rw [Reached, Space.isMarked_eq hwf he, Except.ok.injEq]

/-- Being marked, and waiting, are matters of the slot. -/
theorem reached_congr (hwf : h.space.Wf) (hwf' : h'.space.Wf) (hslot : h'.space.slot t = h.space.slot t) :
    h'.Reached t ↔ h.Reached t := by
  have hmono : ∀ {h h' : Heap}, h.space.Wf → h'.space.Wf → h'.space.slot t = h.space.slot t →
      h.Reached t → h'.Reached t := by
    intro h h' hwf hwf' hslot hreached
    rcases Space.exists_of_isMarked hwf hreached with ⟨e, he, hm⟩ | ⟨-, -, hfalse⟩
    · exact (reached_iff hwf' (hslot ▸ he)).2 hm
    · cases hfalse
  exact ⟨hmono hwf' hwf hslot.symm, hmono hwf hwf' hslot⟩

/-- Nothing is recorded of a place without an object. -/
theorem Recorded.not_mem (hrec : h.Recorded) (hp : h.phase.IsMarking)
    (hnone : (h.space.slot r).entity? = none) : r ∉ h.stores.entries ∧ r ∉ h.cycle.weakTables := by
  constructor
  · intro hmem
    obtain ⟨e, he⟩ := hrec.1 r hmem
    rw [hnone] at he
    cases he
  · intro hmem
    obtain ⟨e, he⟩ := hrec.2 hp r hmem
    rw [hnone] at he
    cases he

theorem not_mem_forget {c : Cycle} : t ∈ (c.forget r).weakTables ↔ t ∈ c.weakTables ∧ t ≠ r := by
  simp [Cycle.forget]

theorem not_mem_erase {b : StoreBuffer} : t ∈ (b.erase r).entries ↔ t ∈ b.entries ∧ t ≠ r := by
  simp [StoreBuffer.erase]

/-- A copy takes the mark of the object along. -/
theorem Copies.carries (hs : h.Sound) (hrec : h.Recorded) (hp : h.phase.IsMarking)
    (he : (h.space.slot r).entity? = some e) (hstays : ¬ h.StaysHuge r size) (hne : moved ≠ r)
    (hc : h.Copies r e size moved h₁) (hrel : h₁.Releases r h') : h.Carries r moved size h' := by
  have hs' := hc.sound.releases hrel
  obtain ⟨x, hx, -, hsurvives, hmarked⟩ := hc.copy
  have hslot : h'.space.slot moved = h₁.space.slot moved := hrel.revises.slot_ne hne
  have hx' : (h'.space.slot moved).entity? = some x := hslot ▸ hx
  have hstores : ∀ t, t ∈ h'.stores.entries ↔ t ∈ h.stores.entries ∧ t ≠ r := by
    intro t
    rw [hrel.stores, hc.others]
    exact not_mem_erase
  have hweak : ∀ t, t ∈ h'.cycle.weakTables ↔ t ∈ h.cycle.weakTables ∧ t ≠ r := by
    intro t
    rw [hrel.cycle, hc.others]
    exact not_mem_forget
  have hreached : h'.Reached moved ↔ h.Reached r := by
    rw [reached_iff hs'.wf hx', reached_iff hs.wf he, hmarked hp]
  have hnot : moved ∉ h'.stores.entries := fun hmem =>
    (hrec.not_mem hp hc.vacant).1 ((hstores moved).1 hmem).1
  refine ⟨hs'.live_iff.2 ⟨x, hx', hsurvives⟩, ⟨fun hor => hreached.1 (hor.resolve_right hnot),
    fun hr => .inl (hreached.2 hr)⟩, hreached, fun _ hr hleaf => ?_, fun hstays' => absurd hstays' hstays,
    fun t htr htm => ?_⟩
  · have hkind : h.kind r = .ok e.header.kind := by
      rw [Heap.kind]
      exact bind_eq_ok_iff.2 ⟨(), require_eq_ok_iff.2 (hs.isLive_iff.2 ⟨e, he⟩), bind_eq_ok_iff.2
        ⟨e.header, Space.header_eq hs.wf he, rfl⟩⟩
    rw [Waits, hslot]
    exact hc.queued hp ((reached_iff hs.wf he).1 hr) (hleaf _ hkind)
  · have hslot : h'.space.slot t = h.space.slot t :=
      (hrel.revises.slot_ne htr).trans (hc.slot t htm)
    refine ⟨reached_congr hs.wf hs'.wf hslot, by rw [Waits, Waits, hslot], ?_, ?_⟩
    · rw [hstores]
      exact and_iff_left htr
    · rw [hweak]
      exact and_iff_left htr

/-- What a resizing that moves an object takes along. -/
theorem Reallocates.carries (hs : h.Sound) (hrec : h.Recorded) (hp : h.phase.IsMarking)
    (he : (h.space.slot r).entity? = some e) (hsurvives : e.survives = true) (hne : moved ≠ r)
    (hr : h.Reallocates r e size (.ok moved) h') : h.Carries r moved size h' := by
  cases hr with
  | @resized _ x s' hs' hslot hmoved hmark hawaits _ =>
    obtain ⟨hstays, hvacant⟩ := hmoved.resolve_left hne
    obtain ⟨hstores, hweak⟩ := hrec.not_mem hp hvacant
    have hself : s'.slot moved = { h.space.slot r with entity? := some x } := by
      rw [hslot, Function.update_self]
    have hx : (s'.slot moved).entity? = some x := by rw [hself]
    have hreached : Reached { h with space := s' } moved ↔ h.Reached r := by
      rw [reached_iff hs'.wf hx, reached_iff hs.wf he, hmark]
    refine ⟨hs'.live_iff.2 ⟨x, hx, ?_⟩, ⟨fun hor => hreached.1 (hor.resolve_right hstores),
      fun hr => .inl (hreached.2 hr)⟩, hreached, fun hstays' => absurd hstays hstays', fun _ => ⟨?_, hweak⟩,
      fun t htr htm => ?_⟩
    · rwa [Entity.survives, hmark, hawaits]
    · rw [Waits, show (Heap.space { h with space := s' }).slot moved = _ from hself]
      rfl
    · have hother : s'.slot t = h.space.slot t := by
        rw [hslot, Function.update_of_ne htm, Function.update_of_ne htr]
      exact ⟨reached_congr hs.wf hs'.wf hother, by rw [Waits, Waits, ← hother], .rfl, .rfl⟩
  | moved hstays _ hc hrel => exact hc.carries hs hrec hp he hstays hne hrel

end Heap

namespace Machine

variable {σ : Type} {mu : Mutator σ} {m : Machine σ} {config : Config} {hashOf : List UInt8 → Hash}
  {supply : Supply} {r moved : Ref} {old size : Nat} {h : Heap}

/-- An object that moves while objects are being marked takes its mark along, and nothing but
its mark: it is known to the collector afterwards exactly if it was marked before. So one that
a barrier has recorded and unmarked is lost sight of. -/
theorem moving_keeps_the_mark (hm : Reachable mu Heap.unstranded config hashOf m)
    (hp : m.heap.phase = .propagate ∨ m.heap.phase = .atomic) (hlive : m.heap.Live r)
    (hfresh : m.heap.FreshFor supply r size)
    (hrun : m.heap.realloc supply r old size = .ok (.ok moved, h)) (hne : moved ≠ r) :
    m.heap.Carries r moved size h := by
  obtain ⟨e, he, hr⟩ := Heap.realloc_eq_ok hm.sound hfresh hrun
  obtain ⟨x, hx, hsurvives⟩ := hm.sound.live_iff.1 hlive
  rw [he] at hx
  cases hx
  exact hr.carries hm.sound hm.recorded hp he hsurvives hne

/-- A table that a barrier has recorded is not known to the collector any more once it was moved. -/
theorem recorded_table_unknown_when_moved : ∃ (m : Machine Ledger) (h : Heap),
    m.heap.phase = .propagate ∧ m.heap.Known (.huge 5) ∧
      m.heap.realloc (.page 6) (.huge 5) 24 100 = .ok (.ok (.huge 6), h) ∧
      h.Live (.huge 6) ∧ ¬ h.Known (.huge 6) := by
  obtain ⟨m, h, hreach, hp, hlive, hmem, hwhite, -, hfresh, hresized⟩ := exists_recorded_block
  have hcarries := moving_keeps_the_mark hreach (.inl hp) hlive hfresh hresized (by decide)
  refine ⟨m, h, hp, .inr hmem, hresized, hcarries.live, fun hknown => ?_⟩
  have hmarked := hcarries.known.1 hknown
  rw [Heap.Reached, hwhite] at hmarked
  cases hmarked

end Machine

end Tricolor
