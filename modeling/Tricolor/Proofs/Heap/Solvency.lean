import Tricolor.Proofs.Cycle.Sweeping
import Tricolor.Proofs.Heap.Moving

/-!
# Counters that never fall below zero

What the heap counts is counted up when objects are placed and down when they go. Placing an
object only adds. Where something is subtracted (an object is freed, a block is resized, an arena
or the blocks are swept), it was counted before.
-/

namespace Tricolor

/-- An operation does not subtract more than there is. -/
structure Solvent {α : Type} (x : Except Fault α) : Prop where
  ne : x ≠ .error .underflow

namespace Solvent

variable {α β : Type}

theorem ok (a : α) : Solvent (.ok a : Except Fault α) := ⟨nofun⟩

theorem error {fault : Fault} (h : fault ≠ .underflow) : Solvent (.error fault : Except Fault α) :=
  ⟨fun heq => h (Except.error.inj heq)⟩

/-- A sequence of operations. -/
theorem bind {x : Except Fault α} {f : α → Except Fault β} (hx : Solvent x)
    (hf : ∀ a, x = .ok a → Solvent (f a)) : Solvent (x >>= f) := by
  cases x with
  | error fault => exact error fun heq => hx.ne (congrArg Except.error heq)
  | ok a => exact hf a rfl

theorem require {p : Prop} [Decidable p] {fault : Fault} (h : fault ≠ .underflow) :
    Solvent (require p fault) := by
  unfold Tricolor.require
  split
  · exact ok ()
  · exact error h

theorem checkedAdd (range a b : Nat) : Solvent (checkedAdd range a b) := by
  unfold Tricolor.checkedAdd
  split
  · exact ok _
  · exact error Fault.noConfusion

theorem checkedMul (range a b : Nat) : Solvent (checkedMul range a b) := by
  unfold Tricolor.checkedMul
  split
  · exact ok _
  · exact error Fault.noConfusion

theorem foldlM {f : β → α → Except Fault β} (h : ∀ b a, Solvent (f b a)) :
    ∀ (as : List α) (b : β), Solvent (as.foldlM f b)
  | [], b => ok b
  | a :: as, b => bind (h b a) fun b' _ => foldlM h as b'

end Solvent

theorem solvent_objectBytes (size : Nat) : Solvent (objectBytes size) :=
  .bind (.checkedAdd ..) fun _ _ => .bind (.bind (.checkedAdd ..) fun _ _ => .ok _) fun _ _ => .checkedMul ..

/-! ## Placing objects -/

namespace BlockTable

theorem solvent_placeFrom (e : BlockEntry) : ∀ (n : Nat) (slots : Array (Option BlockEntry)) (i : Nat),
    Solvent (placeFrom slots e i n)
  | 0, _, _ => .ok _
  | n + 1, slots, i => by
    rw [placeFrom]
    split
    · exact .ok _
    · split
      · exact .error Fault.noConfusion
      · exact solvent_placeFrom e n slots _

theorem solvent_place (bits : Nat) (slots : Array (Option BlockEntry)) (e : BlockEntry) :
    Solvent (place bits slots e) := by
  rw [place]
  split
  · exact .ok _
  · exact solvent_placeFrom e _ _ _

theorem solvent_insert (t : BlockTable) (page : Page) (size : Nat) : Solvent (t.insert page size) := by
  refine .bind (.require Fault.noConfusion) fun _ _ => ?_
  have hgrow : Solvent t.grow :=
    .bind (.foldlM (fun slots e => solvent_place _ slots e) _ _) fun _ _ => .ok _
  have hplace : ∀ t : BlockTable, Solvent (do
      let slots ← place t.bits t.slots ⟨page, size, 0⟩
      let bytes ← checkedAdd wordRange t.bytes size
      return { t with slots, size := t.size + 1, bytes }) := fun t =>
    .bind (solvent_place ..) fun _ _ => .bind (.checkedAdd ..) fun _ _ => .ok _
  split
  · exact .bind hgrow fun _ _ => hplace _
  · exact hplace _

theorem solvent_updateFlags (t : BlockTable) (page : Page) (f : BlockFlags → BlockFlags) :
    Solvent (t.updateFlags page f) := by
  refine .bind (.bind (.require Fault.noConfusion) fun _ _ => .ok _) fun place? _ => ?_
  split
  · exact .ok _
  · exact .ok _

end BlockTable

namespace Arena

theorem solvent_claim (a : Arena) (cells : Nat) : Solvent (a.claim cells) := by
  refine .bind (.checkedAdd ..) fun _ _ => ?_
  split
  · exact .ok _
  · have htake : Solvent (a.runs.take a.links cells) := by
      refine .bind (.require Fault.noConfusion) fun _ _ => ?_
      split
      · exact .bind (.bind (.require Fault.noConfusion) fun _ _ => .ok _) fun _ _ => .ok _
      · split
        · exact .ok _
        · exact .ok _
    have hpush : ∀ (runs : FreeRuns) (head n : Nat), Solvent (runs.push a.links head n) := fun runs head n => by
      refine .bind (.require Fault.noConfusion) fun _ _ => ?_
      split
      · exact .bind (.bind (.require Fault.noConfusion) fun _ _ => .ok _) fun _ _ => .ok _
      · exact .ok _
    refine .bind htake ?_
    rintro ⟨found, runs⟩ -
    dsimp only
    split
    · exact .ok _
    · split
      · exact .bind (.require Fault.noConfusion) fun _ _ => .bind (hpush ..) fun _ _ => .ok _
      · exact .ok _

theorem solvent_alloc (a : Arena) (cells : Nat) (black : Bool) : Solvent (a.alloc cells black) := by
  refine .bind (solvent_claim ..) ?_
  rintro ⟨head?, a⟩ -
  dsimp only
  split
  · exact .ok _
  · refine .bind (.bind (.require Fault.noConfusion) fun _ _ => ?_) fun _ _ => .ok _
    exact .bind (.checkedAdd ..) fun _ _ => .ok _

end Arena

namespace Space

variable {s : Space}

theorem solvent_updateArena {α : Type} (s : Space) (index : Nat) {f : Arena → Except Fault (α × Arena)}
    (hf : ∀ a, Solvent (f a)) : Solvent (s.updateArena index f) := by
  obtain ⟨arenas⟩ := s
  rw [updateArena]
  split
  · exact .bind (hf _) fun _ _ => .ok _
  · exact .error Fault.noConfusion

theorem solvent_modifyArenaOf (s : Space) (r : Ref) (f : Arena → Arena) :
    Solvent (s.modifyArenaOf r fun a => return f a) := by
  refine .bind ?_ fun _ _ => .bind (solvent_updateArena _ _ fun _ => .ok _) fun _ _ => .ok _
  unfold indexOf
  split
  · exact .error Fault.noConfusion
  · split
    · exact .error Fault.noConfusion
    · split
      · exact .ok _
      · exact .error Fault.noConfusion

theorem solvent_modifyHeader (s : Space) (r : Ref) (f : Header → Header) : Solvent (s.modifyHeader r f) := by
  rw [modifyHeader]
  split
  · exact .bind (.require Fault.noConfusion) fun _ _ => .ok _
  · exact solvent_modifyArenaOf s r _

theorem solvent_modifyBytes (s : Space) (r : Ref) (f : Zeroed UInt8 → Zeroed UInt8) :
    Solvent (s.modifyBytes r f) := by
  rw [modifyBytes]
  split
  · exact .bind (.require Fault.noConfusion) fun _ _ => .ok _
  · exact solvent_modifyArenaOf s r _

theorem solvent_allocIn (s : Space) (index cells : Nat) : Solvent (s.allocIn index cells) := by
  refine .bind (solvent_updateArena _ _ fun a => .bind (Arena.solvent_alloc ..) fun _ _ => .ok _) ?_
  rintro ⟨r?, s⟩ -
  dsimp only
  split
  · exact .ok _
  · exact .bind (.bind (.checkedAdd ..) fun _ _ => .ok _) fun _ _ => .ok _

theorem solvent_allocAmong (cells : Nat) : ∀ (indices : List Nat) (s : Space), Solvent (s.allocAmong cells indices)
  | [], _ => .ok _
  | index :: rest, s => by
    refine .bind (solvent_allocIn ..) ?_
    rintro ⟨r?, s⟩ -
    dsimp only
    split
    · exact .ok _
    · exact solvent_allocAmong cells rest s

theorem solvent_allocCells (s : Space) (supply : Supply) (cells : Nat) : Solvent (s.allocCells supply cells) := by
  have helsewhere : ∀ s : Space, Solvent (s.allocElsewhere supply cells) := fun s => by
    refine .bind (solvent_allocAmong ..) ?_
    rintro ⟨r?, s⟩ -
    dsimp only
    split
    · exact .ok _
    · split
      · exact .ok _
      · refine .bind (solvent_allocIn ..) ?_
        rintro ⟨r?, s⟩ -
        dsimp only
        split
        · exact .ok _
        · exact .ok _
  rw [allocCells]
  split
  · refine .bind (solvent_allocIn ..) ?_
    rintro ⟨r?, s⟩ -
    dsimp only
    split
    · exact .ok _
    · exact helsewhere s
  · exact helsewhere s

theorem solvent_allocHuge (s : Space) (supply : Supply) (size : Nat) : Solvent (s.allocHuge supply size) := by
  rw [allocHuge]
  split
  · exact .ok _
  · refine .bind (BlockTable.solvent_insert ..) fun _ _ => ?_
    have hgrow : ∀ s : Space, Solvent (s.grow size) := fun s => .bind (.checkedAdd ..) fun _ _ => .ok _
    split
    · exact .bind (BlockTable.solvent_updateFlags ..) fun _ _ => .bind (hgrow _) fun _ _ => .ok _
    · exact .bind (.ok _) fun _ _ => .bind (hgrow _) fun _ _ => .ok _

end Space

namespace Heap

variable {h : Heap} {r : Ref} {supply : Supply}

/-- Allocating only adds. -/
theorem solvent_alloc (h : Heap) (supply : Supply) (kind : Kind) (size : Nat) :
    Solvent (h.alloc supply kind size) := by
  have hplace : ∀ total, Solvent (h.place supply total) := fun total => by
    rw [place]
    split
    · exact .bind (Space.solvent_allocHuge ..) fun _ _ => .ok _
    · refine .bind (Space.solvent_allocCells ..) ?_
      rintro ⟨r?, s⟩ -
      dsimp only
      split
      · exact .ok _
      · exact .bind (Space.solvent_modifyBytes ..) fun _ _ => .ok _
  rw [alloc]
  split
  · exact .ok _
  · refine .bind (solvent_objectBytes size) fun _ _ => .bind (hplace _) ?_
    rintro ⟨r?, h⟩ -
    dsimp only
    split
    · exact .ok _
    · exact .bind (Space.solvent_modifyHeader ..) fun _ _ => .ok _

end Heap

/-! ## Resizing and reclaiming -/

namespace Heap

variable {h : Heap} {r : Ref} {supply : Supply}

/-- A live object can be freed by whoever knows its size. -/
theorem Sound.free_spec (hs : h.Sound) {size : Nat} (hsize : h.payloadSize r = .ok size) :
    ∃ h', h.free r size = .ok h' := by
  obtain ⟨_, hlive, hheader⟩ := bind_eq_ok_iff.1 hsize
  obtain ⟨e, he⟩ := hs.isLive_iff.1 (require_eq_ok_iff.1 hlive)
  obtain ⟨h', hrelease, -⟩ := release_spec hs he
  have hexpected : objectBytes size = .ok e.size := by
    rw [Space.header_eq hs.wf he] at hheader
    cases hheader
    exact (hs.admits r).size he
  refine ⟨h', bind_eq_ok_iff.2 ⟨(), hlive, bind_eq_ok_iff.2 ⟨_, Space.objectSize_eq hs.wf he, ?_⟩⟩⟩
  exact bind_eq_ok_iff.2 ⟨_, hexpected, bind_eq_ok_iff.2 ⟨(), require_eq_ok_iff.2 rfl, hrelease⟩⟩

end Heap

end Tricolor
