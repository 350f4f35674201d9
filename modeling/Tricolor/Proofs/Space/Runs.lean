import Tricolor.Proofs.Arena.Slots
import Tricolor.Space.Reclaiming
import Tricolor.Space.Registration

/-!
# Runs of the operations of a space

What an operation has done once it succeeded: the arena or the table that it changed, the
checks that it passed, and the space that it left. What holds of every operation is proved
from these lemmas, case by case, and not by running the operations again.
-/

namespace Tricolor

namespace Space

variable {s s' : Space} {r : Ref} {supply : Supply} {i cells size freed : Nat}

theorem grow_eq_ok_iff : s.grow size = .ok s' ↔
    s.total + size < wordRange ∧ s' = { s with total := s.total + size } := by
  constructor
  · intro hrun
    obtain ⟨_, htotal, hret⟩ := bind_eq_ok_iff.1 hrun
    cases hret
    obtain ⟨hlt, rfl⟩ := checkedAdd_eq_ok_iff.1 htotal
    exact ⟨hlt, rfl⟩
  · rintro ⟨hlt, rfl⟩
    exact bind_eq_ok_iff.2 ⟨_, checkedAdd_eq_ok_iff.2 ⟨hlt, rfl⟩, rfl⟩

theorem shrink_eq_ok_iff : s.shrink size = .ok s' ↔
    size ≤ s.total ∧ s' = { s with total := s.total - size } := by
  constructor
  · intro hrun
    obtain ⟨_, htotal, hret⟩ := bind_eq_ok_iff.1 hrun
    cases hret
    obtain ⟨hle, rfl⟩ := checkedSub_eq_ok_iff.1 htotal
    exact ⟨hle, rfl⟩
  · rintro ⟨hle, rfl⟩
    exact bind_eq_ok_iff.2 ⟨_, checkedSub_eq_ok_iff.2 ⟨hle, rfl⟩, rfl⟩

/-! ## Arenas -/

/-- Running a change on the arena with an index, which also answers something. -/
theorem updateArena_eq_ok_iff' {α : Type} {f : Arena → Except Fault (α × Arena)} {x : α} :
    s.updateArena i f = .ok (x, s') ↔ ∃ a a', s.arenas[i]? = some a ∧ f a = .ok (x, a') ∧
      s' = { s with arenas := s.arenas.setIfInBounds i a' } := by
  rw [updateArena_eq_ok_iff]
  constructor
  · rintro ⟨hlt, a', hf, rfl⟩
    refine ⟨_, a', Array.getElem?_eq_getElem hlt, hf, ?_⟩
    rw [Array.setIfInBounds, dif_pos hlt]
  · rintro ⟨a, a', ha, hf, rfl⟩
    obtain ⟨hlt, hget⟩ := Array.getElem?_eq_some_iff.1 ha
    refine ⟨hlt, a', by rw [hget]; exact hf, ?_⟩
    rw [Array.setIfInBounds, dif_pos hlt]

/-- Running a change on the arena of a reference. -/
theorem modifyArenaOf_eq_ok {f : Arena → Except Fault Arena} (hrun : s.modifyArenaOf r f = .ok s') :
    ∃ (i : Nat) (a a' : Arena), s.indexOf r.page = .ok i ∧ s.arenas[i]? = some a ∧ f a = .ok a' ∧
      s' = { s with arenas := s.arenas.setIfInBounds i a' } := by
  obtain ⟨i, hi, hrun⟩ := bind_eq_ok_iff.1 hrun
  obtain ⟨⟨_, t⟩, hupdate, hret⟩ := bind_eq_ok_iff.1 hrun
  cases hret
  obtain ⟨a, a', ha, hf, rfl⟩ := updateArena_eq_ok_iff'.1 hupdate
  obtain ⟨b, hfa, hret⟩ := bind_eq_ok_iff.1 hf
  cases hret
  exact ⟨i, a, a', hi, ha, hfa, rfl⟩

/-- Placing an object into one arena: the arena was full, or the object is counted. -/
theorem allocIn_cases {r? : Option Ref} (hrun : s.allocIn i cells = .ok (r?, s')) :
    ∃ a a' head?, s.arenas[i]? = some a ∧ a.alloc cells a.needsSweep = .ok (head?, a') ∧
      (head? = none ∧ r? = none ∧ s' = { s with arenas := s.arenas.setIfInBounds i a' } ∨
        ∃ head, head? = some head ∧ r? = some (a'.object head) ∧ s.total + cells * cellBytes < wordRange ∧
          s' = { s with arenas := s.arenas.setIfInBounds i a', total := s.total + cells * cellBytes }) := by
  obtain ⟨⟨_, _⟩, hupdate, hrun⟩ := bind_eq_ok_iff.1 hrun
  obtain ⟨a, a', ha, hf, rfl⟩ := updateArena_eq_ok_iff'.1 hupdate
  obtain ⟨⟨head?, _⟩, halloc, hret⟩ := bind_eq_ok_iff.1 hf
  cases hret
  refine ⟨a, a', head?, ha, halloc, ?_⟩
  cases head? with
  | none =>
    cases hrun
    exact .inl ⟨rfl, rfl, rfl⟩
  | some head =>
    obtain ⟨_, hgrow, hret⟩ := bind_eq_ok_iff.1 hrun
    cases hret
    obtain ⟨hlt, rfl⟩ := grow_eq_ok_iff.1 hgrow
    exact .inr ⟨head, rfl, rfl, hlt, rfl⟩

/-- Freeing an object of an arena: it is unlisted first. -/
theorem freeSmall_cases (hrun : s.freeSmall r = .ok (size, s')) :
    ∃ i a a' cells, s.indexOf r.page = .ok i ∧ s.arenas[i]? = some a ∧
      (a.unlist r.cell).free r.cell = .ok (cells, a') ∧ size = cells * cellBytes ∧ size ≤ s.total ∧
      s' = { s with arenas := s.arenas.setIfInBounds i a', total := s.total - size } := by
  obtain ⟨i, hi, hrun⟩ := bind_eq_ok_iff.1 hrun
  obtain ⟨⟨cells, _⟩, hupdate, hrun⟩ := bind_eq_ok_iff.1 hrun
  obtain ⟨_, hshrink, hret⟩ := bind_eq_ok_iff.1 hrun
  cases hret
  obtain ⟨a, a', ha, hfree, rfl⟩ := updateArena_eq_ok_iff'.1 hupdate
  obtain ⟨hle, rfl⟩ := shrink_eq_ok_iff.1 hshrink
  exact ⟨i, a, a', cells, hi, ha, hfree, rfl, hle, rfl⟩

/-- Sweeping an arena: what it uses less afterwards is reclaimed. -/
theorem sweepArena_cases (hrun : s.sweepArena i = .ok (freed, s')) :
    ∃ a a', s.arenas[i]? = some a ∧ a.sweep = .ok a' ∧ a'.usedBytes ≤ a.usedBytes ∧
      freed = a.usedBytes - a'.usedBytes ∧ freed ≤ s.total ∧
      s' = { s with arenas := s.arenas.setIfInBounds i a', total := s.total - freed } := by
  obtain ⟨⟨_, _⟩, hupdate, hrun⟩ := bind_eq_ok_iff.1 hrun
  obtain ⟨_, hshrink, hret⟩ := bind_eq_ok_iff.1 hrun
  cases hret
  obtain ⟨a, a', ha, hf, rfl⟩ := updateArena_eq_ok_iff'.1 hupdate
  obtain ⟨_, hsweep, hf⟩ := bind_eq_ok_iff.1 hf
  obtain ⟨_, hsub, hret⟩ := bind_eq_ok_iff.1 hf
  cases hret
  obtain ⟨hle, rfl⟩ := checkedSub_eq_ok_iff.1 hsub
  obtain ⟨htotal, rfl⟩ := shrink_eq_ok_iff.1 hshrink
  exact ⟨a, a', ha, hsweep, hle, rfl, htotal, rfl⟩

/-- Marking an object of an arena: it was marked, or it is marked now and queued unless it
is a leaf. -/
theorem markSmall_cases {isLeaf : Bool} (hrun : s.markSmall r isLeaf = .ok s') :
    ∃ i a a', s.indexOf r.page = .ok i ∧ s.arenas[i]? = some a ∧ a.isAllocated r.cell = true ∧
      s' = { s with arenas := s.arenas.setIfInBounds i a' } ∧
      (a' = a ∨ ∃ b, a.setMark r.cell = .ok b ∧
        (a' = b ∨ ∃ grey, b.grey.push r.cell = .ok grey ∧ a' = { b with grey })) := by
  obtain ⟨i, a, a', hi, ha, hf, rfl⟩ := modifyArenaOf_eq_ok hrun
  obtain ⟨_, halloc, hf⟩ := bind_eq_ok_iff.1 hf
  refine ⟨i, a, a', hi, ha, require_eq_ok_iff.1 halloc, rfl, ?_⟩
  obtain ⟨marked, -, hf⟩ := bind_eq_ok_iff.1 hf
  split at hf
  · cases hf
    exact .inl rfl
  · obtain ⟨b, hmark, hf⟩ := bind_eq_ok_iff.1 hf
    split at hf
    · cases hf
      exact .inr ⟨_, hmark, .inl rfl⟩
    · obtain ⟨grey, hpush, hret⟩ := bind_eq_ok_iff.1 hf
      cases hret
      exact .inr ⟨b, hmark, .inr ⟨grey, hpush, rfl⟩⟩

/-! ## Huge blocks -/

/-- Allocating a huge block: the supply refused it, or it is registered, marked if a sweep
is to come. -/
theorem allocHuge_cases {result : Except AllocError Ref} (hrun : s.allocHuge supply size = .ok (result, s')) :
    askBlock supply size = none ∧ result = .error (.outOfMemory size) ∧ s' = s ∨
      ∃ p blocks marked, askBlock supply size = some p ∧ result = .ok (.huge p) ∧
        s.blocks.insert p size = .ok blocks ∧
        (if s.hugeNeedsSweep then blocks.setFlags p .mark else pure blocks) = .ok marked ∧
        s.total + size < wordRange ∧
        s' = { s with
          blocks := marked
          contents := s.contents.insert p default
          total := s.total + size } := by
  rw [allocHuge] at hrun
  cases hask : askBlock supply size with
  | none =>
    rw [hask] at hrun
    cases hrun
    exact .inl ⟨rfl, rfl, rfl⟩
  | some p =>
    rw [hask] at hrun
    obtain ⟨blocks, hinsert, hrun⟩ := bind_eq_ok_iff.1 hrun
    obtain ⟨marked, hmark, hrun⟩ := ite_bind_eq_ok_iff.1 hrun
    obtain ⟨_, hgrow, hret⟩ := bind_eq_ok_iff.1 hrun
    cases hret
    obtain ⟨hlt, rfl⟩ := grow_eq_ok_iff.1 hgrow
    exact .inr ⟨p, blocks, marked, rfl, rfl, hinsert, hmark, hlt, rfl⟩

/-- A block of `old` bytes as one of `size` bytes: the bytes that only one size has are zero. -/
def refit (block : HugeBlock) (old size : Nat) : HugeBlock :=
  { block with bytes := block.bytes.clear (min old size) (max old size - min old size) }

/-- The space with the block at `p`, of `old` bytes, resized to `size` bytes and moved to
`q`. What is recorded of it moves along. -/
def moveBlock (s : Space) (blocks : BlockTable) (p q : Page) (old size : Nat) : Space :=
  { s with
    blocks
    contents := (s.contents.erase p).insert q (refit (s.contents.getD p default) old size)
    hugeGrey := renamePage p q s.hugeGrey
    hugeFixed := renamePage p q s.hugeFixed
    hugeFinalizers := renamePage p q s.hugeFinalizers
    hugePending := renamePage p q s.hugePending
    total := s.total - old + size }

/-- Resizing a huge block: the supply refused it, or the block was moved. -/
theorem resizeHuge_cases {result : Except AllocError Ref} (hrun : s.resizeHuge supply r size = .ok (result, s')) :
    ∃ old, s.blocks.sizeOf? r.page = .ok (some old) ∧ old ≠ 0 ∧
      (askBlock supply size = none ∧ result = .error (.outOfMemory size) ∧ s' = s ∨
        ∃ q blocks, askBlock supply size = some q ∧ result = .ok (.huge q) ∧
          s.blocks.replace r.page q size = .ok blocks ∧ old ≤ s.total ∧ s.total - old + size < wordRange ∧
          s' = s.moveBlock blocks r.page q old size) := by
  obtain ⟨old?, hold, hrun⟩ := bind_eq_ok_iff.1 hrun
  obtain ⟨_, hne, hrun⟩ := bind_eq_ok_iff.1 hrun
  cases old? with
  | none => exact absurd rfl (require_eq_ok_iff.1 hne)
  | some old =>
    refine ⟨old, hold, require_eq_ok_iff.1 hne, ?_⟩
    cases hask : askBlock supply size with
    | none =>
      rw [hask] at hrun
      cases hrun
      exact .inl ⟨rfl, rfl, rfl⟩
    | some q =>
      rw [hask] at hrun
      obtain ⟨blocks, hreplace, hrun⟩ := bind_eq_ok_iff.1 hrun
      obtain ⟨_, hsub, hrun⟩ := bind_eq_ok_iff.1 hrun
      obtain ⟨_, hadd, hret⟩ := bind_eq_ok_iff.1 hrun
      cases hret
      obtain ⟨hle, rfl⟩ := checkedSub_eq_ok_iff.1 hsub
      obtain ⟨hlt, rfl⟩ := checkedAdd_eq_ok_iff.1 hadd
      exact .inr ⟨q, blocks, rfl, rfl, hreplace, hle, hlt, rfl⟩

/-- The pages but for one that its header says is listed. -/
def dropPage (registered : Bool) (p : Page) (pages : Array Page) : Array Page :=
  if registered then withoutPage p pages else pages

/-- Freeing a huge block: it was registered, and is no longer. -/
theorem freeHuge_cases (hrun : s.freeHuge r = .ok (size, s')) :
    ∃ header blocks, s.header r = .ok header ∧ s.blocks.remove r.page = .ok (some size, blocks) ∧ size ≠ 0 ∧
      size ≤ s.total ∧ s' = { s with
        blocks
        contents := s.contents.erase r.page
        hugeGrey := withoutPage r.page s.hugeGrey
        hugeFixed := dropPage header.isFixed r.page s.hugeFixed
        hugeFinalizers := dropPage header.hasFinalizer r.page s.hugeFinalizers
        hugePending := dropPage header.hasFinalizer r.page s.hugePending
        total := s.total - size } := by
  obtain ⟨header, hheader, hrun⟩ := bind_eq_ok_iff.1 hrun
  obtain ⟨⟨size?, blocks⟩, hremove, hrun⟩ := bind_eq_ok_iff.1 hrun
  obtain ⟨_, hne, hrun⟩ := bind_eq_ok_iff.1 hrun
  obtain ⟨_, hshrink, hret⟩ := bind_eq_ok_iff.1 hrun
  cases hret
  cases size? with
  | none => exact absurd rfl (require_eq_ok_iff.1 hne)
  | some size =>
    obtain ⟨hle, rfl⟩ := shrink_eq_ok_iff.1 hshrink
    exact ⟨header, blocks, hheader, hremove, require_eq_ok_iff.1 hne, hle, rfl⟩

/-- Sweeping the huge blocks: nothing was queued, and the dead blocks are gone. -/
theorem sweepHuge_cases (hrun : s.sweepHuge = .ok (freed, s')) :
    s.hugeGrey = #[] ∧ ∃ dead blocks, s.blocks.sweep = .ok (dead, blocks) ∧
      dead.foldlM (fun freed e => checkedAdd wordRange freed e.size) 0 = .ok freed ∧ freed ≤ s.total ∧
      s' = { s with
        blocks
        contents := dead.foldl (fun contents e => contents.erase e.page) s.contents
        hugeNeedsSweep := false
        total := s.total - freed } := by
  obtain ⟨_, hempty, hrun⟩ := bind_eq_ok_iff.1 hrun
  obtain ⟨⟨dead, blocks⟩, hsweep, hrun⟩ := bind_eq_ok_iff.1 hrun
  obtain ⟨_, hsum, hrun⟩ := bind_eq_ok_iff.1 hrun
  obtain ⟨_, hshrink, hret⟩ := bind_eq_ok_iff.1 hrun
  cases hret
  obtain ⟨hle, rfl⟩ := shrink_eq_ok_iff.1 hshrink
  exact ⟨Array.isEmpty_iff.1 (require_eq_ok_iff.1 hempty), dead, blocks, hsweep, hsum, hle, rfl⟩

/-- Marking a huge block: it was marked, or it is marked now and queued unless it is a leaf
or is queued already. -/
theorem markHuge_cases {isLeaf : Bool} (hrun : s.markHuge r isLeaf = .ok s') :
    s.blocks.contains r.page = .ok true ∧ ∃ flags, s.blocks.flags r.page = .ok flags ∧
      (flags.isMarked = true ∧ s' = s ∨
        flags.isMarked = false ∧ ((isLeaf || flags.isGrey) = true ∧
            (∃ blocks, s.blocks.setFlags r.page .mark = .ok blocks ∧ s' = { s with blocks }) ∨
          (isLeaf || flags.isGrey) = false ∧
            ∃ blocks, s.blocks.setFlags r.page (.mark ||| .grey) = .ok blocks ∧
              s' = { s with blocks, hugeGrey := s.hugeGrey.push r.page })) := by
  obtain ⟨found, hfound, hrun⟩ := bind_eq_ok_iff.1 hrun
  obtain ⟨_, hregistered, hrun⟩ := bind_eq_ok_iff.1 hrun
  obtain ⟨flags, hflags, hrun⟩ := bind_eq_ok_iff.1 hrun
  refine ⟨require_eq_ok_iff.1 hregistered ▸ hfound, flags, hflags, ?_⟩
  split at hrun
  · next hmarked =>
    cases hrun
    exact .inl ⟨hmarked, rfl⟩
  · next hwhite =>
    refine .inr ⟨Bool.eq_false_iff.2 hwhite, ?_⟩
    split at hrun
    · next hleaf =>
      obtain ⟨blocks, hblocks, hret⟩ := bind_eq_ok_iff.1 hrun
      cases hret
      exact .inl ⟨hleaf, blocks, hblocks, rfl⟩
    · next hqueue =>
      obtain ⟨blocks, hblocks, hret⟩ := bind_eq_ok_iff.1 hrun
      cases hret
      exact .inr ⟨Bool.eq_false_iff.2 hqueue, blocks, hblocks, rfl⟩

/-- Looking for the next queued block changes the queue and the flags and nothing else. -/
theorem popPage_changes {n : Nat} {p? : Option Page} (hrun : s.popPage n = .ok (p?, s')) :
    ∃ blocks grey, s' = { s with blocks, hugeGrey := grey } := by
  induction n generalizing s with
  | zero =>
    cases hrun
    exact ⟨_, _, rfl⟩
  | succ n ih =>
    rw [popPage] at hrun
    split at hrun
    · cases hrun
      exact ⟨_, _, rfl⟩
    · obtain ⟨found, -, hrun⟩ := bind_eq_ok_iff.1 hrun
      split at hrun
      · obtain ⟨blocks, -, hret⟩ := bind_eq_ok_iff.1 hrun
        cases hret
        exact ⟨blocks, _, rfl⟩
      · obtain ⟨blocks, grey, rfl⟩ := ih hrun
        exact ⟨blocks, grey, rfl⟩

end Space

end Tricolor
