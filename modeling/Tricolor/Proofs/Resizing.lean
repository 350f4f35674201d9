import Tricolor.Proofs.Accounting
import Tricolor.Proofs.Heap.Memory

/-!
# Resized objects

Wherever a resizing leaves an object, in its place, as a block that may have moved, or as a copy, its payload
is what it was as far as that fits, and zeros behind it. So bytes that were cut off are not seen again when
the object grows: not those that stay behind in its cells, and not those of an earlier tenant. The object
occupies the cells that its new length needs, its old place is given up, and the bytes in use change by what
the two sizes differ.
-/

namespace Tricolor

namespace Heap

variable {h h' h₁ : Heap} {r moved : Ref} {e : Entity} {old size : Nat}

/-- What becomes of an object with a payload of `old` bytes that is resized at `r`, and is then at `moved`. -/
structure Refits (h : Heap) (r moved : Ref) (old size : Nat) (h' : Heap) : Prop where
  /-- it has kept its kind and what fits of its payload, and what is behind that is zero -/
  payload : ∃ kind bytes, h.Shows r kind bytes ∧ bytes.length = old ∧
    h'.Shows moved kind (bytes.take size ++ List.replicate (size - old) 0)
  live : h'.isLive moved = true
  length : h'.payloadSize moved = .ok size
  size : h'.objectSize moved = .ok ((headerBytes + size + (cellBytes - 1)) / cellBytes * cellBytes)
  dropped : moved ≠ r → h'.isLive r = false
  total : ∃ before after, h.objectSize r = .ok before ∧ h'.objectSize moved = .ok after ∧
    h'.space.total + before = h.space.total + after

theorem Sound.shows (hs : h.Sound) (he : (h.space.slot r).entity? = some e) :
    h.Shows r e.header.kind e.payload where
  kind := hs.kind_eq he
  length := by
    rw [Entity.length_payload]
    exact hs.payloadSize_eq he
  payload := bind_eq_ok_iff.2 ⟨(), require_eq_ok_iff.2 (hs.isLive_iff.2 ⟨e, he⟩), hs.payload he⟩

/-- A resized object is the only one of which anything changes, at its old place and at its new one. -/
theorem Reallocates.placed (hr : h.Reallocates r e size (.ok moved) h') :
    (∃ x, (h'.space.slot moved).entity? = some x ∧ x.header = { e.header with size } ∧
      x.payload = e.refitted size) ∧
    (moved = r ∨ (h.space.slot moved).entity? = none ∧ (h'.space.slot r).entity? = none) ∧
    ∀ t, t ≠ moved → t ≠ r → h'.space.slot t = h.space.slot t := by
  cases hr with
  | @resized _ x s' _ hslot hplace _ _ hheader hpayload =>
    refine ⟨⟨x, by rw [hslot, Function.update_self], hheader, hpayload⟩, ?_, fun t ht htr => ?_⟩
    · by_cases heq : moved = r
      · exact .inl heq
      · refine .inr ⟨(hplace.resolve_left heq).2, ?_⟩
        rw [hslot, Function.update_of_ne (Ne.symm heq), Function.update_self]
        rfl
    · rw [hslot, Function.update_of_ne ht, Function.update_of_ne htr]
  | moved _ hne hc hrel =>
    obtain ⟨x, hx, hheader, -⟩ := hc.copy
    refine ⟨⟨x, by rw [hrel.revises.slot_ne hne]; exact hx, hheader, hc.payload x hx⟩, .inr ⟨hc.vacant, ?_⟩,
      fun t ht htr => ?_⟩
    · rw [hrel.revises.slot_self]
      rfl
    · rw [hrel.revises.slot_ne htr]
      exact hc.slot t ht

/-- The bytes in use change by the difference of the sizes. -/
theorem Reallocates.total (hs : h.Sound) (hs' : h'.Sound) (he : (h.space.slot r).entity? = some e) {x : Entity}
    (hx : (h'.space.slot moved).entity? = some x) (hr : h.Reallocates r e size (.ok moved) h') :
    h'.space.total + e.size = h.space.total + x.size := by
  obtain ⟨-, hplace, hothers⟩ := hr.placed
  have hsame : ∀ t, t ∉ ({r, moved} : Finset Ref) → h'.space.sizeAt t = h.space.sizeAt t := fun t ht => by
    rw [Finset.mem_insert, Finset.mem_singleton, not_or] at ht
    rw [Space.sizeAt, Space.sizeAt, hothers t ht.2 ht.1]
  have hsum := Space.total_of_others hs.wf hs'.wf hsame
  rcases hplace with rfl | ⟨hnone, hnone'⟩
  · rw [Finset.pair_eq_singleton, Finset.sum_singleton, Finset.sum_singleton] at hsum
    rwa [Space.sizeAt_of_some he, Space.sizeAt_of_some hx] at hsum
  · have hne : r ≠ moved := by
      rintro rfl
      rw [hnone] at he
      cases he
    rw [Finset.sum_pair hne, Finset.sum_pair hne, Space.sizeAt_of_some he, Space.sizeAt_of_none hnone,
      Space.sizeAt_of_none hnone', Space.sizeAt_of_some hx] at hsum
    omega

/-- What a successful resizing makes of an object. -/
theorem Reallocates.refits (hs : h.Sound) (he : (h.space.slot r).entity? = some e)
    (hr : h.Reallocates r e size (.ok moved) h') : h.Refits r moved e.header.size size h' := by
  have hs' := hr.sound hs
  obtain ⟨⟨x, hx, hheader, hpayload⟩, hplace, -⟩ := hr.placed
  have hlength : x.header.size = size := by rw [hheader]
  have hsize : h'.objectSize moved = .ok x.size := hs'.objectSize_eq_ok_iff.2 ⟨x, hx, rfl⟩
  refine
    { payload := ⟨e.header.kind, e.payload, hs.shows he, e.length_payload, ?_⟩
      live := hs'.isLive_iff.2 ⟨x, hx⟩
      length := hlength ▸ hs'.payloadSize_eq hx
      size := ?_
      dropped := fun hne => ?_
      total := ⟨e.size, x.size, hs.objectSize_eq_ok_iff.2 ⟨e, he, rfl⟩, hsize, hr.total hs hs' he hx⟩ }
  · have hshows := hs'.shows hx
    rw [hpayload, hheader] at hshows
    exact hshows
  · rw [hsize, eq_of_objectBytes ((hs'.admits moved).size hx), hlength]
  · rw [← Bool.not_eq_true, hs'.isLive_iff]
    exact Space.not_holds.2 (hplace.resolve_left hne).2

end Heap

namespace Machine

variable {σ : Type} {mu : Mutator σ} {m : Machine σ} {config : Config} {hashOf : List UInt8 → Hash}
  {supply : Supply} {r moved : Ref} {old size : Nat} {h : Heap}

/-- A resizing that succeeds keeps of an object's contents what fits, and leaves nothing else of any object
in its payload, on whichever path and whatever was resized before. -/
theorem resizing_keeps_contents (hm : Reachable mu Heap.anyResizing config hashOf m)
    (hfresh : m.heap.FreshFor supply r size) (hold : m.heap.payloadSize r = .ok old)
    (hrun : m.heap.realloc supply r old size = .ok (.ok moved, h)) : m.heap.Refits r moved old size h := by
  obtain ⟨e, he, hr⟩ := Heap.realloc_eq_ok hm.sound hfresh hrun
  cases (hm.sound.payloadSize_eq he).symm.trans hold
  exact hr.refits hm.sound he

/-- A block that lost the last two bytes of its payload, and has whole cells to spare, gets zeros back. -/
theorem lost_bytes_come_back_as_zeros : ∃ (m : Machine Ledger) (h : Heap),
    m.heap.payload (.huge 6) = .ok (List.replicate 96 0 ++ [1, 2]) ∧
      m.heap.realloc (.page 7) (.huge 6) 98 100 = .ok (.ok (.huge 7), h) ∧
      h.payload (.huge 7) = .ok (List.replicate 96 0 ++ [1, 2, 0, 0]) ∧ h.isLive (.huge 6) = false ∧
      h.space.total = m.heap.space.total := by
  let config : Config := { hugeThreshold := 64 }
  let start := answerOf (Heap.build config fun _ => 0) (by decide +kernel)
  have hstart : Heap.withConfig config (fun _ => 0) = .ok (.ok start) := rfl
  obtain ⟨block, written, cut, h, hblock, hlive, hsize, hwritten, hlive', hroom, hcut, hroom', hlength, hpayload,
      hbefore, hgrown⟩ :
      ∃ block written cut h : Heap, start.alloc (.page 5) .udata 100 = .ok (.ok (.huge 5), block) ∧
        block.Live (.huge 5) ∧ block.payloadSize (.huge 5) = .ok 100 ∧
        block.writePayload (.huge 5) 96 [1, 2, 3, 4] = .ok written ∧
        written.Live (.huge 5) ∧ (∀ old, (Supply.page 6).Fresh written.space old) ∧
        written.realloc (.page 6) (.huge 5) 100 98 = .ok (.ok (.huge 6), cut) ∧
        (∀ old, (Supply.page 7).Fresh cut.space old) ∧ cut.payloadSize (.huge 6) = .ok 98 ∧
        cut.payload (.huge 6) = .ok (List.replicate 96 0 ++ [1, 2]) ∧ cut.objectSize (.huge 6) = .ok 112 ∧
        cut.realloc (.page 7) (.huge 6) 98 100 = .ok (.ok (.huge 7), h) :=
    ⟨_, _, _, _, eq_answerOf_of_fst (by decide +kernel) (by decide +kernel),
      ⟨by decide +kernel, by decide +kernel⟩, by decide +kernel, eq_answerOf (by decide +kernel),
      ⟨by decide +kernel, by decide +kernel⟩,
      Supply.page_fresh (by decide) (by decide +kernel) (by decide +kernel),
      eq_answerOf_of_fst (by decide +kernel) (by decide +kernel),
      Supply.page_fresh (by decide) (by decide +kernel) (by decide +kernel), by decide +kernel, by decide +kernel,
      by decide +kernel, eq_answerOf_of_fst (by decide +kernel) (by decide +kernel)⟩
  have hplace : Reachable Ledger.mutator Heap.anyResizing config (fun _ => 0) ⟨{}, block⟩ :=
    (Reachable.initial {} hstart).step
      (.operate (.alloc (Supply.page_fresh (by decide) rfl (by decide +kernel) 0) hblock))
  have hwrite : Reachable Ledger.mutator Heap.anyResizing config (fun _ => 0) ⟨{}, written⟩ := by
    refine hplace.step (.operate (.writePayload hlive (fun n hn => ?_) hwritten))
    cases hsize.symm.trans hn
    decide
  have hreach : Reachable Ledger.mutator Heap.anyResizing config (fun _ => 0) ⟨{}, cut⟩ :=
    hwrite.step (.operate (.realloc hlive' ⟨fun _ => hroom 5, fun _ => hroom 0⟩ hcut fun _ _ => trivial))
  have hrefits := resizing_keeps_contents hreach ⟨fun _ => hroom' 6, fun _ => hroom' 0⟩ hlength hgrown
  obtain ⟨kind, bytes, hshows, -, hshown⟩ := hrefits.payload
  cases hpayload.symm.trans hshows.payload
  obtain ⟨before, after, hbefore', hafter, htotal⟩ := hrefits.total
  cases hbefore.symm.trans hbefore'
  cases hrefits.size.symm.trans hafter
  exact ⟨⟨{}, cut⟩, h, hpayload, hgrown, hshown.payload, hrefits.dropped (by decide), Nat.add_right_cancel htotal⟩

end Machine

end Tricolor
