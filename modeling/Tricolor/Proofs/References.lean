import Tricolor.Proofs.Phases

/-!
# The references that a heap keeps

Whatever a heap keeps a reference to is allocated: what is recorded, queued, fixed, registered,
linked, or remembered as a weak table. Freeing, sweeping and resizing drop or rename all of
these references with one exception: a huge block that is resized as a block while it is
recorded, or remembered as a weak table, may move away from under its old name.
-/

namespace Tricolor

namespace Heap

variable {h h' : Heap} {r moved : Ref} {supply : Supply} {old size : Nat}

/-- Every reference that the heap keeps is to an allocated object. -/
structure NoDangling (h : Heap) : Prop where
  stores : ∀ r ∈ h.stores.entries, h.isLive r = true
  hugeGrey : ∀ p ∈ h.space.hugeGrey, h.isLive (.huge p) = true
  hugeFixed : ∀ p ∈ h.space.hugeFixed, h.isLive (.huge p) = true
  hugeFinalizers : ∀ p ∈ h.space.hugeFinalizers, h.isLive (.huge p) = true
  hugePending : ∀ p ∈ h.space.hugePending, h.isLive (.huge p) = true
  fixed : ∀ (i : Nat) (a : Arena), h.space.arenas[i]? = some a → ∀ c ∈ a.fixed,
    h.isLive (a.object c) = true
  finalizers : ∀ (i : Nat) (a : Arena), h.space.arenas[i]? = some a → ∀ x ∈ a.finalizers.entries,
    h.isLive (a.object x.1) = true
  strings : ∀ x ∈ h.strings.links, h.isLive x.2 = true
  weakTables : h.phase.IsMarking → ∀ t ∈ h.cycle.weakTables, h.isLive t = true

/-- What is listed in an arena is not listed at cell 0. -/
theorem Sound.slot_listed (hs : h.Sound) {i : Nat} {a : Arena} (ha : h.space.arenas[i]? = some a) {c : Nat}
    (hc : (a.slot c).fixed ∨ (a.slot c).idle ∨ (a.slot c).pending) :
    h.space.slot (a.object c) = a.slot c := by
  refine Space.slot_object hs.wf ha fun hzero => ?_
  rw [hzero, hs.wf.zero ha] at hc
  exact hc.elim id fun hc => hc.elim id id

/-- In a sound heap whose records are allocated no reference dangles. -/
theorem Sound.noDangling (hs : h.Sound) (hrec : h.Recorded) : h.NoDangling where
  stores r hr := hs.isLive_iff.2 (hrec.1 r hr)
  hugeGrey p hp := by
    obtain ⟨b, hb, -⟩ := hs.wf.grey.1 hp
    refine hs.isLive_iff.2 ⟨h.space.entityOf b, ?_⟩
    rw [Space.slot_huge, Space.hugeSlot, hb]
    rfl
  hugeFixed p hp := hs.isLive_iff.2 (hs.listed (.huge p) (.inl (by rwa [Space.slot_huge])))
  hugeFinalizers p hp := hs.isLive_iff.2 (hs.listed (.huge p) (.inr (.inl (by rwa [Space.slot_huge]))))
  hugePending p hp := hs.isLive_iff.2 (hs.listed (.huge p) (.inr (.inr (by rwa [Space.slot_huge]))))
  fixed i a ha c hc := by
    refine hs.isLive_iff.2 (hs.listed (a.object c) (.inl ?_))
    rw [hs.slot_listed ha (.inl hc)]
    exact hc
  finalizers i a ha x hx := by
    have hor : (a.slot x.1).idle ∨ (a.slot x.1).pending := by
      obtain ⟨c, pending⟩ := x
      cases pending with
      | false => exact .inl hx
      | true => exact .inr hx
    refine hs.isLive_iff.2 (hs.listed (a.object x.1) (.inr ?_))
    rw [hs.slot_listed ha (.inr hor)]
    exact hor
  strings x hx := by
    obtain ⟨e, he, -⟩ := @hs.linked x.1 x.2 hx
    exact hs.isLive_iff.2 ⟨e, he⟩
  weakTables hp t ht := hs.isLive_iff.2 (hrec.2 hp t ht)

/-- A block that moves while it is recorded, or remembered as a weak table, leaves its old
reference behind. -/
theorem Sound.dangling (hs : h.Sound) (hfresh : h.FreshFor supply r size)
    (hrun : h.realloc supply r old size = .ok (.ok moved, h')) (hstrands : h.Strands r size moved) :
    ¬ h'.NoDangling := by
  intro hno
  obtain ⟨e, -, hr⟩ := realloc_eq_ok hs hfresh hrun
  obtain ⟨hstays, hne, hrecorded⟩ := hstrands
  cases hr with
  | @resized _ x s' hs' hslot hmoved _ _ _ =>
    have hgone : ¬ Heap.isLive { h with space := s' } r = true := by
      rw [hs'.isLive_iff]
      rintro ⟨x, hx⟩
      rw [hslot, Function.update_of_ne hne.symm, Function.update_self] at hx
      cases hx
    rcases hrecorded with hmem | ⟨hp, hmem⟩
    · exact hgone (hno.stores r hmem)
    · exact hgone (hno.weakTables hp r hmem)
  | moved hstays' => exact hstays' hstays

end Heap

namespace Machine

variable {σ : Type} {mu : Mutator σ} {m : Machine σ} {config : Config} {hashOf : List UInt8 → Hash}

/-- A table that was marked and then written to, so that a barrier has recorded it, and that can
be resized as a block. -/
theorem exists_recorded_block : ∃ (m : Machine Ledger) (h : Heap),
    Reachable Ledger.mutator Heap.unstranded { hugeThreshold := 1 } (fun _ => 0) m ∧
      m.heap.phase = .propagate ∧ m.heap.Live (.huge 5) ∧ .huge 5 ∈ m.heap.stores.entries ∧
      m.heap.space.isMarked (.huge 5) = .ok false ∧ m.heap.StaysHuge (.huge 5) 100 ∧
      m.heap.FreshFor (.page 6) (.huge 5) 100 ∧
      m.heap.realloc (.page 6) (.huge 5) 24 100 = .ok (.ok (.huge 6), h) := by
  let config : Config := { hugeThreshold := 1 }
  let start := answerOf (Heap.build config fun _ => 0) (by decide +kernel)
  have hstart : Heap.withConfig config (fun _ => 0) = .ok (.ok start) := rfl
  let placed := answerOf (start.alloc (.page 5) .table 24) (by decide +kernel)
  have hplaced : start.alloc (.page 5) .table 24 = .ok placed := eq_answerOf _
  let program : Ledger := { roots := [.huge 5] }
  let traversed := answerOf (singleSteps Ledger.mutator ⟨program, placed.2⟩ 2) (by decide +kernel)
  have htraversed : singleSteps Ledger.mutator ⟨program, placed.2⟩ 2 = .ok traversed := eq_answerOf _
  let recorded := answerOf (traversed.heap.barrierBack (.huge 5)) (by decide +kernel)
  have hrecorded : traversed.heap.barrierBack (.huge 5) = .ok recorded := eq_answerOf _
  have hmu := Ledger.finalizersOperate Heap.unstranded config fun _ => 0
  have hplace : Reachable Ledger.mutator Heap.unstranded config (fun _ => 0) ⟨program, placed.2⟩ :=
    ((Reachable.initial {} hstart).step
      (.operate (.alloc (Supply.page_fresh (by decide) rfl (by decide +kernel) 0) hplaced))).step
        (.compute program)
  have hreach : Reachable Ledger.mutator Heap.unstranded config (fun _ => 0) ⟨traversed.program, recorded⟩ :=
    (hplace.singleSteps hmu htraversed).step
      (.operate (.barrierBack ⟨by decide +kernel, by decide +kernel⟩ hrecorded))
  have hfresh := Supply.page_fresh (p := 6) (s := recorded.space) (by decide) (by decide +kernel)
    (by decide +kernel)
  exact ⟨⟨traversed.program, recorded⟩, _, hreach, by decide +kernel, ⟨by decide +kernel, by decide +kernel⟩,
    by decide +kernel, by decide +kernel, ⟨rfl, 112, by decide +kernel, by decide +kernel⟩,
    ⟨fun _ => hfresh 5, fun _ => hfresh 0⟩, eq_answerOf_of_fst (by decide +kernel) (by decide +kernel)⟩

/-- At every point of a run, and after every call, no reference that the heap keeps dangles, as
long as no block is resized that strands a reference; and a resizing that does leaves a
dangling reference. -/
theorem references_stay_allocated (hmu : FinalizersOperate mu Heap.unstranded config hashOf)
    (hm : Reachable mu Heap.unstranded config hashOf m) :
    m.heap.NoDangling ∧ (∀ m', Call mu Heap.unstranded m m' → m'.heap.NoDangling) ∧
      ∀ {supply : Supply} {r : Ref} {old size : Nat} {moved : Ref} {h : Heap},
        m.heap.FreshFor supply r size → m.heap.realloc supply r old size = .ok (.ok moved, h) →
        m.heap.Strands r size moved → ¬ h.NoDangling := by
  refine ⟨hm.sound.noDangling hm.recorded, fun m' hcall => ?_, fun hfresh hrun hstrands =>
    hm.sound.dangling hfresh hrun hstrands⟩
  have hm' := hm.call hmu hcall
  exact hm'.sound.noDangling hm'.recorded

/-- A table that a barrier has recorded does not dangle, and it does once it is resized as a block
and moves to another page. -/
theorem recorded_table_dangles_when_moved : ∃ m : Machine Ledger,
    Ref.huge 5 ∈ m.heap.stores.entries ∧ m.heap.NoDangling ∧
      ∃ h, m.heap.realloc (.page 6) (.huge 5) 24 100 = .ok (.ok (.huge 6), h) ∧ ¬ h.NoDangling := by
  obtain ⟨m, h, hreach, -, -, hmem, -, hstays, hfresh, hresized⟩ := exists_recorded_block
  obtain ⟨hno, -, hdangles⟩ :=
    references_stay_allocated (Ledger.finalizersOperate _ _ _) hreach
  exact ⟨m, hmem, hno, h, hresized, hdangles hfresh hresized ⟨hstays, by decide, .inl hmem⟩⟩

end Machine

end Tricolor
