import Tricolor.Proofs.References
import Tricolor.Proofs.Sizes
import Tricolor.Proofs.Space.Refusal

/-!
# Refusals

A call that asks for memory changes nothing if it is refused. It is refused as too large exactly if the
payload would not fit a header's size field, and as out of memory only if the memory supply refused:
whatever is small enough not to be a huge block finds its place in a new arena.
-/

namespace Tricolor

namespace Heap

variable {h h' : Heap} {supply : Supply} {r : Ref} {total size old : Nat} {kind : Kind} {header : Header}
  {bytes : List UInt8} {error : AllocError}

/-- A refusal: the heap is as it was, and the answer says why. -/
structure RefusedBy (h : Heap) (supply : Supply) (size : Nat) (error : AllocError) (h' : Heap) : Prop where
  unchanged : h' = h
  tooLarge : ∀ n, error = .tooLarge n → n = size ∧ halfWordRange ≤ size
  outOfMemory : ∀ n, error = .outOfMemory n → size < halfWordRange ∧ supply.Refuses n

theorem place_refused (hs : h.Sound) (hcell : cellBytes ≤ total)
    (hrun : h.place supply total = .ok (.error error, h')) :
    h' = h ∧ ∃ n, error = .outOfMemory n ∧ supply.Refuses n := by
  rw [place] at hrun
  split at hrun
  · obtain ⟨⟨r?, s₁⟩, halloc, hret⟩ := bind_eq_ok_iff.1 hrun
    cases hret
    obtain ⟨rfl, rfl, hrefuses⟩ := Space.allocHuge_refused halloc
    exact ⟨rfl, _, rfl, hrefuses⟩
  · next hsmall =>
    obtain ⟨⟨r?, s₁⟩, halloc, hret⟩ := bind_eq_ok_iff.1 hrun
    cases r? with
    | error e =>
      cases hret
      obtain ⟨rfl, rfl, hrefuses⟩ := Space.allocCells_refused hs.wf (Nat.div_pos hcell (by decide))
        (Nat.le_sub_of_add_le' (hs.config.fits_new hsmall)) halloc
      exact ⟨rfl, _, rfl, hrefuses⟩
    | ok r =>
      obtain ⟨s₂, -, hret⟩ := bind_eq_ok_iff.1 hret
      cases hret

theorem refusedBy_tooLarge (hsize : halfWordRange ≤ size) : h.RefusedBy supply size (.tooLarge size) h where
  unchanged := rfl
  tooLarge n hn := by
    cases hn
    exact ⟨rfl, hsize⟩
  outOfMemory n hn := by cases hn

theorem refusedBy_outOfMemory {n : Nat} (hsize : size < halfWordRange) (hrefuses : supply.Refuses n) :
    h.RefusedBy supply size (.outOfMemory n) h where
  unchanged := rfl
  tooLarge n hn := by cases hn
  outOfMemory n hn := by
    cases hn
    exact ⟨hsize, hrefuses⟩

theorem alloc_refused (hs : h.Sound) (hrun : h.alloc supply kind size = .ok (.error error, h')) :
    h.RefusedBy supply size error h' := by
  rw [alloc] at hrun
  split at hrun
  · next hlarge =>
    cases hrun
    exact refusedBy_tooLarge hlarge
  · next hsize =>
    obtain ⟨total, htotal, hrun⟩ := bind_eq_ok_iff.1 hrun
    obtain ⟨-, hcell, -⟩ := objectBytes_eq_ok htotal
    obtain ⟨⟨placed?, h₁⟩, hplace, hrun⟩ := bind_eq_ok_iff.1 hrun
    cases placed? with
    | error e =>
      cases hrun
      obtain ⟨rfl, n, rfl, hrefuses⟩ := place_refused hs hcell hplace
      exact refusedBy_outOfMemory (not_le.1 hsize) hrefuses
    | ok r =>
      obtain ⟨s₂, -, hret⟩ := bind_eq_ok_iff.1 hrun
      cases hret

theorem intern_refused (hs : h.Sound) (hrun : h.intern supply bytes = .ok (.error error, h')) :
    h.RefusedBy supply bytes.length error h' := by
  rw [intern] at hrun
  split at hrun
  · obtain ⟨survives, -, hrun⟩ := bind_eq_ok_iff.1 hrun
    split at hrun
    · cases hrun
    · obtain ⟨s₁, -, hret⟩ := bind_eq_ok_iff.1 hrun
      cases hret
  · obtain ⟨⟨r?, h₁⟩, halloc, hrun⟩ := bind_eq_ok_iff.1 hrun
    cases r? with
    | error e =>
      cases hrun
      exact alloc_refused hs halloc
    | ok r =>
      obtain ⟨s₂, -, hret⟩ := bind_eq_ok_iff.1 hrun
      cases hret

/-- Only the new place can be refused to an object that moves. -/
theorem moveObject_refused (hs : h.Sound) (hrun : h.moveObject supply r header size = .ok (.error error, h')) :
    h.RefusedBy supply size error h' := by
  obtain ⟨⟨moved?, h₁⟩, halloc, hrun⟩ := bind_eq_ok_iff.1 hrun
  cases moved? with
  | error e =>
    cases hrun
    exact alloc_refused hs halloc
  | ok moved =>
    obtain ⟨bytes, -, hrun⟩ := bind_eq_ok_iff.1 hrun
    obtain ⟨s₁, -, hrun⟩ := bind_eq_ok_iff.1 hrun
    obtain ⟨s₂, -, hrun⟩ := ite_bind_eq_ok_iff.1 hrun
    obtain ⟨s₃, -, hrun⟩ := ite_bind_eq_ok_iff.1 hrun
    obtain ⟨marked, -, hrun⟩ := ite_bind_eq_ok_iff.1 hrun
    obtain ⟨s₄, -, hrun⟩ := ite_bind_eq_ok_iff.1 hrun
    obtain ⟨h₂, -, hret⟩ := bind_eq_ok_iff.1 hrun
    cases hret

theorem realloc_refused (hs : h.Sound) (hrun : h.realloc supply r old size = .ok (.error error, h')) :
    h.RefusedBy supply size error h' := by
  rw [realloc] at hrun
  obtain ⟨_, -, hrun⟩ := bind_eq_ok_iff.1 hrun
  split at hrun
  · next hlarge =>
    cases hrun
    exact refusedBy_tooLarge hlarge
  · next hsize =>
    obtain ⟨total, -, hrun⟩ := bind_eq_ok_iff.1 hrun
    obtain ⟨header, -, hrun⟩ := bind_eq_ok_iff.1 hrun
    obtain ⟨_, -, hrun⟩ := bind_eq_ok_iff.1 hrun
    obtain ⟨_, -, hrun⟩ := bind_eq_ok_iff.1 hrun
    split at hrun
    · obtain ⟨⟨moved?, s₁⟩, hresize, hrun⟩ := bind_eq_ok_iff.1 hrun
      cases moved? with
      | error e =>
        cases hrun
        obtain ⟨rfl, rfl, hrefuses⟩ := Space.resizeHuge_refused hresize
        exact refusedBy_outOfMemory (not_le.1 hsize) hrefuses
      | ok moved =>
        obtain ⟨h₂, -, hret⟩ := bind_eq_ok_iff.1 hrun
        cases hret
    · obtain ⟨bytes, -, hrun⟩ := bind_eq_ok_iff.1 hrun
      split at hrun
      · obtain ⟨h₂, -, hret⟩ := bind_eq_ok_iff.1 hrun
        cases hret
      · exact moveObject_refused hs hrun

/-! ## Payload sizes -/

theorem alloc_lt (hrun : h.alloc supply kind size = .ok (.ok r, h')) : size < halfWordRange := by
  rw [alloc] at hrun
  split at hrun
  · cases hrun
  · next hsize => exact not_le.1 hsize

theorem realloc_lt {moved : Ref} (hrun : h.realloc supply r old size = .ok (.ok moved, h')) :
    size < halfWordRange := by
  obtain ⟨_, -, hrun⟩ := bind_eq_ok_iff.1 hrun
  split at hrun
  · cases hrun
  · next hsize => exact not_le.1 hsize

/-- The payload of every object is as long as a header can say. -/
def Bounded (h : Heap) : Prop := ∀ r e, (h.space.slot r).entity? = some e → e.header.size < halfWordRange

theorem fitting_bounded : Fitting fun _ size => size < halfWordRange where
  alloc _ _ hrun := alloc_lt hrun
  realloc _ _ hrun := realloc_lt hrun

/-! ## What is too large -/

theorem alloc_tooLarge (hsize : halfWordRange ≤ size) :
    h.alloc supply kind size = .ok (.error (.tooLarge size), h) := by
  rw [alloc, if_pos hsize]
  rfl

theorem realloc_tooLarge (hr : h.isLive r = true) (hsize : halfWordRange ≤ size) :
    h.realloc supply r old size = .ok (.error (.tooLarge size), h) := by
  rw [realloc]
  refine bind_eq_ok_iff.2 ⟨(), require_eq_ok_iff.2 hr, ?_⟩
  rw [if_pos hsize]
  rfl

/-- No string is that long, so none is found. -/
theorem intern_tooLarge (hs : h.Sound) (hb : h.Bounded) (hlength : halfWordRange ≤ bytes.length) :
    h.intern supply bytes = .ok (.error (.tooLarge bytes.length), h) := by
  rw [intern]
  split
  · next found hfind =>
    obtain ⟨hmem, hmatch⟩ := hs.strings.find_eq_some hfind
    obtain ⟨e, he, -⟩ := hs.linked hmem
    simp only [hs.payload he] at hmatch
    have hbytes : e.payload = bytes := eq_of_beq hmatch
    have hshort := hb _ e he
    rw [← e.length_payload, hbytes] at hshort
    exact absurd hlength (not_le.2 hshort)
  · exact bind_eq_ok_iff.2 ⟨_, alloc_tooLarge hlength, rfl⟩

/-- Whatever the supply refuses, a refused call leaves the heap as it was, and a call is refused as too
large exactly if the payload would be. -/
structure RefusesCleanly (h : Heap) : Prop where
  alloc : ∀ supply kind size error h', h.alloc supply kind size = .ok (.error error, h') →
    h.RefusedBy supply size error h'
  realloc : ∀ supply r old size error h', h.realloc supply r old size = .ok (.error error, h') →
    h.RefusedBy supply size error h'
  intern : ∀ supply bytes error h', h.intern supply bytes = .ok (.error error, h') →
    h.RefusedBy supply bytes.length error h'
  alloc_tooLarge : ∀ supply kind size, halfWordRange ≤ size →
    h.alloc supply kind size = .ok (.error (.tooLarge size), h)
  realloc_tooLarge : ∀ supply r old size, h.isLive r = true → halfWordRange ≤ size →
    h.realloc supply r old size = .ok (.error (.tooLarge size), h)
  intern_tooLarge : ∀ supply bytes, halfWordRange ≤ bytes.length →
    h.intern supply bytes = .ok (.error (.tooLarge bytes.length), h)

end Heap

namespace Machine

variable {σ : Type} {mu : Mutator σ} {allowed : Heap.Resizings} {m : Machine σ} {config : Config}
  {hashOf : List UInt8 → Hash}

theorem Reachable.bounded (hm : Reachable mu allowed config hashOf m) : m.heap.Bounded :=
  hm.each Heap.fitting_bounded

/-- At every point of a run, a call that is refused memory leaves the whole heap as it was. -/
theorem refused_calls_change_nothing (hm : Reachable mu Heap.anyResizing config hashOf m) :
    m.heap.RefusesCleanly where
  alloc _ _ _ _ _ := Heap.alloc_refused hm.sound
  realloc _ _ _ _ _ _ := Heap.realloc_refused hm.sound
  intern _ _ _ _ := Heap.intern_refused hm.sound
  alloc_tooLarge _ _ _ := Heap.alloc_tooLarge
  realloc_tooLarge _ _ _ _ := Heap.realloc_tooLarge
  intern_tooLarge _ _ := Heap.intern_tooLarge hm.sound hm.bounded

/-- A huge table shrinks, and no memory is left for an arena that could take it. -/
theorem refused_shrinking_leaves_block : ∃ (m : Machine Ledger) (h : Heap),
    m.heap.isLive (.huge 5) = true ∧
      m.heap.realloc (fun _ => none) (.huge 5) 100 24 = .ok (.error (.outOfMemory pageBytes), h) ∧ h = m.heap := by
  let config : Config := { hugeThreshold := 64 }
  let start := answerOf (Heap.build config fun _ => 0) (by decide +kernel)
  have hstart : Heap.withConfig config (fun _ => 0) = .ok (.ok start) := rfl
  obtain ⟨block, h, hblock, hlive, hrun⟩ :
      ∃ block h : Heap, start.alloc (.page 5) .table 100 = .ok (.ok (.huge 5), block) ∧
        block.isLive (.huge 5) = true ∧
        block.realloc (fun _ => none) (.huge 5) 100 24 = .ok (.error (.outOfMemory pageBytes), h) :=
    ⟨_, _, eq_answerOf_of_fst (by decide +kernel) (by decide +kernel), by decide +kernel,
      eq_answerOf_of_fst (by decide +kernel) (by decide +kernel)⟩
  have hreach : Reachable Ledger.mutator Heap.anyResizing config (fun _ => 0) ⟨{}, block⟩ :=
    (Reachable.initial {} hstart).step
      (.operate (.alloc (Supply.page_fresh (by decide) rfl (by decide +kernel) 0) hblock))
  have hrefused := (refused_calls_change_nothing hreach).realloc _ _ _ _ _ _ hrun
  exact ⟨⟨{}, block⟩, h, hlive, hrun, hrefused.unchanged⟩

end Machine

end Tricolor
