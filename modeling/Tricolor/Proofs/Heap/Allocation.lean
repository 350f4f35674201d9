import Tricolor.Proofs.Heap.Invariant
import Tricolor.Proofs.Space.Contents

/-!
# Allocation and interning

A new object appears at a place where there was none and outlives the sweep that is pending.
Interning answers a linked string with the same bytes, which then outlives the sweep too, or
links a new one.
-/

namespace Tricolor

/-- An object that is no huge block fits into an arena without objects. -/
theorem Config.Usable.fits_new {c : Config} (hc : c.Usable) {total : Nat}
    (hsmall : ¬ c.hugeThreshold < total) : firstCell + total / cellBytes ≤ arenaCells := by
  have hmax := hc.hugeThreshold
  rw [Config.maxHugeThreshold, usableCells] at hmax
  simp only [arenaCells, pageBytes, cellBytes, firstCell, bitmapWords] at hmax hsmall ⊢
  omega

namespace Heap

variable {h h' : Heap} {r t : Ref} {e : Entity} {s' : Space} {v : Slot} {supply : Supply}

/-- A new object at `r`, for which there was no object before. -/
structure Appears (s : Space) (r : Ref) (kind : Kind) (size : Nat) (s' : Space) (e : Entity) : Prop where
  vacant : (s.slot r).entity? = none
  revises : s.Revises s' r { s.slot r with entity? := some e }
  header : e.header = .fresh kind size
  size : objectBytes size = .ok e.size
  /-- it is black exactly if it is placed where a sweep is still to come -/
  marked : e.marked = e.awaits

theorem Appears.survives {s : Space} {kind : Kind} {size : Nat} (ha : Appears s r kind size s' e) :
    e.survives = true := by
  rw [Entity.survives, ha.marked]
  cases e.awaits <;> rfl

/-- Placing the bytes of an object, which are zeroed. -/
theorem place_eq_ok (hs : h.Sound) (hfresh : supply.Fresh h.space 0) {total : Nat} (hcell : cellBytes ≤ total)
    (hmod : total % cellBytes = 0) {result : Except AllocError Ref} (hrun : h.place supply total = .ok (result, h')) :
    ∃ s', h' = { h with space := s' } ∧ (∀ error, result = .error error → h.space.Alike s') ∧
      ∀ r, result = .ok r → h.space.ZeroedAt r total s' := by
  rw [place] at hrun
  split at hrun
  · obtain ⟨⟨r?, s₁⟩, halloc, hret⟩ := bind_eq_ok_iff.1 hrun
    cases hret
    obtain ⟨herror, hok⟩ := Space.allocHuge_eq_ok hs.wf hfresh hcell halloc
    refine ⟨s₁, rfl, fun e he => ?_, hok⟩
    rw [herror e he]
    exact .refl hs.wf
  · next hsmall =>
    obtain ⟨⟨r?, s₁⟩, halloc, hret⟩ := bind_eq_ok_iff.1 hrun
    have hcells : total / cellBytes * cellBytes = total := Nat.div_mul_cancel (Nat.dvd_of_mod_eq_zero hmod)
    obtain ⟨herror, hok⟩ := Space.allocCells_eq_ok hs.wf hfresh (Nat.div_pos hcell (by decide)) halloc
    rw [hcells] at hok
    cases r? with
    | error e =>
      cases hret
      exact ⟨s₁, rfl, herror, fun _ hr => by cases hr⟩
    | ok r =>
      obtain ⟨s₂, hclear, hret⟩ := bind_eq_ok_iff.1 hret
      cases hret
      refine ⟨s₂, rfl, fun _ hr => (by cases hr), fun _ hr => ?_⟩
      cases hr
      obtain ⟨hnone, black, header, content, hrev⟩ := hok r rfl
      have he : (s₁.slot r).entity? = some (Space.placed total black header content) := by
        rw [hrev.slot_self]
      obtain ⟨s₃, hclear', hrev'⟩ := Space.clearObject_spec hrev.wf he
      rw [show (Space.placed total black header content).size = total from rfl] at hclear'
      rw [hclear'] at hclear
      cases hclear
      refine ⟨hnone, black, header, hrev.trans (hrev'.congr ?_)⟩
      rw [hrev.slot_self]
      rfl

/-- Allocating an object, with a payload of zeros. -/
theorem alloc_zeroed (hs : h.Sound) (hfresh : supply.Fresh h.space 0) {kind : Kind} {size : Nat}
    {result : Except AllocError Ref} (hrun : h.alloc supply kind size = .ok (result, h')) :
    ∃ s', h' = { h with space := s' } ∧ (∀ error, result = .error error → h.space.Alike s') ∧
      ∀ r, result = .ok r → ∃ e, Appears h.space r kind size s' e ∧ e.content = fun _ => 0 := by
  rw [alloc] at hrun
  split at hrun
  · cases hrun
    exact ⟨h.space, rfl, fun _ _ => .refl hs.wf, fun _ hr => by cases hr⟩
  · obtain ⟨total, htotal, hrun⟩ := bind_eq_ok_iff.1 hrun
    obtain ⟨hfits, hcell, hmod⟩ := objectBytes_eq_ok htotal
    obtain ⟨⟨placed?, h₁⟩, hplace, hrun⟩ := bind_eq_ok_iff.1 hrun
    obtain ⟨s₁, rfl, herror, hok⟩ := place_eq_ok hs hfresh hcell hmod hplace
    cases placed? with
    | error e =>
      cases hrun
      exact ⟨s₁, rfl, herror, fun _ hr => by cases hr⟩
    | ok r =>
      obtain ⟨s₂, hheader, hret⟩ := bind_eq_ok_iff.1 hrun
      cases hret
      refine ⟨s₂, rfl, fun _ hr => (by cases hr), fun _ hr => ?_⟩
      cases hr
      obtain ⟨hnone, black, header, hrev⟩ := hok r rfl
      have he : (s₁.slot r).entity? = some (Space.placed total black header fun _ => 0) := by
        rw [hrev.slot_self]
      obtain ⟨s₃, hheader', hrev'⟩ := Space.modifyHeader_spec hrev.wf he fun _ => .fresh kind size
      rw [hheader'] at hheader
      cases hheader
      refine ⟨{ Space.placed total black header fun _ => 0 with header := .fresh kind size },
        { vacant := hnone
          revises := hrev.trans (hrev'.congr ?_)
          header := rfl
          size := htotal
          marked := rfl }, rfl⟩
      rw [hrev.slot_self]
      rfl

/-- Allocating an object. -/
theorem alloc_eq_ok (hs : h.Sound) (hfresh : supply.Fresh h.space 0) {kind : Kind} {size : Nat}
    {result : Except AllocError Ref} (hrun : h.alloc supply kind size = .ok (result, h')) :
    ∃ s', h' = { h with space := s' } ∧ (∀ error, result = .error error → h.space.Alike s') ∧
      ∀ r, result = .ok r → ∃ e, Appears h.space r kind size s' e := by
  obtain ⟨s', hh, herror, hok⟩ := alloc_zeroed hs hfresh hrun
  exact ⟨s', hh, herror, fun r hr => (hok r hr).imp fun _ => And.left⟩

/-- Nothing is listed where there is no object. -/
theorem Sound.not_listed (hs : h.Sound) (hnone : (h.space.slot r).entity? = none) :
    ¬ (h.space.slot r).fixed ∧ ¬ (h.space.slot r).idle ∧ ¬ (h.space.slot r).pending := by
  have hno : ¬ ((h.space.slot r).fixed ∨ (h.space.slot r).idle ∨ (h.space.slot r).pending) := fun hor => by
    obtain ⟨e, he⟩ := hs.listed r hor
    rw [hnone] at he
    cases he
  exact ⟨fun hf => hno (.inl hf), fun hf => hno (.inr (.inl hf)), fun hf => hno (.inr (.inr hf))⟩

/-- A phase allows a new object. -/
theorem Sound.admits_new (hs : h.Sound) (hnone : (h.space.slot r).entity? = none) {kind : Kind} {size : Nat}
    (hheader : e.header = .fresh kind size) (hsize : objectBytes size = .ok e.size)
    (hmarked : e.marked = e.awaits) : h.phase.Admits { h.space.slot r with entity? := some e } := by
  obtain ⟨hfixed, hidle, hpending⟩ := hs.not_listed hnone
  refine
    { size := fun {x} he => ?_
      fixed := fun {x} he => ?_
      registered := fun {x} he => ?_
      listed := fun hor => ?_
      queued := (hs.admits r).queued
      marked := fun {x} he hm => ?_ }
  · cases he
    rw [hheader]
    exact hsize
  · cases he
    rw [hheader]
    exact iff_of_false hfixed Bool.false_ne_true
  · cases he
    rw [hheader]
    exact iff_of_false (fun hor => hor.elim hidle hpending) Bool.false_ne_true
  · rcases hor with hf | hi | hp
    · exact absurd hf hfixed
    · exact absurd hi hidle
    · exact absurd hp hpending
  · cases he
    exact .inl (hmarked ▸ hm)

theorem Sound.appears (hs : h.Sound) {kind : Kind} {size : Nat}
    (ha : Appears h.space r kind size s' e) : Sound { h with space := s' } :=
  hs.revise ha.revises (hs.admits_new ha.vacant ha.header ha.size ha.marked) fun hash hmem => by
    obtain ⟨x, hx, -⟩ := hs.linked hmem
    rw [ha.vacant] at hx
    cases hx

/-- Allocation keeps a heap sound. -/
theorem Sound.alloc (hs : h.Sound) (hfresh : supply.Fresh h.space 0) {kind : Kind} {size : Nat}
    {result : Except AllocError Ref} (hrun : h.alloc supply kind size = .ok (result, h')) :
    h'.Sound := by
  obtain ⟨s', rfl, herror, hok⟩ := alloc_eq_ok hs hfresh hrun
  cases result with
  | error e => exact hs.alike (herror e rfl)
  | ok r =>
    obtain ⟨e, ha⟩ := hok r rfl
    exact hs.appears ha

/-! ## Interning -/

/-- The payload that is read after a payload was written from its start to its end. -/
theorem payload_written (header : Header) {bytes : List UInt8} {old : Nat → UInt8} {size : Nat}
    {marked awaits : Bool} (hlength : header.size = bytes.length) :
    Entity.payload ⟨size, marked, awaits, header, fun i =>
      if 0 ≤ i ∧ i < 0 + bytes.length then bytes.getD (i - 0) 0 else old i⟩ = bytes := by
  refine List.ext_getElem (by rw [Entity.length_payload, hlength]) ?_
  intro i hi hlt
  simp only [Entity.payload, List.getElem_map, List.getElem_range]
  rw [if_pos ⟨Nat.zero_le _, by omega⟩, Nat.sub_zero, List.getD_eq_getElem?_getD,
    List.getElem?_eq_getElem hlt]
  rfl

/-- How a string is interned: a linked one is found, and revived if the pending sweep would
reclaim it, or a new one is linked. -/
inductive Interns (h : Heap) (bytes : List UInt8) (r : Ref) : Heap → Prop where
  | found {e : Entity} : (h.hashOf bytes, r) ∈ h.strings.links → (h.space.slot r).entity? = some e →
      e.payload = bytes → e.survives = true → Interns h bytes r h
  | revived {e : Entity} {s' : Space} : (h.hashOf bytes, r) ∈ h.strings.links → (h.space.slot r).entity? = some e →
      e.payload = bytes → e.survives = false →
      h.space.Revises s' r ((h.space.slot r).mapEntity fun e => { e with marked := true }) →
      Interns h bytes r { h with space := s' }
  | linked {e : Entity} {s' : Space} : Appears h.space r .str bytes.length s' e → e.payload = bytes →
      (∀ t x, (h.hashOf bytes, t) ∈ h.strings.links → (h.space.slot t).entity? = some x → x.payload ≠ bytes) →
      Interns h bytes r { h with
        space := s'
        strings := h.strings.insert (h.hashOf bytes) r (h.cycle.phase ≠ .sweepStrings) }

theorem intern_eq_ok (hs : h.Sound) (hfresh : supply.Fresh h.space 0) {bytes : List UInt8}
    {result : Except AllocError Ref} (hrun : h.intern supply bytes = .ok (result, h')) :
    (∀ error, result = .error error → ∃ s', h' = { h with space := s' } ∧ h.space.Alike s') ∧
      ∀ r, result = .ok r → h.Interns bytes r h' := by
  rw [intern] at hrun
  split at hrun
  · next found hfind =>
    obtain ⟨hmem, hmatch⟩ := hs.strings.find_eq_some hfind
    obtain ⟨e, he, hkind, hhash, hor⟩ := hs.linked hmem
    have hbytes : e.payload = bytes := by
      simp only [hs.payload he] at hmatch
      exact eq_of_beq hmatch
    obtain ⟨survives, hsurvives, hrun⟩ := bind_eq_ok_iff.1 hrun
    rw [Space.survives_eq hs.wf he] at hsurvives
    cases hsurvives
    cases hb : e.survives with
    | true =>
      rw [hb, if_pos rfl] at hrun
      cases hrun
      exact ⟨fun _ hr => (by cases hr), fun r hr => by cases hr; exact .found hmem he hbytes hb⟩
    | false =>
      rw [hb, if_neg Bool.false_ne_true] at hrun
      obtain ⟨s₁, hmark, hret⟩ := bind_eq_ok_iff.1 hrun
      cases hret
      obtain ⟨s', hmark', hrev⟩ := Space.setMark_spec hs.wf he
      rw [hmark'] at hmark
      cases hmark
      exact ⟨fun _ hr => (by cases hr), fun r hr => by cases hr; exact .revived hmem he hbytes hb hrev⟩
  · next hfind =>
    obtain ⟨⟨r?, h₁⟩, halloc, hrun⟩ := bind_eq_ok_iff.1 hrun
    obtain ⟨s₁, rfl, herror, hok⟩ := alloc_eq_ok hs hfresh halloc
    cases r? with
    | error e =>
      cases hrun
      exact ⟨fun error hr => by cases hr; exact ⟨s₁, rfl, herror e rfl⟩, fun _ hr => by cases hr⟩
    | ok r =>
      obtain ⟨e, ha⟩ := hok r rfl
      have hnone : ∀ t x, (h.hashOf bytes, t) ∈ h.strings.links → (h.space.slot t).entity? = some x →
          x.payload ≠ bytes := by
        intro t x hmem hx hpayload
        have hno := hs.strings.find_eq_none hfind hmem
        simp only [hs.payload hx, hpayload, beq_self_eq_true] at hno
        cases hno
      obtain ⟨s₂, hwrite, hret⟩ := bind_eq_ok_iff.1 hrun
      cases hret
      have he : (s₁.slot r).entity? = some e := by rw [ha.revises.slot_self]
      obtain ⟨hfits, -⟩ := objectBytes_eq_ok ha.size
      obtain ⟨s₃, hwrite', hrev⟩ := Space.writePayload_spec ha.revises.wf he 0 bytes
        (by rw [Nat.add_zero]; exact hfits)
      rw [hwrite'] at hwrite
      cases hwrite
      refine ⟨fun _ hr => (by cases hr), fun r' hr => ?_⟩
      cases hr
      let written : Entity := { e with
        content := fun i => if 0 ≤ i ∧ i < 0 + bytes.length then bytes.getD (i - 0) 0 else e.content i }
      refine .linked (e := written)
        { vacant := ha.vacant
          revises := ha.revises.trans (hrev.congr (by rw [ha.revises.slot_self]))
          header := ha.header
          size := ha.size
          marked := ha.marked } (payload_written e.header (by rw [ha.header]; rfl)) hnone

theorem Sound.interns (hs : h.Sound) {bytes : List UInt8} (hi : h.Interns bytes r h') : h'.Sound := by
  cases hi with
  | found => exact hs
  | @revived e s' hmem he hbytes hsurvives hrev =>
    rw [Entity.survives, Bool.or_eq_false_iff, Bool.not_eq_false'] at hsurvives
    rw [Slot.mapEntity_of_some he] at hrev
    refine hs.revise hrev ?_ fun hash hlinked => ?_
    · have hsize := (hs.admits r).size he
      exact (hs.admits r).of_entity he hsize rfl rfl (fun _ => rfl) fun _ => .inl hsurvives.2
    · exact (hs.linked hlinked).of_entity he rfl rfl rfl fun _ => rfl
  | @linked e s' ha hbytes =>
    have hsound := hs.appears ha
    obtain ⟨hwf, hperm, hsize⟩ := InternTable.insert_spec hs.strings (h.hashOf bytes) r
      (h.cycle.phase ≠ .sweepStrings)
    refine
      { wf := hsound.wf
        admits := hsound.admits
        strings := hwf
        linked := fun {hash t} hmem => ?_
        flags := hsound.flags
        stores := hsound.stores
        config := hsound.config }
    rcases List.mem_cons.1 (hperm.subset hmem) with hnew | hold
    · cases hnew
      refine ⟨e, ?_, by rw [ha.header]; rfl, by rw [hbytes], .inl ha.survives⟩
      show (s'.slot r).entity? = _
      rw [ha.revises.slot_self]
    · obtain ⟨x, hx, hk, hh, hor⟩ := hsound.linked hold
      refine ⟨x, hx, hk, hh, hor.imp_right fun hand => ⟨hand.1, ?_⟩⟩
      obtain ⟨hp, hle⟩ := hand
      have hgrow : decide (h.cycle.phase ≠ .sweepStrings) = false := decide_eq_false (fun hne => hne hp)
      show h.cycle.stringsCursor ≤ InternTable.bucketOf (InternTable.bucketCount _) hash
      rw [InternTable.bucketCount, hsize hgrow]
      exact hle

/-- Interning keeps a heap sound. -/
theorem Sound.intern (hs : h.Sound) (hfresh : supply.Fresh h.space 0) {bytes : List UInt8}
    {result : Except AllocError Ref} (hrun : h.intern supply bytes = .ok (result, h')) : h'.Sound := by
  obtain ⟨herror, hok⟩ := intern_eq_ok hs hfresh hrun
  cases result with
  | error e =>
    obtain ⟨s', rfl, halike⟩ := herror e rfl
    exact hs.alike halike
  | ok r => exact hs.interns (hok r rfl)

end Heap

end Tricolor
