import Tricolor.Proofs.Heap.Barriers
import Tricolor.Proofs.Space.Resizing

/-!
# Resizing

An object is resized in its place, as a block that the memory supply may move, or by moving
it: a new object is made, the registrations and the mark are renewed, and the old object is
freed. What is recorded of a resized block moves with it inside the space, but the store
buffer and the list of weak tables still name its old place.
-/

namespace Tricolor

namespace Heap

variable {h h' : Heap} {r t moved : Ref} {e : Entity} {s' : Space} {supply : Supply}

/-- A huge block that stays one is resized as a block. -/
def StaysHuge (h : Heap) (r : Ref) (size : Nat) : Prop :=
  r.isHuge = true ∧ ∃ total, objectBytes size = .ok total ∧ h.config.hugeThreshold < total

/-- What the memory supply promises when an object is resized: a block that is resized as a
block may move into the region that it gives up. -/
def FreshFor (h : Heap) (supply : Supply) (r : Ref) (size : Nat) : Prop :=
  (h.StaysHuge r size → supply.Fresh h.space r.page) ∧
    (¬ h.StaysHuge r size → supply.Fresh h.space 0)

/-- The heap `h₁` is `h` with a copy of the object at `r`, resized to `size` bytes, which stands
for it in all that the collector keeps within the space. -/
structure Copies (h : Heap) (r : Ref) (e : Entity) (size : Nat) (moved : Ref) (h₁ : Heap) : Prop where
  sound : h₁.Sound
  others : h₁ = { h with space := h₁.space }
  vacant : (h.space.slot moved).entity? = none
  slot : ∀ t, t ≠ moved → h₁.space.slot t = h.space.slot t
  copy : ∃ x, (h₁.space.slot moved).entity? = some x ∧ x.header = { e.header with size } ∧
    x.survives = true ∧ (h.phase.IsMarking → x.marked = e.marked)
  queued : h.phase.IsMarking → e.marked = true → e.header.kind.isLeaf = false →
    (h₁.space.slot moved).queued
  listed : (h₁.space.slot moved).pending → False
  payload : ∀ x, (h₁.space.slot moved).entity? = some x → x.payload = e.refitted size

/-- How an object is resized. -/
inductive Reallocates (h : Heap) (r : Ref) (e : Entity) (size : Nat) :
    Except AllocError Ref → Heap → Prop where
  | refused {error : AllocError} {s' : Space} : h.space.Alike s' →
      Reallocates h r e size (.error error) { h with space := s' }
  | resized {moved : Ref} {x : Entity} {s' : Space} : Sound { h with space := s' } →
      s'.slot = Function.update (Function.update h.space.slot r .blank) moved
        { h.space.slot r with entity? := some x } →
      moved = r ∨ h.StaysHuge r size ∧ (h.space.slot moved).entity? = none →
      x.marked = e.marked → x.awaits = e.awaits → x.header = { e.header with size } →
      x.payload = e.refitted size →
      Reallocates h r e size (.ok moved) { h with space := s' }
  | moved {moved : Ref} {h₁ h' : Heap} : ¬ h.StaysHuge r size → moved ≠ r →
      h.Copies r e size moved h₁ →
      h₁.Releases r h' → Reallocates h r e size (.ok moved) h'

/-! ## Moving an object -/

/-- The space while a copy with the payload `bytes` is made at `moved`: nothing else has changed. -/
structure Drafts (h : Heap) (moved : Ref) (header : Header) (bytes : List UInt8) (s : Space) : Prop where
  sound : Sound { h with space := s }
  slot : ∀ t, t ≠ moved → s.slot t = h.space.slot t
  copy : ∃ x, (s.slot moved).entity? = some x ∧ x.header = header ∧ x.survives = true ∧
    (h.phase.IsMarking → x.marked = false) ∧ x.payload = bytes
  pending : ¬ (s.slot moved).pending

variable {s : Space} {kind : Kind} {header header' : Header} {bytes bytes' : List UInt8}

/-- Changing the copy keeps it a copy. -/
theorem Drafts.revise {v : Slot} (hd : h.Drafts moved header bytes s) (hrev : s.Revises s' moved v)
    (hsound : Sound { h with space := s' })
    (hcopy : ∃ x, v.entity? = some x ∧ x.header = header' ∧ x.survives = true ∧
      (h.phase.IsMarking → x.marked = false) ∧ x.payload = bytes') (hpending : ¬ v.pending) :
    h.Drafts moved header' bytes' s' where
  sound := hsound
  slot t ht := (hrev.slot_ne ht).trans (hd.slot t ht)
  copy := by
    rw [hrev.slot_self]
    exact hcopy
  pending := by
    rw [hrev.slot_self]
    exact hpending

/-- The copy is fixed if the object was. -/
theorem Drafts.fixes (hd : h.Drafts moved header bytes s) (hnot : header.isFixed = false) (fixed : Bool) :
    ∃ s', (if fixed then s.fix moved else pure s) = .ok s' ∧
      h.Drafts moved { header with isFixed := fixed } bytes s' := by
  cases fixed with
  | false =>
    refine ⟨s, rfl, ?_⟩
    rw [← hnot]
    exact hd
  | true =>
    obtain ⟨x, hx, rfl, hsurvives, hm, hpayload⟩ := hd.copy
    obtain ⟨s', hfix, hrev⟩ := Space.fix_spec hd.sound.wf hx (hd.sound.fixedAgrees moved)
    exact ⟨s', hfix, hd.revise hrev (hd.sound.fixed hx hsurvives hrev) ⟨_, rfl, rfl, hsurvives, hm, hpayload⟩
      hd.pending⟩

/-- The copy is registered if the object was. -/
theorem Drafts.registers (hd : h.Drafts moved header bytes s) (hnot : header.hasFinalizer = false)
    (registered : Bool) : ∃ s', (if registered then s.registerFinalizer moved else pure s) = .ok s' ∧
      h.Drafts moved { header with hasFinalizer := registered } bytes s' := by
  cases registered with
  | false =>
    refine ⟨s, rfl, ?_⟩
    rw [← hnot]
    exact hd
  | true =>
    obtain ⟨x, hx, rfl, hsurvives, hm, hpayload⟩ := hd.copy
    obtain ⟨s', hreg, hrev⟩ :=
      Space.registerFinalizer_spec hd.sound.wf hx (hd.sound.registeredAgrees moved)
    refine ⟨s', hreg, hd.revise hrev (hd.sound.registers hx hsurvives hrev) ?_ ?_⟩
    · rw [hnot]
      exact ⟨_, rfl, rfl, hsurvives, hm, hpayload⟩
    · rw [hnot]
      exact hd.pending

/-- A new object into which the bytes that fit of another one were written. -/
theorem Drafts.of_appears (hs : h.Sound) (hkind : kind ≠ .str) {size : Nat} {x : Entity}
    (ha : Appears h.space moved kind size s x) (hzero : x.content = fun _ => 0) :
    ∃ s', s.writePayload moved 0 (e.payload.take size) = .ok s' ∧
      h.Drafts moved (.fresh kind size) (e.refitted size) s' := by
  have hsound := hs.appears ha
  have hx : (s.slot moved).entity? = some x := by rw [ha.revises.slot_self]
  have hroom := (objectBytes_eq_ok ha.size).1
  have hm : h.phase.IsMarking → x.marked = false := fun hp => by
    rw [ha.marked]
    exact hsound.awaits (Phase.not_isSweeping hp) hx
  have hd : h.Drafts moved (.fresh kind size) x.payload s :=
    { sound := hsound
      slot := fun t ht => ha.revises.slot_ne ht
      copy := ⟨x, hx, ha.header, ha.survives, hm, rfl⟩
      pending := by
        rw [ha.revises.slot_self]
        exact (hs.not_listed ha.vacant).2.2 }
  have hlength : (e.payload.take size).length = min size e.header.size := by
    rw [List.length_take, Entity.length_payload]
  obtain ⟨s', hwrite, hrev⟩ := Space.writePayload_spec hsound.wf hx 0 (e.payload.take size) (by omega)
  refine ⟨s', hwrite, hd.revise hrev (hsound.written hx (by rw [ha.header]; exact hkind) hrev)
    ⟨_, rfl, ha.header, ha.survives, hm, ?_⟩ hd.pending⟩
  have hsize : x.header.size = size := by rw [ha.header]; rfl
  rw [← hsize]
  refine Entity.payload_eq_refitted fun i (hi : i < x.header.size) => ?_
  show (if 0 ≤ i ∧ i < 0 + (e.payload.take x.header.size).length then _ else x.content i) = _
  rw [hsize, hlength, hzero]
  by_cases hold : i < e.header.size
  · rw [if_pos (by omega), if_pos hold, Nat.sub_zero, List.getD_eq_getElem?_getD, List.getElem?_eq_getElem (by omega),
      Option.getD_some, List.getElem_take,
      Entity.getElem_payload]
  · rw [if_neg (by omega), if_neg hold]

/-- The copy is marked if the object was, while the collector is marking. -/
theorem Drafts.marks {size : Nat} (hd : h.Drafts moved { e.header with size } (e.refitted size) s)
    (hvacant : (h.space.slot moved).entity? = none) (hne : r ≠ moved)
    (he : (h.space.slot r).entity? = some e) :
    ∃ marked s', (if h.isMarking then s.isMarked r else pure false) = .ok marked ∧
      (if marked then s.mark moved else pure s) = .ok s' ∧
      h.Copies r e size moved { h with space := s' } := by
  have he' : (s.slot r).entity? = some e := by
    rw [hd.slot r hne]
    exact he
  obtain ⟨x, hx, hheader, hsurvives, hm, hpayload⟩ := hd.copy
  by_cases hmarked : h.isMarking = true ∧ e.marked = true
  · obtain ⟨hp, hem⟩ := hmarked
    have hmarking := isMarking_iff.1 hp
    obtain ⟨s', hmark, hshades⟩ := Space.mark_spec hd.sound.wf hx
    have hrev := hshades.revises
    refine ⟨true, s', by rw [if_pos hp, Space.isMarked_eq hd.sound.wf he', hem], hmark, ?_⟩
    exact
      { sound := hd.sound.shades hmarking hshades
        others := rfl
        vacant := hvacant
        slot := fun t ht => (hrev.slot_ne ht).trans (hd.slot t ht)
        copy := ⟨{ x with marked := true },
          by rw [hrev.slot_self, Slot.shade_entity?, hx]; rfl, hheader, rfl, fun _ => hem.symm⟩
        queued := fun _ _ hleaf => by
          rw [hrev.slot_self, Slot.shade_queued]
          exact .inr ⟨x, hx, hm hmarking, by rw [hheader]; exact hleaf⟩
        listed := fun hpending => by
          rw [hrev.slot_self, Slot.shade_pending] at hpending
          exact hd.pending hpending
        payload := fun y hy => by
          rw [hrev.slot_self, Slot.shade_entity?, hx] at hy
          cases hy
          exact hpayload }
  · have hnot : h.phase.IsMarking → e.marked = false := fun hp =>
      Bool.not_eq_true _ ▸ fun hem => hmarked ⟨isMarking_iff.2 hp, hem⟩
    refine ⟨false, s, ?_, rfl, ?_⟩
    · split
      · next hp => rw [Space.isMarked_eq hd.sound.wf he', hnot (isMarking_iff.1 hp)]
      · rfl
    · exact
        { sound := hd.sound
          others := rfl
          vacant := hvacant
          slot := hd.slot
          copy := ⟨x, hx, hheader, hsurvives, fun hp => (hm hp).trans (hnot hp).symm⟩
          queued := fun hp hem => by rw [hnot hp] at hem; cases hem
          listed := hd.pending
          payload := fun y hy => by
            cases hx.symm.trans hy
            exact hpayload }

/-- Once there is a new object, moving an object into it succeeds: it becomes a copy of the
object, which is freed. -/
theorem moveObject_spec (hs : h.Sound) (hfresh : supply.Fresh h.space 0)
    (he : (h.space.slot r).entity? = some e) (hkind : e.header.kind ≠ .str) {size : Nat}
    (halloc : h.alloc supply e.header.kind size = .ok (.ok moved, h')) :
    ∃ h₁ h₂, h.moveObject supply r e.header size = .ok (.ok moved, h₂) ∧ moved ≠ r ∧
      h.Copies r e size moved h₁ ∧ h₁.Releases r h₂ := by
  obtain ⟨s₀, rfl, -, hok⟩ := alloc_zeroed hs hfresh halloc
  obtain ⟨x₀, happears, hzero⟩ := hok moved rfl
  have hne : r ≠ moved := by
    rintro rfl
    rw [happears.vacant] at he
    cases he
  have hs₀ := hs.appears happears
  have he₀ : (s₀.slot r).entity? = some e := by
    rw [happears.revises.slot_ne hne]
    exact he
  have hroom := (objectBytes_eq_ok ((hs.admits r).size he)).1
  obtain ⟨bytes, hbytes, hread⟩ := Space.bytesOf_read hs₀.wf he₀ hroom
  obtain ⟨s₁, hwrite, hd₁⟩ := Drafts.of_appears hs hkind happears hzero
  rw [← hread] at hwrite
  obtain ⟨s₂, hfix, hd₂⟩ := hd₁.fixes rfl e.header.isFixed
  obtain ⟨s₃, hregister, hd₃⟩ := hd₂.registers rfl e.header.hasFinalizer
  obtain ⟨marked, s₄, hmarked, hmark, hcopies⟩ := Drafts.marks (e := e) hd₃ happears.vacant hne he
  have he₄ : (s₄.slot r).entity? = some e := by
    rw [show s₄.slot r = h.space.slot r from hcopies.slot r hne]
    exact he
  obtain ⟨h₂, hrelease, hrel⟩ := release_spec hcopies.sound he₄
  refine ⟨_, h₂, ?_, hne.symm, hcopies, hrel⟩
  rw [moveObject, bind_eq_ok_iff]
  refine ⟨_, halloc, bind_eq_ok_iff.2 ⟨bytes, hbytes, bind_eq_ok_iff.2 ⟨s₁, hwrite, ?_⟩⟩⟩
  refine ite_bind_eq_ok_iff.2 ⟨s₂, hfix, ite_bind_eq_ok_iff.2 ⟨s₃, hregister, ?_⟩⟩
  refine ite_bind_eq_ok_iff.2 ⟨marked, hmarked, ite_bind_eq_ok_iff.2 ⟨s₄, hmark, ?_⟩⟩
  exact bind_eq_ok_iff.2 ⟨h₂, hrelease, rfl⟩

/-- Moving an object makes a copy of it and frees it. -/
theorem moveObject_eq_ok (hs : h.Sound) (hfresh : supply.Fresh h.space 0)
    (he : (h.space.slot r).entity? = some e) (hkind : e.header.kind ≠ .str) {size : Nat}
    {result : Except AllocError Ref} (hrun : h.moveObject supply r e.header size = .ok (result, h')) :
    (∀ error, result = .error error → ∃ s', h' = { h with space := s' } ∧ h.space.Alike s') ∧
      ∀ moved, result = .ok moved → moved ≠ r ∧ ∃ h₁, h.Copies r e size moved h₁ ∧ h₁.Releases r h' := by
  have hmoves := hrun
  rw [moveObject] at hmoves
  obtain ⟨⟨moved?, h₀⟩, halloc, hmoves⟩ := bind_eq_ok_iff.1 hmoves
  cases moved? with
  | error x =>
    obtain ⟨s₀, rfl, herror, -⟩ := alloc_eq_ok hs hfresh halloc
    cases hmoves
    exact ⟨fun error hr => by cases hr; exact ⟨s₀, rfl, herror x rfl⟩, fun _ hr => by cases hr⟩
  | ok moved =>
    obtain ⟨h₁, h₂, hspec, hne, hcopies, hrel⟩ := moveObject_spec hs hfresh he hkind halloc
    rw [hspec] at hrun
    cases hrun
    exact ⟨fun _ hr => (by cases hr), fun _ hr => by cases hr; exact ⟨hne, h₁, hcopies, hrel⟩⟩

/-! ## Resizing an object -/

/-- Giving an object its new payload size. The bytes that its payload gains are zero. -/
theorem finishResize_eq_ok (hwf : h.space.Wf) {x : Entity} (hx : (h.space.slot r).entity? = some x)
    {size : Nat} (hfits : headerBytes + size ≤ x.size)
    (hrun : h.finishResize r x.header size = .ok h') :
    ∃ content s', h' = { h with space := s' } ∧ h.space.Revises s' r { h.space.slot r with
      entity? := some { x with header := { x.header with size }, content } } ∧
      ∀ i, i < size → content i = if i < x.header.size then x.content i else 0 := by
  rw [finishResize] at hrun
  obtain ⟨s₁, hclear, hrun⟩ := ite_bind_eq_ok_iff.1 hrun
  obtain ⟨s₂, hheader, hret⟩ := bind_eq_ok_iff.1 hrun
  cases hret
  have hcleared : ∃ content, h.space.Revises s₁ r { h.space.slot r with entity? := some { x with content } } ∧
      ∀ i, i < size → content i = if i < x.header.size then x.content i else 0 := by
    split at hclear
    · next hlt =>
      obtain ⟨_, hclear', hrev⟩ := Space.clearPayload_spec hwf hx x.header.size
        (size - x.header.size) (by omega)
      rw [hclear'] at hclear
      cases hclear
      refine ⟨_, hrev, fun i hi => ?_⟩
      by_cases hold : i < x.header.size
      · rw [if_pos hold, if_neg (by omega)]
      · rw [if_neg hold, if_pos (by omega)]
    · cases hclear
      refine ⟨x.content, (Space.Revises.refl hwf r).congr (Slot.ext hx rfl rfl rfl rfl), fun i hi => ?_⟩
      rw [if_pos (by omega)]
  obtain ⟨content, hrev₁, hzero⟩ := hcleared
  obtain ⟨_, hheader', hrev₂⟩ := Space.modifyHeader_spec hrev₁.wf
    (show (s₁.slot r).entity? = some { x with content } by rw [hrev₁.slot_self])
    fun _ => { x.header with size }
  rw [hheader'] at hheader
  cases hheader
  refine ⟨content, _, rfl, hrev₁.trans (hrev₂.congr ?_), hzero⟩
  rw [hrev₁.slot_self]
  rfl

/-- A block that was resized as a block keeps the heap sound, wherever it is now. -/
theorem Sound.resized (hs : h.Sound) (he : (h.space.slot r).entity? = some e) (hkind : e.header.kind ≠ .str)
    (hvacant : moved = r ∨ (h.space.slot moved).entity? = none) {x : Entity} (hwf : s'.Wf)
    (hunswept : s'.unswept = h.space.unswept) (hhuge : s'.hugeNeedsSweep = h.space.hugeNeedsSweep)
    (hslot : s'.slot = Function.update (Function.update h.space.slot r .blank) moved
      { h.space.slot r with entity? := some x })
    (hsize : objectBytes x.header.size = .ok x.size) (hmarked : x.marked = e.marked)
    (hawaits : x.awaits = e.awaits) (hfixed : x.header.isFixed = e.header.isFixed)
    (hregistered : x.header.hasFinalizer = e.header.hasFinalizer) : Sound { h with space := s' } := by
  have hsurvives : x.survives = e.survives := by
    rw [Entity.survives, hmarked, hawaits, Entity.survives]
  have hother : ∀ t, t ≠ moved → t ≠ r → s'.slot t = h.space.slot t := fun t ht htr => by
    rw [hslot, Function.update_of_ne ht, Function.update_of_ne htr]
  refine hs.replace hwf hunswept hhuge (fun t => ?_) fun hash t hmem => ?_
  · by_cases ht : t = moved
    · rw [ht, hslot, Function.update_self]
      refine (hs.admits r).of_entity he hsize hfixed hregistered (fun hsurv => hsurvives.trans hsurv) ?_
      intro hm
      rw [hawaits]
      exact (hs.admits r).marked he (hmarked.symm.trans hm)
    · by_cases htr : t = r
      · rw [hslot, Function.update_of_ne ht, htr, Function.update_self]
        exact
          { size := fun hx => (by cases hx)
            fixed := fun hx => (by cases hx)
            registered := fun hx => (by cases hx)
            listed := fun hor => (hor.elim id fun hor => hor.elim id id).elim
            queued := fun hq => hq.elim
            marked := fun hx => (by cases hx) }
      · rw [hother t ht htr]
        exact hs.admits t
  · have htr : t ≠ r := by
      rintro rfl
      exact hs.not_linked he hkind hash hmem
    have ht : t ≠ moved := by
      rintro rfl
      rcases hvacant with heq | hnone
      · exact htr heq
      · obtain ⟨y, hy, -⟩ := hs.linked hmem
        rw [hnone] at hy
        cases hy
    rw [hother t ht htr]
    exact hs.linked hmem

/-- An object that neither stays a huge block nor keeps its number of cells is moved. -/
theorem realloc_eq_moveObject (hs : h.Sound) (he : (h.space.slot r).entity? = some e)
    (hkind : e.header.kind ≠ .str) {size total : Nat} (hsize : size < halfWordRange)
    (htotal : objectBytes size = .ok total) (hstays : ¬ h.StaysHuge r size)
    (hcells : r.isHuge = false → e.size ≠ total) :
    h.realloc supply r e.header.size size = h.moveObject supply r e.header size := by
  have hhuge : (r.isHuge && decide (h.config.hugeThreshold < total)) = false := by
    rw [← Bool.not_eq_true, Bool.and_eq_true, decide_eq_true_iff]
    exact fun hand => hstays ⟨hand.1, total, htotal, hand.2⟩
  have hsame : (!r.isHuge && total == e.size) = false := by
    rw [← Bool.not_eq_true, Bool.and_eq_true, beq_iff_eq]
    exact fun hand => hcells (by simpa using hand.1) hand.2.symm
  have hlive : h.requireLive r = .ok () := require_eq_ok_iff.2 (hs.isLive_iff.2 ⟨e, he⟩)
  simp only [realloc, hlive, htotal, Space.header_eq hs.wf he, Space.objectSize_eq hs.wf he, require,
    if_pos hkind, if_neg (Nat.not_le.2 hsize), hhuge, hsame, bind, Except.bind, reduceIte, Bool.false_eq_true]

/-- A block that stays one gets its new payload size where it has been put. The bytes of its payload are
among those that it keeps. -/
theorem reallocates_block (hs : h.Sound) (he : (h.space.slot r).entity? = some e) (hkind : e.header.kind ≠ .str)
    {size total : Nat} (hstays : h.StaysHuge r size) (htotal : objectBytes size = .ok total) {s₁ : Space}
    (hvacant : moved = r ∨ (h.space.slot moved).entity? = none) (hwf : s₁.Wf)
    (hunswept : s₁.unswept = h.space.unswept) (hhuge : s₁.hugeNeedsSweep = h.space.hugeNeedsSweep)
    (hslot : s₁.slot = Function.update (Function.update h.space.slot r .blank) moved
      { h.space.slot r with entity? := some (Space.resized e total) })
    (hrun : { h with space := s₁ }.finishResize moved e.header size = .ok h') :
    h.Reallocates r e size (.ok moved) h' := by
  obtain ⟨content, s', rfl, hrev, hzero⟩ := finishResize_eq_ok (h := { h with space := s₁ }) hwf
    (x := Space.resized e total) (r := moved)
    (by show (s₁.slot moved).entity? = _; rw [hslot, Function.update_self]) (objectBytes_eq_ok htotal).1 hrun
  let x : Entity := { Space.resized e total with header := { e.header with size }, content }
  have hslot' : s'.slot = Function.update (Function.update h.space.slot r .blank) moved
      { h.space.slot r with entity? := some x } := by
    rw [hrev.slot]
    show Function.update s₁.slot moved _ = _
    rw [hslot, Function.update_idem, Function.update_self]
    rfl
  refine .resized ?_ hslot' (hvacant.imp_right fun hnone => ⟨hstays, hnone⟩) rfl rfl rfl ?_
  · exact hs.resized he hkind hvacant hrev.wf (hrev.unswept.trans hunswept)
      (hrev.hugeNeedsSweep.trans hhuge) hslot' htotal rfl rfl rfl rfl
  · refine Entity.payload_eq_refitted fun i (hi : i < size) => (hzero i hi).trans ?_
    show (if i < e.header.size then _ else 0) = if i < e.header.size then _ else 0
    have hfits := (objectBytes_eq_ok htotal).1
    have hroom := (objectBytes_eq_ok ((hs.admits r).size he)).1
    by_cases hold : i < e.header.size
    · rw [if_pos hold, if_pos hold, Space.resized]
      exact if_pos (by omega)
    · rw [if_neg hold, if_neg hold]

/-- An object whose cells have room for its new payload size keeps its place. -/
theorem reallocates_inPlace (hs : h.Sound) (he : (h.space.slot r).entity? = some e) (hkind : e.header.kind ≠ .str)
    {size : Nat} (htotal : objectBytes size = .ok e.size) (hrun : h.finishResize r e.header size = .ok h') :
    h.Reallocates r e size (.ok r) h' := by
  obtain ⟨content, s', rfl, hrev, hzero⟩ := finishResize_eq_ok hs.wf he (objectBytes_eq_ok htotal).1 hrun
  have hslot : s'.slot = Function.update (Function.update h.space.slot r .blank) r { h.space.slot r with
      entity? := some { e with header := { e.header with size }, content } } := by
    rw [hrev.slot, Function.update_idem]
  refine .resized ?_ hslot (.inl rfl) rfl rfl rfl (Entity.payload_eq_refitted hzero)
  exact hs.resized he hkind (.inl rfl) hrev.wf hrev.unswept hrev.hugeNeedsSweep hslot htotal rfl rfl rfl rfl

/-- What a successful resizing does. -/
theorem realloc_eq_ok (hs : h.Sound) {old size : Nat} (hfresh : h.FreshFor supply r size)
    {result : Except AllocError Ref} (hrun : h.realloc supply r old size = .ok (result, h')) :
    ∃ e, (h.space.slot r).entity? = some e ∧ h.Reallocates r e size result h' := by
  rw [realloc] at hrun
  obtain ⟨_, hlive, hrun⟩ := bind_eq_ok_iff.1 hrun
  obtain ⟨e, he⟩ := hs.isLive_iff.1 (require_eq_ok_iff.1 hlive)
  refine ⟨e, he, ?_⟩
  split at hrun
  · cases hrun
    exact .refused (.refl hs.wf)
  · obtain ⟨total, htotal, hrun⟩ := bind_eq_ok_iff.1 hrun
    obtain ⟨header, hheader, hrun⟩ := bind_eq_ok_iff.1 hrun
    rw [Space.header_eq hs.wf he] at hheader
    cases hheader
    obtain ⟨_, -, hrun⟩ := bind_eq_ok_iff.1 hrun
    obtain ⟨_, hstr, hrun⟩ := bind_eq_ok_iff.1 hrun
    have hkind : e.header.kind ≠ .str := require_eq_ok_iff.1 hstr
    split at hrun
    · next hcond =>
      -- a huge block that stays one
      rw [Bool.and_eq_true, decide_eq_true_iff] at hcond
      have hstays : h.StaysHuge r size := ⟨hcond.1, total, htotal, hcond.2⟩
      obtain ⟨⟨moved?, s₁⟩, hresize, hrun⟩ := bind_eq_ok_iff.1 hrun
      obtain ⟨herror, hok⟩ := Space.resizeHuge_eq_ok hs.wf hcond.1 he (hfresh.1 hstays) hs.listed
        (objectBytes_eq_ok htotal).2.1 hresize
      cases moved? with
      | error error =>
        cases hrun
        rw [herror error rfl]
        exact .refused (.refl hs.wf)
      | ok moved =>
        obtain ⟨-, hvacant, hwf, hunswept, hhuge, -, hslot⟩ := hok moved rfl
        obtain ⟨h₂, hfinish, hret⟩ := bind_eq_ok_iff.1 hrun
        cases hret
        exact reallocates_block hs he hkind hstays htotal hvacant hwf hunswept hhuge hslot hfinish
    · next hcond =>
      have hstays : ¬ h.StaysHuge r size := by
        rintro ⟨hr, total', htotal', hlt⟩
        rw [htotal] at htotal'
        cases htotal'
        rw [hr, decide_eq_true hlt] at hcond
        exact hcond rfl
      obtain ⟨bytes, hbytes, hrun⟩ := bind_eq_ok_iff.1 hrun
      rw [Space.objectSize_eq hs.wf he] at hbytes
      cases hbytes
      split at hrun
      · next hsame =>
        -- an object that keeps its place
        rw [Bool.and_eq_true, beq_iff_eq] at hsame
        obtain ⟨h₂, hfinish, hret⟩ := bind_eq_ok_iff.1 hrun
        cases hret
        exact reallocates_inPlace hs he hkind (hsame.2 ▸ htotal) hfinish
      · obtain ⟨herror, hok⟩ := moveObject_eq_ok hs (hfresh.2 hstays) he hkind hrun
        cases result with
        | error error =>
          obtain ⟨s', rfl, halike⟩ := herror error rfl
          exact .refused halike
        | ok moved =>
          obtain ⟨hne, h₁, hcopies, hrel⟩ := hok moved rfl
          exact .moved hstays hne hcopies hrel

/-- A resized object keeps its header but for its length. -/
theorem Reallocates.header_eq {size : Nat} (hr : h.Reallocates r e size (.ok moved) h') :
    ∃ x, (h'.space.slot moved).entity? = some x ∧ x.header = { e.header with size } := by
  cases hr with
  | @resized _ x s' _ hslot _ _ _ hheader => exact ⟨x, by rw [hslot, Function.update_self], hheader⟩
  | moved _ hne hcopies hrel =>
    obtain ⟨x, hx, hheader, -⟩ := hcopies.copy
    exact ⟨x, by rw [hrel.revises.slot_ne hne]; exact hx, hheader⟩

theorem Reallocates.sound (hs : h.Sound) {size : Nat} {result : Except AllocError Ref}
    (hr : h.Reallocates r e size result h') : h'.Sound := by
  cases hr with
  | refused halike => exact hs.alike halike
  | resized hsound => exact hsound
  | moved _ _ hcopies hrel => exact hcopies.sound.releases hrel

end Heap

end Tricolor
