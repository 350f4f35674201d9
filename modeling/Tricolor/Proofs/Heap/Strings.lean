import Tricolor.Proofs.Cycle.Marking
import Tricolor.Proofs.Cycle.Sweeping

/-!
# Linked strings

`Heap.Names` says that a reference is the linked string with some contents. The intern table is
`Canonical` if no two linked strings have the same contents, so that interning can only answer
one of them.

`Heap.Relinks` is what each operation and each step of the collector does to the linked strings: one
that outlives the step stays linked, its contents do not change, and what is linked newly has
contents that nothing linked had. So the table stays canonical.
-/

namespace Tricolor

namespace Space

variable {s s' s'' : Space} {r t : Ref} {e x : Entity} {v : Slot}

/-- What is in `s'` was in `s` before, with the same kind and the same payload. -/
def Recalls (s s' : Space) : Prop :=
  ∀ t x, (s'.slot t).entity? = some x →
    ∃ e, (s.slot t).entity? = some e ∧ x.header.kind = e.header.kind ∧ x.payload = e.payload

theorem Recalls.of_slot (h : s'.slot = s.slot) : s.Recalls s' := fun t x hx =>
  ⟨x, by rw [← h]; exact hx, rfl, rfl⟩

theorem Recalls.trans (h : s.Recalls s') (h' : s'.Recalls s'') : s.Recalls s'' := by
  intro t x hx
  obtain ⟨y, hy, hkind, hpayload⟩ := h' t x hx
  obtain ⟨e, he, hkind', hpayload'⟩ := h t y hy
  exact ⟨e, he, hkind.trans hkind', hpayload.trans hpayload'⟩

/-- Changing one slot, but neither the kind nor the payload of its object. -/
theorem Recalls.revise (hrev : s.Revises s' r v)
    (hv : ∀ x, v.entity? = some x →
      ∃ e, (s.slot r).entity? = some e ∧ x.header.kind = e.header.kind ∧ x.payload = e.payload) :
    s.Recalls s' := by
  intro t x hx
  by_cases ht : t = r
  · subst ht
    rw [hrev.slot_self] at hx
    exact hv x hx
  · rw [hrev.slot_ne ht] at hx
    exact ⟨x, hx, rfl, rfl⟩

/-- Changing an object by a function that leaves its kind and its payload alone. -/
theorem Recalls.map {f : Entity → Entity} (hrev : s.Revises s' r ((s.slot r).mapEntity f))
    (hf : ∀ e, (f e).header.kind = e.header.kind ∧ (f e).payload = e.payload) : s.Recalls s' := by
  refine .revise hrev fun x hx => ?_
  rw [Slot.mapEntity_entity?] at hx
  obtain ⟨e, he, rfl⟩ := Option.map_eq_some_iff.1 hx
  exact ⟨e, he, hf e⟩

/-- Marking objects changes no payload. -/
theorem Advances.recalls (h : s.Advances s') : s.Recalls s' := by
  intro t x hx
  cases he : (s.slot t).entity? with
  | none =>
    rw [h.none he] at hx
    cases hx
  | some e =>
    obtain ⟨marked, hy, -⟩ := h.entity he
    rw [hx] at hy
    cases hy
    exact ⟨e, rfl, rfl, rfl⟩

/-- Sweeping changes no payload. -/
theorem Sweeps.recalls (h : s.Sweeps s') : s.Recalls s' := by
  intro t x hx
  obtain ⟨e, he, hheader, -, hcontent, -⟩ := h.entity_inv hx
  exact ⟨e, he, by rw [hheader], by rw [Entity.payload, Entity.payload, hheader, hcontent]⟩

/-- Taking a finalizer that is due changes no payload. -/
theorem Recalls.taken (hrev : s.Revises s' r (s.slot r).taken) : s.Recalls s' := by
  refine .revise hrev fun x hx => ?_
  rw [Slot.taken, Slot.mapEntity_entity?] at hx
  obtain ⟨e, he, rfl⟩ := Option.map_eq_some_iff.1 hx
  exact ⟨e, he, rfl, rfl⟩

end Space

namespace Heap

variable {h h' h'' : Heap} {bytes : List UInt8} {r t moved : Ref} {e x : Entity} {s' : Space}

/-- `r` is a linked string with the contents `bytes`. -/
def Names (h : Heap) (bytes : List UInt8) (r : Ref) : Prop :=
  (h.hashOf bytes, r) ∈ h.strings.links ∧ ∃ e, (h.space.slot r).entity? = some e ∧ e.payload = bytes

/-- No two linked strings have the same contents. -/
def Canonical (h : Heap) : Prop :=
  ∀ {bytes r t}, h.Names bytes r → h.Names bytes t → r = t

/-- Whatever is linked is linked as a string with some contents. -/
theorem Sound.names (hs : h.Sound) {hash : Hash} (hmem : (hash, r) ∈ h.strings.links) :
    ∃ bytes, h.hashOf bytes = hash ∧ h.Names bytes r := by
  obtain ⟨e, he, -, rfl, -⟩ := hs.linked hmem
  exact ⟨e.payload, rfl, hmem, e, he, rfl⟩

/-- What a linked string is. -/
theorem Sound.of_names (hs : h.Sound) (hr : h.Names bytes r) :
    ∃ e, (h.space.slot r).entity? = some e ∧ e.header.kind = .str ∧ e.payload = bytes ∧
      (e.survives = true ∨ h.phase = .sweepStrings ∧
        h.cycle.stringsCursor ≤ InternTable.bucketOf h.strings.bucketCount (h.hashOf bytes)) := by
  obtain ⟨hmem, e, he, rfl⟩ := hr
  obtain ⟨x, hx, hkind, -, hor⟩ := hs.linked hmem
  rw [he] at hx
  cases hx
  exact ⟨e, he, hkind, rfl, hor⟩

/-- The text of a linked string. -/
theorem Sound.text_of_names (hs : h.Sound) (hr : h.Names bytes r) : h.text r = .ok bytes := by
  obtain ⟨e, he, hkind, rfl, -⟩ := hs.of_names hr
  have hlive : h.requireLive r = .ok () := require_eq_ok_iff.2 (hs.isLive_iff.2 ⟨e, he⟩)
  refine bind_eq_ok_iff.2 ⟨.str, ?_, bind_eq_ok_iff.2 ⟨(), require_eq_ok_iff.2 rfl, ?_⟩⟩
  · exact bind_eq_ok_iff.2 ⟨(), hlive, bind_eq_ok_iff.2 ⟨_, Space.header_eq hs.wf he, congrArg _ hkind⟩⟩
  · exact bind_eq_ok_iff.2 ⟨(), hlive, hs.payload he⟩

/-- A linked string is in the chain of the bucket for its contents, and in no other. -/
theorem Sound.mem_chainObjects (hs : h.Sound) {bucket : Nat} (hbucket : bucket < h.strings.bucketCount) :
    r ∈ h.strings.chainObjects bucket ↔
      ∃ bytes, h.Names bytes r ∧ InternTable.bucketOf h.strings.bucketCount (h.hashOf bytes) = bucket := by
  obtain ⟨chains, hchains⟩ := hs.strings
  rw [hchains.mem_chainObjects hbucket]
  constructor
  · rintro ⟨hash, hmem, hof⟩
    obtain ⟨bytes, rfl, hr⟩ := hs.names hmem
    exact ⟨bytes, hr, hof⟩
  · rintro ⟨bytes, hr, hof⟩
    exact ⟨_, hr.1, hof⟩

/-- `r` is linked: it is found when the chains of the intern table are walked. -/
def Linked (h : Heap) (r : Ref) : Prop :=
  ∃ bucket, bucket < h.strings.bucketCount ∧ r ∈ h.strings.chainObjects bucket

theorem Sound.linked_iff (hs : h.Sound) : h.Linked r ↔ ∃ bytes, h.Names bytes r := by
  constructor
  · rintro ⟨bucket, hbucket, hr⟩
    obtain ⟨bytes, hnames, -⟩ := (hs.mem_chainObjects hbucket).1 hr
    exact ⟨bytes, hnames⟩
  · rintro ⟨bytes, hnames⟩
    have hbucket := InternTable.bucketOf_lt hs.strings.buckets_pos (h.hashOf bytes)
    exact ⟨_, hbucket, (hs.mem_chainObjects hbucket).2 ⟨bytes, hnames, rfl⟩⟩

/-! ## What a step does to the linked strings -/

/-- What a step does to the linked strings. -/
structure Relinks (h h' : Heap) : Prop where
  hashOf : h'.hashOf = h.hashOf
  /-- a string stays linked unless it is gone or awaits its sweep as a dead object -/
  kept : ∀ {bytes r}, h.Names bytes r → h'.space.Survives r → h'.Names bytes r
  /-- a string is linked newly only if none with its contents was linked, and only one is -/
  old : ∀ {bytes r}, h'.Names bytes r → h.Names bytes r ∨
    (∀ t, ¬ h.Names bytes t) ∧ ∀ t, h'.Names bytes t → t = r

/-- A canonical table stays canonical. -/
theorem Relinks.canonical (hlinks : h.Relinks h') (hcanonical : h.Canonical) : h'.Canonical := by
  intro bytes r t hr ht
  rcases hlinks.old hr with hr₀ | ⟨-, honly⟩
  · rcases hlinks.old ht with ht₀ | ⟨-, honly⟩
    · exact hcanonical hr₀ ht₀
    · exact honly r hr
  · exact (honly t ht).symm

/-- Steps that leave the table and the payloads of the linked strings alone. -/
theorem Relinks.of_strings (hs : h.Sound) (hstrings : h'.strings = h.strings) (hhash : h'.hashOf = h.hashOf)
    (hsame : ∀ {hash r e x}, (hash, r) ∈ h.strings.links → (h.space.slot r).entity? = some e →
      (h'.space.slot r).entity? = some x → x.payload = e.payload) : h.Relinks h' where
  hashOf := hhash
  kept := by
    rintro bytes r ⟨hmem, e, he, rfl⟩ ⟨x, hx, -⟩
    have hpayload := hsame hmem he hx
    refine ⟨?_, x, hx, hpayload⟩
    rw [hstrings, hhash]
    exact hmem
  old := by
    rintro bytes r ⟨hmem, x, hx, rfl⟩
    rw [hstrings, hhash] at hmem
    obtain ⟨e, he, -⟩ := hs.linked hmem
    have hpayload := hsame hmem he hx
    exact .inl ⟨hmem, e, he, hpayload.symm⟩

/-- A step that leaves the table and all payloads alone. -/
structure Recalls (h h' : Heap) : Prop where
  strings : h'.strings = h.strings
  hashOf : h'.hashOf = h.hashOf
  space : h.space.Recalls h'.space

theorem Recalls.refl (h : Heap) : h.Recalls h := ⟨rfl, rfl, .of_slot rfl⟩

theorem Recalls.trans (h₁ : h.Recalls h') (h₂ : h'.Recalls h'') : h.Recalls h'' :=
  ⟨h₂.strings.trans h₁.strings, h₂.hashOf.trans h₁.hashOf, h₁.space.trans h₂.space⟩

theorem Recalls.of_space (hspace : h.space.Recalls s') : h.Recalls { h with space := s' } := ⟨rfl, rfl, hspace⟩

/-- Such a step links nothing newly. -/
theorem Recalls.names_inv (hrecalls : h.Recalls h') (hr : h'.Names bytes r) : h.Names bytes r := by
  obtain ⟨hmem, x, hx, rfl⟩ := hr
  obtain ⟨e, he, -, hpayload⟩ := hrecalls.space r x hx
  rw [hrecalls.strings, hrecalls.hashOf] at hmem
  exact ⟨hmem, e, he, hpayload.symm⟩

theorem Marks.recalls (hm : h.Marks h') : h.Recalls h' := ⟨hm.strings, hm.hashOf, hm.advances.recalls⟩

theorem Recalls.relinks (hs : h.Sound) (hrecalls : h.Recalls h') : h.Relinks h' := by
  refine .of_strings hs hrecalls.strings hrecalls.hashOf fun {hash r e x} _ he hx => ?_
  obtain ⟨y, hy, -, hpayload⟩ := hrecalls.space r x hx
  rw [he] at hy
  cases hy
  exact hpayload

/-- Recording an object changes marks only. -/
theorem Records.recalls (hrec : h.Records r h') : h.Recalls h' := by
  cases hrec with
  | pushed => exact ⟨rfl, rfl, .of_slot rfl⟩
  | drained _ hshades => exact ⟨rfl, rfl, hshades.advances.recalls⟩

/-- A barrier for one slot changes marks only. -/
theorem Forwards.recalls {recorded : Heap → Prop} (hx : (h.space.slot r).entity? = some x)
    (hrecorded : recorded h' → h.Recalls h') (hf : h.Forwards e x r recorded h') : h.Recalls h' := by
  cases hf with
  | idle => exact .refl h
  | marking _ hrec => exact hrecorded hrec
  | sweeping _ _ hrev =>
    refine .of_space (.revise hrev fun y hy => ?_)
    cases hy
    exact ⟨x, hx, rfl, rfl⟩

/-- A barrier for a container changes marks only. -/
theorem Regreys.recalls (he : (h.space.slot r).entity? = some e) (hg : h.Regreys e r h') : h.Recalls h' := by
  cases hg with
  | idle => exact .refl h
  | greyed _ hrev _ hrec =>
    refine Recalls.trans (.of_space (.revise hrev fun y hy => ?_)) hrec.recalls
    cases hy
    exact ⟨e, he, rfl, rfl⟩

/-- Making an object that is not linked. -/
theorem Relinks.appears (hs : h.Sound) {kind : Kind} {size : Nat} (ha : Appears h.space r kind size s' e) :
    h.Relinks { h with space := s' } := by
  refine .of_strings hs rfl rfl fun {hash t y x} _ hy hx => ?_
  have ht : t ≠ r := by
    rintro rfl
    rw [ha.vacant] at hy
    cases hy
  rw [show (Heap.space { h with space := s' }).slot t = _ from ha.revises.slot_ne ht, hy] at hx
  cases hx
  rfl

/-- Freeing an object takes its link, and no other. -/
theorem Relinks.releases (hr : h.Releases r h') : h.Relinks h' where
  hashOf := hr.hashOf
  kept := by
    rintro bytes t ⟨hmem, hpayload⟩ ⟨x, hx, -⟩
    have ht : t ≠ r := by
      rintro rfl
      rw [hr.revises.slot_self] at hx
      cases hx
    refine ⟨(hr.links _ t).2 ⟨by rw [hr.hashOf]; exact hmem, ht⟩, ?_⟩
    rw [hr.revises.slot_ne ht]
    exact hpayload
  old := by
    rintro bytes t ⟨hmem, hpayload⟩
    obtain ⟨hmem, ht⟩ := (hr.links _ t).1 hmem
    rw [hr.hashOf] at hmem
    rw [hr.revises.slot_ne ht] at hpayload
    exact .inl ⟨hmem, hpayload⟩

/-- Linking a new string whose contents no linked string has. -/
theorem Relinks.links (hs : h.Sound) (ha : Appears h.space r .str bytes.length s' e) (hbytes : e.payload = bytes)
    (hnone : ∀ t, ¬ h.Names bytes t) (mayGrow : Bool) :
    h.Relinks { h with space := s', strings := h.strings.insert (h.hashOf bytes) r mayGrow } := by
  obtain ⟨-, hperm, -⟩ := InternTable.insert_spec hs.strings (h.hashOf bytes) r mayGrow
  have hself : (s'.slot r).entity? = some e := by rw [ha.revises.slot_self]
  have hother : ∀ t, t ≠ r → s'.slot t = h.space.slot t := fun t => ha.revises.slot_ne
  -- a linked place was not vacant
  have hne : ∀ {hash t}, (hash, t) ∈ h.strings.links → t ≠ r := by
    rintro hash t hmem rfl
    obtain ⟨x, hx, -⟩ := hs.linked hmem
    rw [ha.vacant] at hx
    cases hx
  have hnew : ∀ {bytes' t}, (Heap.Names { h with
      space := s', strings := h.strings.insert (h.hashOf bytes) r mayGrow } bytes' t) →
      h.Names bytes' t ∨ bytes' = bytes ∧ t = r := by
    rintro bytes' t ⟨hmem, x, hx, rfl⟩
    rcases List.mem_cons.1 (hperm.subset hmem) with hnew | hold
    · have ht : t = r := (Prod.mk.inj hnew).2
      subst ht
      have hx : (s'.slot t).entity? = some x := hx
      rw [hself] at hx
      cases hx
      exact .inr ⟨hbytes, rfl⟩
    · refine .inl ⟨hold, x, ?_, rfl⟩
      rw [← hother t (hne hold)]
      exact hx
  refine ⟨rfl, ?_, fun {bytes' t} ht => ?_⟩
  · rintro bytes' t ⟨hmem, x, hx, rfl⟩ -
    refine ⟨hperm.symm.subset (List.mem_cons_of_mem _ hmem), x, ?_, rfl⟩
    show (s'.slot t).entity? = some x
    rw [hother t (hne hmem)]
    exact hx
  · rcases hnew ht with hold | ⟨rfl, rfl⟩
    · exact .inl hold
    · exact .inr ⟨hnone, fun u hu => (hnew hu).elim (fun hold => absurd hold (hnone u)) And.right⟩

/-- Interning the contents of a linked string that outlives the pending sweep answers that string, and
changes nothing. -/
theorem Sound.intern_of_names (hs : h.Sound) (hcanonical : h.Canonical) (hr : h.Names bytes r)
    (hsurvives : h.space.Survives r) (supply : Supply) : h.intern supply bytes = .ok (.ok r, h) := by
  rw [Heap.intern]
  split
  · next found hfind =>
    obtain ⟨hmem, hmatch⟩ := hs.strings.find_eq_some hfind
    obtain ⟨x, hx, -⟩ := hs.linked hmem
    simp only [hs.payload hx] at hmatch
    obtain rfl : found = r := hcanonical ⟨hmem, x, hx, eq_of_beq hmatch⟩ hr
    obtain ⟨e, he, hsurvives⟩ := hsurvives
    rw [Space.survives_eq hs.wf he, hsurvives]
    rfl
  · next hfind =>
    obtain ⟨hmem, e, he, hpayload⟩ := hr
    have hno := hs.strings.find_eq_none hfind hmem
    simp only [hs.payload he, hpayload, beq_self_eq_true] at hno
    cases hno

/-- Interning answers a string if one with the contents is linked, or if a new one can be allocated. -/
theorem Sound.intern_spec (hs : h.Sound) {supply : Supply} (hfresh : supply.Fresh h.space 0)
    (halloc : (∃ t, h.Names bytes t) ∨ ∃ t h₁, h.alloc supply .str bytes.length = .ok (.ok t, h₁)) :
    ∃ r h', h.intern supply bytes = .ok (.ok r, h') := by
  rw [Heap.intern]
  split
  · next found hfind =>
    obtain ⟨e, he, -⟩ := hs.linked (hs.strings.find_eq_some hfind).1
    rw [Space.survives_eq hs.wf he]
    cases e.survives with
    | true => exact ⟨_, _, rfl⟩
    | false =>
      obtain ⟨s', hmark, -⟩ := Space.setMark_spec hs.wf he
      exact ⟨_, _, bind_eq_ok_iff.2 ⟨false, rfl, bind_eq_ok_iff.2 ⟨s', hmark, rfl⟩⟩⟩
  · next hfind =>
    rcases halloc with ⟨t, hmem, e, he, hpayload⟩ | ⟨t, h₁, halloc⟩
    · have hno := hs.strings.find_eq_none hfind hmem
      simp only [hs.payload he, hpayload, beq_self_eq_true] at hno
      cases hno
    · obtain ⟨s₁, rfl, -, hok⟩ := alloc_eq_ok hs hfresh halloc
      obtain ⟨e, ha⟩ := hok t rfl
      obtain ⟨s₂, hwrite, -⟩ := Space.writePayload_spec ha.revises.wf (e := e) (r := t)
        (by rw [ha.revises.slot_self]) 0 bytes (by rw [Nat.add_zero]; exact (objectBytes_eq_ok ha.size).1)
      exact ⟨t, _, bind_eq_ok_iff.2 ⟨_, halloc, bind_eq_ok_iff.2 ⟨s₂, hwrite, rfl⟩⟩⟩

/-- Interning links a string only if none with its contents is linked. -/
theorem Interns.relinks (hs : h.Sound) (hi : h.Interns bytes r h') : h.Relinks h' ∧ h'.Names bytes r := by
  cases hi with
  | found hmem he hbytes _ => exact ⟨(Recalls.refl h).relinks hs, hmem, _, he, hbytes⟩
  | @revived e s' hmem he hbytes _ hrev =>
    refine ⟨(Recalls.of_space (.map hrev fun _ => ⟨rfl, rfl⟩)).relinks hs, hmem, { e with marked := true }, ?_, hbytes⟩
    show (s'.slot r).entity? = _
    rw [hrev.slot_self, Slot.mapEntity_entity?, he]
    rfl
  | @linked e s' ha hbytes hnone =>
    refine ⟨.links hs ha hbytes (fun t ht => ?_) _, ?_, e, ?_, hbytes⟩
    · obtain ⟨hmem, x, hx, hpayload⟩ := ht
      exact hnone t x hmem hx hpayload
    · obtain ⟨-, hperm, -⟩ := InternTable.insert_spec hs.strings (h.hashOf bytes) r (h.cycle.phase ≠ .sweepStrings)
      exact hperm.symm.subset List.mem_cons_self
    · show (s'.slot r).entity? = _
      rw [ha.revises.slot_self]

/-- A resized object is no string, and its copy is not linked. -/
theorem Reallocates.relinks (hs : h.Sound) {size : Nat} {result : Except AllocError Ref}
    (he : (h.space.slot r).entity? = some e) (hkind : e.header.kind ≠ .str)
    (hr : h.Reallocates r e size result h') : h.Relinks h' := by
  cases hr with
  | refused halike => exact (Recalls.of_space (.of_slot halike.slot)).relinks hs
  | @resized moved x s' _ hslot hmoved _ _ _ =>
    refine .of_strings hs rfl rfl fun {hash t y z} hmem hy hz => ?_
    have hne : t ≠ r := by
      rintro rfl
      exact hs.not_linked he hkind hash hmem
    have hnew : t ≠ moved := by
      rintro rfl
      rcases hmoved with rfl | ⟨-, hvacant⟩
      · exact hne rfl
      · rw [hvacant] at hy
        cases hy
    have hz : (s'.slot t).entity? = some z := hz
    rw [hslot, Function.update_of_ne hnew, Function.update_of_ne hne, hy] at hz
    cases hz
    rfl
  | @moved moved h₁ h' _ _ hcopies hrel =>
    have hrelinks := Relinks.releases hrel
    have hslot : ∀ {hash t}, (hash, t) ∈ h.strings.links → h₁.space.slot t = h.space.slot t := by
      rintro hash t hmem
      refine hcopies.slot t ?_
      rintro rfl
      obtain ⟨x, hx, -⟩ := hs.linked hmem
      rw [hcopies.vacant] at hx
      cases hx
    -- the copy changes nothing that is linked
    have hnames : ∀ {bytes t}, h₁.Names bytes t ↔ h.Names bytes t := by
      have hlinks : h₁.strings = h.strings ∧ h₁.hashOf = h.hashOf := by rw [hcopies.others]; exact ⟨rfl, rfl⟩
      intro bytes t
      rw [Names, Names, hlinks.1, hlinks.2]
      refine and_congr_right fun hmem => ?_
      rw [hslot hmem]
    refine ⟨hrelinks.hashOf.trans (by rw [hcopies.others]), fun hb hsurvives =>
      hrelinks.kept (hnames.2 hb) hsurvives, fun hb => ?_⟩
    rcases hrelinks.old hb with hold | ⟨hnone, honly⟩
    · exact .inl (hnames.1 hold)
    · exact .inr ⟨fun t ht => hnone t (hnames.2 ht), honly⟩

/-- Only objects that are no strings are resized. -/
theorem kind_of_realloc (hs : h.Sound) (he : (h.space.slot r).entity? = some e) {supply : Supply} {old size : Nat}
    (hrun : h.realloc supply r old size = .ok (.ok moved, h')) : e.header.kind ≠ .str := by
  rw [realloc] at hrun
  obtain ⟨_, -, hrun⟩ := bind_eq_ok_iff.1 hrun
  split at hrun
  · cases hrun
  · obtain ⟨_, -, hrun⟩ := bind_eq_ok_iff.1 hrun
    obtain ⟨header, hheader, hrun⟩ := bind_eq_ok_iff.1 hrun
    rw [Space.header_eq hs.wf he] at hheader
    cases hheader
    obtain ⟨_, -, hrun⟩ := bind_eq_ok_iff.1 hrun
    obtain ⟨_, hstr, -⟩ := bind_eq_ok_iff.1 hrun
    exact require_eq_ok_iff.1 hstr

/-- What an operation of a program does to the linked strings. -/
theorem Operation.relinks {allowed : Resizings} (hs : h.Sound) (hop : Operation allowed h h') : h.Relinks h' := by
  cases hop with
  | @alloc _ _ _ result _ hfresh hrun =>
    obtain ⟨s', rfl, herror, hok⟩ := alloc_eq_ok hs hfresh hrun
    cases result with
    | error error => exact (Recalls.of_space (.of_slot (herror error rfl).slot)).relinks hs
    | ok r =>
      obtain ⟨e, ha⟩ := hok r rfl
      exact .appears hs ha
  | @intern _ _ result _ hfresh hrun =>
    obtain ⟨herror, hok⟩ := intern_eq_ok hs hfresh hrun
    cases result with
    | error error =>
      obtain ⟨s', rfl, halike⟩ := herror error rfl
      exact (Recalls.of_space (.of_slot halike.slot)).relinks hs
    | ok r => exact ((hok r rfl).relinks hs).1
  | free _ hrun => exact .releases (free_eq_ok hs hrun).2
  | @realloc _ r _ _ result _ _ hfresh hrun _ =>
    obtain ⟨e, he, hr⟩ := realloc_eq_ok hs hfresh hrun
    cases result with
    | error error =>
      cases hr with
      | refused halike => exact (Recalls.of_space (.of_slot halike.slot)).relinks hs
    | ok moved => exact hr.relinks hs he (kind_of_realloc hs he hrun)
  | @writePayload r _ _ _ _ hfits hrun =>
    obtain ⟨e, content, s', he, hkind, rfl, hrev⟩ := writePayload_eq_ok hs hfits hrun
    refine .of_strings hs rfl rfl fun {hash t y z} hmem hy hz => ?_
    have ht : t ≠ r := by
      rintro rfl
      exact hs.not_linked he hkind hash hmem
    rw [show (Heap.space { h with space := s' }).slot t = _ from hrev.slot_ne ht, hy] at hz
    cases hz
    rfl
  | fix _ hrun =>
    obtain ⟨e, s', he, rfl, hrev⟩ := fix_eq_ok hs hrun
    refine (Recalls.of_space (.revise hrev fun x hx => ?_)).relinks hs
    cases hx
    exact ⟨e, he, rfl, rfl⟩
  | registerFinalizer _ hrun =>
    obtain ⟨e, s', he, rfl, hrev⟩ := registerFinalizer_eq_ok hs hrun
    refine (Recalls.of_space (.revise hrev fun x hx => ?_)).relinks hs
    split at hx
    · exact ⟨x, hx, rfl, rfl⟩
    · cases hx
      exact ⟨e, he, rfl, rfl⟩
  | barrierForward hwriter hreferent hrun =>
    obtain ⟨e, he, -⟩ := hs.live_iff.1 hwriter
    obtain ⟨x, hx, -⟩ := hs.live_iff.1 hreferent
    exact ((barrierForward_eq_ok hs he hx hrun).2.recalls hx Records.recalls).relinks hs
  | barrierBack hcontainer hrun =>
    obtain ⟨e, he, -⟩ := hs.live_iff.1 hcontainer
    exact ((barrierBack_eq_ok hs he hrun).2.recalls he).relinks hs
  | barrierSlot hwriter hreferent hrun =>
    obtain ⟨e, he, -⟩ := hs.live_iff.1 hwriter
    obtain ⟨x, hx, -⟩ := hs.live_iff.1 hreferent
    refine ((barrierSlot_eq_ok hs he hx hrun).2.recalls hx ?_).relinks hs
    rintro ⟨s', rfl, hshades⟩
    exact .of_space hshades.advances.recalls
  | setTraceActive | setPause | setStepMultiplier => exact Recalls.relinks hs ⟨rfl, rfl, .of_slot rfl⟩

/-! ## Sweeping -/

/-- Sweeping the table unlinks strings that the sweep of the space will reclaim, and no others. -/
theorem Sound.relinks_sweptStrings (hs : h.Sound) : h.Relinks h.sweptStrings where
  hashOf := rfl
  kept := by
    rintro bytes r ⟨hmem, hpayload⟩ hsurvives
    exact ⟨hs.links_sweptStrings.2 ⟨hmem, fun _ => hsurvives⟩, hpayload⟩
  old := by
    rintro bytes r ⟨hmem, hpayload⟩
    exact .inl ⟨(hs.links_sweptStrings.1 hmem).1, hpayload⟩

/-- Sweeping the space leaves the table alone. -/
theorem SweepsOn.recalls (hsweep : h.SweepsOn h') : h.Recalls h' := by
  cases hsweep with
  | swept hsweeps _ => exact ⟨rfl, rfl, hsweeps.recalls⟩
  | finished => exact ⟨rfl, rfl, .of_slot rfl⟩

end Heap

end Tricolor
