import Tricolor.Proofs.Heap.Allocation
import Tricolor.Proofs.Space.Registration

/-!
# Freeing, registering and writing

Freeing an object leaves nothing of it: its slot, its links, its entries in the store buffer
and in the collector's lists are gone. The other operations change one object in its place.
-/

namespace Tricolor

namespace Heap

variable {h h' : Heap} {r t : Ref} {e : Entity} {s' : Space}

/-! ## Freeing -/

/-- `h'` is `h` without the object at `r`. -/
structure Releases (h : Heap) (r : Ref) (h' : Heap) : Prop where
  revises : h.space.Revises h'.space r (h.space.freed r)
  strings : h'.strings.Wf
  buckets : h'.strings.bucketCount = h.strings.bucketCount
  links : ∀ hash t, (hash, t) ∈ h'.strings.links ↔ (hash, t) ∈ h.strings.links ∧ t ≠ r
  cycle : h'.cycle = h.cycle.forget r
  stores : h'.stores = h.stores.erase r
  config : h'.config = h.config
  hashOf : h'.hashOf = h.hashOf

/-- Freeing an object leaves nothing of it. -/
theorem release_spec (hs : h.Sound) (he : (h.space.slot r).entity? = some e) :
    ∃ h', h.release r = .ok h' ∧ h.Releases r h' := by
  obtain ⟨s', hfree, hrev⟩ := Space.free_spec hs.wf he (hs.fixedAgrees r) (hs.registeredAgrees r)
  -- the object is only linked under the hash of its bytes, and only if it is a string
  have hlinks : ∀ hash, (hash, r) ∈ h.strings.links → e.header.kind = .str ∧ hash = h.hashOf e.payload := by
    intro hash hmem
    obtain ⟨x, hx, hk, hh, -⟩ := hs.linked hmem
    rw [he] at hx
    cases hx
    exact ⟨hk, hh.symm⟩
  by_cases hk : e.header.kind = .str
  · obtain ⟨hwf, hbuckets, hmem⟩ := InternTable.remove_spec hs.strings (h.hashOf e.payload) r
    refine ⟨{ h with
        space := s'
        strings := (h.strings.remove (h.hashOf e.payload) r).2
        stores := h.stores.erase r
        cycle := h.cycle.forget r }, ?_,
      ⟨hrev, hwf, hbuckets, fun hash t => (hmem (hash, t)).trans ?_, rfl, rfl, rfl, rfl⟩⟩
    · rw [release]
      refine bind_eq_ok_iff.2 ⟨e.header, Space.header_eq hs.wf he, ?_⟩
      simp only [if_pos hk]
      exact bind_eq_ok_iff.2 ⟨e.payload, hs.payload he, bind_eq_ok_iff.2
        ⟨_, rfl, bind_eq_ok_iff.2 ⟨(e.size, s'), hfree, rfl⟩⟩⟩
    · refine and_congr_right fun hlinked => not_congr ⟨And.right, fun ht => ⟨?_, ht⟩⟩
      rw [ht] at hlinked
      rw [(hlinks hash hlinked).2]
  · refine ⟨{ h with
        space := s'
        stores := h.stores.erase r
        cycle := h.cycle.forget r }, ?_,
      ⟨hrev, hs.strings, rfl, fun hash t => ?_, rfl, rfl, rfl, rfl⟩⟩
    · rw [release]
      refine bind_eq_ok_iff.2 ⟨e.header, Space.header_eq hs.wf he, ?_⟩
      simp only [if_neg hk]
      exact bind_eq_ok_iff.2 ⟨_, rfl, bind_eq_ok_iff.2 ⟨(e.size, s'), hfree, rfl⟩⟩
    · refine ⟨fun hmem => ⟨hmem, ?_⟩, And.left⟩
      rintro rfl
      exact hk (hlinks hash hmem).1

theorem Releases.phase_eq (hr : h.Releases r h') : h'.phase = h.phase := by
  rw [phase, hr.cycle]
  rfl

/-- A sound heap stays sound without one of its objects. -/
theorem Sound.releases (hs : h.Sound) (hr : h.Releases r h') : h'.Sound where
  wf := hr.revises.wf
  admits t := by
    rw [hr.phase_eq]
    by_cases ht : t = r
    · subst ht
      rw [hr.revises.slot_self, Space.freed]
      exact
        { size := fun hx => (by cases hx)
          fixed := fun hx => (by cases hx)
          registered := fun hx => (by cases hx)
          listed := fun hor => (hor.elim id fun hor => hor.elim id id).elim
          queued := fun hq => (hs.admits t).queued hq.1
          marked := fun hx => (by cases hx) }
    · rw [hr.revises.slot_ne ht]
      exact hs.admits t
  strings := hr.strings
  linked {hash t} hmem := by
    obtain ⟨hold, ht⟩ := (hr.links hash t).1 hmem
    obtain ⟨x, hx, hk, hh, hor⟩ := hs.linked hold
    refine ⟨x, by rw [hr.revises.slot_ne ht]; exact hx, hk, by rw [hr.hashOf]; exact hh, ?_⟩
    rw [hr.phase_eq, hr.buckets, hr.cycle]
    exact hor
  flags := hs.flags.congr hr.phase_eq (by rw [hr.cycle]; rfl) hr.revises.unswept hr.revises.hugeNeedsSweep
  stores hp := by
    rw [hr.phase_eq] at hp
    rw [hr.stores, StoreBuffer.erase, hs.stores hp]
    rfl
  config := hr.config ▸ hs.config

/-- A free that succeeds freed an object. -/
theorem free_eq_ok (hs : h.Sound) {size : Nat} (hrun : h.free r size = .ok h') :
    (∃ e, (h.space.slot r).entity? = some e) ∧ h.Releases r h' := by
  rw [free] at hrun
  obtain ⟨_, hlive, hrun⟩ := bind_eq_ok_iff.1 hrun
  obtain ⟨_, -, hrun⟩ := bind_eq_ok_iff.1 hrun
  obtain ⟨_, -, hrun⟩ := bind_eq_ok_iff.1 hrun
  obtain ⟨_, -, hrun⟩ := bind_eq_ok_iff.1 hrun
  obtain ⟨e, he⟩ := hs.isLive_iff.1 (require_eq_ok_iff.1 hlive)
  obtain ⟨h₁, hrelease, hr⟩ := release_spec hs he
  rw [hrelease] at hrun
  cases hrun
  exact ⟨⟨e, he⟩, hr⟩

/-! ## Registering -/

/-- Fixing an object lists it. -/
theorem fix_eq_ok (hs : h.Sound) (hrun : h.fix r = .ok h') :
    ∃ e s', (h.space.slot r).entity? = some e ∧ h' = { h with space := s' } ∧
      h.space.Revises s' r { h.space.slot r with
        entity? := some { e with header := { e.header with isFixed := true } }
        fixed := True } := by
  rw [fix] at hrun
  obtain ⟨_, hlive, hrun⟩ := bind_eq_ok_iff.1 hrun
  obtain ⟨s₁, hfix, hret⟩ := bind_eq_ok_iff.1 hrun
  cases hret
  obtain ⟨e, he⟩ := hs.isLive_iff.1 (require_eq_ok_iff.1 hlive)
  obtain ⟨s', hfix', hrev⟩ := Space.fix_spec hs.wf he (hs.fixedAgrees r)
  rw [hfix'] at hfix
  cases hfix
  exact ⟨e, _, he, rfl, hrev⟩

/-- Registering an object lists it, unless it is registered. -/
theorem registerFinalizer_eq_ok (hs : h.Sound) (hrun : h.registerFinalizer r = .ok h') :
    ∃ e s', (h.space.slot r).entity? = some e ∧ h' = { h with space := s' } ∧
      h.space.Revises s' r (if e.header.hasFinalizer then h.space.slot r else { h.space.slot r with
        entity? := some { e with header := { e.header with hasFinalizer := true } }
        idle := True }) := by
  rw [registerFinalizer] at hrun
  obtain ⟨_, hlive, hrun⟩ := bind_eq_ok_iff.1 hrun
  obtain ⟨s₁, hreg, hret⟩ := bind_eq_ok_iff.1 hrun
  cases hret
  obtain ⟨e, he⟩ := hs.isLive_iff.1 (require_eq_ok_iff.1 hlive)
  obtain ⟨s', hreg', hrev⟩ := Space.registerFinalizer_spec hs.wf he (hs.registeredAgrees r)
  rw [hreg'] at hreg
  cases hreg
  exact ⟨e, _, he, rfl, hrev⟩

/-- Listing an object that outlives the sweep keeps a heap sound. -/
theorem Sound.fixed (hs : h.Sound) (he : (h.space.slot r).entity? = some e) (hsurvives : e.survives = true)
    (hrev : h.space.Revises s' r { h.space.slot r with
      entity? := some { e with header := { e.header with isFixed := true } }
      fixed := True }) : Sound { h with space := s' } := by
  have hv := hs.admits r
  have hsize := hv.size he
  have hregistered := hv.registered he
  have hmarked := hv.marked he
  refine hs.revise hrev
    { size := fun {x} hx => by cases hx; exact hsize
      fixed := fun {x} hx => by cases hx; exact iff_of_true trivial rfl
      registered := fun {x} hx => by cases hx; exact hregistered
      listed := fun _ => ⟨_, rfl, hsurvives⟩
      queued := hv.queued
      marked := fun {x} hx hm => by cases hx; exact hmarked hm } fun hash hlinked => ?_
  exact (hs.linked hlinked).of_entity he rfl rfl rfl id

theorem Sound.registers (hs : h.Sound) (he : (h.space.slot r).entity? = some e)
    (hsurvives : e.survives = true)
    (hrev : h.space.Revises s' r (if e.header.hasFinalizer then h.space.slot r else { h.space.slot r with
        entity? := some { e with header := { e.header with hasFinalizer := true } }
        idle := True })) : Sound { h with space := s' } := by
  have hv := hs.admits r
  split at hrev
  · exact hs.revise hrev hv fun hash hlinked => hs.linked hlinked
  · have hsize := hv.size he
    have hfixed := hv.fixed he
    have hmarked := hv.marked he
    refine hs.revise hrev
      { size := fun {x} hx => by cases hx; exact hsize
        fixed := fun {x} hx => by cases hx; exact hfixed
        registered := fun {x} hx => by cases hx; exact iff_of_true (.inl trivial) rfl
        listed := fun _ => ⟨_, rfl, hsurvives⟩
        queued := hv.queued
        marked := fun {x} hx hm => by cases hx; exact hmarked hm } fun hash hlinked => ?_
    exact (hs.linked hlinked).of_entity he rfl rfl rfl id

/-! ## Writing -/

/-- An object that is no string is not linked. -/
theorem Sound.not_linked (hs : h.Sound) (he : (h.space.slot r).entity? = some e)
    (hkind : e.header.kind ≠ .str) (hash : Hash) : (hash, r) ∉ h.strings.links := by
  intro hmem
  obtain ⟨x, hx, hk, -⟩ := hs.linked hmem
  rw [he] at hx
  cases hx
  exact hkind hk

/-- Writing into the payload of an object changes its bytes. -/
theorem writePayload_eq_ok (hs : h.Sound) {start : Nat} {bytes : List UInt8}
    (hfits : ∀ size, h.payloadSize r = .ok size → start + bytes.length ≤ size)
    (hrun : h.writePayload r start bytes = .ok h') :
    ∃ e content s', (h.space.slot r).entity? = some e ∧ e.header.kind ≠ .str ∧
      h' = { h with space := s' } ∧
      h.space.Revises s' r { h.space.slot r with entity? := some { e with content } } := by
  rw [writePayload] at hrun
  obtain ⟨kind, hkind, hrun⟩ := bind_eq_ok_iff.1 hrun
  obtain ⟨_, hstr, hrun⟩ := bind_eq_ok_iff.1 hrun
  obtain ⟨s₁, hwrite, hret⟩ := bind_eq_ok_iff.1 hrun
  cases hret
  rw [Heap.kind] at hkind
  obtain ⟨_, hlive, hkind⟩ := bind_eq_ok_iff.1 hkind
  obtain ⟨e, he⟩ := hs.isLive_iff.1 (require_eq_ok_iff.1 hlive)
  obtain ⟨header, hheader, hret⟩ := bind_eq_ok_iff.1 hkind
  rw [Space.header_eq hs.wf he] at hheader
  cases hheader
  cases hret
  have hsize := hfits e.header.size (by
    rw [payloadSize]
    exact bind_eq_ok_iff.2 ⟨(), hlive, bind_eq_ok_iff.2 ⟨_, Space.header_eq hs.wf he, rfl⟩⟩)
  have hroom := (objectBytes_eq_ok ((hs.admits r).size he)).1
  obtain ⟨s', hwrite', hrev⟩ := Space.writePayload_spec hs.wf he start bytes (by omega)
  rw [hwrite'] at hwrite
  cases hwrite
  exact ⟨e, _, _, he, require_eq_ok_iff.1 hstr, rfl, hrev⟩

theorem Sound.written (hs : h.Sound) {content : Nat → UInt8} (he : (h.space.slot r).entity? = some e)
    (hkind : e.header.kind ≠ .str)
    (hrev : h.space.Revises s' r { h.space.slot r with entity? := some { e with content } }) :
    Sound { h with space := s' } := by
  have hsize := (hs.admits r).size he
  have hmarked := (hs.admits r).marked he
  refine hs.revise hrev ((hs.admits r).of_entity he hsize rfl rfl id hmarked) fun hash hlinked => ?_
  exact absurd hlinked (hs.not_linked he hkind hash)

/-! ## Settings -/

/-- What a heap owes to its invariant does not depend on when the next step is due, on
whether a trace runs, or on the settings that may be changed. -/
theorem Sound.congr (hs : h.Sound) (hspace : h'.space = h.space) (hstrings : h'.strings = h.strings)
    (hphase : h'.phase = h.phase) (hcursor : h'.cycle.stringsCursor = h.cycle.stringsCursor)
    (hsweep : h'.cycle.sweepCursor = h.cycle.sweepCursor) (hstores : h'.stores.entries = h.stores.entries)
    (hhash : h'.hashOf = h.hashOf) (hconfig : h'.config.Usable) : h'.Sound where
  wf := hspace ▸ hs.wf
  admits r := by
    rw [hspace, hphase]
    exact hs.admits r
  strings := hstrings ▸ hs.strings
  linked {hash r} hmem := by
    rw [hstrings] at hmem
    obtain ⟨e, he, hk, hh, hor⟩ := hs.linked hmem
    refine ⟨e, hspace ▸ he, hk, by rw [hhash]; exact hh, ?_⟩
    rw [hphase, hcursor, hstrings]
    exact hor
  flags := hs.flags.congr hphase hsweep (by rw [hspace]) (by rw [hspace])
  stores hp := by
    rw [hphase] at hp
    rw [hstores]
    exact hs.stores hp
  config := hconfig

theorem Sound.setTraceActive (hs : h.Sound) (active : Bool) : (h.setTraceActive active).Sound :=
  hs.congr rfl rfl rfl rfl rfl rfl rfl hs.config

theorem Sound.setPause (hs : h.Sound) (percent : Nat) : (h.setPause percent).Sound :=
  hs.congr rfl rfl rfl rfl rfl rfl rfl
    ⟨hs.config.greyBatch, hs.config.stringsPerStep, hs.config.hugeThreshold⟩

theorem Sound.setStepMultiplier (hs : h.Sound) (percent : Nat) : (h.setStepMultiplier percent).Sound :=
  hs.congr rfl rfl rfl rfl rfl rfl rfl
    ⟨hs.config.greyBatch, hs.config.stringsPerStep, hs.config.hugeThreshold⟩

end Heap

end Tricolor
