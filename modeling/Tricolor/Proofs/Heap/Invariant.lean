import Tricolor.Heap.Barrier
import Tricolor.Proofs.InternTable
import Tricolor.Proofs.Space.Objects
import Tricolor.Proofs.Space.Releasing
import Tricolor.Proofs.Space.Traversal

/-!
# The invariant of a heap

What holds of a heap between any two operations. Most of it concerns one place at a time:
`Phase.Admits` says which slots a phase allows. The rest ties the intern table, the flags of
the pending sweep and the store buffer to the phase.
-/

namespace Tricolor

/-- Objects are being marked. -/
def Phase.IsMarking (p : Phase) : Prop := p = .propagate ∨ p = .atomic

/-- A sweep is pending. -/
def Phase.IsSweeping (p : Phase) : Prop := p = .sweepStrings ∨ p = .sweep

instance (p : Phase) : Decidable p.IsMarking := inferInstanceAs (Decidable (_ ∨ _))

instance (p : Phase) : Decidable p.IsSweeping := inferInstanceAs (Decidable (_ ∨ _))

theorem Phase.IsMarking.ne {p q : Phase} (hp : p.IsMarking) (hq : ¬ q.IsMarking) : p ≠ q := fun heq => hq (heq ▸ hp)

/-- What a phase allows to be recorded of a place. -/
structure Phase.Admits (p : Phase) (v : Slot) : Prop where
  /-- an object has the size that its payload asks for -/
  size : ∀ {e}, v.entity? = some e → objectBytes e.header.size = .ok e.size
  fixed : ∀ {e}, v.entity? = some e → (v.fixed ↔ e.header.isFixed = true)
  registered : ∀ {e}, v.entity? = some e → (v.idle ∨ v.pending ↔ e.header.hasFinalizer = true)
  /-- whatever is listed outlives the pending sweep -/
  listed : v.fixed ∨ v.idle ∨ v.pending → ∃ e, v.entity? = some e ∧ e.survives = true
  /-- objects are queued while they are being marked -/
  queued : v.queued → p.IsMarking
  /-- marks are only left where they await their sweep -/
  marked : ∀ {e}, v.entity? = some e → e.marked = true → e.awaits = true ∨ p.IsMarking

/-- Changing the object at a place, but not how it is listed. -/
theorem Phase.Admits.of_entity {p : Phase} {v : Slot} {e x : Entity} (hv : p.Admits v)
    (he : v.entity? = some e) (hsize : objectBytes x.header.size = .ok x.size)
    (hfixed : x.header.isFixed = e.header.isFixed)
    (hregistered : x.header.hasFinalizer = e.header.hasFinalizer)
    (hsurvives : e.survives = true → x.survives = true)
    (hmarked : x.marked = true → x.awaits = true ∨ p.IsMarking) :
    p.Admits { v with entity? := some x } where
  size hx := by
    cases hx
    exact hsize
  fixed hx := by
    cases hx
    rw [hfixed]
    exact hv.fixed he
  registered hx := by
    cases hx
    rw [hregistered]
    exact hv.registered he
  listed hor := by
    obtain ⟨y, hy, hsurv⟩ := hv.listed hor
    rw [he] at hy
    cases hy
    exact ⟨x, rfl, hsurvives hsurv⟩
  queued := hv.queued
  marked hx hm := by
    cases hx
    exact hmarked hm

/-- A phase allows what another one allows, as long as marking does not end. -/
theorem Phase.Admits.mono {p q : Phase} {v : Slot} (hv : p.Admits v) (hpq : p.IsMarking → q.IsMarking) :
    q.Admits v where
  size := hv.size
  fixed := hv.fixed
  registered := hv.registered
  listed := hv.listed
  queued hq := hpq (hv.queued hq)
  marked he hm := (hv.marked he hm).imp_right hpq

/-- The bytes that an object of a size occupies: whole cells with room for its header. -/
theorem objectBytes_eq_ok {size total : Nat} (htotal : objectBytes size = .ok total) :
    headerBytes + size ≤ total ∧ cellBytes ≤ total ∧ total % cellBytes = 0 := by
  rw [objectBytes] at htotal
  obtain ⟨unrounded, hun, hrest⟩ := bind_eq_ok_iff.1 htotal
  obtain ⟨cells, hcells, hmul⟩ := bind_eq_ok_iff.1 hrest
  obtain ⟨-, rfl⟩ := checkedAdd_eq_ok_iff.1 hun
  rw [cellsFor] at hcells
  obtain ⟨padded, hpadded, hpure⟩ := bind_eq_ok_iff.1 hcells
  obtain ⟨-, rfl⟩ := checkedAdd_eq_ok_iff.1 hpadded
  obtain ⟨-, rfl⟩ := checkedMul_eq_ok_iff.1 hmul
  cases hpure
  simp only [headerBytes, cellBytes]
  omega

/-- The settings on which the collector relies. -/
structure Config.Usable (c : Config) : Prop where
  greyBatch : 0 < c.greyBatch
  stringsPerStep : 0 < c.stringsPerStep
  hugeThreshold : c.hugeThreshold ≤ maxHugeThreshold

/-- The sweep flags of a space are those that the cycle is about to visit. -/
structure Cycle.Agrees (c : Cycle) (s : Space) : Prop where
  /-- nothing awaits its sweep unless a sweep is pending -/
  idle : ¬ c.phase.IsSweeping → s.hugeNeedsSweep = false ∧ ∀ i, s.unswept i = false
  /-- the huge blocks await it until it is their turn -/
  huge : c.phase = .sweepStrings ∨
    c.phase = .sweep ∧ (c.sweepCursor = .current ∨ c.sweepCursor = .huge) → s.hugeNeedsSweep = true
  /-- what the sweep has passed awaits it no longer -/
  passed : c.phase = .sweep → ∀ start, c.sweepCursor = .arenas start →
    s.hugeNeedsSweep = false ∧ ∀ i, i < start → s.unswept i = false

theorem Cycle.Agrees.congr {c c' : Cycle} {s s' : Space} (h : c.Agrees s) (hphase : c'.phase = c.phase)
    (hcursor : c'.sweepCursor = c.sweepCursor) (hunswept : s'.unswept = s.unswept)
    (hhuge : s'.hugeNeedsSweep = s.hugeNeedsSweep) : c'.Agrees s' where
  idle := by
    rw [hphase, hunswept, hhuge]
    exact h.idle
  huge := by
    rw [hphase, hcursor, hhuge]
    exact h.huge
  passed := by
    rw [hphase, hcursor, hunswept, hhuge]
    exact h.passed

namespace Heap

/-- What the intern table asks of the place of an object linked under `hash`: it holds the
string, and unless the string's bucket is still to be swept it outlives the sweep. -/
def Links (h : Heap) (hash : Hash) (v : Slot) : Prop :=
  ∃ e, v.entity? = some e ∧ e.header.kind = .str ∧ h.hashOf e.payload = hash ∧
    (e.survives = true ∨ h.phase = .sweepStrings ∧
      h.cycle.stringsCursor ≤ InternTable.bucketOf h.strings.bucketCount hash)

/-- The invariant of a heap. -/
structure Sound (h : Heap) : Prop where
  wf : h.space.Wf
  admits : ∀ r, h.phase.Admits (h.space.slot r)
  strings : h.strings.Wf
  linked : ∀ {hash r}, (hash, r) ∈ h.strings.links → h.Links hash (h.space.slot r)
  flags : h.cycle.Agrees h.space
  /-- objects are recorded while they are being marked -/
  stores : ¬ h.phase.IsMarking → h.stores.entries = #[]
  config : h.config.Usable

/-- The object at a reference outlives the pending sweep, if there is one. These are the
objects that a program may use: whatever it can reach is one of them. -/
def Live (h : Heap) (r : Ref) : Prop := h.isLive r = true ∧ h.space.survives r = .ok true

variable {h h' : Heap} {r t : Ref} {e : Entity} {s' : Space} {v : Slot}

theorem isMarking_iff : h.isMarking = true ↔ h.phase.IsMarking := by
  rw [isMarking, Bool.or_eq_true, decide_eq_true_iff, decide_eq_true_iff, Phase.IsMarking]

theorem Phase.not_isSweeping {p : Phase} (hp : p.IsMarking) : ¬ p.IsSweeping := by
  rcases hp with rfl | rfl <;> rintro (hs | hs) <;> cases hs

theorem objectSize_eq_ok_iff (hwf : h.space.Wf) {size : Nat} :
    h.objectSize r = .ok size ↔ ∃ e, (h.space.slot r).entity? = some e ∧ e.size = size := by
  constructor
  · intro hsize
    obtain ⟨_, hlive, hsize⟩ := bind_eq_ok_iff.1 hsize
    obtain ⟨e, he⟩ := (Space.holds_iff hwf).1 (require_eq_ok_iff.1 hlive)
    exact ⟨e, he, Except.ok.inj ((Space.objectSize_eq hwf he).symm.trans hsize)⟩
  · rintro ⟨e, he, rfl⟩
    exact bind_eq_ok_iff.2 ⟨(), require_eq_ok_iff.2 ((Space.holds_iff hwf).2 ⟨e, he⟩), Space.objectSize_eq hwf he⟩

namespace Sound

/-- The objects that a program may use, by their slots. -/
theorem live_iff (hs : h.Sound) :
    h.Live r ↔ ∃ e, (h.space.slot r).entity? = some e ∧ e.survives = true := by
  rw [Live, isLive, Space.isAllocated_eq hs.wf]
  constructor
  · rintro ⟨halloc, hsurvives⟩
    obtain ⟨e, he⟩ := Option.isSome_iff_exists.1 halloc
    rw [Space.survives_eq hs.wf he] at hsurvives
    exact ⟨e, he, Except.ok.inj hsurvives⟩
  · rintro ⟨e, he, hsurvives⟩
    exact ⟨by rw [he]; rfl, by rw [Space.survives_eq hs.wf he, hsurvives]⟩

theorem isLive_iff (hs : h.Sound) : h.isLive r = true ↔ h.space.Holds r :=
  Space.holds_iff hs.wf

/-- An object only awaits a sweep while one is pending. -/
theorem awaits (hs : h.Sound) (hp : ¬ h.phase.IsSweeping) (he : (h.space.slot r).entity? = some e) :
    e.awaits = false := by
  obtain ⟨hhuge, harenas⟩ := hs.flags.idle hp
  exact Space.awaits_eq_false hs.wf hhuge harenas he

/-- Unless a sweep is pending every object outlives it. -/
theorem survives (hs : h.Sound) (hp : ¬ h.phase.IsSweeping)
    (he : (h.space.slot r).entity? = some e) : e.survives = true := by
  rw [Entity.survives, hs.awaits hp he, Bool.not_false, Bool.or_true]

/-- Before and after a cycle every object is white. -/
theorem unmarked (hs : h.Sound) (hmarking : ¬ h.phase.IsMarking) (hsweeping : ¬ h.phase.IsSweeping)
    (he : (h.space.slot r).entity? = some e) : e.marked = false := by
  refine Bool.eq_false_iff.2 fun hm => ?_
  rcases (hs.admits r).marked he hm with hawaits | hp
  · rw [hs.awaits hsweeping he] at hawaits
    cases hawaits
  · exact hmarking hp

theorem listed (hs : h.Sound) (t : Ref)
    (ht : (h.space.slot t).fixed ∨ (h.space.slot t).idle ∨ (h.space.slot t).pending) :
    h.space.Holds t :=
  let ⟨e, he, _⟩ := (hs.admits t).listed ht
  ⟨e, he⟩

theorem payload (hs : h.Sound) (he : (h.space.slot r).entity? = some e) :
    h.space.payload r = .ok e.payload :=
  Space.payload_eq hs.wf he (objectBytes_eq_ok ((hs.admits r).size he)).1

theorem kind_eq (hs : h.Sound) (he : (h.space.slot r).entity? = some e) : h.kind r = .ok e.header.kind :=
  bind_eq_ok_iff.2 ⟨(), require_eq_ok_iff.2 (hs.isLive_iff.2 ⟨e, he⟩),
    bind_eq_ok_iff.2 ⟨_, Space.header_eq hs.wf he, rfl⟩⟩

theorem payloadSize_eq (hs : h.Sound) (he : (h.space.slot r).entity? = some e) :
    h.payloadSize r = .ok e.header.size :=
  bind_eq_ok_iff.2 ⟨(), require_eq_ok_iff.2 (hs.isLive_iff.2 ⟨e, he⟩),
    bind_eq_ok_iff.2 ⟨_, Space.header_eq hs.wf he, rfl⟩⟩

theorem objectSize_eq_ok_iff (hs : h.Sound) {size : Nat} :
    h.objectSize r = .ok size ↔ ∃ e, (h.space.slot r).entity? = some e ∧ e.size = size :=
  Heap.objectSize_eq_ok_iff hs.wf

theorem fixedAgrees (hs : h.Sound) (r : Ref) : h.space.FixedAgrees r := fun _ => (hs.admits r).fixed

theorem registeredAgrees (hs : h.Sound) (r : Ref) : h.space.RegisteredAgrees r :=
  fun _ => (hs.admits r).registered

/-- What the pending sweep needs to know of the space. -/
theorem quiet (hs : h.Sound) (hp : ¬ h.phase.IsMarking) (t : Ref) : ¬ (h.space.slot t).queued :=
  fun hq => hp ((hs.admits t).queued hq)

/-- Replacing the space by one with slots that the phase allows. -/
theorem replace (hs : h.Sound) (hwf : s'.Wf) (hunswept : s'.unswept = h.space.unswept)
    (hhuge : s'.hugeNeedsSweep = h.space.hugeNeedsSweep) (hadmits : ∀ t, h.phase.Admits (s'.slot t))
    (hlinked : ∀ hash t, (hash, t) ∈ h.strings.links → h.Links hash (s'.slot t)) :
    Sound { h with space := s' } where
  wf := hwf
  admits := hadmits
  strings := hs.strings
  linked hmem := hlinked _ _ hmem
  flags := hs.flags.congr rfl rfl hunswept hhuge
  stores := hs.stores
  config := hs.config

/-- Changing one slot to one that the phase and the intern table allow. -/
theorem revise (hs : h.Sound) (hrev : h.space.Revises s' r v) (hadmits : h.phase.Admits v)
    (hlinked : ∀ hash, (hash, r) ∈ h.strings.links → h.Links hash v) : Sound { h with space := s' } := by
  refine hs.replace hrev.wf hrev.unswept hrev.hugeNeedsSweep (fun t => ?_) fun hash t hmem => ?_
  · by_cases ht : t = r
    · subst ht
      rw [hrev.slot_self]
      exact hadmits
    · rw [hrev.slot_ne ht]
      exact hs.admits t
  · by_cases ht : t = r
    · subst ht
      rw [hrev.slot_self]
      exact hlinked hash hmem
    · rw [hrev.slot_ne ht]
      exact hs.linked hmem

/-- Going on to another state of the cycle, unless marking ends or strings are being swept. -/
theorem setCycle (hs : h.Sound) {cycle : Cycle} (hmarking : h.phase.IsMarking → cycle.phase.IsMarking)
    (hstrings : h.phase ≠ .sweepStrings) (hflags : cycle.Agrees h.space) : Sound { h with cycle } where
  wf := hs.wf
  admits t := (hs.admits t).mono hmarking
  strings := hs.strings
  linked hmem :=
    let ⟨e, he, hk, hh, hor⟩ := hs.linked hmem
    ⟨e, he, hk, hh, .inl (hor.resolve_right fun hq => hstrings hq.1)⟩
  flags := hflags
  stores hp := hs.stores (mt hmarking hp)
  config := hs.config

theorem alike (hs : h.Sound) (halike : h.space.Alike s') : Sound { h with space := s' } :=
  hs.replace halike.wf halike.unswept halike.hugeNeedsSweep (fun t => by rw [halike.slot]; exact hs.admits t)
    fun hash t hmem => by rw [halike.slot]; exact hs.linked hmem

end Sound

/-- A string stays linked while its bytes stay and it does not cease to outlive the sweep. -/
theorem Links.of_entity {hash : Hash} {x : Entity} {w : Slot} (hl : h.Links hash v)
    (he : v.entity? = some e) (hx : w.entity? = some x) (hkind : x.header.kind = e.header.kind)
    (hpayload : x.payload = e.payload) (hsurvives : e.survives = true → x.survives = true) :
    h.Links hash w := by
  obtain ⟨e₁, he₁, hk, hh, hor⟩ := hl
  rw [he] at he₁
  cases he₁
  exact ⟨x, hx, hkind.trans hk, by rw [hpayload]; exact hh, hor.imp_left hsurvives⟩

end Heap

end Tricolor
