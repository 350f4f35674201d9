import Tricolor.Proofs.Heap.Moving

/-!
# The operations of a program

`Operation` has all that a program can do to its heap between two steps of the collector, on
objects that it may use. Every operation keeps the heap sound and makes no finalizer due.
Whether all that is recorded stays allocated depends on how objects are resized, so the
resizings that may happen are a parameter: it fails for a recorded huge block that is moved
as a block, and only then.
-/

namespace Tricolor

namespace Heap

variable {h h' : Heap} {r t : Ref} {e : Entity} {s' : Space}

/-- Which resizings may happen: of an object to a payload size and a place. -/
abbrev Resizings := Heap → Ref → Nat → Ref → Prop

/-- Every resizing may happen. -/
def anyResizing : Resizings := fun _ _ _ _ => True

/-- The store buffer or the list of weak tables still names a block after it was moved. -/
def Strands (h : Heap) (r : Ref) (size : Nat) (moved : Ref) : Prop :=
  h.StaysHuge r size ∧ moved ≠ r ∧
    (r ∈ h.stores.entries ∨ h.phase.IsMarking ∧ r ∈ h.cycle.weakTables)

/-- No resizing may happen. -/
def noResizing : Resizings := fun _ _ _ _ => False

/-- Only resizings that strand nothing may happen. -/
def unstranded : Resizings := fun h r size moved => ¬ h.Strands r size moved

/-- An operation of a program on its heap. -/
inductive Operation (allowed : Resizings) (h : Heap) : Heap → Prop where
  | alloc {supply : Supply} {kind : Kind} {size : Nat} {result : Except AllocError Ref} {h' : Heap} :
      supply.Fresh h.space 0 → h.alloc supply kind size = .ok (result, h') → Operation allowed h h'
  | intern {supply : Supply} {bytes : List UInt8} {result : Except AllocError Ref} {h' : Heap} :
      supply.Fresh h.space 0 → h.intern supply bytes = .ok (result, h') → Operation allowed h h'
  | free {r : Ref} {size : Nat} {h' : Heap} : h.Live r → h.free r size = .ok h' → Operation allowed h h'
  | realloc {supply : Supply} {r : Ref} {old size : Nat} {result : Except AllocError Ref} {h' : Heap} :
      h.Live r → h.FreshFor supply r size → h.realloc supply r old size = .ok (result, h') →
      (∀ moved, result = .ok moved → allowed h r size moved) → Operation allowed h h'
  | writePayload {r : Ref} {start : Nat} {bytes : List UInt8} {h' : Heap} : h.Live r →
      (∀ size, h.payloadSize r = .ok size → start + bytes.length ≤ size) →
      h.writePayload r start bytes = .ok h' → Operation allowed h h'
  | fix {r : Ref} {h' : Heap} : h.Live r → h.fix r = .ok h' → Operation allowed h h'
  | registerFinalizer {r : Ref} {h' : Heap} : h.Live r → h.registerFinalizer r = .ok h' →
      Operation allowed h h'
  | barrierForward {writer referent : Ref} {h' : Heap} : h.Live writer → h.Live referent →
      h.barrierForward writer referent = .ok h' → Operation allowed h h'
  | barrierBack {container : Ref} {h' : Heap} : h.Live container → h.barrierBack container = .ok h' →
      Operation allowed h h'
  | barrierSlot {writer referent : Ref} {h' : Heap} : h.Live writer → h.Live referent →
      h.barrierSlot writer referent = .ok h' → Operation allowed h h'
  | setTraceActive (active : Bool) : Operation allowed h (h.setTraceActive active)
  | setPause (percent : Nat) : Operation allowed h (h.setPause percent)
  | setStepMultiplier (percent : Nat) : Operation allowed h (h.setStepMultiplier percent)

/-- What is recorded for the collector is allocated. -/
def Recorded (h : Heap) : Prop :=
  (∀ r ∈ h.stores.entries, h.space.Holds r) ∧
    (h.phase.IsMarking → ∀ r ∈ h.cycle.weakTables, h.space.Holds r)

/-- No finalizer is due before the end of marking. -/
def Undue (h : Heap) : Prop :=
  h.phase = .pause ∨ h.phase.IsMarking → ∀ t, ¬ (h.space.slot t).pending

/-- `h'` came from `h` by steps that make no finalizer due. -/
structure Keeps (h h' : Heap) : Prop where
  sound : h'.Sound
  phase : h'.phase = h.phase
  pending : ∀ t, (h'.space.slot t).pending → ∃ t, (h.space.slot t).pending

theorem Keeps.undue (hk : h.Keeps h') (hu : h.Undue) : h'.Undue := by
  intro hp t ht
  rw [hk.phase] at hp
  obtain ⟨t', ht'⟩ := hk.pending t ht
  exact hu hp t' ht'

/-- What is recorded stays allocated if no more is recorded. -/
theorem Recorded.mono (hr : h.Recorded) (hphase : h'.phase = h.phase)
    (hholds : ∀ t, h.space.Holds t → h'.space.Holds t)
    (hstores : ∀ t ∈ h'.stores.entries, t ∈ h.stores.entries)
    (hweak : ∀ t ∈ h'.cycle.weakTables, t ∈ h.cycle.weakTables) : h'.Recorded :=
  ⟨fun t ht => hholds t (hr.1 t (hstores t ht)), fun hp t ht =>
    hholds t (hr.2 (hphase ▸ hp) t (hweak t ht))⟩

/-- A change of one slot after which the place still holds an object. -/
theorem holds_of_revises {s : Space} {v : Slot} (hrev : s.Revises s' r v) (hv : ∃ e, v.entity? = some e)
    (ht : s.Holds t) : s'.Holds t := by
  rw [Space.Holds]
  by_cases htr : t = r
  · rw [htr, hrev.slot_self]
    exact hv
  · rw [hrev.slot_ne htr]
    exact ht

/-- What an operation keeps, step by step: the heap stays sound, and what is recorded stays
allocated. -/
structure Maintains (h h' : Heap) : Prop extends Keeps h h' where
  recorded : h.Recorded → h'.Recorded

/-- Changing one slot of the space. -/
theorem Maintains.revise {v : Slot} (hsound : Sound { h with space := s' })
    (hrev : h.space.Revises s' r v) (hv : ∃ e, v.entity? = some e)
    (hpending : v.pending → (h.space.slot r).pending) : h.Maintains { h with space := s' } where
  sound := hsound
  phase := rfl
  pending t ht := by
    by_cases htr : t = r
    · subst htr
      exact ⟨t, hpending (hrev.slot_self ▸ ht)⟩
    · exact ⟨t, hrev.slot_ne htr ▸ ht⟩
  recorded hr := hr.mono rfl (fun _ => holds_of_revises hrev hv) (fun _ => id) fun _ => id

theorem Maintains.refl (hs : h.Sound) : h.Maintains h := ⟨⟨hs, rfl, fun t ht => ⟨t, ht⟩⟩, id⟩

theorem Maintains.alike (hs : h.Sound) (halike : h.space.Alike s') : h.Maintains { h with space := s' } where
  sound := hs.alike halike
  phase := rfl
  pending t ht := ⟨t, halike.slot ▸ ht⟩
  recorded hr := hr.mono rfl (fun t ht => by rw [Space.Holds, halike.slot]; exact ht) (fun _ => id) fun _ => id

theorem Maintains.shades (hs : h.Sound) (hp : h.phase.IsMarking) {rs : List Ref}
    (hshades : h.space.Shades rs s') : h.Maintains { h with space := s' } where
  sound := hs.shades hp hshades
  phase := rfl
  pending t ht := by
    refine ⟨t, ?_⟩
    have ht : (s'.slot t).pending := ht
    rw [hshades.slot] at ht
    split at ht
    · rwa [Slot.shade_pending] at ht
    · exact ht
  recorded hr := hr.mono rfl (fun _ => hshades.holds.2) (fun _ => id) fun _ => id

theorem Maintains.releases (hs : h.Sound) (hr : h.Releases r h') : h.Maintains h' where
  sound := hs.releases hr
  phase := hr.phase_eq
  pending t ht := by
    by_cases htr : t = r
    · rw [htr, hr.revises.slot_self] at ht
      exact ht.elim
    · exact ⟨t, hr.revises.slot_ne htr ▸ ht⟩
  recorded hrec := by
    have hholds : ∀ t, t ≠ r → h.space.Holds t → h'.space.Holds t := fun t htr ht => by
      rw [Space.Holds, hr.revises.slot_ne htr]
      exact ht
    refine ⟨fun t ht => ?_, fun hp t ht => ?_⟩
    · rw [hr.stores, StoreBuffer.erase, Array.mem_filter] at ht
      exact hholds t (by simpa using ht.2) (hrec.1 t ht.1)
    · rw [hr.cycle, Cycle.forget, List.mem_filter] at ht
      exact hholds t (by simpa using ht.2) (hrec.2 (hr.phase_eq ▸ hp) t ht.1)

theorem Maintains.appears (hs : h.Sound) {kind : Kind} {size : Nat}
    (ha : Appears h.space r kind size s' e) : h.Maintains { h with space := s' } :=
  .revise (hs.appears ha) ha.revises ⟨e, rfl⟩ id

theorem Maintains.interns (hs : h.Sound) {bytes : List UInt8} (hi : h.Interns bytes r h') :
    h.Maintains h' := by
  have hsound := hs.interns hi
  cases hi with
  | found => exact .refl hs
  | revived _ he _ _ hrev =>
    exact .revise hsound hrev ⟨_, by rw [Slot.mapEntity_entity?, he]; rfl⟩ id
  | linked ha =>
    have hspace := Maintains.appears hs ha
    exact ⟨⟨hsound, rfl, hspace.pending⟩, hspace.recorded⟩

/-- Recording an allocated object. -/
theorem Maintains.records (hs : h.Sound) (hr : h.space.Holds r) (hp : h.phase.IsMarking)
    (hsound : h'.Sound) (hrec : h.Records r h') : h.Maintains h' := by
  cases hrec with
  | pushed =>
    refine ⟨⟨hsound, rfl, fun t ht => ⟨t, ht⟩⟩, fun hrec => ⟨fun t ht => ?_, hrec.2⟩⟩
    rcases Array.mem_push.1 ht with ht | rfl
    · exact hrec.1 t ht
    · exact hr
  | drained hall hshades =>
    have hspace := Maintains.shades hs hp hshades
    refine ⟨⟨hsound, rfl, hspace.pending⟩, fun hrec => ⟨fun t ht => ?_, (hspace.recorded hrec).2⟩⟩
    exact absurd ht (Array.not_mem_empty t)

theorem Maintains.forwards (hs : h.Sound) {e x : Entity} {recorded : Heap → Prop} (hrecorded : h.phase.IsMarking → recorded h' → h.Maintains h')
    (hsound : h'.Sound) (hf : Forwards h e x r recorded h') : h.Maintains h' := by
  cases hf with
  | idle => exact .refl hs
  | marking hp hrec => exact hrecorded hp hrec
  | sweeping _ _ hrev => exact .revise hsound hrev ⟨_, rfl⟩ id

theorem Maintains.regreys (hs : h.Sound) (he : (h.space.slot r).entity? = some e) (hsound : h'.Sound)
    (hg : Regreys h e r h') : h.Maintains h' := by
  cases hg with
  | idle => exact .refl hs
  | @greyed s' _ hp hrev hunmarked hrec =>
    have hspace : h.Maintains { h with space := s' } := .revise hunmarked hrev ⟨_, rfl⟩ id
    have hrecords := Maintains.records hunmarked (holds_of_revises hrev ⟨_, rfl⟩ ⟨e, he⟩) hp hsound hrec
    exact ⟨⟨hsound, hrecords.phase, fun t ht => (hrecords.pending t ht).elim hspace.pending⟩,
      fun hr => hrecords.recorded (hspace.recorded hr)⟩

/-- Resizing an object keeps what is recorded allocated, unless it moves a recorded block. -/
theorem Reallocates.keeps (hs : h.Sound) {size : Nat} {result : Except AllocError Ref}
    (hr : h.Reallocates r e size result h') : h.Keeps h' ∧
      ((∀ moved, result = .ok moved → ¬ h.Strands r size moved) → h.Recorded → h'.Recorded) := by
  have hsound := hr.sound hs
  cases hr with
  | refused halike =>
    have hm := Maintains.alike hs halike
    exact ⟨hm.toKeeps, fun _ => hm.recorded⟩
  | @resized moved x s' _ hslot hmoved _ _ _ =>
    have hpending : ∀ t, (s'.slot t).pending → ∃ t, (h.space.slot t).pending := by
      intro t ht
      rw [hslot] at ht
      by_cases htm : t = moved
      · rw [htm, Function.update_self] at ht
        exact ⟨r, ht⟩
      · rw [Function.update_of_ne htm] at ht
        by_cases htr : t = r
        · rw [htr, Function.update_self] at ht
          exact ht.elim
        · rw [Function.update_of_ne htr] at ht
          exact ⟨t, ht⟩
    refine ⟨⟨hsound, rfl, hpending⟩, fun hallowed hrec => ?_⟩
    have hstrands := hallowed moved rfl
    -- only the old place is empty now
    have hholds : ∀ t, t ≠ r ∨ moved = r → h.space.Holds t → s'.Holds t := by
      intro t hor ht
      rw [Space.Holds, hslot]
      by_cases htm : t = moved
      · rw [htm, Function.update_self]
        exact ⟨x, rfl⟩
      · have htr : t ≠ r := hor.elim id fun heq => heq ▸ htm
        rw [Function.update_of_ne htm, Function.update_of_ne htr]
        exact ht
    have hnot : moved = r ∨ r ∉ h.stores.entries ∧ (h.phase.IsMarking → r ∉ h.cycle.weakTables) := by
      by_cases heq : moved = r
      · exact .inl heq
      · have hstays := (hmoved.resolve_left heq).1
        exact .inr ⟨fun hmem => hstrands ⟨hstays, heq, .inl hmem⟩,
          fun hp hmem => hstrands ⟨hstays, heq, .inr ⟨hp, hmem⟩⟩⟩
    refine ⟨fun t ht => hholds t ?_ (hrec.1 t ht), fun hp t ht => hholds t ?_ (hrec.2 hp t ht)⟩
    · rcases hnot with heq | ⟨hstores, -⟩
      · exact .inr heq
      · exact .inl fun htr => hstores (htr ▸ ht)
    · rcases hnot with heq | ⟨-, hweak⟩
      · exact .inr heq
      · exact .inl fun htr => hweak hp (htr ▸ ht)
  | @moved moved h₁ h' _ _ hcopies hrel =>
    have hm : h₁.Maintains h' := .releases hcopies.sound hrel
    have hphase : h₁.phase = h.phase := by
      rw [hcopies.others]
      rfl
    have hpending : ∀ t, (h₁.space.slot t).pending → ∃ t, (h.space.slot t).pending := by
      intro t ht
      by_cases htm : t = moved
      · exact (hcopies.listed (htm ▸ ht)).elim
      · exact ⟨t, hcopies.slot t htm ▸ ht⟩
    refine ⟨⟨hsound, hm.phase.trans hphase, fun t ht => (hm.pending t ht).elim hpending⟩,
      fun _ hrec => hm.recorded (hrec.mono hphase (fun t ht => ?_) ?_ ?_)⟩
    · by_cases htm : t = moved
      · obtain ⟨x, hx, -⟩ := hcopies.copy
        exact ⟨x, htm ▸ hx⟩
      · rw [Space.Holds, hcopies.slot t htm]
        exact ht
    · rw [hcopies.others]
      exact fun _ => id
    · rw [hcopies.others]
      exact fun _ => id

/-- Every operation keeps a heap sound, and if the allowed resizings strand nothing, what is
recorded stays allocated. -/
theorem Operation.keeps {allowed : Resizings} (hs : h.Sound) (hop : Operation allowed h h') :
    h.Keeps h' ∧ ((∀ r size moved, allowed h r size moved → ¬ h.Strands r size moved) →
      h.Recorded → h'.Recorded) := by
  have hplain : h.Maintains h' → h.Keeps h' ∧
      ((∀ r size moved, allowed h r size moved → ¬ h.Strands r size moved) → h.Recorded → h'.Recorded) :=
    fun hm => ⟨hm.toKeeps, fun _ => hm.recorded⟩
  cases hop with
  | @alloc _ _ _ result _ hfresh hrun =>
    obtain ⟨s', rfl, herror, hok⟩ := alloc_eq_ok hs hfresh hrun
    cases result with
    | error error => exact hplain (.alike hs (herror error rfl))
    | ok r =>
      obtain ⟨e, ha⟩ := hok r rfl
      exact hplain (.appears hs ha)
  | @intern _ _ result _ hfresh hrun =>
    obtain ⟨herror, hok⟩ := intern_eq_ok hs hfresh hrun
    cases result with
    | error error =>
      obtain ⟨s', rfl, halike⟩ := herror error rfl
      exact hplain (.alike hs halike)
    | ok r => exact hplain (.interns hs (hok r rfl))
  | free _ hrun => exact hplain (.releases hs (free_eq_ok hs hrun).2)
  | realloc _ hfresh hrun hallowed =>
    obtain ⟨e, -, hr⟩ := realloc_eq_ok hs hfresh hrun
    obtain ⟨hk, hrec⟩ := hr.keeps hs
    exact ⟨hk, fun hstrands => hrec fun moved hm => hstrands _ _ _ (hallowed moved hm)⟩
  | writePayload _ hfits hrun =>
    obtain ⟨e, content, s', he, hkind, rfl, hrev⟩ := writePayload_eq_ok hs hfits hrun
    exact hplain (.revise (hs.written he hkind hrev) hrev ⟨_, rfl⟩ id)
  | fix hlive hrun =>
    obtain ⟨e, s', he, rfl, hrev⟩ := fix_eq_ok hs hrun
    obtain ⟨x, hx, hsurvives⟩ := hs.live_iff.1 hlive
    rw [he] at hx
    cases hx
    exact hplain (.revise (hs.fixed he hsurvives hrev) hrev ⟨_, rfl⟩ id)
  | registerFinalizer hlive hrun =>
    obtain ⟨e, s', he, rfl, hrev⟩ := registerFinalizer_eq_ok hs hrun
    obtain ⟨x, hx, hsurvives⟩ := hs.live_iff.1 hlive
    rw [he] at hx
    cases hx
    refine hplain (.revise (hs.registers he hsurvives hrev) hrev ?_ ?_)
    · split
      · exact ⟨_, he⟩
      · exact ⟨_, rfl⟩
    · split <;> exact id
  | barrierForward hwriter hreferent hrun =>
    obtain ⟨e, he, -⟩ := hs.live_iff.1 hwriter
    obtain ⟨x, hx, -⟩ := hs.live_iff.1 hreferent
    obtain ⟨hsound, hf⟩ := barrierForward_eq_ok hs he hx hrun
    exact hplain (.forwards hs (fun hp => .records hs ⟨x, hx⟩ hp hsound) hsound hf)
  | barrierBack hcontainer hrun =>
    obtain ⟨e, he, -⟩ := hs.live_iff.1 hcontainer
    obtain ⟨hsound, hg⟩ := barrierBack_eq_ok hs he hrun
    exact hplain (.regreys hs he hsound hg)
  | barrierSlot hwriter hreferent hrun =>
    obtain ⟨e, he, -⟩ := hs.live_iff.1 hwriter
    obtain ⟨x, hx, -⟩ := hs.live_iff.1 hreferent
    obtain ⟨hsound, hf⟩ := barrierSlot_eq_ok hs he hx hrun
    refine hplain (.forwards hs (fun hp => ?_) hsound hf)
    rintro ⟨s', rfl, hshades⟩
    exact .shades hs hp hshades
  | setTraceActive active => exact hplain ⟨⟨hs.setTraceActive active, rfl, fun t ht => ⟨t, ht⟩⟩, id⟩
  | setPause percent => exact hplain ⟨⟨hs.setPause percent, rfl, fun t ht => ⟨t, ht⟩⟩, id⟩
  | setStepMultiplier percent =>
    exact hplain ⟨⟨hs.setStepMultiplier percent, rfl, fun t ht => ⟨t, ht⟩⟩, id⟩

end Heap

end Tricolor
