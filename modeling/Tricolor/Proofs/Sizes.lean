import Tricolor.Proofs.Cycle.Footprint

/-!
# The lengths of payloads

A payload gets its length when its object is made or resized, and keeps it otherwise. So what the two
operations guarantee of an object's place and its length holds of all objects at every point of a run.
-/

namespace Tricolor

namespace Heap

variable {h h' : Heap} {supply : Supply} {r moved : Ref} {kind : Kind} {size old : Nat} {bytes : List UInt8}
  {e : Entity} {fits : Ref → Nat → Prop}

/-- Every object is at a place where its payload fits. -/
def Each (fits : Ref → Nat → Prop) (h : Heap) : Prop :=
  ∀ r e, (h.space.slot r).entity? = some e → fits r e.header.size

/-- Objects are only made, and moved, to places where their payload fits. -/
structure Fitting (fits : Ref → Nat → Prop) : Prop where
  alloc : ∀ {h h' : Heap} {supply : Supply} {kind : Kind} {size : Nat} {r : Ref}, h.Sound →
    supply.Fresh h.space 0 → h.alloc supply kind size = .ok (.ok r, h') → fits r size
  realloc : ∀ {h h' : Heap} {supply : Supply} {r moved : Ref} {old size : Nat}, h.Sound →
    h.FreshFor supply r size → h.realloc supply r old size = .ok (.ok moved, h') → fits moved size

theorem Each.of_slot (hb : h.Each fits) (hslot : h'.space.slot = h.space.slot) : h'.Each fits := fun r e he =>
  hb r e (congrFun hslot r ▸ he)

theorem Each.revise {v : Slot} (hb : h.Each fits) (hrev : h.space.Revises h'.space r v)
    (hv : ∀ e, v.entity? = some e → fits r e.header.size) : h'.Each fits := by
  intro t e he
  by_cases ht : t = r
  · rw [ht, hrev.slot_self] at he
    rw [ht]
    exact hv e he
  · rw [hrev.slot_ne ht] at he
    exact hb t e he

theorem Each.conserved (hs : h.Sound) (hs' : h'.Sound) (hb : h.Each fits) (hc : ∀ r, h.Conserves r h') :
    h'.Each fits := by
  intro r x hx
  obtain ⟨hbefore, kind, bytes, hshows, hshown⟩ := hc r (hs'.isLive_iff.2 ⟨x, hx⟩)
  obtain ⟨e, he⟩ := hs.isLive_iff.1 hbefore
  have hold : e.header.size = bytes.length := Except.ok.inj ((hs.payloadSize_eq he).symm.trans hshows.length)
  have hnew : x.header.size = bytes.length := Except.ok.inj ((hs'.payloadSize_eq hx).symm.trans hshown.length)
  rw [hnew, ← hold]
  exact hb r e he

theorem Each.appears (hb : h.Each fits) (ha : Appears h.space r kind size h'.space e) (hfits : fits r size) :
    h'.Each fits := by
  refine hb.revise ha.revises fun x hx => ?_
  cases hx
  rw [ha.header]
  exact hfits

theorem Each.reallocates (hb : h.Each fits) (hr : h.Reallocates r e size (.ok moved) h') (hfits : fits moved size) :
    h'.Each fits := by
  have hresized : ∀ {x : Entity}, x.header = { e.header with size } → fits moved x.header.size := fun hx => by
    rw [hx]
    exact hfits
  cases hr with
  | resized _ hslot _ _ _ hx =>
    intro t y hy
    rw [hslot] at hy
    by_cases ht : t = moved
    · rw [ht, Function.update_self] at hy
      cases hy
      rw [ht]
      exact hresized hx
    · rw [Function.update_of_ne ht] at hy
      by_cases htr : t = r
      · rw [htr, Function.update_self] at hy
        cases hy
      · rw [Function.update_of_ne htr] at hy
        exact hb t y hy
  | moved _ _ hcopies hreleases =>
    -- first there are both the object and its copy
    refine Each.revise (fun t y hy => ?_) hreleases.revises fun x hx => nomatch hx
    by_cases ht : t = moved
    · obtain ⟨x, hx, hheader, -⟩ := hcopies.copy
      rw [ht, hx] at hy
      cases hy
      rw [ht]
      exact hresized hheader
    · rw [hcopies.slot t ht] at hy
      exact hb t y hy

/-- A string that is new was allocated. -/
theorem intern_alloc (hs : h.Sound) (hrun : h.intern supply bytes = .ok (.ok r, h'))
    (hvacant : (h.space.slot r).entity? = none) :
    ∃ h₁, h.alloc supply .str bytes.length = .ok (.ok r, h₁) := by
  rw [intern] at hrun
  split at hrun
  · next found hfind =>
    have hfound : r = found := by
      obtain ⟨survives, -, hrun⟩ := bind_eq_ok_iff.1 hrun
      split at hrun
      · cases hrun
        rfl
      · obtain ⟨s₁, -, hret⟩ := bind_eq_ok_iff.1 hrun
        cases hret
        rfl
    obtain ⟨e, he, -⟩ := hs.linked (hs.strings.find_eq_some hfind).1
    rw [hfound, he] at hvacant
    cases hvacant
  · obtain ⟨⟨r?, h₁⟩, halloc, hrun⟩ := bind_eq_ok_iff.1 hrun
    cases r? with
    | error e => cases hrun
    | ok t =>
      have hret : t = r := by
        obtain ⟨s₁, -, hret⟩ := bind_eq_ok_iff.1 hrun
        cases hret
        rfl
      exact ⟨h₁, hret ▸ halloc⟩

theorem Operation.each {allowed : Resizings} (hfits : Fitting fits) (hs : h.Sound) (hb : h.Each fits)
    (hop : Operation allowed h h') : h'.Each fits := by
  have hs' := (hop.keeps hs).1.sound
  have hflags : ∀ flagged : Ref → Prop, h.ChangesOnly Space.nowhere Space.nowhere flagged h' → h'.Each fits :=
    fun _ hc => hb.conserved hs hs' fun _ => hc.conserves id False.elim
  cases hop with
  | @alloc _ _ _ result _ hfresh hrun =>
    obtain ⟨s', rfl, herror, hok⟩ := alloc_eq_ok hs hfresh hrun
    cases result with
    | error error => exact hb.of_slot (herror error rfl).slot
    | ok r =>
      obtain ⟨e, ha⟩ := hok r rfl
      exact hb.appears ha (hfits.alloc hs hfresh hrun)
  | @intern _ _ result _ hfresh hrun =>
    obtain ⟨herror, hok⟩ := intern_eq_ok hs hfresh hrun
    cases result with
    | error error =>
      obtain ⟨s', rfl, halike⟩ := herror error rfl
      exact hb.of_slot halike.slot
    | ok r =>
      have halloc := intern_alloc hs hrun
      cases hok r rfl with
      | found => exact hb
      | @revived e _ _ he _ _ hrev =>
        refine hb.revise hrev fun x hx => ?_
        rw [Slot.mapEntity_of_some he] at hx
        cases hx
        exact hb r e he
      | linked ha =>
        obtain ⟨_, halloc⟩ := halloc ha.vacant
        exact hb.appears ha (hfits.alloc hs hfresh halloc)
  | free _ hrun => exact hb.revise (free_eq_ok hs hrun).2.revises fun x hx => nomatch hx
  | @realloc _ _ _ _ result _ _ hfresh hrun _ =>
    obtain ⟨e, -, hr⟩ := realloc_eq_ok hs hfresh hrun
    cases result with
    | error error =>
      cases hr with
      | refused halike => exact hb.of_slot halike.slot
    | ok moved => exact hb.reallocates hr (hfits.realloc hs hfresh hrun)
  | writePayload _ hfits' hrun =>
    obtain ⟨e, content, s', he, -, rfl, hrev⟩ := writePayload_eq_ok hs hfits' hrun
    refine hb.revise hrev fun x hx => ?_
    cases hx
    exact hb _ e he
  | fix _ hrun => exact hflags _ (hs.changesOnly_fix hrun)
  | registerFinalizer _ hrun => exact hflags _ (hs.changesOnly_registerFinalizer hrun)
  | barrierForward _ _ hrun => exact hflags Space.nowhere (hs.changesOnly_barrierForward hrun)
  | barrierBack _ hrun => exact hflags Space.nowhere (hs.changesOnly_barrierBack hrun)
  | barrierSlot _ _ hrun => exact hflags Space.nowhere (hs.changesOnly_barrierSlot hrun)
  | setTraceActive | setPause | setStepMultiplier => exact hb

end Heap

namespace Machine

variable {σ : Type} {mu : Mutator σ} {allowed : Heap.Resizings} {m m' : Machine σ} {config : Config}
  {hashOf : List UInt8 → Hash} {fits : Ref → Nat → Prop}

theorem Step.each (hfits : Heap.Fitting fits) (hs : m.heap.Sound) (hb : m.heap.Each fits)
    (hstep : Step mu allowed m m') (hs' : m'.heap.Sound) : m'.heap.Each fits := by
  cases hstep with
  | compute => exact hb
  | operate hop => exact hop.each hfits hs hb
  | setThreshold => exact hb
  | collect hp hrun =>
    exact hb.conserved hs hs' fun _ => (changesOnly_singleStep hs hp hrun).conserves id And.right
  | finalize hp htake =>
    exact hb.conserved hs hs' fun _ => (hs.changesOnly_taken htake m.heap.cycle.threshold).conserves id False.elim
  | complete hp htake =>
    have hcompleted : m.heap.ChangesOnly Space.nowhere Space.nowhere Space.nowhere _ :=
      hs.changesOnly_completed hp htake
    exact hb.conserved hs hs' fun _ => hcompleted.conserves id False.elim

/-- If objects are only made and moved to places where they fit, every object is at such a place. -/
theorem Reachable.each (hfits : Heap.Fitting fits) (hm : Reachable mu allowed config hashOf m) :
    m.heap.Each fits := by
  induction hm with
  | initial program hstart =>
    intro r e he
    rw [(Heap.sound_of_withConfig hstart).2.2.2.2 r] at he
    cases he
  | step hm hstep ih => exact hstep.each hfits hm.sound ih (hm.step hstep).sound

end Machine

end Tricolor
