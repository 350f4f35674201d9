import Tricolor.Proofs.Program.Interning

/-!
# Registrations

An object that is registered for finalization waits to become unreachable, or its finalizer is due.
`Space.Lists` says that a step leaves all of that as it is. Every act of a program does, except one that
registers an object or frees one, and every step of the collector does, except the atomic step, which
selects objects, and the step that takes a finalizer that is due.
-/

namespace Tricolor

namespace Space

variable {s s' s'' : Space} {r : Ref} {v : Slot}

/-- The same objects are waiting to become unreachable, and the same finalizers are due. -/
def Lists (s s' : Space) : Prop :=
  ∀ t, (s'.slot t).idle = (s.slot t).idle ∧ (s'.slot t).pending = (s.slot t).pending

theorem Lists.of_slot (h : s'.slot = s.slot) : s.Lists s' := fun t => by
  rw [h]
  exact ⟨rfl, rfl⟩

theorem Lists.trans (h : s.Lists s') (h' : s'.Lists s'') : s.Lists s'' := fun t =>
  ⟨(h' t).1.trans (h t).1, (h' t).2.trans (h t).2⟩

/-- Changing one slot, but not how its object is registered. -/
theorem Lists.revise (hrev : s.Revises s' r v) (hidle : v.idle = (s.slot r).idle)
    (hpending : v.pending = (s.slot r).pending) : s.Lists s' := by
  intro t
  by_cases ht : t = r
  · subst ht
    rw [hrev.slot_self]
    exact ⟨hidle, hpending⟩
  · rw [hrev.slot_ne ht]
    exact ⟨rfl, rfl⟩

theorem Advances.lists (h : s.Advances s') : s.Lists s' := fun t => ⟨h.idle t, h.pending t⟩

theorem Sweeps.lists (h : s.Sweeps s') : s.Lists s' := fun t =>
  let ⟨_, hidle, hpending, _⟩ := h.listed t
  ⟨hidle, hpending⟩

end Space

namespace Heap

variable {h h' : Heap} {r t : Ref} {e x : Entity} {bytes : List UInt8}

theorem Records.lists (hrec : h.Records r h') : h.space.Lists h'.space := by
  cases hrec with
  | pushed => exact .of_slot rfl
  | drained _ hshades => exact hshades.advances.lists

theorem Forwards.lists {recorded : Heap → Prop} (hrecorded : recorded h' → h.space.Lists h'.space)
    (hf : h.Forwards e x r recorded h') : h.space.Lists h'.space := by
  cases hf with
  | idle => exact .of_slot rfl
  | marking _ hrec => exact hrecorded hrec
  | sweeping _ _ hrev => exact .revise hrev rfl rfl

theorem Regreys.lists (hg : h.Regreys e r h') : h.space.Lists h'.space := by
  cases hg with
  | idle => exact .of_slot rfl
  | greyed _ hrev _ hrec => exact .trans (.revise hrev rfl rfl) hrec.lists

theorem Interns.lists (hi : h.Interns bytes r h') : h.space.Lists h'.space := by
  cases hi with
  | found => exact .of_slot rfl
  | revived _ _ _ _ hrev => exact .revise hrev rfl rfl
  | linked ha => exact .revise ha.revises rfl rfl

end Heap

namespace Stage

variable {σ : Type} {mu : Mutator σ} {config : Config} {hashOf : List UInt8 → Hash} {c d : Stage σ} {r : Ref}

/-- An object is registered for finalization: it waits to become unreachable, or its finalizer is due. -/
def Registered (c : Stage σ) (r : Ref) : Prop := (c.space.slot r).idle ∨ (c.space.slot r).pending

/-- What an act does about registrations: nothing, unless it registers an object or frees one. -/
inductive Act.Lists (c d : Stage σ) : Prop where
  | none : c.space.Lists d.space → Act.Lists c d
  | registers {r : Ref} : c.heap.registerFinalizer r = .ok d.heap → Act.Lists c d
  | frees {r : Ref} {size : Nat} : c.heap.free r size = .ok d.heap → Act.Lists c d

theorem Act.lists (hs : c.heap.Sound) (hhands : ∀ t, c.hands t → c.space.Survives t) (hact : Act mu c d) :
    Act.Lists c d := by
  have hentity : ∀ {t}, c.hands t → ∃ e, (c.heap.space.slot t).entity? = some e := fun ht =>
    (hhands _ ht).holds
  cases hact with
  | compute | take | forget => exact .none (.of_slot rfl)
  | @alloc _ _ _ result _ _ hfresh hrun =>
    obtain ⟨s', rfl, herror, hok⟩ := Heap.alloc_eq_ok hs hfresh hrun
    cases result with
    | error error => exact .none (.of_slot (herror error rfl).slot)
    | ok r =>
      obtain ⟨e, ha⟩ := hok r rfl
      exact .none (.revise ha.revises rfl rfl)
  | @intern _ _ result _ _ hfresh hrun =>
    obtain ⟨herror, hok⟩ := Heap.intern_eq_ok hs hfresh hrun
    cases result with
    | error error =>
      obtain ⟨s', rfl, halike⟩ := herror error rfl
      exact .none (.of_slot halike.slot)
    | ok r => exact .none (hok r rfl).lists
  | free _ _ _ hrun => exact .frees hrun
  | storeBack hcontainer _ _ _ hrun =>
    obtain ⟨e, he⟩ := hentity hcontainer
    exact .none (Heap.barrierBack_eq_ok hs he hrun).2.lists
  | storeSlot hwriter hreferent _ _ hrun =>
    obtain ⟨e, he⟩ := hentity hwriter
    obtain ⟨x, hx⟩ := hentity hreferent
    refine .none ((Heap.barrierSlot_eq_ok hs he hx hrun).2.lists ?_)
    rintro ⟨s', rfl, hshades⟩
    exact hshades.advances.lists
  | storeForward hwriter hreferent _ _ _ _ hrun =>
    obtain ⟨e, he⟩ := hentity hwriter
    obtain ⟨x, hx⟩ := hentity hreferent
    exact .none ((Heap.barrierForward_eq_ok hs he hx hrun).2.lists Heap.Records.lists)
  | fix _ hrun =>
    obtain ⟨e, s', he, rfl, hrev⟩ := Heap.fix_eq_ok hs hrun
    exact .none (.revise hrev rfl rfl)
  | registerFinalizer _ hrun => exact .registers hrun
  | writePayload _ hfits hrun =>
    obtain ⟨e, content, s', he, -, rfl, hrev⟩ := Heap.writePayload_eq_ok hs hfits hrun
    exact .none (.revise hrev rfl rfl)
  | setTraceActive | setPause | setStepMultiplier => exact .none (.of_slot rfl)

/-- Registering an object has an effect only if it is not registered, and on no other object. -/
theorem registerFinalizer_lists (hs : c.heap.Sound) (hrun : c.heap.registerFinalizer r = .ok d.heap) :
    (c.Registered r → c.space.Lists d.space) ∧
      (¬ c.Registered r → (d.space.slot r).idle ∧ ¬ (d.space.slot r).pending) ∧
      ∀ t, t ≠ r → d.space.slot t = c.space.slot t := by
  obtain ⟨e, s', he, hd, hrev⟩ := Heap.registerFinalizer_eq_ok hs hrun
  have hspace : d.space = s' := congrArg Heap.space hd
  have hregistered : c.Registered r ↔ e.header.hasFinalizer = true := (hs.admits r).registered he
  rw [hspace]
  refine ⟨fun hr => ?_, fun hr => ?_, fun t ht => hrev.slot_ne ht⟩
  · rw [if_pos (hregistered.1 hr)] at hrev
    exact .revise hrev rfl rfl
  · rw [if_neg fun htrue => hr (hregistered.2 htrue)] at hrev
    rw [hrev.slot_self]
    exact ⟨trivial, fun hpending => hr (.inr hpending)⟩

/-- Freeing an object ends its registration, and no other. -/
theorem free_lists (hs : c.heap.Sound) {size : Nat} (hrun : c.heap.free r size = .ok d.heap) :
    ¬ d.Registered r ∧ ∀ t, t ≠ r → d.space.slot t = c.space.slot t := by
  have hrev := (Heap.free_eq_ok hs hrun).2.revises
  refine ⟨?_, fun t ht => hrev.slot_ne ht⟩
  rw [Registered, show d.space.slot r = _ from hrev.slot_self]
  exact fun hor => hor.elim id id

end Stage

namespace Machine

variable {σ : Type} {mu : Mutator σ} {m m' : Machine σ}

/-- The atomic step selects objects: those that it finds unreached become due, or are forgotten. -/
theorem Finish.lists (f : Finish mu m m') (hs : m.heap.Sound) (hp : m.heap.phase.IsMarking) (r : Ref) :
    ∃ v, (f.marked.heap.space.slot r).Selected (mu.isFinalizable f.marked.program r) v ∧
      (m'.heap.space.slot r).idle = v.idle ∧ (m'.heap.space.slot r).pending = v.pending ∧
      (f.marked.heap.space.slot r).idle = (m.heap.space.slot r).idle ∧
      (f.marked.heap.space.slot r).pending = (m.heap.space.slot r).pending := by
  have hmarked := (f.marks hs hp).advances
  have htraced := (f.finishing.marks (f.phase_marked hs hp)).advances
  refine ⟨_, f.finishing.selects r, ?_, ?_, hmarked.idle r, hmarked.pending r⟩
  · rw [f.slot hs hp, Slot.mapEntity_idle, htraced.idle]
  · rw [f.slot hs hp, Slot.mapEntity_pending, htraced.pending]

/-- All other steps of the collector leave registrations as they are. -/
theorem Collects.lists (hs : m.heap.Sound) (hp : m.heap.phase ≠ .atomic) (h : Collects mu m m') :
    m.heap.space.Lists m'.heap.space := by
  cases h with
  | blocked => exact .of_slot rfl
  | began hpause _ htraces _ => exact (htraces.marks (hs.begins hpause) (.inl rfl)).advances.lists
  | propagated hphase _ htracing => exact (htracing.marks hs (.inl hphase)).advances.lists
  | ready hphase htracing => exact (htracing.marks hs (.inl hphase)).advances.lists
  | finished hatomic => exact absurd hatomic hp
  | sweptStrings => exact .of_slot rfl
  | swept _ hsweeps =>
    cases hsweeps with
    | swept hsweeps _ => exact hsweeps.lists
    | finished => exact .of_slot rfl

end Machine

end Tricolor
