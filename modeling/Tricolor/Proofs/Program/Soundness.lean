import Tricolor.Proofs.Program.Ledgers
import Tricolor.Proofs.Program.Validity

/-!
# Nothing that a program can reach is lost

At every stage of every run, an object that is strongly reachable from the roots, the fixed objects
or the objects whose finalizers are due is allocated and outlives the pending sweep. And it is the
object that was made at its place: since then the place was never free, and its kind and size are
what they were.
-/

namespace Tricolor

namespace Stage

variable {σ : Type} {mu : Mutator σ} {config : Config} {hashOf : List UInt8 → Hash} {c c₀ d : Stage σ}
  {l : List (Stage σ)} {r : Ref} {kind : Kind} {size : Nat}

/-- The program can reach the object, or will be given it when its finalizer runs. -/
def Reached (mu : Mutator σ) (c : Stage σ) (r : Ref) : Prop :=
  (c.graph mu).Reaches c.space
    (fun t => (c.graph mu).root t ∨ (c.space.slot t).fixed ∨ (c.space.slot t).pending) r

/-- The heap has an object of a kind and a payload size at a place. -/
structure Has (c : Stage σ) (r : Ref) (kind : Kind) (size : Nat) : Prop where
  isLive : c.heap.isLive r = true
  kind : c.heap.kind r = .ok kind
  size : c.heap.payloadSize r = .ok size

/-- An object of a kind and a size was made at a place at one of the stages, of which the last one
comes first, and has been there since then. -/
inductive Lasts (r : Ref) (kind : Kind) (size : Nat) : List (Stage σ) → Prop where
  | made {d c : Stage σ} {l : List (Stage σ)} : d.Has r kind size → c.heap.isLive r = false →
      Lasts r kind size (d :: c :: l)
  | kept {d : Stage σ} {l : List (Stage σ)} : d.Has r kind size → Lasts r kind size l →
      Lasts r kind size (d :: l)

/-- What a heap has at a place, by its slot. -/
theorem has_iff (hs : c.heap.Sound) : c.Has r kind size ↔
    ∃ e, (c.space.slot r).entity? = some e ∧ e.header.kind = kind ∧ e.header.size = size := by
  constructor
  · rintro ⟨hlive, hkind, hsize⟩
    obtain ⟨e, he⟩ := hs.isLive_iff.1 hlive
    exact ⟨e, he, Except.ok.inj ((hs.kind_eq he).symm.trans hkind),
      Except.ok.inj ((hs.payloadSize_eq he).symm.trans hsize)⟩
  · rintro ⟨e, he, rfl, rfl⟩
    exact ⟨hs.isLive_iff.2 ⟨e, he⟩, hs.kind_eq he, hs.payloadSize_eq he⟩

/-- An object that is there after a step was there before, with the same kind and size, unless it
was made in the step. -/
theorem Valid.entity_before (hmu : mu.Faithful) (hc : Valid mu config hashOf c) (hstep : Step mu c d)
    {x : Entity} (hx : (d.space.slot r).entity? = some x) : (c.space.slot r).entity? = none ∨
      ∃ e, (c.space.slot r).entity? = some e ∧ x.header.kind = e.header.kind ∧ x.header.size = e.header.size := by
  cases hstep with
  | act hact =>
    obtain ⟨used, fresh, gone, stored, heffect⟩ := hact.effect hc.sound hc.hands
    by_cases hfresh : fresh r
    · exact .inl (heffect.alters.made hfresh).1
    · have hstays := heffect.alters.stays hfresh (heffect.not_gone ⟨x, hx⟩)
      cases he : (c.space.slot r).entity? with
      | none => exact .inl rfl
      | some e =>
        obtain ⟨y, hy, hres, -⟩ := hstays.entity he
        rw [show (d.heap.space.slot r).entity? = some x from hx] at hy
        cases hy
        exact .inr ⟨e, rfl, hres.kind, hres.length⟩
  | setThreshold => exact .inr ⟨x, hx, rfl, rfl⟩
  | collect hp hrun =>
    exact .inr ((Machine.collects_singleStep hmu hc.sound hp hc.closed hrun).inherits hc.sound r x hx)
  | @finalize t s _ htake =>
    exact .inr ((hc.taken htake).2.inherits_taken r x hx)
  | complete hp htake =>
    have hslot := (hc.completed hp htake).2.1
    exact .inr ⟨x, by rw [← hslot]; exact hx, rfl, rfl⟩

/-- What a stage of a run has was made at some stage before, and has been there since then. -/
theorem lasts_of_has (hmu : mu.Faithful) (hinit : Initial mu config hashOf c₀) (hrun : Passes mu c₀ l c)
    (hc : c.Has r kind size) : Lasts r kind size (l ++ [c₀]) := by
  have hvalid := Valid.initial hinit
  induction hrun with
  | refl =>
    obtain @⟨program, h, hh, -⟩ := hinit
    obtain ⟨e, he, -⟩ := (has_iff hvalid.sound).1 hc
    have he : (h.space.slot r).entity? = some e := he
    rw [(Heap.sound_of_withConfig hh).2.2.2.2 r] at he
    cases he
  | @step l d e hrun hlast ih =>
    have hd := hvalid.passes hmu hrun
    obtain ⟨x, hx, rfl, rfl⟩ := (has_iff (hd.step hmu hlast).sound).1 hc
    rcases hd.entity_before hmu hlast hx with hnone | ⟨y, hy, hkind, hsize⟩
    · have hvacant : d.heap.isLive r = false := by
        rw [← Bool.not_eq_true, hd.sound.isLive_iff]
        exact Space.not_holds.2 hnone
      cases l with
      | nil =>
        cases hrun
        exact .made hc hvacant
      | cons d' l =>
        cases hrun
        exact .made hc hvacant
    · exact .kept hc (ih ((has_iff hd.sound).2 ⟨y, hy, hkind.symm, hsize.symm⟩))

/-- What can be reached outlives the pending sweep. -/
theorem Valid.live (hc : Valid mu config hashOf c) (hr : c.Reached mu r) : c.heap.Live r := by
  refine hc.sound.live_iff.2 (hr.subset (P := c.space.Survives) (fun t ht => ?_) fun t v ht hv =>
    hc.closed.edge ht hv.edge)
  rcases ht with hroot | hfixed | hpending
  · exact hc.closed.root hroot
  · exact (hc.sound.admits t).listed (.inl hfixed)
  · exact (hc.sound.admits t).listed (.inr (.inr hpending))

/-- No two objects share a byte. -/
def Apart (c : Stage σ) : Prop :=
  ∀ r t n m, r ≠ t → c.heap.objectSize r = .ok n → c.heap.objectSize t = .ok m →
    r.address + n ≤ t.address ∨ t.address + m ≤ r.address

/-- Allocation hands out places that are free. -/
def AllocatesAfresh (c : Stage σ) : Prop :=
  ∀ supply kind size t h, supply.Fresh c.space 0 → c.heap.alloc supply kind size = .ok (.ok t, h) →
    c.heap.isLive t = false

theorem apart (hs : c.heap.Sound) : c.Apart := by
  intro r t n m hne hr ht
  obtain ⟨e, he, rfl⟩ := hs.objectSize_eq_ok_iff.1 hr
  obtain ⟨x, hx, rfl⟩ := hs.objectSize_eq_ok_iff.1 ht
  exact Space.memory_apart hs.wf he hx hne

theorem allocatesAfresh (hs : c.heap.Sound) : c.AllocatesAfresh := by
  intro supply kind size t h hfresh hrun
  obtain ⟨s', -, -, hok⟩ := Heap.alloc_eq_ok hs hfresh hrun
  obtain ⟨e, happears⟩ := hok t rfl
  rw [← Bool.not_eq_true, hs.isLive_iff]
  exact Space.not_holds.2 happears.vacant

/-- What can be reached at any stage of any run is an object that outlives the pending sweep, and it
is the one that was made at its place before: no other object has a byte of it, and none is handed
out. The calls of a program are runs. -/
theorem reached_objects_last (hmu : Orderly mu config hashOf) (hinit : Initial mu config hashOf c₀) :
    (∀ l c, Passes mu c₀ l c → c.Apart ∧ c.AllocatesAfresh ∧ ∀ r, c.Reached mu r →
      c.heap.Live r ∧ ∃ kind size, Lasts r kind size (l ++ [c₀])) ∧
    ∀ c, Relation.ReflTransGen (Call mu) c₀ c → ∃ l, Passes mu c₀ l c := by
  refine ⟨fun l c hrun => ?_, fun c hcalls => hmu.calls (.initial hinit) hcalls⟩
  have hc := (Valid.initial hinit).passes hmu.toFaithful hrun
  refine ⟨apart hc.sound, allocatesAfresh hc.sound, fun r hr => ?_⟩
  have hlive := hc.live hr
  obtain ⟨e, he, -⟩ := hc.sound.live_iff.1 hlive
  exact ⟨hlive, e.header.kind, e.header.size, lasts_of_has hmu.toFaithful hinit hrun
    ((has_iff hc.sound).2 ⟨e, he, rfl, rfl⟩)⟩

/-- A function that a rooted table refers to lasts through a cycle. -/
theorem function_lasts_through_cycle : ∃ (c₀ c : Stage Ledger) (l : List (Stage Ledger)),
    Initial Ledger.mutator Ledger.blocksOnly (fun _ => 0) c₀ ∧ Passes Ledger.mutator c₀ l c ∧
      c.heap.phase = .pause ∧ c.heap.Live (.huge 8) ∧
      ∃ kind size, Lasts (.huge 8) kind size (l ++ [c₀]) := by
  obtain ⟨c₀, l, hinit, hrun⟩ := Ledger.cache_reachable
  obtain ⟨result, m, m', trail, hstart, hp, hcycle, hend, hroot, hslot, htable⟩ := Ledger.cache_cycle
  have hall := (hrun.step (.collect (by decide +kernel) hstart)).trans hcycle
  obtain ⟨e, he, hkind⟩ := (Option.any_eq_true _ _).1 htable
  have hkind : e.header.kind = .table := of_decide_eq_true hkind
  have hreached : Reached Ledger.mutator ⟨m', nothing⟩ (.huge 8) :=
    (Graph.Reaches.start (.inl hroot)).step (Ledger.strong_slot hslot he (by rw [hkind]; rfl))
  obtain ⟨-, -, hlasts⟩ := (reached_objects_last (Ledger.orderly _ _) hinit).1 _ _ hall
  exact ⟨c₀, _, _, hinit, hall, hend, hlasts _ hreached⟩

end Stage

end Tricolor
