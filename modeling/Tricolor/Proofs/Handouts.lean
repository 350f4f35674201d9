import Mathlib.Logic.Relation
import Tricolor.Proofs.Heap.Strings
import Tricolor.Proofs.Program.Ledgers

/-!
# What is handed out while a sweep is pending

Between the end of marking and the end of a cycle objects are allocated, interned, resized and
freed, and the sweep and the finalizers go on. An `Event` is one thing that happens; if it is a
request for an object, or one to free it, the event says which request it was and what it answered.

An object that is handed out meanwhile outlives the pending sweep wherever it is placed, and every
event leaves it so, except a request that frees it or moves it. So it is there when the cycle ends.
-/

namespace Tricolor

/-- What a program can ask of its heap to be given an object, or to give one up. -/
inductive Request where
  | alloc (supply : Supply) (kind : Kind) (size : Nat)
  | intern (supply : Supply) (bytes : List UInt8)
  | realloc (supply : Supply) (r : Ref) (old size : Nat)
  | free (r : Ref) (size : Nat)

namespace Request

/-- A request is carried out, with the object that it answers. What is resized has to be marked or
swept; any object may be freed. -/
inductive Done (h : Heap) : Request → Option Ref → Heap → Prop where
  | alloc {supply : Supply} {kind : Kind} {size : Nat} {result : Except AllocError Ref} {h' : Heap} :
      supply.Fresh h.space 0 → h.alloc supply kind size = .ok (result, h') →
      Done h (.alloc supply kind size) result.toOption h'
  | intern {supply : Supply} {bytes : List UInt8} {result : Except AllocError Ref} {h' : Heap} :
      supply.Fresh h.space 0 → h.intern supply bytes = .ok (result, h') →
      Done h (.intern supply bytes) result.toOption h'
  | realloc {supply : Supply} {r : Ref} {old size : Nat} {result : Except AllocError Ref} {h' : Heap} :
      h.Live r → h.FreshFor supply r size → h.realloc supply r old size = .ok (result, h') →
      Done h (.realloc supply r old size) result.toOption h'
  | free {r : Ref} {size : Nat} {h' : Heap} : h.free r size = .ok h' → Done h (.free r size) none h'

/-- A request frees an object, or moves it. -/
def Drops (r : Ref) : Request → Option Ref → Prop
  | .free t _, _ => t = r
  | .realloc _ t _ _, some moved => t = r ∧ moved ≠ r
  | _, _ => False

end Request

namespace Heap

variable {h h' : Heap} {r t : Ref} {allowed : Resizings}

/-- Outside a sweep what is there outlives the next one, so an operation has to be looked at only while
a sweep is pending. -/
theorem Operation.survives_of_idle (hs : h.Sound) (hop : Operation allowed h h') (hp : ¬ h.phase.IsSweeping)
    (hheld : h'.space.Holds r) : h'.space.Survives r := by
  obtain ⟨e, he⟩ := hheld
  obtain ⟨hk, -⟩ := hop.keeps hs
  exact ⟨e, he, hk.sound.survives (by rw [hk.phase]; exact hp) he⟩

/-- Changing one slot lets what outlives the sweep outlive it, if the object in the slot does. -/
theorem survives_of_revises {s s' : Space} {v : Slot} (hrev : s.Revises s' t v) (hr : s.Survives r)
    (hv : ∀ e, (s.slot t).entity? = some e → e.survives = true → ∃ x, v.entity? = some x ∧ x.survives = true) :
    s'.Survives r := by
  obtain ⟨e, he, hsurvives⟩ := hr
  rw [Space.Survives]
  by_cases hrt : r = t
  · subst hrt
    rw [hrev.slot_self]
    exact hv e he hsurvives
  · rw [hrev.slot_ne hrt]
    exact ⟨e, he, hsurvives⟩

/-- Making an object takes nothing from the others. -/
theorem Appears.keeps {s s' : Space} {kind : Kind} {size : Nat} {e : Entity} (ha : Appears s t kind size s' e)
    (hr : s.Survives r) : s'.Survives r := by
  refine survives_of_revises ha.revises hr fun x hx _ => ?_
  rw [ha.vacant] at hx
  cases hx

/-- Freeing an object takes nothing from the others. -/
theorem Releases.keeps (hrel : h.Releases t h') (hr : h.space.Survives r) (hne : r ≠ t) : h'.space.Survives r := by
  rw [Space.Survives, hrel.revises.slot_ne hne]
  exact hr

/-- A resized object outlives the sweep if it did before, wherever it is now. -/
theorem Reallocates.survives {e : Entity} {size : Nat} {moved : Ref} (hsurvives : e.survives = true)
    (hre : h.Reallocates t e size (.ok moved) h') : h'.space.Survives moved := by
  cases hre with
  | @resized moved x s' _ hslot _ hmarked hawaits _ =>
    refine ⟨x, ?_, ?_⟩
    · show (s'.slot moved).entity? = _
      rw [hslot, Function.update_self]
    · rw [Entity.survives, hmarked, hawaits]
      exact hsurvives
  | moved _ hne hcopies hrel =>
    obtain ⟨x, hx, -, hsurvives, -⟩ := hcopies.copy
    exact hrel.keeps ⟨x, hx, hsurvives⟩ hne

/-- Resizing an object takes nothing from the others. -/
theorem Reallocates.keeps_others {e : Entity} {size : Nat} {result : Except AllocError Ref}
    (hre : h.Reallocates t e size result h') (hr : h.space.Survives r) (hne : r ≠ t) : h'.space.Survives r := by
  cases hre with
  | refused halike =>
    rw [Space.Survives, halike.slot]
    exact hr
  | @resized moved x s' _ hslot hmoved _ _ _ =>
    have hnew : r ≠ moved := by
      rintro rfl
      rcases hmoved with rfl | ⟨-, hvacant⟩
      · exact hne rfl
      · obtain ⟨y, hy, -⟩ := hr
        rw [hvacant] at hy
        cases hy
    rw [Space.Survives, hslot, Function.update_of_ne hnew, Function.update_of_ne hne]
    exact hr
  | @moved moved h₁ h' _ _ hcopies hrel =>
    have hnew : r ≠ moved := by
      rintro rfl
      obtain ⟨y, hy, -⟩ := hr
      rw [hcopies.vacant] at hy
      cases hy
    refine hrel.keeps ?_ hne
    rw [Space.Survives, hcopies.slot r hnew]
    exact hr

/-- A string that is interned outlives the pending sweep. -/
theorem Interns.survives {bytes : List UInt8} (hi : h.Interns bytes r h') : h'.space.Survives r := by
  cases hi with
  | found _ he _ hsurvives => exact ⟨_, he, hsurvives⟩
  | @revived e s' _ he _ _ hrev =>
    refine ⟨{ e with marked := true }, ?_, rfl⟩
    show (s'.slot r).entity? = _
    rw [hrev.slot_self, Slot.mapEntity_entity?, he]
    rfl
  | @linked e s' ha =>
    refine ⟨e, ?_, ha.survives⟩
    show (s'.slot r).entity? = _
    rw [ha.revises.slot_self]

/-- Interning takes nothing from other objects. -/
theorem Interns.keeps {bytes : List UInt8} (hi : h.Interns bytes t h') (hr : h.space.Survives r) :
    h'.space.Survives r := by
  cases hi with
  | found => exact hr
  | revived _ he _ _ hrev =>
    exact survives_of_revises hrev hr fun x hx _ => ⟨_, by rw [Slot.mapEntity_entity?, hx]; rfl, rfl⟩
  | linked ha => exact ha.keeps hr

end Heap

namespace Request

open Heap

variable {h h' : Heap} {r : Ref} {q : Request} {answer : Option Ref}

/-- A request that does not drop an object takes nothing from it. -/
theorem Done.survives (hs : h.Sound) (hdone : q.Done h answer h') (hr : h.space.Survives r)
    (hspared : ¬ q.Drops r answer) : h'.space.Survives r := by
  cases hdone with
  | @alloc _ _ _ result _ hfresh hrun =>
    obtain ⟨s', rfl, herror, hok⟩ := alloc_eq_ok hs hfresh hrun
    cases result with
    | error error =>
      rw [Space.Survives, (herror error rfl).slot]
      exact hr
    | ok t =>
      obtain ⟨e, ha⟩ := hok t rfl
      exact ha.keeps hr
  | @intern _ _ result _ hfresh hrun =>
    obtain ⟨herror, hok⟩ := intern_eq_ok hs hfresh hrun
    cases result with
    | error error =>
      obtain ⟨s', rfl, halike⟩ := herror error rfl
      rw [Space.Survives, halike.slot]
      exact hr
    | ok t => exact (hok t rfl).keeps hr
  | @realloc _ t _ _ result _ hlive hfresh hrun =>
    obtain ⟨e, he, hre⟩ := realloc_eq_ok hs hfresh hrun
    by_cases hrt : r = t
    · subst hrt
      cases result with
      | error error =>
        cases hre with
        | refused halike =>
          rw [Space.Survives, halike.slot]
          exact hr
      | ok moved =>
        obtain rfl : moved = r := by_contra fun hne => hspared ⟨rfl, hne⟩
        obtain ⟨x, hx, hsurvives⟩ := hr
        rw [he] at hx
        cases hx
        exact hre.survives hsurvives
    · exact hre.keeps_others hr hrt
  | free hrun => exact (free_eq_ok hs hrun).2.keeps hr fun heq => hspared heq.symm

/-- What a request answers outlives the pending sweep. -/
theorem Done.answers (hs : h.Sound) (hdone : q.Done h (some r) h') : h'.space.Survives r := by
  generalize hanswer : some r = answer at hdone
  cases hdone with
  | @alloc _ _ _ result _ hfresh hrun =>
    cases result with
    | error => cases hanswer
    | ok t =>
      cases hanswer
      obtain ⟨s', rfl, -, hok⟩ := alloc_eq_ok hs hfresh hrun
      obtain ⟨e, ha⟩ := hok r rfl
      refine ⟨e, ?_, ha.survives⟩
      show (s'.slot r).entity? = _
      rw [ha.revises.slot_self]
  | @intern _ _ result _ hfresh hrun =>
    cases result with
    | error => cases hanswer
    | ok t =>
      cases hanswer
      exact ((intern_eq_ok hs hfresh hrun).2 r rfl).survives
  | @realloc _ t _ _ result _ hlive hfresh hrun =>
    cases result with
    | error => cases hanswer
    | ok moved =>
      cases hanswer
      obtain ⟨e, he, hre⟩ := realloc_eq_ok hs hfresh hrun
      obtain ⟨x, hx, hsurvives⟩ := hs.live_iff.1 hlive
      rw [he] at hx
      cases hx
      exact hre.survives hsurvives
  | free => cases hanswer

/-- A string that is interned is linked with the contents asked for. -/
theorem Done.names (hs : h.Sound) {supply : Supply} {bytes : List UInt8}
    (hdone : (Request.intern supply bytes).Done h (some r) h') : h'.Names bytes r := by
  generalize hanswer : some r = answer at hdone
  cases hdone with
  | @intern _ _ result _ hfresh hrun =>
    cases result with
    | error => cases hanswer
    | ok t =>
      cases hanswer
      exact (((intern_eq_ok hs hfresh hrun).2 r rfl).relinks hs).2

/-- A request is an operation of a program, unless it frees an object. -/
theorem Done.cases (hdone : q.Done h answer h') :
    Operation anyResizing h h' ∨ ∃ t size, q = .free t size ∧ h.free t size = .ok h' := by
  cases hdone with
  | alloc hfresh hrun => exact .inl (.alloc hfresh hrun)
  | intern hfresh hrun => exact .inl (.intern hfresh hrun)
  | realloc hlive hfresh hrun => exact .inl (.realloc hlive hfresh hrun fun _ _ => trivial)
  | free hrun => exact .inr ⟨_, _, rfl, hrun⟩

end Request

namespace Heap

variable {h h' : Heap} {r : Ref} {allowed : Resizings}

/-- What an operation leaves allocated outlives the pending sweep if it did before. -/
theorem Operation.survives (hs : h.Sound) (hop : Operation allowed h h') (hr : h.space.Survives r)
    (hheld : h'.space.Holds r) : h'.space.Survives r := by
  by_cases hp : h.phase.IsSweeping
  swap
  · exact hop.survives_of_idle hs hp hheld
  have hnot : ¬ h.phase.IsMarking := fun hmarking => Phase.not_isSweeping hmarking hp
  have hforwards : ∀ {e x : Entity} {referent : Ref} {recorded : Heap → Prop},
      h.Forwards e x referent recorded h' → h'.space.Survives r := by
    intro e x referent recorded hf
    cases hf with
    | idle => exact hr
    | marking hmarking => exact absurd hmarking hnot
    | sweeping _ _ hrev => exact survives_of_revises hrev hr fun _ _ _ => ⟨_, rfl, rfl⟩
  cases hop with
  | alloc hfresh hrun => exact (Request.Done.alloc hfresh hrun).survives hs hr not_false
  | intern hfresh hrun => exact (Request.Done.intern hfresh hrun).survives hs hr not_false
  | @free t _ _ _ hrun =>
    refine (Request.Done.free hrun).survives hs hr ?_
    rintro rfl
    obtain ⟨x, hx⟩ := hheld
    rw [(free_eq_ok hs hrun).2.revises.slot_self] at hx
    cases hx
  | @realloc _ t _ _ result _ hlive hfresh hrun _ =>
    refine (Request.Done.realloc hlive hfresh hrun).survives hs hr ?_
    cases result with
    | error => exact not_false
    | ok moved =>
      rintro ⟨rfl, hne⟩
      obtain ⟨e, he, hre⟩ := realloc_eq_ok hs hfresh hrun
      obtain ⟨x, hx⟩ := hheld
      cases hre with
      | @resized _ _ s' _ hslot =>
        have hx : (s'.slot t).entity? = some x := hx
        rw [hslot, Function.update_of_ne hne.symm, Function.update_self] at hx
        cases hx
      | moved _ _ _ hrel =>
        rw [hrel.revises.slot_self] at hx
        cases hx
  | writePayload _ hfits hrun =>
    obtain ⟨e, content, s', he, -, rfl, hrev⟩ := writePayload_eq_ok hs hfits hrun
    refine survives_of_revises hrev hr fun x hx hsurvives => ⟨_, rfl, ?_⟩
    rw [he] at hx
    cases hx
    exact hsurvives
  | fix _ hrun =>
    obtain ⟨e, s', he, rfl, hrev⟩ := fix_eq_ok hs hrun
    refine survives_of_revises hrev hr fun x hx hsurvives => ⟨_, rfl, ?_⟩
    rw [he] at hx
    cases hx
    exact hsurvives
  | registerFinalizer _ hrun =>
    obtain ⟨e, s', he, rfl, hrev⟩ := registerFinalizer_eq_ok hs hrun
    refine survives_of_revises hrev hr fun x hx hsurvives => ?_
    split
    · exact ⟨x, hx, hsurvives⟩
    · rw [he] at hx
      cases hx
      exact ⟨_, rfl, hsurvives⟩
  | barrierForward hwriter hreferent hrun =>
    obtain ⟨e, he, -⟩ := hs.live_iff.1 hwriter
    obtain ⟨x, hx, -⟩ := hs.live_iff.1 hreferent
    exact hforwards (barrierForward_eq_ok hs he hx hrun).2
  | barrierSlot hwriter hreferent hrun =>
    obtain ⟨e, he, -⟩ := hs.live_iff.1 hwriter
    obtain ⟨x, hx, -⟩ := hs.live_iff.1 hreferent
    exact hforwards (barrierSlot_eq_ok hs he hx hrun).2
  | barrierBack hcontainer hrun =>
    obtain ⟨e, he, -⟩ := hs.live_iff.1 hcontainer
    cases (barrierBack_eq_ok hs he hrun).2 with
    | idle => exact hr
    | greyed hmarking => exact absurd hmarking hnot
  | setTraceActive | setPause | setStepMultiplier => exact hr

end Heap

namespace Machine

variable {σ : Type} {mu : Mutator σ} {m m' : Machine σ} {r : Ref} {bytes : List UInt8} {config : Config}
  {hashOf : List UInt8 → Hash}

/-- A request with what it answered. -/
structure Exchange where
  request : Request
  answer : Option Ref

/-- One thing that happens: a request, another operation of the program, which makes no object and frees
none, or a step of the collector. -/
inductive Event (mu : Mutator σ) (m : Machine σ) : Option Exchange → Machine σ → Prop where
  | request {q : Request} {answer : Option Ref} {h : Heap} : q.Done m.heap answer h →
      Event mu m (some ⟨q, answer⟩) { m with heap := h }
  | operate {h : Heap} : Heap.Operation Heap.anyResizing m.heap h → (∀ t, h.isLive t = m.heap.isLive t) →
      Event mu m none { m with heap := h }
  | compute (program : σ) : Event mu m none { m with program }
  | setThreshold (threshold : Nat) : Event mu m none { m with heap := m.heap.setThreshold threshold }
  | collect {result : Except CollectError Nat} {m' : Machine σ} : m.heap.phase ≠ .finalize →
      m.singleStep mu = .ok (result, m') → Event mu m none m'
  /-- a finalizer begins -/
  | finalize {r : Ref} {s : Space} : m.heap.phase = .finalize →
      m.heap.space.takePendingFinalizer = .ok (some r, s) →
      Event mu m none { m with heap := { m.heap with space := s } }
  | complete {s : Space} : m.heap.phase = .finalize → m.heap.space.takePendingFinalizer = .ok (none, s) →
      Event mu m none { m with heap := Heap.enterPause { m.heap with space := s } }

/-- Something happens. -/
def Happens (mu : Mutator σ) (m m' : Machine σ) : Prop := ∃ x, Event mu m x m'

/-- Something happens before the cycle ends, and no request drops `r`. -/
def Spares (mu : Mutator σ) (r : Ref) (m m' : Machine σ) : Prop :=
  m.heap.phase ≠ .pause ∧ ∃ x, Event mu m x m' ∧ ∀ e, x = some e → ¬ e.request.Drops r e.answer

/-- What events lead to from a heap without objects. -/
def Arises (mu : Mutator σ) (config : Config) (hashOf : List UInt8 → Hash) (m : Machine σ) : Prop :=
  ∃ program h, Heap.withConfig config hashOf = .ok (.ok h) ∧ Relation.ReflTransGen (Happens mu) ⟨program, h⟩ m

/-- Marking has ended, and the cycle has not. -/
def IsReclaiming (m : Machine σ) : Prop :=
  m.heap.phase = .sweepStrings ∨ m.heap.phase = .sweep ∨ m.heap.phase = .finalize

/-- Events are steps of a run, except that any object may be freed. -/
theorem Event.cases {x : Option Exchange} (h : Event mu m x m') : Step mu Heap.anyResizing m m' ∨
    ∃ t size h, x = some ⟨.free t size, none⟩ ∧ m.heap.free t size = .ok h ∧ m' = { m with heap := h } := by
  cases h with
  | request hdone =>
    cases hdone with
    | alloc hfresh hrun => exact .inl (.operate (.alloc hfresh hrun))
    | intern hfresh hrun => exact .inl (.operate (.intern hfresh hrun))
    | realloc hlive hfresh hrun => exact .inl (.operate (.realloc hlive hfresh hrun fun _ _ => trivial))
    | free hrun => exact .inr ⟨_, _, _, rfl, hrun, rfl⟩
  | operate hop => exact .inl (.operate hop)
  | compute program => exact .inl (.compute program)
  | setThreshold threshold => exact .inl (.setThreshold threshold)
  | collect hp hrun => exact .inl (.collect hp hrun)
  | finalize hp htake => exact .inl (.finalize hp htake)
  | complete hp htake => exact .inl (.complete hp htake)

/-- Events keep a heap sound. -/
theorem Event.sound {x : Option Exchange} (hs : m.heap.Sound) (h : Event mu m x m') : m'.heap.Sound := by
  rcases h.cases with hstep | ⟨t, size, h, -, hrun, rfl⟩
  · exact (hstep.keeps hs).sound
  · exact hs.releases (Heap.free_eq_ok hs hrun).2

theorem Arises.sound (h : Arises mu config hashOf m) : m.heap.Sound := by
  obtain ⟨program, h₀, hh, hrun⟩ := h
  induction hrun with
  | refl => exact (Heap.sound_of_withConfig hh).1
  | tail _ hlast ih =>
    obtain ⟨x, hx⟩ := hlast
    exact hx.sound ih

/-- What an event leaves of an object that it does not drop: it outlives the pending sweep, it stays linked
if it is, and the cycle goes on to its end. -/
theorem Event.keeps {x : Option Exchange} (hs : m.heap.Sound) (hp : IsReclaiming m) (hr : m.heap.space.Survives r)
    (hspared : ∀ e, x = some e → ¬ e.request.Drops r e.answer) (h : Event mu m x m') :
    m'.heap.space.Survives r ∧ m.heap.Relinks m'.heap ∧ (IsReclaiming m' ∨ m'.heap.phase = .pause) := by
  have hidle : ¬ m.heap.phase.IsMarking := by
    rcases hp with hq | hq | hq <;> rw [hq] <;> decide
  have hsame : m'.heap.phase = m.heap.phase → IsReclaiming m' := fun heq => by
    rw [IsReclaiming, heq]
    exact hp
  have hlisted : ∀ t, (m.heap.space.slot t).pending → m.heap.space.Holds t :=
    fun t ht => hs.listed t (.inr (.inr ht))
  cases h with
  | request hdone =>
    refine ⟨hdone.survives hs hr (hspared _ rfl), ?_⟩
    rcases hdone.cases with hop | ⟨t, size, -, hrun⟩
    · exact ⟨hop.relinks hs, .inl (hsame (hop.keeps hs).1.phase)⟩
    · have hrel := (Heap.free_eq_ok hs hrun).2
      exact ⟨.releases hrel, .inl (hsame hrel.phase_eq)⟩
  | operate hop hlive =>
    have hheld := (hop.keeps hs).1.sound.isLive_iff.1 ((hlive r).trans (hs.isLive_iff.2 hr.holds))
    exact ⟨hop.survives hs hr hheld, hop.relinks hs, .inl (hsame (hop.keeps hs).1.phase)⟩
  | compute => exact ⟨hr, (Heap.Recalls.refl _).relinks hs, .inl (hsame rfl)⟩
  | setThreshold => exact ⟨hr, Heap.Recalls.relinks hs ⟨rfl, rfl, .of_slot rfl⟩, .inl (hsame rfl)⟩
  | collect hfinalize hrun =>
    cases singleStep_eq_ok hrun with
    | blocked => exact ⟨hr, (Heap.Recalls.refl _).relinks hs, .inl hp⟩
    | started hq => rcases hp with hp | hp | hp <;> rw [hp] at hq <;> cases hq
    | propagated hq => exact absurd (.inl hq) hidle
    | finished hq => exact absurd (.inr hq) hidle
    | sweptStrings _ hstep =>
      rw [Heap.sweepStringsStep_eq_ok hstep]
      refine ⟨hr, hs.relinks_sweptStrings, .inl ?_⟩
      rw [IsReclaiming, Heap.phase, hs.cycle_sweptStrings]
      split
      · exact .inr (.inl rfl)
      · exact hp
    | swept hsweep hstep =>
      obtain ⟨_, _, hstep', hsweeps⟩ := Heap.sweepStep_spec hs hsweep
      rw [hstep] at hstep'
      cases hstep'
      refine ⟨?_, hsweeps.recalls.relinks hs, .inl ?_⟩
      · cases hsweeps with
        | swept hsweeps _ => exact hsweeps.survives.2 hr
        | finished => exact hr
      · cases hsweeps with
        | swept => exact hp
        | finished => exact .inr (.inr rfl)
    | finalized hq => exact absurd hq hfinalize
  | finalize hfinalize htake =>
    obtain ⟨_, _, htake', hspec⟩ := Space.takePendingFinalizer_spec hs.wf hlisted
    rw [htake] at htake'
    cases htake'
    exact ⟨(hspec.2.survives_taken r).2 hr, Heap.Recalls.relinks hs ⟨rfl, rfl, .taken hspec.2⟩, .inl hp⟩
  | complete hfinalize htake =>
    obtain ⟨_, _, htake', hspec⟩ := Space.takePendingFinalizer_spec hs.wf hlisted
    rw [htake] at htake'
    cases htake'
    obtain ⟨rfl, -⟩ := hspec
    have hslot := (hs.enterPause hfinalize).2.slot
    refine ⟨?_, Heap.Recalls.relinks hs ⟨rfl, rfl, .of_slot hslot⟩, .inr rfl⟩
    obtain ⟨e, he, hsurvives⟩ := hr
    exact ⟨e, (congrFun hslot r).symm ▸ he, hsurvives⟩

/-- Until the cycle ends, what outlives the pending sweep stays if no request drops it, and what is linked
stays linked. -/
theorem Spares.keeps (hs : m.heap.Sound) (hp : IsReclaiming m) (hr : m.heap.space.Survives r)
    (hrun : Relation.ReflTransGen (Spares mu r) m m') : m'.heap.Sound ∧ m'.heap.space.Survives r ∧
      (IsReclaiming m' ∨ m'.heap.phase = .pause) ∧ ∀ {bytes}, m.heap.Names bytes r → m'.heap.Names bytes r := by
  induction hrun with
  | refl => exact ⟨hs, hr, .inl hp, id⟩
  | tail _ hlast ih =>
    obtain ⟨hs', hr', hp', hnames⟩ := ih
    obtain ⟨hpause, x, hevent, hspared⟩ := hlast
    obtain ⟨hr'', hrelinks, hphase⟩ := hevent.keeps hs' (hp'.resolve_right hpause) hr' hspared
    exact ⟨hevent.sound hs', hr'', hphase, fun hlinked => hrelinks.kept (hnames hlinked) hr''⟩

/-! ## Calls of the collector -/

/-- The finalizers of a program do nothing but what is an event. -/
def FinalizersAsk (mu : Mutator σ) (config : Config) (hashOf : List UInt8 → Hash) : Prop :=
  ∀ ⦃program program' : σ⦄ ⦃h h' : Heap⦄ ⦃r : Ref⦄ ⦃result : Except String Unit⦄,
    Arises mu config hashOf ⟨program, h⟩ → mu.runFinalizer program h r = .ok (result, program', h') →
    Relation.ReflTransGen (Happens mu) ⟨program, h⟩ ⟨program', h'⟩

/-- A call of the collector that returns. -/
inductive Collection (mu : Mutator σ) (m : Machine σ) : Machine σ → Prop where
  | singleStep {result : Except CollectError Nat} {m' : Machine σ} :
      m.singleStep mu = .ok (result, m') → Collection mu m m'
  | step {fuel : Nat} {result : Except CollectError Nat} {m' : Machine σ} :
      m.step mu fuel = .ok (result, m') → Collection mu m m'
  | checkStep {fuel : Nat} {result : Except CollectError Bool} {m' : Machine σ} :
      m.checkStep mu fuel = .ok (result, m') → Collection mu m m'
  | fullCollect {fuel : Nat} {result : Except CollectError Unit} {m' : Machine σ} :
      m.fullCollect mu fuel = .ok (result, m') → Collection mu m m'

theorem Arises.happens (hm : Arises mu config hashOf m) (hrun : Relation.ReflTransGen (Happens mu) m m') :
    Arises mu config hashOf m' := by
  obtain ⟨program, h, hh, hrun₀⟩ := hm
  exact ⟨program, h, hh, hrun₀.trans hrun⟩

/-- A call of the collector is a sequence of events. -/
theorem Collection.happens (hmu : FinalizersAsk mu config hashOf) (hm : Arises mu config hashOf m)
    (hcall : Collection mu m m') : Relation.ReflTransGen (Happens mu) m m' := by
  have hkept : Kept mu (Relation.ReflTransGen (Happens mu) m) :=
    { collect := fun hm' hp hrun => hm'.tail ⟨_, .collect hp hrun⟩
      finalize := fun {m₁ r s result program h} hm' hp htake hrun => by
        have hbegun := ((hm'.tail ⟨_, .finalize hp htake⟩).tail
          ⟨_, .compute (mu.suspendHooks m₁.program true)⟩).tail ⟨_, .setThreshold maxWord⟩
        have hdone := hbegun.trans (hmu (hm.happens hbegun) hrun)
        exact (hdone.tail ⟨_, .compute (mu.suspendHooks program false)⟩).tail
          ⟨_, .setThreshold m₁.heap.cycle.threshold⟩
      complete := fun hm' hp htake => hm'.tail ⟨_, .complete hp htake⟩
      setThreshold := fun threshold hm' => hm'.tail ⟨_, .setThreshold threshold⟩ }
  cases hcall with
  | singleStep hrun => exact hkept.stepwise.singleStep .refl hrun
  | step hrun => exact hkept.stepwise.step .refl hrun
  | checkStep hrun => exact hkept.stepwise.checkStep .refl hrun
  | fullCollect hrun => exact hkept.stepwise.fullCollect .refl hrun

/-- Whatever is handed out after marking has ended stays allocated, and a string linked, through all that
happens until the cycle ends, unless a request frees it or moves it. Calls of the collector are among what
happens. -/
theorem handed_out_objects_stay (hm : Arises mu config hashOf m) (hp : IsReclaiming m) :
    (∀ (q : Request) (r : Ref) (h : Heap) (m' : Machine σ), q.Done m.heap (some r) h →
      Relation.ReflTransGen (Spares mu r) { m with heap := h } m' →
      m'.heap.isLive r = true ∧
        ∀ supply bytes, q = .intern supply bytes → m'.heap.Linked r ∧ m'.heap.text r = .ok bytes) ∧
    (FinalizersAsk mu config hashOf → ∀ m', Collection mu m m' → Relation.ReflTransGen (Happens mu) m m') := by
  refine ⟨fun q r h m' hdone hrun => ?_, fun hmu m' hcall => hcall.happens hmu hm⟩
  have hevent : Event mu m (some ⟨q, some r⟩) { m with heap := h } := .request hdone
  have hphase : IsReclaiming { m with heap := h } := by
    have hsame : h.phase = m.heap.phase := by
      rcases hdone.cases with hop | ⟨t, size, -, hfree⟩
      · exact (hop.keeps hm.sound).1.phase
      · exact (Heap.free_eq_ok hm.sound hfree).2.phase_eq
    rw [IsReclaiming, hsame]
    exact hp
  obtain ⟨hs, hr, -, hnames⟩ := Spares.keeps (hevent.sound hm.sound) hphase (hdone.answers hm.sound) hrun
  refine ⟨hs.isLive_iff.2 hr.holds, ?_⟩
  rintro supply bytes rfl
  have hlinked := hdone.names hm.sound
  exact ⟨hs.linked_iff.2 ⟨bytes, hnames hlinked⟩, hs.text_of_names (hnames hlinked)⟩

/-- Whatever drops nothing happens. -/
theorem Spares.happens (h : Relation.ReflTransGen (Spares mu r) m m') : Relation.ReflTransGen (Happens mu) m m' :=
  Relation.ReflTransGen.mono (fun _ _ ⟨_, x, hevent, _⟩ => ⟨x, hevent⟩) _ _ h

/-- Single steps until the cycle ends drop nothing. -/
theorem Spares.trail {l : List (Machine σ)} {n : Nat} (h : m.trail mu n = .ok l)
    (hp : ∀ x ∈ m :: l, x.heap.phase ≠ .pause) : Relation.ReflTransGen (Spares mu r) m (l.headD m) := by
  induction n generalizing l with
  | zero =>
    cases h
    exact .refl
  | succ n ih =>
    rw [Machine.trail] at h
    obtain ⟨l', hl', h⟩ := bind_eq_ok_iff.1 h
    dsimp only at h
    split at h
    · cases h
      exact ih hl' hp
    · next hphase =>
      obtain ⟨⟨result, next⟩, hrun, h⟩ := bind_eq_ok_iff.1 h
      cases h
      have hp' : ∀ x ∈ m :: l', x.heap.phase ≠ .pause := fun x hx => hp x (by
        rcases List.mem_cons.1 hx with rfl | hx
        · exact List.mem_cons_self
        · exact List.mem_cons_of_mem _ (List.mem_cons_of_mem _ hx))
      have hlast : l'.headD m ∈ m :: l' := by
        cases l' with
        | nil => exact List.mem_cons_self
        | cons => exact List.mem_cons_of_mem _ List.mem_cons_self
      exact (ih hl' hp').tail ⟨hp' _ hlast, none, .collect hphase hrun, fun _ hx => by cases hx⟩

/-- Placing an object is a request. -/
theorem Arises.withBlock {program : σ} {h : Heap} (p : Page) (kind : Kind)
    (hm : Arises mu config hashOf ⟨program, h⟩) (hfresh : (Supply.page p).Fresh h.space 0)
    (hok : (h.alloc (.page p) kind cellBytes).isOk = true) (hfst : (answerOf _ hok).1 = .ok (.huge p)) :
    Arises mu config hashOf ⟨program, h.withBlock p kind⟩ :=
  hm.happens (.single ⟨_, .request (.alloc hfresh (Heap.alloc_withBlock hok hfst))⟩)

/-- A string that is interned after marking has ended is there and linked after the cycle, although
nothing refers to it. -/
theorem unreferred_string_stays : ∃ (m m' : Machine Ledger) (h : Heap),
    Arises Ledger.mutator Ledger.blocksOnly (fun _ => 0) m ∧ m.heap.phase = .sweepStrings ∧
      (Request.intern (.page 9) [97]).Done m.heap (some (.huge 9)) h ∧
      Relation.ReflTransGen (Spares Ledger.mutator (.huge 9)) { m with heap := h } m' ∧
      m'.heap.phase = .pause ∧ m'.program.roots = [.huge 5] ∧ m'.heap.isLive (.huge 9) = true ∧
      m'.heap.Linked (.huge 9) := by
  have h₀ : Arises Ledger.mutator Ledger.blocksOnly (fun _ => 0) ⟨{}, Ledger.emptyHeap⟩ :=
    ⟨{}, Ledger.emptyHeap, rfl, .refl⟩
  have h₅ := h₀.withBlock 5 .table (Supply.page_fresh (by decide) rfl (by decide +kernel) 0) (by decide +kernel)
    (by decide +kernel)
  let start : Machine Ledger := ⟨{ roots := [.huge 5] }, Ledger.emptyHeap.withBlock 5 .table⟩
  let first := answerOf (start.singleStep Ledger.mutator) (by decide +kernel)
  have hfirst : start.singleStep Ledger.mutator = .ok first := eq_answerOf _
  let trail := answerOf (first.2.trail Ledger.mutator 3) (by decide +kernel)
  let m := trail.headD first.2
  have htrail : Relation.ReflTransGen (Spares Ledger.mutator (.huge 9)) first.2 m :=
    Spares.trail (eq_answerOf _) (by decide +kernel)
  have hm : Arises Ledger.mutator Ledger.blocksOnly (fun _ => 0) m := by
    have hstart := h₅.happens (.single ⟨_, .compute start.program⟩)
    have hbegun := hstart.happens (.single ⟨_, .collect (by decide +kernel) hfirst⟩)
    exact hbegun.happens (Spares.happens htrail)
  let interned := answerOf (m.heap.intern (.page 9) [97]) (by decide +kernel)
  have hdone : (Request.intern (.page 9) [97]).Done m.heap (some (.huge 9)) interned.2 := by
    have hrun : m.heap.intern (.page 9) [97] = .ok (.ok (.huge 9), interned.2) :=
      eq_answerOf_of_fst (by decide +kernel) (by decide +kernel)
    exact .intern (Supply.page_fresh (by decide) (by decide +kernel) (by decide +kernel) 0) hrun
  let next : Machine Ledger := { m with heap := interned.2 }
  let rest := answerOf (next.trail Ledger.mutator 8) (by decide +kernel)
  let last := rest.headD next
  let taken := answerOf last.heap.space.takePendingFinalizer (by decide +kernel)
  have htaken : last.heap.space.takePendingFinalizer = .ok (none, taken.2) :=
    eq_answerOf_of_fst (by decide +kernel) (by decide +kernel)
  have hrest : Relation.ReflTransGen (Spares Ledger.mutator (.huge 9)) next last :=
    Spares.trail (eq_answerOf _) (by decide +kernel)
  have hrun : Relation.ReflTransGen (Spares Ledger.mutator (.huge 9)) next (last.ended taken.2) :=
    hrest.tail ⟨by decide +kernel, none, .complete (by decide +kernel) htaken, fun _ hx => by cases hx⟩
  obtain ⟨hlive, hlinked⟩ := (handed_out_objects_stay hm (.inl (by decide +kernel))).1 _ _ _ _ hdone hrun
  exact ⟨m, _, _, hm, by decide +kernel, hdone, hrun, by decide +kernel, by decide +kernel, hlive,
    (hlinked _ _ rfl).1⟩

end Machine

end Tricolor
