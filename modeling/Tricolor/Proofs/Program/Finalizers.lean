import Tricolor.Proofs.Program.Registrations

/-!
# Finalizers

What happens to an object that is registered for finalization is a `Change`: the atomic step selects
it or declines it, its finalizer is called, or it is freed. `Tells` says of what change a step tells,
and a `Story` has the changes of a whole run.

An object stands with the finalizers in one of three ways, and each change leads from one `Standing`
to another. So what follows a registration is one of a few courses, in which the finalizer is called
once at most.
-/

namespace Tricolor

/-- How an object stands with the finalizers. -/
inductive Standing where
  /-- it is not registered -/
  | out
  /-- it is registered, and waits to become unreachable -/
  | waiting
  /-- its finalizer is due -/
  | due
  deriving DecidableEq

/-- What may happen to an object that is registered for finalization. -/
inductive Change where
  /-- it is registered, which it was not before -/
  | registered
  /-- the atomic step finds it unmarked, and the program wants its finalizer to run -/
  | selected
  /-- the atomic step finds it unmarked, and the program wants nothing of it any more -/
  | declined
  /-- its finalizer is called -/
  | called
  /-- it is freed while it is registered -/
  | freed
  deriving DecidableEq

namespace Change

variable {x : Change} {story after course before : List Change} {st st' : Standing}

/-- Where a change leads from a standing, if it may happen there. -/
def next : Change → Standing → Option Standing
  | .registered, .out => some .waiting
  | .selected, .waiting => some .due
  | .declined, .waiting => some .out
  | .called, .due => some .out
  | .freed, .waiting => some .out
  | .freed, .due => some .out
  | _, _ => none

/-- Where some changes lead, of which the latest one comes first. -/
def through (story : List Change) (st : Standing) : Option Standing := story.foldrM next st

/-- What may follow a registration before the next one, the latest change first. -/
def courses : List (List Change) :=
  [[], [.declined], [.freed], [.selected], [.called, .selected], [.freed, .selected]]

theorem through_cons : through (x :: story) st = some st' ↔
    ∃ mid, through story st = some mid ∧ x.next mid = some st' := by
  rw [through, List.foldrM_cons]
  exact Option.bind_eq_some_iff

theorem through_append : through (after ++ before) st = some st' ↔
    ∃ mid, through before st = some mid ∧ through after mid = some st' := by
  rw [through, List.foldrM_append]
  exact Option.bind_eq_some_iff

theorem next_registered (h : next .registered st = some st') : st = .out ∧ st' = .waiting := by
  cases st <;> cases h
  exact ⟨rfl, rfl⟩

theorem next_selected (h : next .selected st = some st') : st = .waiting ∧ st' = .due := by
  cases st <;> cases h
  exact ⟨rfl, rfl⟩

/-- A registration takes one of the courses. -/
theorem mem_courses (h : through course .waiting = some st) (hcourse : .registered ∉ course) :
    course ∈ courses := by
  induction course generalizing st with
  | nil => exact List.mem_cons_self
  | cons x course ih =>
    obtain ⟨mid, hmid, hx⟩ := through_cons.1 h
    rw [List.mem_cons, not_or] at hcourse
    have hmem := ih hmid hcourse.2
    simp only [courses, List.mem_cons, List.not_mem_nil, or_false] at hmem
    -- each of the courses is over, or goes on with what leads to another one
    rcases hmem with rfl | rfl | rfl | rfl | rfl | rfl <;> obtain rfl := Option.some.inj hmid <;>
      cases x <;> cases hx <;> first | exact absurd rfl hcourse.1 | decide

/-- Between a registration and the next one is one of the courses. -/
theorem course_of_split (h : through (after ++ course ++ .registered :: before) .out = some st)
    (hcourse : .registered ∉ course) : course ∈ courses := by
  rw [List.append_assoc] at h
  obtain ⟨mid, hmid, -⟩ := through_append.1 h
  obtain ⟨mid', hmid', hcourse'⟩ := through_append.1 hmid
  obtain ⟨start, -, hnext⟩ := through_cons.1 hmid'
  obtain ⟨-, rfl⟩ := next_registered hnext
  exact mem_courses hcourse' hcourse

/-- The first thing that happens to an object that is not registered is that it is registered. -/
theorem first_of_out (h : through (after ++ [x]) .out = some st) : x = .registered := by
  obtain ⟨mid, hmid, -⟩ := through_append.1 h
  obtain ⟨start, hstart, hnext⟩ := through_cons.1 hmid
  cases hstart
  cases x <;> first | rfl | cases hnext

/-- If a finalizer is not due any more, then the first thing that happened is that it was called, or that
its object was freed. -/
theorem first_of_due (h : through story .due = some st) (hst : st ≠ .due) :
    ∃ after x, story = after ++ [x] ∧ (x = .called ∨ x = .freed) := by
  rcases List.eq_nil_or_concat story with rfl | ⟨after, x, rfl⟩
  · cases h
    exact absurd rfl hst
  · rw [List.concat_eq_append] at h ⊢
    obtain ⟨mid, hmid, -⟩ := through_append.1 h
    obtain ⟨start, hstart, hnext⟩ := through_cons.1 hmid
    cases hstart
    refine ⟨after, x, rfl, ?_⟩
    cases x <;> first | exact .inl rfl | exact .inr rfl | cases hnext

/-- Only a selection makes a finalizer due. -/
theorem selected_of_due (h : through story st = some .due) (hstory : .selected ∉ story) :
    story = [] ∧ st = .due := by
  cases story with
  | nil => exact ⟨rfl, Option.some.inj h⟩
  | cons x story =>
    obtain ⟨mid, -, hnext⟩ := through_cons.1 h
    rw [List.mem_cons, not_or] at hstory
    have hx : x = .selected := by
      cases x <;> cases mid <;> first | rfl | cases hnext
    exact absurd hx.symm hstory.1

/-- The same of an object that was selected. -/
theorem after_selected (h : through (after ++ .selected :: before) .out = some st) (hst : st ≠ .due) :
    ∃ later x, after = later ++ [x] ∧ (x = .called ∨ x = .freed) := by
  obtain ⟨mid, hmid, hafter⟩ := through_append.1 h
  obtain ⟨start, -, hnext⟩ := through_cons.1 hmid
  obtain ⟨-, rfl⟩ := next_selected hnext
  exact first_of_due hafter hst

end Change

namespace Slot

variable {v v' : Slot} {st st' : Standing} {isFinalizable : Bool}

/-- How the object at a place stands with the finalizers. -/
def Stands (v : Slot) : Standing → Prop
  | .out => ¬ v.idle ∧ ¬ v.pending
  | .waiting => v.idle ∧ ¬ v.pending
  | .due => ¬ v.idle ∧ v.pending

theorem Stands.congr (h : v.Stands st) (hidle : v'.idle = v.idle) (hpending : v'.pending = v.pending) :
    v'.Stands st := by
  cases st <;> rw [Stands, hidle, hpending] <;> exact h

theorem Stands.eq_due (h : v.Stands st) (hpending : v.pending) : st = .due := by
  cases st with
  | out | waiting => exact absurd hpending h.2
  | due => rfl

theorem Stands.eq_waiting (h : v.Stands st) (hidle : v.idle) : st = .waiting := by
  cases st with
  | waiting => rfl
  | out | due => exact absurd hidle h.1

theorem Stands.eq_out (h : v.Stands st) (hnot : ¬ (v.idle ∨ v.pending)) : st = .out := by
  cases st with
  | out => rfl
  | waiting => exact absurd (.inl h.1) hnot
  | due => exact absurd (.inr h.2) hnot

end Slot

namespace Stage

variable {σ : Type} {mu : Mutator σ} {config : Config} {hashOf : List UInt8 → Hash} {c c₀ d e : Stage σ}
  {m : Machine σ} {r t : Ref} {x? : Option Change} {x : Change} {told told' : List Change} {st : Standing}

/-- Of what change to the registration of an object a step tells, if of any. -/
inductive Tells (mu : Mutator σ) (r : Ref) (c : Stage σ) : Option Change → Stage σ → Prop where
  | act {d : Stage σ} : Act mu c d → (d.Registered r ↔ c.Registered r) → Tells mu r c none d
  | registers {d : Stage σ} : Act mu c d → c.heap.registerFinalizer r = .ok d.heap → ¬ c.Registered r →
      Tells mu r c (some .registered) d
  | frees {size : Nat} {d : Stage σ} : Act mu c d → c.heap.free r size = .ok d.heap → c.Registered r →
      Tells mu r c (some .freed) d
  | setThreshold (threshold : Nat) :
      Tells mu r c none ⟨⟨c.machine.program, c.heap.setThreshold threshold⟩, c.hands⟩
  | collects {result : Except CollectError Nat} {m : Machine σ} : c.heap.phase ≠ .finalize →
      (c.heap.phase = .atomic → c.machine.isBlocked = true) → c.machine.singleStep mu = .ok (result, m) →
      Tells mu r c none ⟨m, nothing⟩
  /-- the atomic step does not find the object unmarked and registered -/
  | passes {result : Except CollectError Nat} {m marked : Machine σ} : c.heap.phase = .atomic →
      c.machine.isBlocked = false → c.machine.singleStep mu = .ok (result, m) →
      Machine.Found mu c.machine marked → ¬ (marked.heap.space.slot r).Unreached →
      Tells mu r c none ⟨m, nothing⟩
  | selects {result : Except CollectError Nat} {m marked : Machine σ} : c.heap.phase = .atomic →
      c.machine.isBlocked = false → c.machine.singleStep mu = .ok (result, m) →
      Machine.Found mu c.machine marked → (marked.heap.space.slot r).Unreached →
      mu.isFinalizable marked.program r = true → Tells mu r c (some .selected) ⟨m, nothing⟩
  | declines {result : Except CollectError Nat} {m marked : Machine σ} : c.heap.phase = .atomic →
      c.machine.isBlocked = false → c.machine.singleStep mu = .ok (result, m) →
      Machine.Found mu c.machine marked → (marked.heap.space.slot r).Unreached →
      mu.isFinalizable marked.program r = false → Tells mu r c (some .declined) ⟨m, nothing⟩
  | calls {s : Space} : c.heap.phase = .finalize → c.space.takePendingFinalizer = .ok (some r, s) →
      Tells mu r c (some .called) ⟨⟨c.machine.program, { c.heap with space := s }⟩, (· = r)⟩
  /-- the finalizer of another object is called -/
  | callsOther {t : Ref} {s : Space} : t ≠ r → c.heap.phase = .finalize →
      c.space.takePendingFinalizer = .ok (some t, s) →
      Tells mu r c none ⟨⟨c.machine.program, { c.heap with space := s }⟩, (· = t)⟩
  | completes {s : Space} : c.heap.phase = .finalize → c.space.takePendingFinalizer = .ok (none, s) →
      Tells mu r c none ⟨⟨c.machine.program, Heap.enterPause { c.heap with space := s }⟩, nothing⟩

/-- The changes of a run to the registration of an object, the latest one first. -/
inductive Story (mu : Mutator σ) (r : Ref) (c : Stage σ) : List Change → Stage σ → Prop where
  | refl : Story mu r c [] c
  | silent {story : List Change} {d e : Stage σ} : Story mu r c story d → Tells mu r d none e →
      Story mu r c story e
  | told {story : List Change} {x : Change} {d e : Stage σ} : Story mu r c story d →
      Tells mu r d (some x) e → Story mu r c (x :: story) e

theorem Tells.step (h : Tells mu r c x? d) : Step mu c d := by
  cases h with
  | act hact | registers hact | frees hact => exact .act hact
  | setThreshold threshold => exact .setThreshold threshold
  | collects hp _ hrun => exact .collect hp hrun
  | passes hp _ hrun | selects hp _ hrun | declines hp _ hrun =>
    exact .collect (fun heq => absurd (hp.symm.trans heq) Phase.noConfusion) hrun
  | calls hp htake | callsOther _ hp htake => exact .finalize hp htake
  | completes hp htake => exact .complete hp htake

theorem Story.next (h : Story mu r c told d) (hstep : Tells mu r d x? e) :
    Story mu r c (x?.toList ++ told) e := by
  cases x? with
  | none => exact h.silent hstep
  | some x => exact h.told hstep

theorem Story.trans (h : Story mu r c told d) (h' : Story mu r d told' e) :
    Story mu r c (told' ++ told) e := by
  induction h' with
  | refl => exact h
  | silent _ hstep ih => exact ih.silent hstep
  | told _ hstep ih => exact ih.told hstep

theorem Story.passes (h : Story mu r c told d) : ∃ l, Passes mu c l d := by
  induction h with
  | refl => exact ⟨[], .refl⟩
  | silent _ hstep ih | told _ hstep ih =>
    obtain ⟨l, hrun⟩ := ih
    exact ⟨_, hrun.step hstep.step⟩

/-! ## Every run has its stories -/

theorem registered_congr (hidle : (d.space.slot r).idle = (c.space.slot r).idle)
    (hpending : (d.space.slot r).pending = (c.space.slot r).pending) : d.Registered r ↔ c.Registered r := by
  rw [Registered, Registered, hidle, hpending]

/-- What a program does tells that an object is registered or freed, or nothing. -/
theorem Act.tells (hs : c.heap.Sound) (hhands : ∀ t, c.hands t → c.space.Survives t) (hact : Act mu c d)
    (r : Ref) : ∃ x?, Tells mu r c x? d ∧ ∀ x ∈ x?, x = .registered ∨ x = .freed := by
  by_cases hsame : d.Registered r ↔ c.Registered r
  · exact ⟨none, .act hact hsame, fun x hx => by cases hx⟩
  · cases hact.lists hs hhands with
    | none hlists => exact absurd (registered_congr (hlists r).1 (hlists r).2) hsame
    | @registers t hrun =>
      obtain ⟨hkept, -, hother⟩ := registerFinalizer_lists hs hrun
      by_cases ht : r = t
      · subst ht
        by_cases hr : c.Registered r
        · exact absurd (registered_congr (hkept hr r).1 (hkept hr r).2) hsame
        · exact ⟨_, .registers hact hrun hr, fun x hx => .inl (Option.mem_some.1 hx).symm⟩
      · exact absurd (registered_congr (by rw [hother r ht]) (by rw [hother r ht])) hsame
    | @frees t size hrun =>
      obtain ⟨hgone, hother⟩ := free_lists hs hrun
      by_cases ht : r = t
      · subst ht
        have hr : c.Registered r := by_contra fun hr => hsame ⟨fun h => absurd h hgone, fun h => absurd h hr⟩
        exact ⟨_, .frees hact hrun hr, fun x hx => .inr (Option.mem_some.1 hx).symm⟩
      · exact absurd (registered_congr (by rw [hother r ht]) (by rw [hother r ht])) hsame

/-- The atomic step is carried out unless a trace is active. -/
theorem Valid.found (hmu : mu.Faithful) (hc : Valid mu config hashOf c) (hp : c.heap.phase = .atomic)
    (hfree : c.machine.isBlocked = false) {result : Except CollectError Nat}
    (hrun : c.machine.singleStep mu = .ok (result, m)) :
    ∃ f : Machine.Finish mu c.machine m, Machine.Found mu c.machine f.marked := by
  rw [Machine.singleStep, if_neg (by rw [hfree]; exact Bool.false_ne_true)] at hrun
  simp only [show c.machine.heap.phase = .atomic from hp] at hrun
  cases hatomic : c.machine.atomicStep mu with
  | error => rw [hatomic] at hrun; cases hrun
  | ok answer =>
    rw [hatomic] at hrun
    cases hrun
    exact Machine.finish_atomicStep hmu hc.sound hp hc.closed hatomic

/-- Each step tells of a change to an object, or of none. -/
theorem Valid.tells (hmu : mu.Faithful) (hc : Valid mu config hashOf c) (hstep : Step mu c d) (r : Ref) :
    ∃ x?, Tells mu r c x? d := by
  cases hstep with
  | act hact =>
    obtain ⟨x?, htells, -⟩ := hact.tells hc.sound hc.hands r
    exact ⟨x?, htells⟩
  | setThreshold threshold => exact ⟨_, .setThreshold threshold⟩
  | collect hp hrun =>
    by_cases hatomic : c.heap.phase = .atomic
    · cases hblocked : c.machine.isBlocked with
      | true => exact ⟨_, .collects hp (fun _ => hblocked) hrun⟩
      | false =>
        obtain ⟨f, hfound⟩ := hc.found hmu hatomic hblocked hrun
        by_cases hunreached : (f.marked.heap.space.slot r).Unreached
        · cases hanswer : mu.isFinalizable f.marked.program r with
          | true => exact ⟨_, .selects hatomic hblocked hrun hfound hunreached hanswer⟩
          | false => exact ⟨_, .declines hatomic hblocked hrun hfound hunreached hanswer⟩
        · exact ⟨_, .passes hatomic hblocked hrun hfound hunreached⟩
    · exact ⟨_, .collects hp (fun heq => absurd heq hatomic) hrun⟩
  | @finalize t s hp htake =>
    by_cases ht : t = r
    · subst ht
      exact ⟨_, .calls hp htake⟩
    · exact ⟨_, .callsOther ht hp htake⟩
  | complete hp htake => exact ⟨_, .completes hp htake⟩

/-- Every run tells a story about each object. -/
theorem Valid.story (hmu : mu.Faithful) (hc : Valid mu config hashOf c) {l : List (Stage σ)}
    (hrun : Passes mu c l d) (r : Ref) : ∃ told, Story mu r c told d := by
  induction hrun with
  | refl => exact ⟨[], .refl⟩
  | step hrun hlast ih =>
    obtain ⟨told, hstory⟩ := ih
    obtain ⟨x?, htells⟩ := (hc.passes hmu hrun).tells hmu hlast r
    exact ⟨_, hstory.next htells⟩

/-! ## What each change does -/

/-- In a heap without objects, none is registered. -/
theorem stands_initial (hc : Initial mu config hashOf c) (r : Ref) : (c.space.slot r).Stands .out := by
  obtain @⟨program, h, hh, -⟩ := hc
  have hblank : h.space.slot r = .blank := (Heap.sound_of_withConfig hh).2.2.2.2 r
  show (h.space.slot r).Stands .out
  rw [hblank]
  exact ⟨id, id⟩

/-- An object stands with the finalizers in one way. -/
theorem Valid.stands (hc : Valid mu config hashOf c) (r : Ref) : ∃ st, (c.space.slot r).Stands st := by
  by_cases hidle : (c.space.slot r).idle
  · exact ⟨.waiting, hidle, Space.idle_not_pending hc.sound.wf hidle⟩
  · by_cases hpending : (c.space.slot r).pending
    · exact ⟨.due, hidle, hpending⟩
    · exact ⟨.out, hidle, hpending⟩

/-- What the atomic step makes of an object that waits: nothing unless it is found unmarked. -/
theorem Valid.selects (hmu : mu.Faithful) (hc : Valid mu config hashOf c) (hp : c.heap.phase = .atomic)
    (hfree : c.machine.isBlocked = false) {result : Except CollectError Nat} {marked : Machine σ}
    (hrun : c.machine.singleStep mu = .ok (result, m)) (hfound : Machine.Found mu c.machine marked) :
    ∃ v, (marked.heap.space.slot r).Selected (mu.isFinalizable marked.program r) v ∧
      (m.heap.space.slot r).idle = v.idle ∧ (m.heap.space.slot r).pending = v.pending ∧
      (marked.heap.space.slot r).idle = (c.space.slot r).idle ∧
      (marked.heap.space.slot r).pending = (c.space.slot r).pending := by
  obtain ⟨f, hfound'⟩ := hc.found hmu hp hfree hrun
  obtain rfl := hfound'.unique hfound
  exact f.lists hc.sound (.inr hp) r

/-- A step that tells of nothing leaves an object as it stands. -/
theorem Tells.silent (hmu : mu.Faithful) (hc : Valid mu config hashOf c) (h : Tells mu r c none d) :
    (d.space.slot r).idle = (c.space.slot r).idle ∧ (d.space.slot r).pending = (c.space.slot r).pending := by
  generalize hx : (none : Option Change) = x? at h
  cases h with
  | registers | frees | selects | declines | calls => cases hx
  | act hact hsame =>
    cases hact.lists hc.sound hc.hands with
    | none hlists => exact hlists r
    | @registers t hrun =>
      obtain ⟨hkept, hnew, hother⟩ := registerFinalizer_lists hc.sound hrun
      by_cases ht : r = t
      · subst ht
        exact hkept (by_contra fun hr => hr (hsame.1 (.inl (hnew hr).1))) r
      · rw [hother r ht]
        exact ⟨rfl, rfl⟩
    | @frees t size hrun =>
      obtain ⟨hgone, hother⟩ := free_lists hc.sound hrun
      by_cases ht : r = t
      · subst ht
        have hnot : ¬ c.Registered r := fun hr => hgone (hsame.2 hr)
        rw [Registered, not_or] at hgone hnot
        exact ⟨propext (iff_of_false hgone.1 hnot.1), propext (iff_of_false hgone.2 hnot.2)⟩
      · rw [hother r ht]
        exact ⟨rfl, rfl⟩
  | setThreshold => exact ⟨rfl, rfl⟩
  | @collects result m hp hblocked hrun =>
    by_cases hatomic : c.heap.phase = .atomic
    · -- a step that is refused changes nothing
      rw [Machine.singleStep, if_pos (hblocked hatomic)] at hrun
      cases hrun
      exact ⟨rfl, rfl⟩
    · exact (Machine.collects_singleStep hmu hc.sound hp hc.closed hrun).lists hc.sound hatomic r
  | passes hp hfree hrun hfound hnot =>
    obtain ⟨v, hselected, hidle, hpending, hidle', hpending'⟩ := hc.selects hmu hp hfree hrun hfound
    rw [hselected.keep hnot] at hidle hpending
    exact ⟨hidle.trans hidle', hpending.trans hpending'⟩
  | callsOther hne hp htake =>
    have hslot := (hc.taken htake).2.slot_ne hne.symm
    exact ⟨congrArg Slot.idle hslot, congrArg Slot.pending hslot⟩
  | completes hp htake =>
    have hslot := congrFun (hc.completed hp htake).2.1 r
    exact ⟨congrArg Slot.idle hslot, congrArg Slot.pending hslot⟩

/-- A change leads from the standing before it to the one after it. -/
theorem Tells.stands (hmu : mu.Faithful) (hc : Valid mu config hashOf c) (h : Tells mu r c (some x) d)
    (hst : (c.space.slot r).Stands st) : ∃ st', x.next st = some st' ∧ (d.space.slot r).Stands st' := by
  generalize hx : some x = x? at h
  cases h with
  | act | setThreshold | collects | passes | callsOther | completes => cases hx
  | registers _ hrun hnot =>
    cases hx
    obtain rfl := hst.eq_out hnot
    exact ⟨.waiting, rfl, (registerFinalizer_lists hc.sound hrun).2.1 hnot⟩
  | frees _ hrun hr =>
    cases hx
    have hgone := (free_lists hc.sound hrun).1
    rw [Registered, not_or] at hgone
    refine ⟨.out, ?_, hgone⟩
    rcases hr with hidle | hpending
    · rw [hst.eq_waiting hidle]
      rfl
    · rw [hst.eq_due hpending]
      rfl
  | selects hp hfree hrun hfound hunreached hanswer =>
    cases hx
    obtain ⟨v, hselected, hidle, hpending, hidle', hpending'⟩ := hc.selects hmu hp hfree hrun hfound
    obtain rfl := hst.eq_waiting (hidle' ▸ hunreached.1)
    have hv : v.Stands .due := by
      rw [hselected.doom hunreached hanswer]
      exact ⟨id, trivial⟩
    exact ⟨.due, rfl, hv.congr hidle hpending⟩
  | declines hp hfree hrun hfound hunreached hanswer =>
    cases hx
    obtain ⟨v, hselected, hidle, hpending, hidle', hpending'⟩ := hc.selects hmu hp hfree hrun hfound
    obtain rfl := hst.eq_waiting (hidle' ▸ hunreached.1)
    have hv : v.Stands .out := by
      rw [hselected.forget hunreached hanswer]
      exact ⟨id, fun h => hst.2 (hpending' ▸ h)⟩
    exact ⟨.out, rfl, hv.congr hidle hpending⟩
  | @calls s _ htake =>
    cases hx
    obtain ⟨hpending, hrev⟩ := hc.taken htake
    obtain rfl := hst.eq_due hpending
    have hslot : s.slot r = (c.space.slot r).taken := hrev.slot_self
    have htaken : (c.space.slot r).taken.Stands .out := ⟨hst.1, id⟩
    exact ⟨.out, rfl, hslot ▸ htaken⟩

/-- The changes of a run lead from the standing before it to the one after it. -/
theorem Story.stands (hmu : mu.Faithful) (hc : Valid mu config hashOf c) (h : Story mu r c told d)
    (hst : (c.space.slot r).Stands st) :
    ∃ st', Change.through told st = some st' ∧ (d.space.slot r).Stands st' := by
  induction h with
  | refl => exact ⟨st, rfl, hst⟩
  | silent h hstep ih =>
    obtain ⟨st', hthrough, hst'⟩ := ih
    obtain ⟨l, hrun⟩ := h.passes
    obtain ⟨hidle, hpending⟩ := hstep.silent hmu (hc.passes hmu hrun)
    exact ⟨st', hthrough, hst'.congr hidle hpending⟩
  | told h hstep ih =>
    obtain ⟨mid, hthrough, hmid⟩ := ih
    obtain ⟨l, hrun⟩ := h.passes
    obtain ⟨st', hnext, hst'⟩ := hstep.stands hmu (hc.passes hmu hrun) hmid
    exact ⟨st', Change.through_cons.2 ⟨mid, hthrough, hnext⟩, hst'⟩

/-- When no cycle is in progress, no finalizer is due. -/
theorem Valid.not_due (hc : Valid mu config hashOf c) (hp : c.heap.phase = .pause)
    (hst : (c.space.slot r).Stands st) : st ≠ .due := by
  rintro rfl
  exact hc.undue (.inl hp) r hst.2

/-! ## Finalizers that fail -/

/-- A program whose answers are faithful, and whose finalizers do what a program may do. -/
structure Mannered (mu : Mutator σ) (config : Config) (hashOf : List UInt8 → Hash) : Prop
    extends mu.Faithful where
  finalizers : ∀ {program program' : σ} {h h' : Heap} {r : Ref} {result : Except String Unit},
    Reachable mu config hashOf ⟨⟨program, h⟩, (· = r)⟩ →
    mu.runFinalizer program h r = .ok (result, program', h') →
    ∃ hands, Relation.ReflTransGen (Act mu) ⟨⟨program, h⟩, (· = r)⟩ ⟨⟨program', h'⟩, hands⟩

/-- What a program does is a run in which objects are registered and freed at most. -/
theorem Valid.acts (hmu : mu.Faithful) (hc : Valid mu config hashOf c)
    (hacts : Relation.ReflTransGen (Act mu) c d) : (∃ l, Passes mu c l d) ∧ d.heap.phase = c.heap.phase ∧
      ∀ r, ∃ told, Story mu r c told d ∧ ∀ x ∈ told, x = .registered ∨ x = .freed := by
  induction hacts with
  | refl => exact ⟨⟨[], .refl⟩, rfl, fun r => ⟨[], .refl, fun x hx => absurd hx List.not_mem_nil⟩⟩
  | tail _ hact ih =>
    obtain ⟨⟨l, hrun⟩, hphase, hstories⟩ := ih
    have hd := hc.passes hmu hrun
    obtain ⟨used, fresh, gone, stored, heffect⟩ := hact.effect hd.sound hd.hands
    refine ⟨⟨_, hrun.step (.act hact)⟩, heffect.alters.phase.trans hphase, fun r => ?_⟩
    obtain ⟨told, hstory, hall⟩ := hstories r
    obtain ⟨x?, htells, hx⟩ := hact.tells hd.sound hd.hands r
    refine ⟨_, hstory.next htells, fun x hmem => ?_⟩
    rcases List.mem_append.1 hmem with hmem | hmem
    · exact hx x (Option.mem_toList.1 hmem)
    · exact hall x hmem

/-- A program whose finalizers do what a program may do is orderly. -/
theorem Mannered.orderly (hmu : Mannered mu config hashOf) : Orderly mu config hashOf :=
  { hmu.toFaithful with
    finalizers := fun hc hrun => by
      obtain ⟨hands, hacts⟩ := hmu.finalizers hc hrun
      obtain ⟨⟨l, hpasses⟩, -⟩ := (hc.valid hmu.toFaithful).acts hmu.toFaithful hacts
      exact ⟨l, hands, hpasses⟩ }

/-- What a step answers that has run a finalizer. -/
def outcome : Except String Unit → Except CollectError Nat
  | .ok () => .ok finalizeCost
  | .error cause => .error (.finalizer cause)

/-- The step that runs a finalizer, with the hooks suspended and the collector held off meanwhile. -/
theorem singleStep_finalize {s : Space} {result : Except String Unit} {program : σ} {h : Heap}
    (hp : m.heap.phase = .finalize) (hfree : m.isBlocked = false)
    (htake : m.heap.space.takePendingFinalizer = .ok (some r, s))
    (hrun : mu.runFinalizer (mu.suspendHooks m.program true) (Heap.setThreshold { m.heap with space := s } maxWord)
      r = .ok (result, program, h)) :
    m.singleStep mu = .ok (outcome result,
      ⟨mu.suspendHooks program false, h.setThreshold m.heap.cycle.threshold⟩) := by
  rw [Machine.singleStep_of_finalize hfree hp]
  refine bind_eq_ok_iff.2 ⟨_, htake, bind_eq_ok_iff.2 ⟨_, hrun, ?_⟩⟩
  cases result <;> rfl

section
variable {s : Space} {result : Except String Unit} {program : σ} {h : Heap}

/-- A call of a finalizer is a run in which, after the call, objects are registered and freed at most. -/
theorem Mannered.runs (hmu : Mannered mu config hashOf) (hc : Reachable mu config hashOf c)
    (hp : c.heap.phase = .finalize) (htake : c.space.takePendingFinalizer = .ok (some r, s))
    (hrun : mu.runFinalizer (mu.suspendHooks c.machine.program true)
      (Heap.setThreshold { c.heap with space := s } maxWord) r = .ok (result, program, h)) :
    h.phase = .finalize ∧ ∀ t x?, Tells mu t c x? ⟨⟨c.machine.program, { c.heap with space := s }⟩, (· = r)⟩ →
      ∃ told, Story mu t c (told ++ x?.toList)
          ⟨⟨mu.suspendHooks program false, h.setThreshold c.heap.cycle.threshold⟩, nothing⟩ ∧
        ∀ x ∈ told, x = .registered ∨ x = .freed := by
  let called : Stage σ := ⟨⟨mu.suspendHooks c.machine.program true,
    Heap.setThreshold { c.heap with space := s } maxWord⟩, (· = r)⟩
  -- the object is taken, and the hooks and the threshold are set
  have hbegin : ∀ {t x?}, Tells mu t c x? ⟨⟨c.machine.program, { c.heap with space := s }⟩, (· = r)⟩ →
      Story mu t c x?.toList called := by
    intro t x? htells
    have hstory := ((Story.refl.next htells).silent (.act (.compute (follows_of_eq
      (hmu.suspendHooks c.machine.program true))) Iff.rfl)).silent (.setThreshold maxWord)
    rwa [List.append_nil] at hstory
  obtain ⟨l, hpasses⟩ := (hbegin (.calls hp htake)).passes
  have hcalled := hc.passes hpasses
  obtain ⟨hands, hacts⟩ := hmu.finalizers hcalled hrun
  obtain ⟨-, hphase, hstories⟩ := (hcalled.valid hmu.toFaithful).acts hmu.toFaithful hacts
  refine ⟨hphase.trans hp, fun t x? htells => ?_⟩
  obtain ⟨told, hstory, hall⟩ := hstories t
  -- they are set back, and nothing is at hand
  have hend := ((hstory.silent (.act (.compute (follows_of_eq (hmu.suspendHooks program false))) Iff.rfl)).silent
    (.setThreshold c.heap.cycle.threshold)).silent (.act (@Act.forget _ _ _ nothing fun _ => False.elim) Iff.rfl)
  exact ⟨told, (hbegin htells).trans hend, hall⟩

/-- When a finalizer has run, its object is not due any more, and all others still are, unless they were
freed meanwhile. -/
theorem Mannered.finalized (hmu : Mannered mu config hashOf) (hc : Reachable mu config hashOf c)
    (hp : c.heap.phase = .finalize) (htake : c.space.takePendingFinalizer = .ok (some r, s))
    (hrun : mu.runFinalizer (mu.suspendHooks c.machine.program true)
      (Heap.setThreshold { c.heap with space := s } maxWord) r = .ok (result, program, h)) :
    h.phase = .finalize ∧ ¬ (h.space.slot r).pending ∧ ∀ t, t ≠ r → (c.space.slot t).pending →
      ∃ told, Story mu t c told ⟨⟨mu.suspendHooks program false, h.setThreshold c.heap.cycle.threshold⟩, nothing⟩ ∧
        (.freed ∈ told ∨ (h.space.slot t).pending) := by
  have hvalid := hc.valid hmu.toFaithful
  obtain ⟨hphase, hstories⟩ := hmu.runs hc hp htake hrun
  have hdue : ∀ {t}, (c.space.slot t).pending → (c.space.slot t).Stands .due := fun {t} ht => by
    obtain ⟨st, hst⟩ := hvalid.stands t
    exact hst.eq_due ht ▸ hst
  refine ⟨hphase, fun hpending => ?_, fun t ht hpending => ?_⟩
  · obtain ⟨told, hstory, hall⟩ := hstories r _ (.calls hp htake)
    obtain ⟨st, hthrough, hst⟩ := hstory.stands hmu.toFaithful hvalid (hdue (hvalid.taken htake).1)
    obtain rfl := hst.eq_due hpending
    obtain ⟨mid, hcalled, htold⟩ := Change.through_append.1 hthrough
    obtain ⟨-, rfl⟩ := Change.selected_of_due htold fun hmem => by
      rcases hall _ hmem with h | h <;> cases h
    cases hcalled
  · obtain ⟨told, hstory, hall⟩ := hstories t _ (.callsOther ht.symm hp htake)
    rw [Option.toList_none, List.append_nil] at hstory
    obtain ⟨st, hthrough, hst⟩ := hstory.stands hmu.toFaithful hvalid (hdue hpending)
    refine ⟨told, hstory, ?_⟩
    by_cases hstill : st = .due
    · exact .inr (hstill ▸ hst).2
    · obtain ⟨after, x, rfl, hor⟩ := Change.first_of_due hthrough hstill
      have hx : x ∈ after ++ [x] := List.mem_append_right _ List.mem_cons_self
      rcases hor with rfl | rfl
      · rcases hall _ hx with h | h <;> cases h
      · exact .inl hx

end

/-- A finalizer that is due is called by the end of the cycle, unless its object is freed before. -/
theorem Valid.due_called (hmu : mu.Faithful) (hc : Valid mu config hashOf c) (hr : (c.space.slot r).pending)
    (hstory : Story mu r c told d) (hp : d.heap.phase = .pause) :
    ∃ later x, told = later ++ [x] ∧ (x = .called ∨ x = .freed) := by
  obtain ⟨st, hst⟩ := hc.stands r
  obtain rfl := hst.eq_due hr
  obtain ⟨st, hthrough, hst'⟩ := hstory.stands hmu hc hst
  obtain ⟨l, hrun⟩ := hstory.passes
  exact Change.first_of_due hthrough ((hc.passes hmu hrun).not_due hp hst')

/-- What a finalizer can reach from its object when it is called is allocated. -/
theorem Valid.called_live (hmu : mu.Faithful) (hc : Valid mu config hashOf c)
    (h : Tells mu r c (some .called) d) (hreaches : (d.graph mu).Reaches d.space (· = r) t) :
    d.heap.isLive t = true := by
  have hd := hc.step hmu h.step
  have hhand : d.hands r := by
    cases h
    rfl
  refine hd.sound.isLive_iff.2 (Space.Survives.holds (hreaches.subset (P := d.space.Survives)
    (fun x hx => hx ▸ hd.hands r hhand) fun x v hx hv => hd.closed.edge hx hv.edge))

/-- Finalizers run once for each registration. -/
theorem finalizers_run_once (hmu : Mannered mu config hashOf) (hinit : Initial mu config hashOf c₀) :
    -- the calls of a program are runs, and every run tells a story of each object
    (∀ c, Relation.ReflTransGen (Call mu) c₀ c → ∃ l, Passes mu c₀ l c) ∧
    (∀ l c r, Passes mu c₀ l c → ∃ told, Story mu r c₀ told c) ∧
    (∀ r told c, Story mu r c₀ told c →
      -- it begins with a registration, and each registration takes one of the courses
      (∀ later x, told = later ++ [x] → x = .registered) ∧
      (∀ later course before, told = later ++ course ++ .registered :: before → .registered ∉ course →
        course ∈ Change.courses) ∧
      -- by the end of the cycle an object that was selected had its finalizer called, or was freed before
      (c.heap.phase = .pause → ∀ after before, told = after ++ .selected :: before →
        ∃ later x, after = later ++ [x] ∧ (x = .called ∨ x = .freed)) ∧
      -- when a finalizer is called, its object and all that this reaches are allocated
      ∀ d, Tells mu r c (some .called) d → ∀ t, (d.graph mu).Reaches d.space (· = r) t →
        d.heap.isLive t = true) ∧
    -- a finalizer that fails is consumed like the others, and the others are still called
    ∀ l c r s result program h, Passes mu c₀ l c → c.heap.phase = .finalize → c.machine.isBlocked = false →
      c.space.takePendingFinalizer = .ok (some r, s) →
      mu.runFinalizer (mu.suspendHooks c.machine.program true)
        (Heap.setThreshold { c.heap with space := s } maxWord) r = .ok (result, program, h) →
      ∃ m, c.machine.singleStep mu = .ok (outcome result, m) ∧ m.program = mu.suspendHooks program false ∧
        m.heap.cycle.threshold = c.heap.cycle.threshold ∧ m.heap.phase = .finalize ∧
        ¬ (m.heap.space.slot r).pending ∧ ∀ t, t ≠ r → (c.space.slot t).pending →
          ∃ told, Story mu t c told ⟨m, nothing⟩ ∧ (.freed ∈ told ∨ (m.heap.space.slot t).pending ∧
            ∀ later d, Story mu t ⟨m, nothing⟩ later d → d.heap.phase = .pause →
              ∃ last x, later = last ++ [x] ∧ (x = .called ∨ x = .freed)) := by
  have hfaithful := hmu.toFaithful
  have hvalid₀ := Valid.initial hinit
  refine ⟨fun c hcalls => hmu.orderly.calls (.initial hinit) hcalls,
    fun l c r hrun => hvalid₀.story hfaithful hrun r, fun r told c hstory => ?_,
    fun l c r s result program h hpass hp hfree htake hrun => ?_⟩
  · obtain ⟨st, hthrough, hst⟩ := hstory.stands hfaithful hvalid₀ (stands_initial hinit r)
    obtain ⟨l, hrun⟩ := hstory.passes
    have hc := hvalid₀.passes hfaithful hrun
    refine ⟨?_, ?_, fun hp => ?_, fun d hcalls t hreaches => hc.called_live hfaithful hcalls hreaches⟩
    · rintro later x rfl
      exact Change.first_of_out hthrough
    · rintro later course before rfl hcourse
      exact Change.course_of_split hthrough hcourse
    · rintro after before rfl
      exact Change.after_selected hthrough (hc.not_due hp hst)
  · have hc := (Reachable.initial hinit).passes hpass
    obtain ⟨hphase, hconsumed, hothers⟩ := hmu.finalized hc hp htake hrun
    refine ⟨_, singleStep_finalize hp hfree htake hrun, rfl, rfl, hphase, hconsumed, fun t ht hpending => ?_⟩
    obtain ⟨told, hstory, hor⟩ := hothers t ht hpending
    refine ⟨told, hstory, hor.imp_right fun hstill => ⟨hstill, fun later d hlater hend => ?_⟩⟩
    obtain ⟨l', hrun'⟩ := hstory.passes
    exact ((hc.valid hfaithful).passes hfaithful hrun').due_called hfaithful hstill hlater hend

end Stage

namespace Ledger

/-- A ledger whose finalizers fail. -/
def failing : Mutator Ledger := { mutator with runFinalizer := fun l h _ => .ok (.error "closed", l, h) }

/-- Finalizers that fail do not have to do anything else. -/
theorem failing_mannered (config : Config) (hashOf : List UInt8 → Hash) : Stage.Mannered failing config hashOf :=
  { roots := faithful.roots
    visits := faithful.visits
    suspendHooks := faithful.suspendHooks
    leaf := faithful.leaf
    clearWeak := faithful.clearWeak
    finalizers := fun _ hrun => by
      cases hrun
      exact ⟨_, .refl⟩ }

/-- The heap after an object was registered for finalization. -/
def withFinalizer (h : Heap) (r : Ref) : Heap :=
  match h.registerFinalizer r with
  | .ok h => h
  | .error _ => h

/-- Registering an object that is at hand, if it succeeds. -/
theorem act_withFinalizer {h : Heap} {hands : Ref → Prop} {r : Ref} (hr : hands r)
    (hok : (h.registerFinalizer r).isOk = true) :
    Stage.Act failing ⟨⟨{}, h⟩, hands⟩ ⟨⟨{}, withFinalizer h r⟩, hands⟩ := by
  refine .registerFinalizer hr ?_
  rw [withFinalizer]
  split
  · assumption
  · next heq =>
    rw [heq] at hok
    cases hok

/-- What is pending in the list of huge blocks is pending. -/
theorem pending_huge {s : Space} {p : Page} (hp : p ∈ s.hugePending) (hhuge : (Ref.huge p).isHuge = true) :
    (s.slot (.huge p)).pending := by
  rw [Space.slot, if_pos hhuge]
  exact hp

/-- Two objects are made and registered, and become unreachable: the finalizers of both are due. -/
theorem two_due : ∃ (l : List (Stage Ledger)) (m : Machine Ledger) (s : Space),
    Stage.Passes failing ⟨⟨{}, emptyHeap⟩, Stage.nothing⟩ l ⟨m, Stage.nothing⟩ ∧ m.heap.phase = .finalize ∧
      m.isBlocked = false ∧ m.heap.space.takePendingFinalizer = .ok (some (.huge 6), s) ∧
      (m.heap.space.slot (.huge 5)).pending := by
  let one := emptyHeap.withBlock 5 .udata
  let two := one.withBlock 6 .udata
  let first := withFinalizer two (.huge 5)
  let m : Machine Ledger := ⟨{}, withFinalizer first (.huge 6)⟩
  let trail := answerOf (m.trail failing 8) (by decide +kernel)
  let taken := answerOf (trail.headD m).heap.space.takePendingFinalizer (by decide +kernel)
  let held : Ref → Prop := fun t => (Stage.nothing t ∨ t = .huge 5) ∨ t = .huge 6
  obtain ⟨_, hfive⟩ := @passes_withBlock failing rfl emptyHeap Stage.nothing 5 .udata
    (Supply.page_fresh (by decide) rfl (by decide +kernel) 0) (by decide +kernel) (by decide +kernel)
  obtain ⟨_, hsix⟩ := @passes_withBlock failing rfl one (fun t => Stage.nothing t ∨ t = .huge 5) 6 .udata
    (Supply.page_fresh (by decide) (by decide +kernel) (by decide +kernel) 0) (by decide +kernel)
    (by decide +kernel)
  have hfirst : Stage.Act failing ⟨⟨{}, two⟩, held⟩ ⟨⟨{}, first⟩, held⟩ :=
    act_withFinalizer (.inl (.inr rfl)) (by decide +kernel)
  have hboth : Stage.Act failing ⟨⟨{}, first⟩, held⟩ ⟨m, held⟩ := act_withFinalizer (.inr rfl) (by decide +kernel)
  -- nothing is at hand when the collector begins
  have hmade := (((hfive.trans hsix).step (.act hfirst)).step (.act hboth)).step
    (.act (@Stage.Act.forget _ _ _ Stage.nothing fun _ => False.elim))
  exact ⟨_, trail.headD m, taken.2, hmade.trans (.trail (eq_answerOf _)), by decide +kernel, by decide +kernel,
    eq_answerOf_of_fst (by decide +kernel) (by decide +kernel), pending_huge (by decide +kernel) rfl⟩

end Ledger

namespace Stage

/-- Two objects that were registered become unreachable. The finalizer of one fails, which consumes it, and
that of the other is still due. -/
theorem failed_finalizer_is_consumed : ∃ (c₀ c : Stage Ledger) (m : Machine Ledger) (told : List Change),
    Initial Ledger.failing Ledger.blocksOnly (fun _ => 0) c₀ ∧ Story Ledger.failing (.huge 6) c₀ told c ∧
      (∀ later x, told = later ++ [x] → x = .registered) ∧
      c.machine.singleStep Ledger.failing = .ok (.error (.finalizer "closed"), m) ∧ m.heap.phase = .finalize ∧
      ¬ (m.heap.space.slot (.huge 6)).pending ∧ (c.space.slot (.huge 5)).pending ∧
      ∃ told, Story Ledger.failing (.huge 5) c told ⟨m, nothing⟩ := by
  have hinit : Initial Ledger.failing Ledger.blocksOnly (fun _ => 0) ⟨⟨{}, Ledger.emptyHeap⟩, nothing⟩ :=
    .intro rfl fun r hr => absurd hr List.not_mem_nil
  obtain ⟨l, m, s, hrun, hp, hfree, htake, hdue⟩ := Ledger.two_due
  obtain ⟨-, hstories, hcourses, hfails⟩ := finalizers_run_once (Ledger.failing_mannered _ _) hinit
  obtain ⟨told, hstory⟩ := hstories _ _ (.huge 6) hrun
  obtain ⟨m', hstep, -, -, hphase, hconsumed, hothers⟩ := hfails _ _ _ _ (.error "closed") _ _ hrun hp hfree htake rfl
  obtain ⟨told', hstory', -⟩ := hothers (.huge 5) (by decide) hdue
  exact ⟨_, _, m', told, hinit, hstory, (hcourses _ _ _ hstory).1, hstep, hphase, hconsumed, hdue, told', hstory'⟩

end Stage

end Tricolor
