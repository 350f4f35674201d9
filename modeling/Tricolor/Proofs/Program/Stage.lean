import Tricolor.Proofs.Cycle.Calls
import Tricolor.Proofs.Graph

/-!
# Runs of a program

A `Stage` is a machine with the references that its program holds on to outside of its own
objects: those that it was just given. `Act` has what a program may do at a stage if it keeps
to the rules. It uses only references that it holds on to, it follows every store by the
barrier for the kind of object that it wrote to, and it frees an object only when nothing
refers to it any more. Otherwise references may be dropped at any time.

`Step` adds the steps of the collector, and `Passes` lists the stages of a run. A program is
`Orderly` if its answers are faithful and its finalizers are runs themselves. Then its calls are
runs, whatever the collector does inside them.
-/

namespace Tricolor

/-- `g'` has the references of `g`, less some of them, more roots that are at hand, and what
`stored r t` allows `r` to refer to now. Only what is stored into may change its weak mode. The
heap may have changed from `s` to `s'`. -/
structure Graph.Follows (g : Graph) (s : Space) (g' : Graph) (s' : Space) (hands : Ref → Prop)
    (stored : Ref → Ref → Prop) : Prop where
  root : ∀ {r}, g'.root r → g.root r ∨ hands r
  edge : ∀ {r v}, g'.Edge s' r v → g.Edge s r v ∨ stored r v.target
  mode : ∀ {r e}, s.Holds r → (s'.slot r).entity? = some e → (∀ t, ¬ stored r t) →
    g'.mode r e.header.kind = g.mode r e.header.kind

/-- Nothing is stored. -/
abbrev Graph.storeless : Ref → Ref → Prop := fun _ _ => False

/-- A machine and the references that its program was just given. They may be used until the next
step of the collector. -/
structure Stage (σ : Type) where
  /-- the machine -/
  machine : Machine σ
  /-- the references at hand -/
  hands : Ref → Prop

namespace Stage

variable {σ : Type}

/-- The heap at a stage. -/
def heap (c : Stage σ) : Heap := c.machine.heap

/-- The space at a stage. -/
def space (c : Stage σ) : Space := c.machine.heap.space

/-- What the program refers to at a stage. -/
def graph (mu : Mutator σ) (c : Stage σ) : Graph := mu.graph c.machine.program

/-- The program comes by a reference that it can reach: a root, a fixed object, or what an object
at hand refers to, on whichever side. -/
inductive Reads (mu : Mutator σ) (c : Stage σ) : Ref → Prop where
  | root {r : Ref} : (c.graph mu).root r → Reads mu c r
  | fixed {r : Ref} : (c.space.slot r).fixed → Reads mu c r
  | referent {r : Ref} {v : Visit} : c.hands r → (c.graph mu).Edge c.space r v → Reads mu c v.target

/-- One thing that a program does. -/
inductive Act (mu : Mutator σ) (c : Stage σ) : Stage σ → Prop where
  /-- references are dropped, and roots added -/
  | compute {program : σ} : (c.graph mu).Follows c.space (mu.graph program) c.space c.hands Graph.storeless →
      Act mu c ⟨⟨program, c.heap⟩, c.hands⟩
  | take {r : Ref} : Reads mu c r → Act mu c { c with hands := fun t => c.hands t ∨ t = r }
  | forget {hands : Ref → Prop} : (∀ t, hands t → c.hands t) → Act mu c { c with hands }
  | alloc {supply : Supply} {kind : Kind} {size : Nat} {result : Except AllocError Ref} {program : σ} {h : Heap} :
      supply.Fresh c.space 0 → c.heap.alloc supply kind size = .ok (result, h) →
      (c.graph mu).Follows c.space (mu.graph program) h.space c.hands Graph.storeless →
      Act mu c ⟨⟨program, h⟩, fun t => c.hands t ∨ result = .ok t⟩
  | intern {supply : Supply} {bytes : List UInt8} {result : Except AllocError Ref} {program : σ} {h : Heap} :
      supply.Fresh c.space 0 → c.heap.intern supply bytes = .ok (result, h) →
      (c.graph mu).Follows c.space (mu.graph program) h.space c.hands Graph.storeless →
      Act mu c ⟨⟨program, h⟩, fun t => c.hands t ∨ result = .ok t⟩
  /-- nothing refers to the object any more -/
  | free {r : Ref} {size : Nat} {program : σ} {h : Heap} : c.hands r → ¬ (c.graph mu).root r →
      (∀ x v, x ≠ r → (c.graph mu).Edge c.space x v → v.target ≠ r) → c.heap.free r size = .ok h →
      (c.graph mu).Follows c.space (mu.graph program) h.space (fun t => c.hands t ∧ t ≠ r) Graph.storeless →
      Act mu c ⟨⟨program, h⟩, fun t => c.hands t ∧ t ≠ r⟩
  /-- a table or a thread is changed; if references became strong by that, their referents are at
  hand now -/
  | storeBack {container : Ref} {kind : Kind} {program : σ} {h : Heap} : c.hands container →
      c.heap.kind container = .ok kind → kind.isAggregate = true →
      (c.graph mu).Follows c.space (mu.graph program) c.space c.hands
        (fun r t => r = container ∧ c.hands t) →
      c.heap.barrierBack container = .ok h →
      Act mu c ⟨⟨program, h⟩, fun t => c.hands t ∨ ∃ v, (mu.graph program).Strong c.space container v ∧
        ¬ (c.graph mu).Strong c.space container v ∧ v.target = t⟩
  | storeSlot {writer referent : Ref} {program : σ} {h : Heap} : c.hands writer → c.hands referent →
      c.heap.kind writer = .ok .upval →
      (c.graph mu).Follows c.space (mu.graph program) c.space c.hands
        (fun r t => r = writer ∧ t = referent) →
      c.heap.barrierSlot writer referent = .ok h → Act mu c ⟨⟨program, h⟩, c.hands⟩
  | storeForward {writer referent : Ref} {kind : Kind} {program : σ} {h : Heap} : c.hands writer →
      c.hands referent → c.heap.kind writer = .ok kind → kind.isAggregate = false → kind ≠ .upval →
      (c.graph mu).Follows c.space (mu.graph program) c.space c.hands
        (fun r t => r = writer ∧ t = referent) →
      c.heap.barrierForward writer referent = .ok h → Act mu c ⟨⟨program, h⟩, c.hands⟩
  | fix {r : Ref} {h : Heap} : c.hands r → c.heap.fix r = .ok h →
      Act mu c ⟨⟨c.machine.program, h⟩, c.hands⟩
  | registerFinalizer {r : Ref} {h : Heap} : c.hands r → c.heap.registerFinalizer r = .ok h →
      Act mu c ⟨⟨c.machine.program, h⟩, c.hands⟩
  | writePayload {r : Ref} {start : Nat} {bytes : List UInt8} {h : Heap} : c.hands r →
      (∀ size, c.heap.payloadSize r = .ok size → start + bytes.length ≤ size) →
      c.heap.writePayload r start bytes = .ok h → Act mu c ⟨⟨c.machine.program, h⟩, c.hands⟩
  | setTraceActive (active : Bool) :
      Act mu c ⟨⟨c.machine.program, c.heap.setTraceActive active⟩, c.hands⟩
  | setPause (percent : Nat) : Act mu c ⟨⟨c.machine.program, c.heap.setPause percent⟩, c.hands⟩
  | setStepMultiplier (percent : Nat) :
      Act mu c ⟨⟨c.machine.program, c.heap.setStepMultiplier percent⟩, c.hands⟩

/-- No reference is at hand. -/
abbrev nothing : Ref → Prop := fun _ => False

/-- One step of a run: the program does something, the collector does a step or puts off the
next one, or a finalizer is about to run for an object that it is given. -/
inductive Step (mu : Mutator σ) (c : Stage σ) : Stage σ → Prop where
  | act {d : Stage σ} : Act mu c d → Step mu c d
  | setThreshold (threshold : Nat) :
      Step mu c ⟨⟨c.machine.program, c.heap.setThreshold threshold⟩, c.hands⟩
  | collect {result : Except CollectError Nat} {m : Machine σ} : c.heap.phase ≠ .finalize →
      c.machine.singleStep mu = .ok (result, m) → Step mu c ⟨m, nothing⟩
  | finalize {r : Ref} {s : Space} : c.heap.phase = .finalize →
      c.space.takePendingFinalizer = .ok (some r, s) →
      Step mu c ⟨⟨c.machine.program, { c.heap with space := s }⟩, (· = r)⟩
  | complete {s : Space} : c.heap.phase = .finalize → c.space.takePendingFinalizer = .ok (none, s) →
      Step mu c ⟨⟨c.machine.program, Heap.enterPause { c.heap with space := s }⟩, nothing⟩

/-- A run from one stage to another, with the stages after the first one, the last one first. -/
inductive Passes (mu : Mutator σ) (c : Stage σ) : List (Stage σ) → Stage σ → Prop where
  | refl : Passes mu c [] c
  | step {l : List (Stage σ)} {d e : Stage σ} : Passes mu c l d → Step mu d e → Passes mu c (e :: l) e

/-- A run begins with a heap without objects, and a program without references. -/
inductive Initial (mu : Mutator σ) (config : Config) (hashOf : List UInt8 → Hash) : Stage σ → Prop where
  | intro {program : σ} {h : Heap} : Heap.withConfig config hashOf = .ok (.ok h) →
      (∀ r, ¬ (mu.graph program).root r) → Initial mu config hashOf ⟨⟨program, h⟩, nothing⟩

/-- The stages that runs lead to. -/
def Reachable (mu : Mutator σ) (config : Config) (hashOf : List UInt8 → Hash) (c : Stage σ) : Prop :=
  ∃ c₀ l, Initial mu config hashOf c₀ ∧ Passes mu c₀ l c

variable {mu : Mutator σ} {config : Config} {hashOf : List UInt8 → Hash} {c d e : Stage σ}
  {l l' : List (Stage σ)}

theorem Passes.trans (h : Passes mu c l d) (h' : Passes mu d l' e) : Passes mu c (l' ++ l) e := by
  induction h' with
  | refl => exact h
  | step _ hstep ih => exact .step ih hstep

theorem Passes.single (h : Step mu c d) : Passes mu c [d] d := .step .refl h

theorem Reachable.initial (h : Initial mu config hashOf c) : Reachable mu config hashOf c :=
  ⟨c, [], h, .refl⟩

theorem Reachable.passes (h : Reachable mu config hashOf c) (hrun : Passes mu c l d) :
    Reachable mu config hashOf d := by
  obtain ⟨c₀, l₀, hinit, hrun₀⟩ := h
  exact ⟨c₀, l ++ l₀, hinit, hrun₀.trans hrun⟩

theorem Reachable.step (h : Reachable mu config hashOf c) (hstep : Step mu c d) :
    Reachable mu config hashOf d :=
  h.passes (.single hstep)

/-- Whatever the first stages have and each step keeps holds at all stages that runs lead to. -/
theorem Reachable.induction {P : Stage σ → Prop} (hinit : ∀ c, Initial mu config hashOf c → P c)
    (hstep : ∀ c d, Reachable mu config hashOf c → P c → Step mu c d → P d)
    (h : Reachable mu config hashOf c) : P c := by
  obtain ⟨c₀, l, hc₀, hrun⟩ := h
  induction hrun with
  | refl => exact hinit _ hc₀
  | step hrun hlast ih => exact hstep _ _ ⟨c₀, _, hc₀, hrun⟩ ih hlast

/-! ## Calls -/

/-- A program whose answers are faithful, and whose finalizers are runs that begin with the object
that they are given. -/
structure Orderly (mu : Mutator σ) (config : Config) (hashOf : List UInt8 → Hash) : Prop
    extends mu.Faithful where
  finalizers : ∀ {program program' : σ} {h h' : Heap} {r : Ref} {result : Except String Unit},
    Reachable mu config hashOf ⟨⟨program, h⟩, (· = r)⟩ →
    mu.runFinalizer program h r = .ok (result, program', h') →
    ∃ l hands, Passes mu ⟨⟨program, h⟩, (· = r)⟩ l ⟨⟨program', h'⟩, hands⟩

/-- What a program does, or a call of the collector that returns. -/
inductive Call (mu : Mutator σ) (c : Stage σ) : Stage σ → Prop where
  | act {d : Stage σ} : Act mu c d → Call mu c d
  | singleStep {result : Except CollectError Nat} {m : Machine σ} :
      c.machine.singleStep mu = .ok (result, m) → Call mu c ⟨m, nothing⟩
  | step {fuel : Nat} {result : Except CollectError Nat} {m : Machine σ} :
      c.machine.step mu fuel = .ok (result, m) → Call mu c ⟨m, nothing⟩
  | checkStep {fuel : Nat} {result : Except CollectError Bool} {m : Machine σ} :
      c.machine.checkStep mu fuel = .ok (result, m) → Call mu c ⟨m, nothing⟩
  | fullCollect {fuel : Nat} {result : Except CollectError Unit} {m : Machine σ} :
      c.machine.fullCollect mu fuel = .ok (result, m) → Call mu c ⟨m, nothing⟩

/-- The same graph at the same stage of the heap. -/
theorem follows_of_eq {g g' : Graph} {s : Space} {hands : Ref → Prop} {stored : Ref → Ref → Prop}
    (h : g' = g) : g.Follows s g' s hands stored := by
  subst h
  exact ⟨.inl, .inl, fun _ _ _ => rfl⟩

/-- Answers change nothing of the graph. -/
theorem Step.answers {program : σ} (h : mu.graph program = mu.graph c.machine.program) :
    Step mu c ⟨⟨program, c.heap⟩, c.hands⟩ :=
  .act (.compute (follows_of_eq h))

/-- The machine at a stage that a run from `c` leads to. -/
def Leads (mu : Mutator σ) (c : Stage σ) (m : Machine σ) : Prop :=
  ∃ l hands, Passes mu c l ⟨m, hands⟩

theorem Leads.next {m : Machine σ} {hands : Ref → Prop} (h : Passes mu c l ⟨m, hands⟩)
    (hstep : Step mu ⟨m, hands⟩ d) : Leads mu c d.machine :=
  ⟨_, _, .step h hstep⟩

/-- The calls of the collector are runs. -/
theorem Orderly.kept (hmu : Orderly mu config hashOf) (hc : Reachable mu config hashOf c) :
    Machine.Kept mu (Leads mu c) where
  collect hm hp hrun := by
    obtain ⟨l, hands, hpass⟩ := hm
    exact .next hpass (.collect hp hrun)
  finalize {m r s result program h} hm hp htake hrun := by
    obtain ⟨l, hands, hpass⟩ := hm
    -- the object is taken, and the hooks and the threshold are set
    have hbegun := (((hpass.step (.finalize hp htake)).step
      (.answers (hmu.suspendHooks m.program true))).step (.setThreshold maxWord))
    obtain ⟨l', hands', hpass'⟩ := hmu.finalizers (hc.passes hbegun) hrun
    have hdone := ((hbegun.trans hpass').step (.answers (hmu.suspendHooks program false))).step
      (.setThreshold m.heap.cycle.threshold)
    exact ⟨_, _, hdone⟩
  complete hm hp htake := by
    obtain ⟨l, hands, hpass⟩ := hm
    exact .next hpass (.complete hp htake)
  setThreshold threshold hm := by
    obtain ⟨l, hands, hpass⟩ := hm
    exact .next hpass (.setThreshold threshold)

/-- What a call leads to, a run leads to. -/
theorem Leads.passes {m : Machine σ} (h : Leads mu c m) : ∃ l, Passes mu c l ⟨m, nothing⟩ := by
  obtain ⟨l, hands, hpass⟩ := h
  exact ⟨_, .step hpass (.act (.forget fun _ => False.elim))⟩

/-- A call is a run. -/
theorem Orderly.call (hmu : Orderly mu config hashOf) (hc : Reachable mu config hashOf c)
    (hcall : Call mu c d) : ∃ l, Passes mu c l d := by
  have hkept := (hmu.kept hc).stepwise
  have hstart : Leads mu c c.machine := ⟨[], c.hands, .refl⟩
  cases hcall with
  | act hact => exact ⟨_, .single (.act hact)⟩
  | singleStep hrun => exact (hkept.singleStep hstart hrun).passes
  | step hrun => exact (hkept.step hstart hrun).passes
  | checkStep hrun => exact (hkept.checkStep hstart hrun).passes
  | fullCollect hrun => exact (hkept.fullCollect hstart hrun).passes

/-- Calls, one after the other, are a run. -/
theorem Orderly.calls (hmu : Orderly mu config hashOf) (hc : Reachable mu config hashOf c)
    (hcalls : Relation.ReflTransGen (Call mu) c d) : ∃ l, Passes mu c l d := by
  induction hcalls with
  | refl => exact ⟨[], .refl⟩
  | tail _ hcall ih =>
    obtain ⟨l, hrun⟩ := ih
    obtain ⟨l', hrun'⟩ := hmu.call (hc.passes hrun) hcall
    exact ⟨l' ++ l, hrun.trans hrun'⟩

end Stage

end Tricolor
