import Tricolor.Proofs.Program.Effects
import Tricolor.Proofs.Program.Stage

/-!
# What an act does

`Act.effect` says once what an act of a program does to its references and to the heap: which
objects it uses, makes and frees, what it stores, and what its barrier has seen to. All
invariants of runs are derived from that.
-/

namespace Tricolor

namespace Graph

variable {g g' : Graph} {s s' s'' : Space} {hands : Ref → Prop} {stored : Ref → Ref → Prop} {r : Ref} {v : Visit}

/-- Only tables have a weak mode. -/
theorem mode_of_ne_table {kind : Kind} (hkind : kind ≠ .table) : g.mode r kind = .none := if_neg hkind

/-- Only tables have weak sides. -/
theorem isWeak_of_ne_table {kind : Kind} (hkind : kind ≠ .table) (v : Visit) :
    v.isWeak (g.mode r kind) = false := by
  rw [mode_of_ne_table hkind]
  cases v <;> rfl

theorem Edge.inherited (hs : s.Inherits s') (h : g.Edge s' r v) : g.Edge s r v := by
  obtain ⟨x, hx, hv⟩ := h
  obtain ⟨e, he, hkind, -⟩ := hs _ _ hx
  exact ⟨e, he, hkind ▸ hv⟩

theorem isString_inherited (hs : s.Inherits s') (h : s'.isString r = true) : s.isString r = true := by
  rw [Space.isString, Option.any_eq_true] at h
  obtain ⟨x, hx, hkind⟩ := h
  obtain ⟨e, he, hsame, -⟩ := hs _ _ hx
  rw [Space.isString, he, Option.any_some, ← hsame]
  exact hkind

theorem Strong.inherited (hs : s.Inherits s') (h : g.Strong s' r v) : g.Strong s r v := by
  obtain ⟨x, hx, hv, hholds⟩ := h
  obtain ⟨e, he, hkind, -⟩ := hs _ _ hx
  rw [hkind] at hv hholds
  exact ⟨e, he, hv, hholds.imp_right (isString_inherited hs)⟩

/-- What a program refers to does not depend on what the heap does to the objects. -/
theorem Follows.inherited (h : g.Follows s g' s hands stored) (hs : s.Inherits s') :
    g.Follows s g' s' hands stored where
  root := h.root
  edge he := h.edge (he.inherited hs)
  mode hr hx hstored := by
    obtain ⟨e, he, hkind, -⟩ := hs _ _ hx
    rw [hkind]
    exact h.mode hr he hstored

end Graph

namespace Stage

variable {σ : Type} {mu : Mutator σ} {c d : Stage σ} {used fresh gone : Ref → Prop} {r t : Ref}
  {stored : Ref → Ref → Prop}

/-- Where a reference that is at hand after an act comes from. -/
inductive Obtains (mu : Mutator σ) (c d : Stage σ) (fresh : Ref → Prop) (t : Ref) : Prop where
  | kept : c.hands t → Obtains mu c d fresh t
  | read : Reads mu c t → Obtains mu c d fresh t
  | made : fresh t → Obtains mu c d fresh t
  /-- a string was interned -/
  | interned : c.space.isString t = true → d.space.Survives t → Obtains mu c d fresh t
  /-- a reference became strong -/
  | strengthened {x : Ref} {v : Visit} : c.hands x → (d.graph mu).Edge d.space x v → v.target = t →
      Obtains mu c d fresh t

/-- What an act does. -/
structure Effect (mu : Mutator σ) (c d : Stage σ) (used fresh gone : Ref → Prop)
    (stored : Ref → Ref → Prop) : Prop where
  operates : Relation.ReflTransGen (Heap.Operation Heap.unstranded) c.heap d.heap
  alters : c.heap.Alters d.heap used fresh gone
  follows : (c.graph mu).Follows c.space (d.graph mu) d.space c.hands stored
  /-- nothing refers to what is freed, before the act or after it -/
  unreferred : ∀ {t}, gone t → ¬ (d.graph mu).root t ∧
    ∀ x v, x ≠ t → (c.graph mu).Edge c.space x v → v.target ≠ t
  obtains : ∀ {t}, d.hands t → ¬ gone t ∧ Obtains mu c d fresh t
  /-- what is used or freed is at hand, before the act or after it -/
  uses : ∀ {t}, used t ∨ gone t → c.hands t ∨ d.hands t ∧ c.space.isString t = true
  stores : ∀ {r t}, stored r t → c.hands r ∧ c.hands t ∧ ¬ gone t
  /-- a reference that is stored into a traversed object is to one that is noted -/
  barrier : c.heap.phase.IsMarking → ∀ {r t}, stored r t → d.space.Black r → ¬ (d.space.slot r).queued →
    d.heap.Noted t ∧ ∀ x, (d.space.slot r).entity? = some x → x.header.kind ≠ .table
  /-- a reference that has become strong is at hand -/
  strong : ∀ {r v}, c.space.Holds v.target → (d.graph mu).Strong d.space r v →
    (c.graph mu).Strong c.space r v ∨ c.hands v.target ∨ d.hands v.target

section

variable {h h' : Heap}

/-- An operation that makes no object leaves each with its kind and size. -/
theorem inherits_of_alters (halters : h.Alters h' used Heap.noObject gone) :
    h.space.Inherits h'.space := by
  intro t x hx
  by_cases hgone : gone t
  · rw [halters.freed hgone] at hx
    cases hx
  · have hstays := @Heap.Alters.stays _ _ _ _ _ halters t not_false hgone
    cases he : (h.space.slot t).entity? with
    | none =>
      rw [hstays.vacant he] at hx
      cases hx
    | some e =>
      obtain ⟨y, hy, hres, -⟩ := hstays.entity he
      rw [hx] at hy
      cases hy
      exact ⟨e, rfl, hres.kind, hres.length⟩

/-- An object that was there and was not freed is a string if it was one. -/
theorem isString_of_alters (halters : h.Alters h' used fresh gone) (ht : h.space.Holds t)
    (hstring : h'.space.isString t = true) : h.space.isString t = true := by
  obtain ⟨e, he⟩ := ht
  have hnot : ¬ fresh t := fun hfresh => by
    rw [(halters.made hfresh).1] at he
    cases he
  by_cases hgone : gone t
  · rw [Space.isString, halters.freed hgone] at hstring
    cases hstring
  · obtain ⟨x, hx, hres, -⟩ := (halters.stays hnot hgone).entity he
    rw [Space.isString, hx, Option.any_some, decide_eq_true_iff, hres.kind] at hstring
    rw [Space.isString, he, Option.any_some, decide_eq_true_iff]
    exact hstring

/-- Where nothing is stored, a reference that is strong was strong. -/
theorem strong_of_follows (halters : h.Alters h' used fresh gone) {g g' : Graph} {hands : Ref → Prop}
    (hfollows : g.Follows h.space g' h'.space hands stored) {v : Visit} (ht : h.space.Holds v.target)
    (hstrong : g'.Strong h'.space r v) (hstored : ∀ t, ¬ stored r t) : g.Strong h.space r v := by
  obtain ⟨x, hx, hrefers, hholds⟩ := hstrong
  obtain ⟨e, he, hv⟩ := (hfollows.edge ⟨x, hx, hrefers⟩).resolve_right (hstored _)
  have hmode := hfollows.mode ⟨e, he⟩ hx hstored
  have hkind : x.header.kind = e.header.kind := by
    have hnot : ¬ fresh r := fun hfresh => by
      rw [(halters.made hfresh).1] at he
      cases he
    have hgone : ¬ gone r := fun hgone => by
      rw [halters.freed hgone] at hx
      cases hx
    obtain ⟨y, hy, hres, -⟩ := (halters.stays hnot hgone).entity he
    rw [hx] at hy
    cases hy
    exact hres.kind
  rw [hkind] at hmode
  refine ⟨e, he, hv, ?_⟩
  rcases hholds with hweak | hstring
  · rw [hkind, hmode] at hweak
    exact .inl hweak
  · exact .inr (isString_of_alters halters ht hstring)

end

/-- An act that stores nothing, and uses only what is at hand. -/
theorem Effect.of_storeless (hoperates : Relation.ReflTransGen (Heap.Operation Heap.unstranded) c.heap d.heap)
    (halters : c.heap.Alters d.heap used fresh Heap.noObject)
    (hfollows : (c.graph mu).Follows c.space (d.graph mu) d.space c.hands Graph.storeless)
    (hobtains : ∀ {t}, d.hands t → Obtains mu c d fresh t)
    (huses : ∀ {t}, used t → c.hands t ∨ d.hands t ∧ c.space.isString t = true) :
    Effect mu c d used fresh Heap.noObject Graph.storeless where
  operates := hoperates
  alters := halters
  follows := hfollows
  unreferred := False.elim
  obtains ht := ⟨not_false, hobtains ht⟩
  uses ht := huses (ht.resolve_right not_false)
  stores := False.elim
  barrier _ := False.elim
  strong ht hstrong := .inl (strong_of_follows halters hfollows ht hstrong fun _ => id)

/-! ## The acts, one by one -/

/-- Interning makes a string, or finds one. -/
theorem intern_effect {supply : Supply} {bytes : List UInt8} {result : Except AllocError Ref} {program : σ}
    {h : Heap} (hs : c.heap.Sound) (hfresh : supply.Fresh c.space 0)
    (hrun : c.heap.intern supply bytes = .ok (result, h))
    (hfollows : (c.graph mu).Follows c.space (mu.graph program) h.space c.hands Graph.storeless) :
    ∃ used fresh, Effect mu c ⟨⟨program, h⟩, fun t => c.hands t ∨ result = .ok t⟩ used fresh Heap.noObject
      Graph.storeless := by
  have hoperates : Relation.ReflTransGen (Heap.Operation Heap.unstranded) c.heap h :=
    .single (.intern hfresh hrun)
  obtain ⟨herror, hok⟩ := Heap.intern_eq_ok hs hfresh hrun
  cases result with
  | error error =>
    obtain ⟨s', rfl, halike⟩ := herror error rfl
    refine ⟨Heap.noObject, Heap.noObject, .of_storeless hoperates (.alike halike) hfollows ?_ False.elim⟩
    rintro t (ht | ht)
    · exact .kept ht
    · cases ht
  | ok r =>
    have hintern := hok r rfl
    have hsound := hs.interns hintern
    -- a string that is found was linked
    have hlinked : (c.heap.hashOf bytes, r) ∈ c.heap.strings.links → c.space.isString r = true := by
      intro hmem
      obtain ⟨e, he, hkind, -⟩ := hs.linked hmem
      rw [Space.isString, show (c.space.slot r).entity? = some e from he, Option.any_some, hkind]
      rfl
    cases hintern with
    | @found e hmem he _ hsurvives =>
      refine ⟨Heap.noObject, Heap.noObject, .of_storeless hoperates (.refl _) hfollows ?_ False.elim⟩
      rintro t (ht | ht)
      · exact .kept ht
      · cases ht
        exact .interned (hlinked hmem) ⟨e, he, hsurvives⟩
    | @revived e s' hmem he _ hsurvives hrev =>
      have hslot := hrev.congr (Slot.mapEntity_of_some he _)
      have hnot : ¬ c.heap.phase.IsMarking := by
        intro hp
        rw [hs.survives (Heap.Phase.not_isSweeping hp) he] at hsurvives
        cases hsurvives
      refine ⟨(· = r), Heap.noObject, .of_storeless hoperates (.revise hslot (.of_used rfl he rfl
        ⟨rfl, rfl, rfl, rfl⟩ (fun _ => rfl) (fun hp => absurd hp hnot) rfl id)
        fun hp => absurd hp hnot) hfollows ?_ ?_⟩
      · rintro t (ht | ht)
        · exact .kept ht
        · cases ht
          exact .interned (hlinked hmem) ⟨_, by
            rw [show (Stage.space ⟨⟨program, { c.heap with space := s' }⟩, _⟩).slot r = _ from hslot.slot_self], rfl⟩
      · rintro t rfl
        exact .inr ⟨.inr rfl, hlinked hmem⟩
    | @linked e s' ha =>
      refine ⟨Heap.noObject, (· = r), .of_storeless hoperates { Heap.Alters.appears hs ha with } hfollows ?_
        False.elim⟩
      rintro t (ht | ht)
      · exact .kept ht
      · cases ht
        exact .made rfl

/-- Allocation makes an object, or changes nothing that can be seen. -/
theorem alloc_effect {supply : Supply} {kind : Kind} {size : Nat} {result : Except AllocError Ref}
    {program : σ} {h : Heap} (hs : c.heap.Sound) (hfresh : supply.Fresh c.space 0)
    (hrun : c.heap.alloc supply kind size = .ok (result, h))
    (hfollows : (c.graph mu).Follows c.space (mu.graph program) h.space c.hands Graph.storeless) :
    ∃ used fresh, Effect mu c ⟨⟨program, h⟩, fun t => c.hands t ∨ result = .ok t⟩ used fresh Heap.noObject
      Graph.storeless := by
  have hoperates : Relation.ReflTransGen (Heap.Operation Heap.unstranded) c.heap h :=
    .single (.alloc hfresh hrun)
  obtain ⟨s', rfl, herror, hok⟩ := Heap.alloc_eq_ok hs hfresh hrun
  cases result with
  | error error =>
    refine ⟨Heap.noObject, Heap.noObject, .of_storeless hoperates (.alike (herror error rfl)) hfollows ?_
      False.elim⟩
    rintro t (ht | ht)
    · exact .kept ht
    · cases ht
  | ok r =>
    obtain ⟨e, ha⟩ := hok r rfl
    refine ⟨Heap.noObject, (· = r), .of_storeless hoperates (.appears hs ha) hfollows ?_ False.elim⟩
    rintro t (ht | ht)
    · exact .kept ht
    · cases ht
      exact .made rfl

/-- Freeing takes an object out of the heap, and nothing else. -/
theorem free_effect {size : Nat} {program : σ} {h : Heap} (hs : c.heap.Sound)
    (hhands : ∀ t, c.hands t → c.space.Survives t) (hr : c.hands r) (hroot : ¬ (c.graph mu).root r)
    (hreferred : ∀ x v, x ≠ r → (c.graph mu).Edge c.space x v → v.target ≠ r)
    (hrun : c.heap.free r size = .ok h)
    (hfollows : (c.graph mu).Follows c.space (mu.graph program) h.space (fun t => c.hands t ∧ t ≠ r)
      Graph.storeless) :
    Effect mu c ⟨⟨program, h⟩, fun t => c.hands t ∧ t ≠ r⟩ Heap.noObject Heap.noObject (· = r)
      Graph.storeless := by
  have halters : c.heap.Alters h Heap.noObject Heap.noObject (· = r) := .releases (Heap.free_eq_ok hs hrun).2
  have hfollows' : (c.graph mu).Follows c.space (mu.graph program) h.space c.hands Graph.storeless :=
    ⟨fun hroot => (hfollows.root hroot).imp_right And.left, hfollows.edge, hfollows.mode⟩
  exact
    { operates := .single (.free (hs.live_iff.2 (hhands r hr)) hrun)
      alters := halters
      follows := hfollows'
      unreferred := fun {t} ht => by
        subst ht
        exact ⟨fun hnew => (hfollows.root hnew).elim hroot fun hand => hand.2 rfl, hreferred⟩
      obtains := fun ht => ⟨ht.2, .kept ht.1⟩
      uses := fun {t} ht => by
        rcases ht with ht | rfl
        · exact ht.elim
        · exact .inl hr
      stores := False.elim
      barrier := fun _ => False.elim
      strong := fun ht hstrong => .inl (strong_of_follows halters hfollows' ht hstrong fun _ => id) }

/-- The kind that a heap answers is that of the object. -/
theorem kind_of_eq_ok {h : Heap} {e : Entity} {kind : Kind} (hs : h.Sound) (hkind : h.kind r = .ok kind)
    (he : (h.space.slot r).entity? = some e) : e.header.kind = kind :=
  Except.ok.inj ((hs.kind_eq he).symm.trans hkind)

/-- A store into one slot, with the barrier for it. -/
theorem store_effect {writer referent : Ref} {kind : Kind} {program : σ} {h : Heap} (hs : c.heap.Sound)
    (hwriter : c.hands writer) (hreferent : c.hands referent) (hkind : c.heap.kind writer = .ok kind)
    (htable : kind ≠ .table)
    (hfollows : (c.graph mu).Follows c.space (mu.graph program) c.space c.hands
      (fun r t => r = writer ∧ t = referent))
    (hoperates : Relation.ReflTransGen (Heap.Operation Heap.unstranded) c.heap h)
    (halters : c.heap.Alters h (· = referent) Heap.noObject Heap.noObject)
    (hbarrier : c.heap.phase.IsMarking → h.space.Black writer → h.Noted referent) :
    Effect mu c ⟨⟨program, h⟩, c.hands⟩ (· = referent) Heap.noObject Heap.noObject
      (fun r t => r = writer ∧ t = referent) := by
  have hinherits : c.space.Inherits h.space := inherits_of_alters halters
  have hfollows' := hfollows.inherited hinherits
  have hnot : ∀ {x}, (h.space.slot writer).entity? = some x → x.header.kind ≠ .table := by
    intro x hx
    obtain ⟨e, he, hsame, -⟩ := hinherits _ _ hx
    rw [hsame, kind_of_eq_ok hs hkind he]
    exact htable
  exact
    { operates := hoperates
      alters := halters
      follows := hfollows'
      unreferred := False.elim
      obtains := fun ht => ⟨not_false, .kept ht⟩
      uses := fun {t} ht => by
        obtain rfl := ht.resolve_right not_false
        exact .inl hreferent
      stores := fun {r t} hstored => by
        obtain ⟨rfl, rfl⟩ := hstored
        exact ⟨hwriter, hreferent, not_false⟩
      barrier := fun hp r t hstored hblack _ => by
        obtain ⟨rfl, rfl⟩ := hstored
        exact ⟨hbarrier hp hblack, fun x hx => hnot hx⟩
      strong := fun {r v} ht hstrong => by
        by_cases hr : r = writer
        · -- the writer has no weak sides
          subst hr
          obtain ⟨x, hx, hrefers, -⟩ := hstrong
          rcases hfollows'.edge ⟨x, hx, hrefers⟩ with ⟨e, he, hv⟩ | hstored
          · refine .inl ⟨e, he, hv, .inl (Graph.isWeak_of_ne_table ?_ v)⟩
            rw [kind_of_eq_ok hs hkind he]
            exact htable
          · exact .inr (.inl (hstored.2 ▸ hreferent))
        · exact .inl (strong_of_follows halters hfollows' ht hstrong fun t hstored => hr hstored.1) }

/-- A change of a table or a thread, with the barrier for it. -/
theorem storeBack_effect {container : Ref} {kind : Kind} {program : σ} {h : Heap} (hs : c.heap.Sound)
    (hhands : ∀ t, c.hands t → c.space.Survives t) (hcontainer : c.hands container)
    (hkind : c.heap.kind container = .ok kind) (haggregate : kind.isAggregate = true)
    (hfollows : (c.graph mu).Follows c.space (mu.graph program) c.space c.hands
      (fun r t => r = container ∧ c.hands t))
    (hrun : c.heap.barrierBack container = .ok h) :
    Effect mu c ⟨⟨program, h⟩, fun t => c.hands t ∨ ∃ v, (mu.graph program).Strong c.space container v ∧
      ¬ (c.graph mu).Strong c.space container v ∧ v.target = t⟩ (· = container) Heap.noObject Heap.noObject
      (fun r t => r = container ∧ c.hands t) := by
  obtain ⟨e, he, -⟩ := hhands container hcontainer
  have hleaf : e.header.kind.isLeaf = false := by
    rw [kind_of_eq_ok hs hkind he]
    revert haggregate
    cases kind <;> decide
  obtain ⟨halters, hbarrier⟩ := Heap.Alters.regreys hs he hleaf (Heap.barrierBack_eq_ok hs he hrun).2
  have hinherits : c.space.Inherits h.space := inherits_of_alters halters
  have hfollows' := hfollows.inherited hinherits
  exact
    { operates := .single (.barrierBack (hs.live_iff.2 (hhands container hcontainer)) hrun)
      alters := halters
      follows := hfollows'
      unreferred := False.elim
      obtains := fun {t} ht => by
        refine ⟨not_false, ?_⟩
        rcases ht with ht | ⟨v, ⟨x, hx, hv, -⟩, -, rfl⟩
        · exact .kept ht
        · obtain ⟨y, hy, hres, -⟩ := (halters.stays not_false not_false).entity hx
          exact .strengthened hcontainer ⟨y, hy, by rw [hres.kind]; exact hv⟩ rfl
      uses := fun {t} ht => by
        obtain rfl := ht.resolve_right not_false
        exact .inl hcontainer
      stores := fun {r t} hstored => by
        obtain ⟨rfl, ht⟩ := hstored
        exact ⟨hcontainer, ht, not_false⟩
      barrier := fun hp r t hstored hblack hq => by
        obtain ⟨rfl, -⟩ := hstored
        exact absurd (hbarrier hp hblack) hq
      strong := fun {r v} ht hstrong => by
        by_cases hr : r = container
        · subst hr
          -- the reference was strong before the barrier too
          have hbefore : (mu.graph program).Strong c.space r v := by
            obtain ⟨x, hx, hv, hholds⟩ := hstrong
            obtain ⟨y, hy, hsame, -⟩ := hinherits _ _ hx
            rw [hsame] at hv hholds
            exact ⟨y, hy, hv, hholds.imp_right (isString_of_alters halters ht)⟩
          by_cases hold : (c.graph mu).Strong c.space r v
          · exact .inl hold
          · exact .inr (.inr (.inr ⟨v, hbefore, hold, rfl⟩))
        · exact .inl (strong_of_follows halters hfollows' ht hstrong fun t hstored => hr hstored.1) }

/-- Changing an object that is at hand, and nothing else. -/
theorem touch_effect {h : Heap} (hr : c.hands r)
    (hoperates : Heap.Operation Heap.unstranded c.heap h)
    (halters : c.heap.Alters h (· = r) Heap.noObject Heap.noObject) :
    Effect mu c ⟨⟨c.machine.program, h⟩, c.hands⟩ (· = r) Heap.noObject Heap.noObject Graph.storeless := by
  refine .of_storeless (.single hoperates) halters
    ((follows_of_eq rfl).inherited (inherits_of_alters halters)) (fun ht => .kept ht) ?_
  rintro t rfl
  exact .inl hr

/-- A setting has no effect on the objects. -/
theorem setting_effect {h : Heap} (hoperates : Heap.Operation Heap.unstranded c.heap h)
    (halters : c.heap.Alters h Heap.noObject Heap.noObject Heap.noObject) :
    Effect mu c ⟨⟨c.machine.program, h⟩, c.hands⟩ Heap.noObject Heap.noObject Heap.noObject
      Graph.storeless :=
  .of_storeless (.single hoperates) halters ((follows_of_eq rfl).inherited (inherits_of_alters halters))
    (fun ht => .kept ht) False.elim

/-- What any act does. -/
theorem Act.effect (hs : c.heap.Sound) (hhands : ∀ t, c.hands t → c.space.Survives t) (hact : Act mu c d) :
    ∃ used fresh gone stored, Effect mu c d used fresh gone stored := by
  have hentity : ∀ {r}, c.hands r → ∀ {e}, (c.space.slot r).entity? = some e → e.survives = true := by
    intro r hr e he
    obtain ⟨x, hx, hsurvives⟩ := hhands r hr
    rw [he] at hx
    cases hx
    exact hsurvives
  cases hact with
  | compute hfollows =>
    exact ⟨_, _, _, _, .of_storeless .refl (@Heap.Alters.refl Heap.noObject _) hfollows (fun ht => .kept ht)
      False.elim⟩
  | @take r hreads =>
    refine ⟨_, _, _, _, .of_storeless .refl (@Heap.Alters.refl Heap.noObject _) (follows_of_eq rfl) ?_ False.elim⟩
    rintro t (ht | rfl)
    · exact .kept ht
    · exact .read hreads
  | forget hfewer =>
    exact ⟨_, _, _, _, .of_storeless .refl (@Heap.Alters.refl Heap.noObject _) (follows_of_eq rfl)
      (fun ht => .kept (hfewer _ ht)) False.elim⟩
  | alloc hfresh hrun hfollows =>
    obtain ⟨used, fresh, heffect⟩ := alloc_effect hs hfresh hrun hfollows
    exact ⟨_, _, _, _, heffect⟩
  | intern hfresh hrun hfollows =>
    obtain ⟨used, fresh, heffect⟩ := intern_effect hs hfresh hrun hfollows
    exact ⟨_, _, _, _, heffect⟩
  | free hr hroot hreferred hrun hfollows =>
    exact ⟨_, _, _, _, free_effect hs hhands hr hroot hreferred hrun hfollows⟩
  | storeBack hcontainer hkind haggregate hfollows hrun =>
    exact ⟨_, _, _, _, storeBack_effect hs hhands hcontainer hkind haggregate hfollows hrun⟩
  | @storeSlot writer referent _ _ hwriter hreferent hkind hfollows hrun =>
    obtain ⟨e, he, -⟩ := hhands writer hwriter
    obtain ⟨x, hx, -⟩ := hhands referent hreferent
    obtain ⟨halters, hnoted⟩ := Heap.Alters.forwards he hx (fun _ hrec => by
      obtain ⟨s', rfl, hshades⟩ := hrec
      exact ⟨.shades hshades fun t ht => .inl (List.mem_singleton.1 ht),
        .inl (hshades.black (List.mem_singleton_self _) ⟨x, hx⟩)⟩) (Heap.barrierSlot_eq_ok hs he hx hrun).2
    exact ⟨_, _, _, _, store_effect hs hwriter hreferent hkind (by decide) hfollows (.single (.barrierSlot
      (hs.live_iff.2 (hhands _ hwriter)) (hs.live_iff.2 (hhands _ hreferent)) hrun)) halters hnoted⟩
  | @storeForward writer referent _ _ _ hwriter hreferent hkind haggregate _ hfollows hrun =>
    obtain ⟨e, he, -⟩ := hhands writer hwriter
    obtain ⟨x, hx, -⟩ := hhands referent hreferent
    obtain ⟨halters, hnoted⟩ := Heap.Alters.forwards he hx (fun _ hrec => Heap.Alters.records ⟨x, hx⟩ hrec)
      (Heap.barrierForward_eq_ok hs he hx hrun).2
    refine ⟨_, _, _, _, store_effect hs hwriter hreferent hkind ?_ hfollows (.single (.barrierForward
      (hs.live_iff.2 (hhands _ hwriter)) (hs.live_iff.2 (hhands _ hreferent)) hrun)) halters hnoted⟩
    rintro rfl
    cases haggregate
  | @fix r _ hr hrun =>
    obtain ⟨e, s', he, rfl, hrev⟩ := Heap.fix_eq_ok hs hrun
    exact ⟨_, _, _, _, touch_effect hr (.fix (hs.live_iff.2 (hhands r hr)) hrun)
      (.revise hrev (.of_used rfl he rfl ⟨rfl, rfl, rfl, rfl⟩ id (fun _ => id) rfl id)
        fun _ hblack => by
          obtain ⟨x, hx, hm⟩ := hblack
          rw [he] at hx
          cases hx
          exact ⟨_, rfl, hm⟩)⟩
  | @registerFinalizer r _ hr hrun =>
    obtain ⟨e, s', he, rfl, hrev⟩ := Heap.registerFinalizer_eq_ok hs hrun
    refine ⟨_, _, _, _, touch_effect hr (.registerFinalizer (hs.live_iff.2 (hhands r hr)) hrun) (.revise hrev ?_ ?_)⟩
    · split
      · exact .refl _
      · exact .of_used rfl he rfl ⟨rfl, rfl, rfl, rfl⟩ id (fun _ => id) rfl id
    · rintro _ ⟨x, hx, hm⟩
      split
      · exact ⟨x, hx, hm⟩
      · rw [he] at hx
        cases hx
        exact ⟨_, rfl, hm⟩
  | @writePayload r _ _ _ hr hfits hrun =>
    obtain ⟨e, content, s', he, -, rfl, hrev⟩ := Heap.writePayload_eq_ok hs hfits hrun
    exact ⟨_, _, _, _, touch_effect hr (.writePayload (hs.live_iff.2 (hhands r hr)) hfits hrun)
      (.revise hrev (.of_used rfl he rfl ⟨rfl, rfl, rfl, rfl⟩ id (fun _ => id) rfl id)
        fun _ hblack => by
          obtain ⟨x, hx, hm⟩ := hblack
          rw [he] at hx
          cases hx
          exact ⟨_, rfl, hm⟩)⟩
  | setTraceActive active => exact ⟨_, _, _, _, setting_effect (.setTraceActive active) { Heap.Alters.refl _ with }⟩
  | setPause percent => exact ⟨_, _, _, _, setting_effect (.setPause percent) { Heap.Alters.refl _ with }⟩
  | setStepMultiplier percent =>
    exact ⟨_, _, _, _, setting_effect (.setStepMultiplier percent) { Heap.Alters.refl _ with }⟩

end Stage

end Tricolor
