import Tricolor.Proofs.Arena.History
import Tricolor.Proofs.Space.Resizing

/-!
# Finding a place for a small object

Every arena is asked for the cells of a small object, the current one first, and one that hosts the object has
them in its bump region or in its shortest free run that is long enough. A new arena is added only if all
others are full, and a new arena has room.
-/

namespace Tricolor

namespace Arena

variable {a a' : Arena} {head cells : Nat}

/-- `a'` is `a` with one more object, of `cells` cells from `head` on. -/
structure Hosts (a : Arena) (cells head : Nat) (a' : Arena) : Prop where
  ge : firstCell ≤ head
  le : head + cells ≤ arenaCells
  /-- no object has one of the cells -/
  vacant : ∀ c n, a.objectCells c = .ok n → c + n ≤ head ∨ head + cells ≤ c
  length : a'.objectCells head = .ok cells
  /-- it is marked exactly if it is to outlive a sweep that is still to come -/
  colour : a'.cellState head = .ok (if a.needsSweep then .black else .white)
  /-- every other object is as it was -/
  others : ∀ c n, a.objectCells c = .ok n → a'.objectCells c = .ok n ∧ a'.cellState c = a.cellState c
  only : ∀ c n, a'.objectCells c = .ok n → c = head ∨ a.objectCells c = .ok n
  /-- so is every free run but the one that the cells are from -/
  claims : ∃ before after, a.Lists before ∧ a'.Lists after ∧ a.Claims cells head a' before after
  used : a'.used = a.used + cells
  isEmpty : a'.isEmpty = false
  keeps : a.Keeps a'
  fixed : a'.fixed = a.fixed
  needsSweep : a'.needsSweep = a.needsSweep
  tiled : a'.Tiled

theorem objectCells_eq_ok_iff {c n : Nat} : a.objectCells c = .ok n ↔ a.isAllocated c = true ∧ a.extent c = n := by
  constructor
  · intro h
    obtain ⟨_, hlive, -⟩ := bind_eq_ok_iff.1 h
    have hc := require_eq_ok_iff.1 hlive
    exact ⟨hc, Except.ok.inj ((objectCells_eq hc).symm.trans h)⟩
  · rintro ⟨hc, rfl⟩
    exact objectCells_eq hc

theorem Placed.hosts (ha : a.Tiled) (h : Placed a a' head cells a.needsSweep)
    (hclaims : ∃ before after, a.Lists before ∧ a'.Lists after ∧ a.Claims cells head a' before after) :
    a.Hosts cells head a' := by
  have hhead : a'.isAllocated head = true := (h.allocated head).2 (.inl rfl)
  have hstate : ∀ {b : Arena} {c : Nat}, b.Tiled → b.isAllocated c = true →
      b.cellState c = .ok (if b.mark.get c then .black else .white) := by
    rintro b c ⟨chains, ht⟩ hc
    obtain ⟨-, hlt, hblock⟩ := isAllocated_iff.1 hc
    rw [cellState_eq_ofBits (lt_of_lt_of_le hlt ht.top_le), hblock]
    cases b.mark.get c <;> rfl
  refine
    { ge := h.head_ge
      le := h.end_le
      vacant := fun c n hc => ?_
      length := objectCells_eq_ok_iff.2 ⟨hhead, h.extent_head⟩
      colour := by rw [hstate h.tiled hhead, h.mark_head]
      others := fun c n hc => ?_
      only := fun c n hc => ?_
      claims := hclaims
      used := h.used
      isEmpty := h.isEmpty
      keeps := h.keeps
      fixed := h.fixed
      needsSweep := h.needsSweep
      tiled := h.tiled }
  · obtain ⟨halloc, rfl⟩ := objectCells_eq_ok_iff.1 hc
    have hne : c ≠ head := fun heq => Bool.false_ne_true (h.vacant.symm.trans (heq ▸ halloc))
    have hapart := h.tiled.apart ((h.allocated c).2 (.inr halloc)) hhead hne
    rwa [h.extent c halloc, h.extent_head] at hapart
  · obtain ⟨halloc, rfl⟩ := objectCells_eq_ok_iff.1 hc
    have halloc' := (h.allocated c).2 (.inr halloc)
    rw [objectCells_eq_ok_iff, hstate h.tiled halloc', hstate ha halloc, h.mark c halloc]
    exact ⟨⟨halloc', h.extent c halloc⟩, rfl⟩
  · obtain ⟨halloc, rfl⟩ := objectCells_eq_ok_iff.1 hc
    refine ((h.allocated c).1 halloc).imp_right fun halloc => objectCells_eq_ok_iff.2 ⟨halloc, ?_⟩
    exact (h.extent c halloc).symm

/-- An arena that is asked for cells hosts an object, or is full. -/
theorem alloc_hosts (ha : a.Tiled) (hpos : 0 < cells) (hle : cells ≤ usableCells) :
    (a.Full cells ∧ a.alloc cells a.needsSweep = .ok (none, a)) ∨
      ∃ head a', a.Hosts cells head a' ∧ a.alloc cells a.needsSweep = .ok (some head, a') := by
  have hrange : a.top + cells < halfWordRange := by
    obtain ⟨chains, htiled⟩ := ha
    have htop := htiled.top_le
    have : usableCells = 64512 := rfl
    have : halfWordRange = 4294967296 := rfl
    rw [arenaCells_eq] at htop
    omega
  obtain ⟨found, a', hrun, hspec⟩ := alloc_claims ha hpos hrange a.needsSweep
  cases found with
  | none =>
    obtain ⟨rfl, hfull⟩ := hspec
    exact .inl ⟨hfull, hrun⟩
  | some head => exact .inr ⟨head, a', hspec.1.hosts ha hspec.2, hrun⟩

/-- A new arena is not full. -/
theorem not_full_new (page : Page) (index : Nat) (hle : cells ≤ usableCells) : ¬ (new page index).Full cells := by
  rintro ⟨hlt, -⟩
  have htop : (new page index).top = 1024 := rfl
  have : usableCells = 64512 := rfl
  rw [htop, arenaCells_eq] at hlt
  omega

end Arena

namespace Space

variable {s s' : Space} {supply : Supply} {a a' : Arena} {i head cells : Nat}

/-- The space with `a'` in the place of an arena, which becomes the current one, and with `cells` cells more
in use. -/
def hosting (s : Space) (i : Nat) (a' : Arena) (cells : Nat) : Space :=
  { s with arenas := s.arenas.setIfInBounds i a', current := some i, total := s.total + cells * cellBytes }

/-- The space with a new arena. -/
def enlarged (s : Space) (page : Page) : Space :=
  { s with arenas := s.arenas.push (.new page s.arenas.size), indices := s.indices.insert page s.arenas.size }

theorem allocIn_of_full (ha : s.arenas[i]? = some a) (hrun : a.alloc cells a.needsSweep = .ok (none, a)) :
    s.allocIn i cells = .ok (none, s) := by
  rw [allocIn]
  refine bind_eq_ok_iff.2 ⟨(none, s), updateArena_eq_ok_iff'.2 ⟨a, a, ha, ?_, (setArena_self ha).symm⟩, rfl⟩
  exact bind_eq_ok_iff.2 ⟨_, hrun, rfl⟩

/-- Cells are in use once they are counted. -/
theorem grow_bind {α : Type} {n : Nat} (f : Space → Except Fault α) :
    s.grow n >>= f = checkedAdd wordRange s.total n >>= fun _ => f { s with total := s.total + n } := by
  rw [grow]
  cases h : checkedAdd wordRange s.total n with
  | error => rfl
  | ok total =>
    obtain ⟨-, rfl⟩ := checkedAdd_eq_ok_iff.1 h
    rfl

theorem allocIn_of_hosts (ha : s.arenas[i]? = some a) (hosts : a.Hosts cells head a')
    (hrun : a.alloc cells a.needsSweep = .ok (some head, a')) :
    s.allocIn i cells = do
      let _ ← checkedAdd wordRange s.total (cells * cellBytes)
      return (some (a.object head), { s.hosting i a' cells with current := s.current }) := by
  have hobject : a'.object head = a.object head := by rw [Arena.object, Arena.object, hosts.keeps.page]
  have hret : Except.ok ((some head).map a'.object, a') = (.ok (some (a.object head), a') : Except Fault _) :=
    hobject ▸ rfl
  rw [allocIn]
  refine Eq.trans (congrArg (fun x => Except.bind x _) (updateArena_eq_ok_iff'.2 ⟨a, a', ha, bind_eq_ok_iff.2
    ⟨_, hrun, hret⟩, rfl⟩)) (grow_bind _)

/-- Of several arenas either all are full, or one hosts the object. -/
theorem allocAmong_hosts (htiled : ∀ {i : Nat} {a : Arena}, s.arenas[i]? = some a → a.Tiled) (hpos : 0 < cells)
    (hle : cells ≤ usableCells) {indices : List Nat} (hindices : ∀ i ∈ indices, i < s.arenas.size) :
    ((∀ i ∈ indices, ∀ a, s.arenas[i]? = some a → a.Full cells) ∧
      s.allocAmong cells indices = .ok (none, s)) ∨
    ∃ i a head a', s.arenas[i]? = some a ∧ a.Hosts cells head a' ∧
      s.allocAmong cells indices = do
        let _ ← checkedAdd wordRange s.total (cells * cellBytes)
        return (some (a.object head), s.hosting i a' cells) := by
  induction indices with
  | nil => exact .inl ⟨fun i hi => absurd hi List.not_mem_nil, rfl⟩
  | cons i rest ih =>
    obtain ⟨a, ha⟩ : ∃ a, s.arenas[i]? = some a :=
      ⟨_, Array.getElem?_eq_getElem (hindices i List.mem_cons_self)⟩
    rcases Arena.alloc_hosts (htiled ha) hpos hle with ⟨hfull, hrun⟩ | ⟨head, a', hosts, hrun⟩
    · have hnext : s.allocAmong cells (i :: rest) = s.allocAmong cells rest := by
        rw [allocAmong, allocIn_of_full ha hrun]
        rfl
      rw [hnext]
      refine (ih fun j hj => hindices j (List.mem_cons_of_mem i hj)).imp_left (And.imp_left fun hall => ?_)
      intro j hj b hb
      rcases List.mem_cons.1 hj with rfl | hj
      · cases ha.symm.trans hb
        exact hfull
      · exact hall j hj b hb
    · refine .inr ⟨i, a, head, a', ha, hosts, ?_⟩
      rw [allocAmong, allocIn_of_hosts ha hosts hrun]
      cases checkedAdd wordRange s.total (cells * cellBytes) <;> rfl

/-- All arenas but the current one are tried. -/
theorem mem_otherArenas : i ∈ s.otherArenas ↔ i < s.arenas.size ∧ s.current ≠ some i := by
  simp only [otherArenas, List.mem_append, List.mem_filter, List.mem_range, bne_iff_ne]
  cases (s.arenas[i]?).any (·.isEmpty) <;> simp

/-- What becomes of a request for `cells` cells. -/
inductive Settles (s : Space) (supply : Supply) (cells : Nat) : Except AllocError Ref → Space → Prop where
  /-- an arena hosts the object -/
  | arena {i head : Nat} {a a' : Arena} : s.arenas[i]? = some a → a.Hosts cells head a' →
      Settles s supply cells (.ok (a.object head)) (s.hosting i a' cells)
  /-- all are full, and a new one does -/
  | enlarged {page : Page} {head : Nat} {a' : Arena} : (∀ a ∈ s.arenas, a.Full cells) →
      supply pageBytes = some page → (Arena.new page s.arenas.size).Hosts cells head a' →
      Settles s supply cells (.ok ⟨page, head⟩) ((s.enlarged page).hosting s.arenas.size a' cells)
  /-- all are full, and a new one is refused -/
  | refused : (∀ a ∈ s.arenas, a.Full cells) → supply pageBytes = none →
      Settles s supply cells (.error (.outOfMemory pageBytes)) s

/-- The answer settles a request, provided that the cells of an object can be counted. -/
def Settled (s : Space) (supply : Supply) (cells : Nat)
    (answer : Except Fault (Except AllocError Ref × Space)) : Prop :=
  ∃ result s', s.Settles supply cells result s' ∧
    (answer = .ok (result, s') ∨
      ∃ r, result = .ok r ∧ answer = do
        let _ ← checkedAdd wordRange s.total (cells * cellBytes)
        return (result, s'))

/-- The request is settled by the answer that it gets. -/
theorem Settled.settles {answer : Except Fault (Except AllocError Ref × Space)} {result : Except AllocError Ref}
    (h : s.Settled supply cells answer) (hanswer : answer = .ok (result, s')) :
    s.Settles supply cells result s' := by
  obtain ⟨result₀, s₀, hsettles, heq | ⟨_, -, heq⟩⟩ := h
  · cases heq.symm.trans hanswer
    exact hsettles
  · -- the cells were counted
    obtain ⟨_, -, hret⟩ := bind_eq_ok_iff.1 (heq.symm.trans hanswer)
    cases hret
    exact hsettles

theorem allocElsewhere_settled (htiled : ∀ {i : Nat} {a : Arena}, s.arenas[i]? = some a → a.Tiled)
    (hcurrent : ∀ i a, s.current = some i → s.arenas[i]? = some a → a.Full cells) (hpos : 0 < cells)
    (hle : cells ≤ usableCells) : s.Settled supply cells (s.allocElsewhere supply cells) := by
  have hlt : ∀ i ∈ s.otherArenas, i < s.arenas.size := fun i hi => (mem_otherArenas.1 hi).1
  rcases allocAmong_hosts htiled hpos hle hlt with ⟨hfull, hnone⟩ | ⟨i, a, head, a', ha, hosts, hrun⟩
  · have hall : ∀ a ∈ s.arenas, a.Full cells := fun a ha => by
      obtain ⟨i, hi⟩ := Array.getElem?_of_mem ha
      by_cases hc : s.current = some i
      · exact hcurrent i a hc hi
      · exact hfull i (mem_otherArenas.2 ⟨(Array.getElem?_eq_some_iff.1 hi).1, hc⟩) a hi
    cases hp : supply pageBytes with
    | none =>
      refine ⟨_, _, .refused hall hp, .inl ?_⟩
      rw [allocElsewhere, hnone]
      simp only [addArena, hp]
      rfl
    | some page =>
      rcases Arena.alloc_hosts (Arena.tiled_new page s.arenas.size) hpos hle with
        ⟨hfull', -⟩ | ⟨head, a', hosts, hrun⟩
      · exact absurd hfull' (Arena.not_full_new _ _ hle)
      · refine ⟨_, _, .enlarged hall hp hosts, .inr ⟨_, rfl, ?_⟩⟩
        have hnew : ({ s.enlarged page with current := some s.arenas.size } : Space).arenas[s.arenas.size]? =
            some (.new page s.arenas.size) := by
          rw [enlarged, Array.getElem?_push, if_pos rfl]
        have halloc := allocIn_of_hosts hnew hosts hrun
        rw [allocElsewhere, hnone]
        simp only [addArena, hp]
        simp only [enlarged, bind, Except.bind, pure, Except.pure] at halloc ⊢
        rw [halloc]
        cases checkedAdd wordRange s.total (cells * cellBytes) <;> rfl
  · refine ⟨_, _, .arena ha hosts, .inr ⟨_, rfl, ?_⟩⟩
    rw [allocElsewhere, hrun]
    cases checkedAdd wordRange s.total (cells * cellBytes) <;> rfl

/-- Whatever the state of the arenas, the request is settled. -/
theorem allocCells_settled (htiled : ∀ {i : Nat} {a : Arena}, s.arenas[i]? = some a → a.Tiled)
    (hcurrent : ∀ i, s.current = some i → i < s.arenas.size) (hpos : 0 < cells) (hle : cells ≤ usableCells) :
    s.Settled supply cells (s.allocCells supply cells) := by
  rw [allocCells]
  cases hc : s.current with
  | none => exact allocElsewhere_settled htiled (fun i a hi _ => by rw [hc] at hi; cases hi) hpos hle
  | some i =>
    obtain ⟨a, ha⟩ : ∃ a, s.arenas[i]? = some a := ⟨_, Array.getElem?_eq_getElem (hcurrent i hc)⟩
    rcases Arena.alloc_hosts (htiled ha) hpos hle with ⟨hfull, hrun⟩ | ⟨head, a', hosts, hrun⟩
    · simp only [allocIn_of_full ha hrun]
      refine allocElsewhere_settled htiled (fun j b hj hb => ?_) hpos hle
      cases hc.symm.trans hj
      cases ha.symm.trans hb
      exact hfull
    · refine ⟨_, _, .arena ha hosts, .inr ⟨_, rfl, ?_⟩⟩
      simp only [allocIn_of_hosts ha hosts hrun, hosting, hc]
      cases checkedAdd wordRange s.total (cells * cellBytes) <;> rfl

end Space

end Tricolor
