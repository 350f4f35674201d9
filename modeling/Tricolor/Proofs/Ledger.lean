import Tricolor.Proofs.Cycle.Calls
import Tricolor.Proofs.Graph

/-!
# Ledgers

A ledger is a program that has all its references written down: its roots, the slots of its
objects, the entries of its tables with their weak modes, and the objects that are not to be
finalized. Its finalizers do nothing. It keeps the contract of the queries.
-/

namespace Tricolor

/-- A program that has its references written down. -/
structure Ledger where
  roots : List Ref := []
  /-- the references of objects, each with the object that holds it -/
  slots : List (Ref × Ref) := []
  /-- the entries of tables: the table, the key and the value -/
  entries : List (Ref × Ref × Ref) := []
  /-- the tables that are weak -/
  modes : List (Ref × WeakMode) := []
  /-- the objects that need no finalizer any more -/
  declined : List Ref := []

namespace Ledger

variable {l l' : Ledger} {r t : Ref} {v : Visit}

/-- The weak mode of a table. -/
def mode (l : Ledger) (t : Ref) : WeakMode := (l.modes.lookup t).getD .none

/-- What the entries of a table refer to. -/
def entryVisits (l : Ledger) (t : Ref) : List Visit :=
  (l.entries.filter (·.1 = t)).flatMap fun e => [.key e.2.1, .value e.2.2]

/-- What an object refers to. -/
def visits (l : Ledger) (r : Ref) (kind : Kind) : List Visit :=
  if kind.isLeaf then []
  else ((l.slots.filter (·.1 = r)).map fun s => .strong s.2) ++
    (if kind = .table then l.entryVisits r else [])

/-- Whether a side of an entry is weak and dead. -/
def deadSide (isWeak : Bool) (isDead : Ref → Except Fault Bool) (r : Ref) : Except Fault Bool :=
  if isWeak then isDead r else pure false

/-- Whether an entry stays in the table `t` when it is cleared: it does unless a weak side is
dead. -/
def stays (mode : WeakMode) (t : Ref) (isDead : Ref → Except Fault Bool) (e : Ref × Ref × Ref) :
    Except Fault Bool := do
  if e.1 = t then
    let deadKey ← deadSide mode.weakKeys isDead e.2.1
    let deadValue ← deadSide mode.weakValues isDead e.2.2
    return !deadKey && !deadValue
  else
    return true

/-- A ledger as a program. Traversing any object costs its header and sixteen bytes. -/
def mutator : Mutator Ledger where
  roots l := (l.roots, l)
  visits l r kind _ := (l.visits r kind, l)
  cost _ _ _ := headerBytes + cellBytes
  isFinalizable l r := !l.declined.contains r
  weakMode l t := l.mode t
  clearWeak l t isDead := do
    return { l with entries := ← l.entries.filterM (stays (l.mode t) t isDead) }
  suspendHooks l _ := l
  runFinalizer l h _ := .ok (.ok (), l, h)

theorem mem_entryVisits : v ∈ l.entryVisits t ↔
    ∃ k w, (t, k, w) ∈ l.entries ∧ (v = .key k ∨ v = .value w) := by
  simp only [entryVisits, List.mem_flatMap, List.mem_filter, decide_eq_true_eq, List.mem_cons,
    List.not_mem_nil, or_false]
  constructor
  · rintro ⟨⟨t', k, w⟩, ⟨hmem, rfl⟩, hv⟩
    exact ⟨k, w, hmem, hv⟩
  · rintro ⟨k, w, hmem, hv⟩
    exact ⟨(t, k, w), ⟨hmem, rfl⟩, hv⟩

theorem refers_iff {kind : Kind} : (mutator.graph l).refers r kind v ↔ kind.isLeaf = false ∧
    ((∃ x, (r, x) ∈ l.slots ∧ v = .strong x) ∨ kind = .table ∧ v ∈ l.entryVisits r) := by
  show v ∈ l.visits r kind ↔ _
  rw [visits]
  cases hleaf : kind.isLeaf with
  | true => simp
  | false =>
    by_cases hk : kind = .table
    · simp [hk, Prod.exists, eq_comm]
    · simp [hk, Prod.exists, eq_comm]

/-- A filter keeps what passes its test. -/
theorem mem_filterM {α : Type} {p : α → Except Fault Bool} {l ys : List α} {x : α}
    (h : l.filterM p = .ok ys) : x ∈ ys ↔ x ∈ l ∧ p x = .ok true := by
  have haux : ∀ (l acc ys : List α), l.filterAuxM p acc = .ok ys →
      (x ∈ ys ↔ x ∈ acc ∨ x ∈ l ∧ p x = .ok true) := by
    intro l
    induction l with
    | nil =>
      intro acc ys h
      cases h
      simp
    | cons y rest ih =>
      intro acc ys h
      rw [List.filterAuxM] at h
      obtain ⟨b, hb, h⟩ := bind_eq_ok_iff.1 h
      rw [ih _ ys h, List.mem_cons]
      by_cases hxy : x = y
      · subst hxy
        cases b <;> simp [hb]
      · cases b <;> simp [hxy]
  obtain ⟨rev, hrev, hys⟩ := bind_eq_ok_iff.1 h
  cases hys
  rw [List.mem_reverse, haux l [] rev hrev]
  simp

/-- What stays in a cleared table has no dead weak side. -/
theorem stays_alive {mode : WeakMode} {isDead : Ref → Except Fault Bool} {k w : Ref}
    (h : stays mode t isDead (t, k, w) = .ok true) :
    (mode.weakKeys = true → isDead k = .ok false) ∧ (mode.weakValues = true → isDead w = .ok false) := by
  rw [stays, if_pos rfl] at h
  obtain ⟨deadKey, hkey, h⟩ := bind_eq_ok_iff.1 h
  obtain ⟨deadValue, hvalue, h⟩ := bind_eq_ok_iff.1 h
  have hdead : (!deadKey && !deadValue) = true := Except.ok.inj h
  rw [Bool.and_eq_true, Bool.not_eq_true', Bool.not_eq_true'] at hdead
  obtain ⟨rfl, rfl⟩ := hdead
  constructor
  · intro hm
    rwa [deadSide, if_pos hm] at hkey
  · intro hm
    rwa [deadSide, if_pos hm] at hvalue

theorem clearWeak_cleared {isDead : Ref → Except Fault Bool}
    (h : mutator.clearWeak l t isDead = .ok l') :
    (mutator.graph l).Cleared t isDead (mutator.graph l') := by
  obtain ⟨entries, hfilter, hl⟩ := bind_eq_ok_iff.1 h
  cases hl
  have hfewer : ∀ {x v}, v ∈ entryVisits { l with entries } x → v ∈ l.entryVisits x := by
    intro x v hv
    obtain ⟨k, w, hmem, hv⟩ := mem_entryVisits.1 hv
    exact mem_entryVisits.2 ⟨k, w, ((mem_filterM hfilter).1 hmem).1, hv⟩
  have hothers : ∀ {x v}, x ≠ t → v ∈ l.entryVisits x → v ∈ entryVisits { l with entries } x := by
    intro x v hx hv
    obtain ⟨k, w, hmem, hv⟩ := mem_entryVisits.1 hv
    exact mem_entryVisits.2 ⟨k, w, (mem_filterM hfilter).2 ⟨hmem, by rw [stays, if_neg hx]; rfl⟩, hv⟩
  refine ⟨rfl, rfl, fun r hr => ?_, fun {kind v} hv => ?_, fun {v} hv hweak => ?_⟩
  · funext kind v
    refine propext ⟨fun hv => ?_, fun hv => ?_⟩ <;> obtain ⟨hleaf, hv⟩ := refers_iff.1 hv <;>
      refine refers_iff.2 ⟨hleaf, hv.imp_right fun hv => ⟨hv.1, ?_⟩⟩
    · exact hfewer hv.2
    · exact hothers hr hv.2
  · obtain ⟨hleaf, hv⟩ := refers_iff.1 hv
    exact refers_iff.2 ⟨hleaf, hv.imp_right fun hv => ⟨hv.1, hfewer hv.2⟩⟩
  · obtain ⟨-, ⟨x, -, rfl⟩ | ⟨-, hv⟩⟩ := refers_iff.1 hv
    · cases hweak
    · obtain ⟨k, w, hmem, rfl | rfl⟩ := mem_entryVisits.1 hv
      · exact (stays_alive ((mem_filterM hfilter).1 hmem).2).1 hweak
      · exact (stays_alive ((mem_filterM hfilter).1 hmem).2).2 hweak

/-- A ledger keeps the contract of the queries. -/
theorem faithful : mutator.Faithful where
  roots _ := rfl
  visits _ _ _ _ := rfl
  suspendHooks _ _ := rfl
  leaf h := (refers_iff.1 h).1
  clearWeak := clearWeak_cleared

/-- The finalizers of a ledger do nothing. -/
theorem finalizersOperate (allowed : Heap.Resizings) (config : Config) (hashOf : List UInt8 → Hash) :
    Machine.FinalizersOperate mutator allowed config hashOf := by
  intro program program' h h' r result _ hrun
  cases hrun
  exact .refl

end Ledger

/-! ## Supplies of one page -/

/-- A supply that has one page to give. -/
def Supply.page (p : Page) : Supply := fun size => if size ≤ pageBytes then some p else none

/-- A region of at most one page is one page. -/
theorem Page.Within.eq_start {q start size : Nat} (h : Page.Within q start size) (hsize : size ≤ pageBytes) :
    q = start := by
  obtain ⟨hle, hlt⟩ := h
  simp only [pageBytes] at hlt hsize
  omega

/-- A supply of one page keeps its promise if nothing is there yet. -/
theorem Supply.page_fresh {s : Space} {p : Page} (hp : p ≠ 0 ∧ p < pageCount)
    (hindex : s.indices[p]? = none)
    (hblocks : ∀ b ∈ s.blocks.entries, b.page ≠ p ∧ b.size ≤ pageBytes) (old : Page) :
    (Supply.page p).Fresh s old := by
  intro n start hstart
  rw [Supply.page] at hstart
  split at hstart
  · next hn =>
    cases hstart
    refine ⟨hp.1, fun q hq => ?_⟩
    obtain rfl := hq.eq_start hn
    refine ⟨hp.2, hindex, fun p' b _ hb hwithin => ?_⟩
    obtain ⟨hne, hsize⟩ := hblocks b (List.mem_of_find?_eq_some hb)
    have hpage : b.page = p' := by simpa using List.find?_some hb
    exact hne (hpage.trans (hwithin.eq_start hsize).symm)
  · cases hstart

end Tricolor
