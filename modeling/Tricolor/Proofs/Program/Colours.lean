import Tricolor.Proofs.Program.Ledgers
import Tricolor.Proofs.Program.Validity

/-!
# Marked objects hide nothing

While objects are being marked, an object that is marked and waits no more refers strongly only to
objects that are marked, or recorded in the store buffer. So no white object is kept alive by
objects that the collector will not look at again.
-/

namespace Tricolor

namespace Space

variable {s : Space} {r : Ref}

/-- The place has an entry in its grey queue: in the grey stack of its arena, or among the huge
blocks that wait. -/
def InQueue (s : Space) (r : Ref) : Prop :=
  if r.isHuge then r.page ∈ s.hugeGrey else ∃ a, s.arenaOf r = .ok a ∧ r.cell ∈ a.grey.cells

theorem inQueue_huge {p : Page} : s.InQueue (.huge p) ↔ p ∈ s.hugeGrey := iff_of_eq (if_pos rfl)

theorem inQueue_of_queued (h : s.Wf) (hr : s.Holds r) (hq : (s.slot r).queued) : s.InQueue r := by
  obtain ⟨e, he⟩ := hr
  rw [InQueue]
  split
  · next hhuge =>
    rw [slot_of_isHuge hhuge] at hq
    exact hq
  · next hhuge =>
    obtain ⟨a, ha, hslot⟩ := exists_arena (Bool.not_eq_true _ ▸ hhuge) he
    rw [hslot] at hq
    exact ⟨a, arenaOf_eq h ha, hq⟩

end Space

namespace Stage

variable {σ : Type} {mu : Mutator σ} {config : Config} {hashOf : List UInt8 → Hash} {c d : Stage σ}

/-- Objects that are marked and wait no more refer strongly only to what is marked or recorded. -/
def HidesNothing (mu : Mutator σ) (c : Stage σ) : Prop :=
  ∀ r v, c.heap.isLive r = true → c.space.isMarked r = .ok true → ¬ c.space.InQueue r →
    (c.graph mu).Strong c.space r v →
    c.space.isMarked v.target = .ok true ∨ v.target ∈ c.heap.stores.entries

/-- The marks are as promised at a valid stage. -/
theorem Valid.hidesNothing (hc : Valid mu config hashOf c) (hp : c.heap.phase.IsMarking) :
    c.HidesNothing mu := by
  intro r v hlive hmarked hwaits hstrong
  obtain ⟨e, he⟩ := hc.sound.isLive_iff.1 hlive
  have hm : e.marked = true := Except.ok.inj ((Space.isMarked_eq hc.sound.wf he).symm.trans hmarked)
  have hq : ¬ (c.space.slot r).queued := fun hq => hwaits (Space.inQueue_of_queued hc.sound.wf ⟨e, he⟩ hq)
  rcases (hc.treated hp).noted ⟨e, he, hm⟩ hq hstrong with ⟨x, hx, hmx⟩ | hmem
  · exact .inl ((Space.isMarked_eq hc.sound.wf hx).trans (by rw [hmx]))
  · exact .inr hmem

/-- While objects are being marked, at every stage of every run and after every call, objects that
are marked and wait no more hide nothing. -/
theorem marked_objects_hide_nothing (hmu : Orderly mu config hashOf) (hc : Reachable mu config hashOf c) :
    (c.heap.phase = .propagate ∨ c.heap.phase = .atomic → c.HidesNothing mu) ∧
      ∀ d, Call mu c d → d.heap.phase = .propagate ∨ d.heap.phase = .atomic → d.HidesNothing mu := by
  refine ⟨fun hp => (hc.valid hmu.toFaithful).hidesNothing hp, fun d hcall hp => ?_⟩
  obtain ⟨l, hrun⟩ := hmu.call hc hcall
  exact ((hc.passes hrun).valid hmu.toFaithful).hidesNothing hp

/-- A white thread that was stored into a black function is recorded. -/
theorem stored_thread_is_recorded : ∃ c d : Stage Ledger,
    Reachable Ledger.mutator Ledger.blocksOnly (fun _ => 0) c ∧ Call Ledger.mutator c d ∧
      d.space.isMarked (.huge 8) = .ok true ∧
      (d.graph Ledger.mutator).Strong d.space (.huge 8) (.strong (.huge 6)) ∧
      d.space.isMarked (.huge 6) = .ok false ∧ .huge 6 ∈ d.heap.stores.entries := by
  obtain ⟨l, m, h, hrun, -, hroot, hslot, hentry, htable, hkind, hbarrier, hp, hfunc, hlive, hmarked, hgrey,
    hwhite⟩ := Ledger.cache_stored
  obtain ⟨e, he, hk⟩ := (Option.any_eq_true _ _).1 htable
  have hk : e.header.kind = .table := of_decide_eq_true hk
  have hcalled := (Ledger.strong_slot hslot he (by rw [hk]; rfl)).edge
  have hvalue := Ledger.edge_value hentry he hk
  -- the program reads the table, and then the function and the thread from it
  let read : Stage Ledger := ⟨m, fun t => nothing t ∨ t = .huge 5⟩
  let found : Stage Ledger := ⟨m, fun t => read.hands t ∨ t = .huge 8⟩
  let both : Stage Ledger := ⟨m, fun t => found.hands t ∨ t = .huge 6⟩
  have hread : Act Ledger.mutator ⟨m, nothing⟩ read := .take (.root hroot)
  have hheld : read.hands (.huge 5) := .inr rfl
  have hfound : Act Ledger.mutator read found := .take (.referent hheld hcalled)
  have hheld' : found.hands (.huge 5) := .inl hheld
  have hboth : Act Ledger.mutator found both := .take (.referent hheld' hvalue)
  have hfollows : (both.graph Ledger.mutator).Follows both.space
      (Ledger.mutator.graph (Ledger.withSlot m (.huge 8) (.huge 6))) both.space both.hands
      (fun r t => r = .huge 8 ∧ t = .huge 6) :=
    Ledger.follows (fun _ => .inl) (fun x hx => (List.mem_cons.1 hx).symm.imp_right fun h => by
      rw [h]
      exact ⟨rfl, rfl⟩) (fun _ => .inl) fun _ _ => rfl
  have hfunction : both.hands (.huge 8) := .inl (.inr rfl)
  have hthread : both.hands (.huge 6) := .inr rfl
  have hstore := Act.storeForward hfunction hthread hkind rfl (by decide) hfollows hbarrier
  have hreach := ((((Ledger.cache_reachable.passes hrun).step (.act hread)).step (.act hfound)).step (.act hboth))
  have hhides := (marked_objects_hide_nothing (Ledger.orderly _ _) hreach).2 _ (.act hstore) (.inl hp)
  obtain ⟨x, hx, hxleaf⟩ := (Option.any_eq_true _ _).1 hfunc
  have hstrong : (Ledger.mutator.graph (Ledger.withSlot m (.huge 8) (.huge 6))).Strong h.space (.huge 8)
      (.strong (.huge 6)) := Ledger.strong_slot List.mem_cons_self hx (Bool.not_eq_true' _ ▸ hxleaf)
  refine ⟨both, _, hreach, .act hstore, hmarked, hstrong, hwhite, ?_⟩
  have hqueue : ¬ h.space.InQueue (.huge 8) := mt Space.inQueue_huge.1 hgrey
  refine (hhides _ _ hlive hmarked hqueue hstrong).resolve_left fun hblack => ?_
  cases hwhite.symm.trans hblack

end Stage

end Tricolor
