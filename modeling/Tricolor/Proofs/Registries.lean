import Tricolor.Proofs.Cycle.Calls
import Tricolor.Proofs.Cycle.Footprint
import Tricolor.Proofs.Heap.Fixing
import Tricolor.Proofs.Ledger

/-!
# Flags and registers

The header of an object says whether it is fixed and whether it is registered for finalization; the lists of
its arena, or those of the huge blocks, say it again. An object that is freed is looked for in the lists only
if its header says that it is there, and it is put onto a list only if its header does not say so. At every
point of a run the two agree: an object whose flag is set is listed once, and nothing else is listed.
-/

namespace Tricolor

namespace Space

variable {s : Space} {r : Ref} {a : Arena} {i c : Nat} {flag : Header → Bool}

/-- Whether there is an object at `r` whose header has the flag set. -/
def hasFlag (s : Space) (flag : Header → Bool) (r : Ref) : Bool :=
  s.isAllocated r && match s.header r with
    | .ok header => flag header
    | .error _ => false

/-- The flags in the headers of objects agree with the lists in which objects stand. -/
structure FlagsAgree (s : Space) : Prop where
  /-- an object has a header, and one that is no block lies in the only arena at its page -/
  header : ∀ r, s.isAllocated r = true → ∃ header, s.header r = .ok header
  own : ∀ r, s.isAllocated r = true → r.isHuge = false → (s.arenas.toList.map Arena.page).count r.page = 1
  /-- an object whose flag is set is listed once in its arena, and no other cell is -/
  fixed : ∀ a ∈ s.arenas, ∀ c, a.fixed.count c = (s.hasFlag Header.isFixed (a.object c)).toNat
  /-- whether its finalizer is due or not -/
  registered : ∀ a ∈ s.arenas, ∀ c,
    (a.finalizers.entries.map Prod.fst).count c = (s.hasFlag Header.hasFinalizer (a.object c)).toNat
  /-- the same holds of blocks, which are in either of two lists until their finalizers have run -/
  hugeFixed : ∀ p, s.hugeFixed.count p = (s.hasFlag Header.isFixed (.huge p)).toNat
  hugeRegistered : ∀ p,
    s.hugeFinalizers.count p + s.hugePending.count p = (s.hasFlag Header.hasFinalizer (.huge p)).toNat

theorem hasFlag_iff (h : s.Wf) :
    s.hasFlag flag r = true ↔ ∃ e, (s.slot r).entity? = some e ∧ flag e.header = true := by
  rw [hasFlag, Bool.and_eq_true, isAllocated_eq h]
  cases he : (s.slot r).entity? with
  | none => simp
  | some e => simp [header_eq h he]

/-- There is no block at the page of an arena. -/
theorem entity?_object_zero (h : s.Wf) (ha : s.arenas[i]? = some a) : (s.slot (a.object 0)).entity? = none := by
  by_contra hne
  obtain ⟨e, he⟩ := Option.ne_none_iff_exists'.1 hne
  obtain ⟨b, hb, -⟩ := exists_entry (r := a.object 0) rfl he
  have hindex := h.indices.2 ⟨a, ha, rfl⟩
  rw [h.apart hb (within_self a.page (lt_of_lt_of_le (by decide) (h.sizes hb).1))] at hindex
  cases hindex

theorem count_eq_toNat {α : Type} [BEq α] [LawfulBEq α] {xs : List α} {x : α} {b : Bool} (h : xs.Nodup)
    (hmem : x ∈ xs ↔ b = true) : xs.count x = b.toNat := by
  cases b with
  | true => exact List.count_eq_one_of_mem h (hmem.2 rfl)
  | false => exact List.count_eq_zero.2 fun hx => Bool.false_ne_true (hmem.1 hx)

end Space

namespace Heap

variable {h : Heap} {r : Ref} {a : Arena} {i c : Nat}

theorem Sound.fixed_iff (hs : h.Sound) : (h.space.slot r).fixed ↔ h.space.hasFlag Header.isFixed r = true := by
  rw [Space.hasFlag_iff hs.wf]
  constructor
  · intro hfixed
    obtain ⟨e, he⟩ := hs.listed r (.inl hfixed)
    exact ⟨e, he, (hs.fixedAgrees r e he).1 hfixed⟩
  · rintro ⟨e, he, hflag⟩
    exact (hs.fixedAgrees r e he).2 hflag

theorem Sound.registered_iff (hs : h.Sound) :
    (h.space.slot r).idle ∨ (h.space.slot r).pending ↔ h.space.hasFlag Header.hasFinalizer r = true := by
  rw [Space.hasFlag_iff hs.wf]
  constructor
  · intro hlisted
    obtain ⟨e, he⟩ := hs.listed r (.inr hlisted)
    exact ⟨e, he, (hs.registeredAgrees r e he).1 hlisted⟩
  · rintro ⟨e, he, hflag⟩
    exact (hs.registeredAgrees r e he).2 hflag

/-- What an arena lists of a cell is what is listed of the reference to it. -/
theorem Sound.listed_object (hs : h.Sound) (ha : h.space.arenas[i]? = some a) (c : Nat) :
    ((a.slot c).fixed ↔ (h.space.slot (a.object c)).fixed) ∧
      ((a.slot c).idle ∨ (a.slot c).pending ↔
        (h.space.slot (a.object c)).idle ∨ (h.space.slot (a.object c)).pending) := by
  by_cases hc : c = 0
  · subst hc
    obtain ⟨hfixed, hidle, hpending⟩ := hs.not_listed (Space.entity?_object_zero hs.wf ha)
    rw [hs.wf.zero ha]
    exact ⟨iff_of_false id hfixed, iff_of_false (or_self_iff.not.2 id) (not_or.2 ⟨hidle, hpending⟩)⟩
  · rw [Space.slot_object hs.wf ha hc]
    exact ⟨Iff.rfl, Iff.rfl⟩

theorem Sound.flagsAgree (hs : h.Sound) (hf : h.space.FixedOnce) : h.space.FlagsAgree where
  header r hr := by
    obtain ⟨e, he⟩ := hs.isLive_iff.1 hr
    exact ⟨_, Space.header_eq hs.wf he⟩
  own r hr hsmall := by
    obtain ⟨a, ha, -⟩ := (Space.isAllocated_small hsmall).1 hr
    obtain ⟨i, hi, hp⟩ := (Space.arena?_eq_some hs.wf).1 ha
    refine List.count_eq_one_of_mem hs.wf.indexed.nodup_pages ?_
    rw [← hp]
    exact List.mem_map_of_mem (Array.mem_toList_iff.2 (Array.mem_of_getElem? hi))
  fixed a ha c := by
    obtain ⟨i, hi⟩ := Array.getElem?_of_mem ha
    rw [← Array.count_toList]
    refine Space.count_eq_toNat (hf.arena hi) ?_
    rw [Array.mem_toList_iff, ← hs.fixed_iff, ← (hs.listed_object hi c).1]
    rfl
  registered a ha c := by
    obtain ⟨i, hi⟩ := Array.getElem?_of_mem ha
    refine Space.count_eq_toNat (hs.wf.sound hi).nodup ?_
    rw [← hs.registered_iff, ← (hs.listed_object hi c).2, List.mem_map]
    constructor
    · rintro ⟨⟨d, pending⟩, hd, rfl⟩
      cases pending with
      | false => exact .inl hd
      | true => exact .inr hd
    · rintro (hd | hd)
      · exact ⟨_, hd, rfl⟩
      · exact ⟨_, hd, rfl⟩
  hugeFixed p := by
    rw [← Array.count_toList]
    refine Space.count_eq_toNat hf.huge ?_
    rw [Array.mem_toList_iff, ← hs.fixed_iff]
    rfl
  hugeRegistered p := by
    rw [← Array.count_toList, ← Array.count_toList, ← List.count_append]
    refine Space.count_eq_toNat hs.wf.registered ?_
    rw [List.mem_append, Array.mem_toList_iff, Array.mem_toList_iff, ← hs.registered_iff]
    rfl

/-! ## Steps of the collector -/

theorem fixedOnce_drainIfAny {h' : Heap} (hf : h.space.FixedOnce) (hrun : h.drainIfAny = .ok h') :
    h'.space.FixedOnce := by
  rw [drainIfAny] at hrun
  split at hrun
  · cases hrun
    exact hf
  · exact fixedOnce_drainStores hf hrun

theorem fixedOnce_sweepStep {h' : Heap} {cost : Nat} (hf : h.space.FixedOnce)
    (hrun : h.sweepStep = .ok (cost, h')) : h'.space.FixedOnce := by
  rw [sweepStep] at hrun
  cases hcursor : h.cycle.sweepCursor with
  | current =>
    simp only [hcursor] at hrun
    split at hrun
    · next index _ =>
      obtain ⟨s', hsweep, hret⟩ := bind_eq_ok_iff.1 hrun
      cases hret
      cases hswept : h.space.sweepArena index with
      | error fault =>
        rw [hswept] at hsweep
        cases hsweep
      | ok p =>
        rw [hswept] at hsweep
        cases hsweep
        exact hf.sweepArena hswept
    · cases hrun
      exact hf
  | huge =>
    simp only [hcursor] at hrun
    obtain ⟨⟨freed, s'⟩, hsweep, hret⟩ := bind_eq_ok_iff.1 hrun
    cases hret
    exact hf.sweepHuge hsweep
  | arenas start =>
    simp only [hcursor] at hrun
    split at hrun
    · obtain ⟨⟨freed, s'⟩, hsweep, hret⟩ := bind_eq_ok_iff.1 hrun
      cases hret
      exact hf.sweepArena hsweep
    · cases hrun
      exact hf

theorem fixedOnce_enterPause (hf : h.space.FixedOnce) : h.enterPause.space.FixedOnce :=
  hf.releaseFrom h.config.spareArenas 0 0 0

end Heap

namespace Machine

variable {σ : Type} {mu : Mutator σ} {allowed : Heap.Resizings} {config : Config} {hashOf : List UInt8 → Hash}
  {m m' : Machine σ} {cost : Nat} {r : Ref}

theorem fixedOnce_traverse (hf : m.heap.space.FixedOnce) (hrun : m.traverse mu r = .ok (cost, m')) :
    m'.heap.space.FixedOnce := by
  obtain ⟨header, -, hrun⟩ := bind_eq_ok_iff.1 hrun
  obtain ⟨s', hvisit, hret⟩ := bind_eq_ok_iff.1 hrun
  cases hret
  exact foldlM_keeps hf (fun _ hf hstep => hf.visit hstep) hvisit

theorem stable_fixedOnce : Stable mu fun m => m.heap.space.FixedOnce where
  drain hf hrun := Heap.fixedOnce_drainIfAny hf hrun
  exhaust hf hpop := hf.popGrey hpop
  traverse {m _ _ _ s _} hf hpop htraverse :=
    fixedOnce_traverse (m := { m with heap := { m.heap with space := s } }) (hf.popGrey hpop) htraverse

theorem fixedOnce_markRoots (hf : m.heap.space.FixedOnce) (hrun : m.markRoots mu = .ok m') :
    m'.heap.space.FixedOnce := by
  obtain ⟨s₁, hroots, hrun⟩ := bind_eq_ok_iff.1 hrun
  obtain ⟨s₂, hfixed, hret⟩ := bind_eq_ok_iff.1 hrun
  cases hret
  have hmarked : s₁.FixedOnce := foldlM_keeps hf (fun _ hf hmark => hf.mark hmark) hroots
  exact hmarked.markFixed hfixed

theorem fixedOnce_finishMarking (hf : m.heap.space.FixedOnce) (hrun : m.finishMarking mu = .ok (cost, m')) :
    m'.heap.space.FixedOnce := by
  rw [finishMarking] at hrun
  obtain ⟨⟨selection, s₁⟩, hselect, hrun⟩ := bind_eq_ok_iff.1 hrun
  have hf₁ := hf.selectFinalizers hselect
  obtain ⟨m₂, hclear, hrun⟩ := bind_eq_ok_iff.1 hrun
  obtain ⟨program, rfl, -⟩ := clearWeakTables_eq_ok hclear
  split at hrun
  · cases hrun
    exact hf₁
  · obtain ⟨s₃, hmark, hrun⟩ := bind_eq_ok_iff.1 hrun
    obtain ⟨⟨cost₃, m₃⟩, hpropagate, hrun⟩ := bind_eq_ok_iff.1 hrun
    obtain ⟨m₄, hclear₄, hret⟩ := bind_eq_ok_iff.1 hrun
    cases hret
    obtain ⟨program₄, rfl, -⟩ := clearWeakTables_eq_ok hclear₄
    have hf₃ : s₃.FixedOnce := foldlM_keeps hf₁ (fun _ hf hmark => hf.mark hmark) hmark
    exact (stable_fixedOnce.propagateAll (m := ⟨program, _⟩) hf₃ hpropagate).1

theorem fixedOnce_atomicStep (hf : m.heap.space.FixedOnce) (hrun : m.atomicStep mu = .ok (cost, m')) :
    m'.heap.space.FixedOnce := by
  rw [atomicStep] at hrun
  obtain ⟨h₁, hdrain, hrun⟩ := bind_eq_ok_iff.1 hrun
  obtain ⟨m₂, hroots, hrun⟩ := bind_eq_ok_iff.1 hrun
  obtain ⟨⟨cost₃, m₃⟩, hpropagate, hrun⟩ := bind_eq_ok_iff.1 hrun
  obtain ⟨⟨cost₄, m₄⟩, hfinish, hrun⟩ := bind_eq_ok_iff.1 hrun
  obtain ⟨_, -, hret⟩ := bind_eq_ok_iff.1 hrun
  cases hret
  have hf₁ := Heap.fixedOnce_drainStores hf hdrain
  have hf₂ := fixedOnce_markRoots (m := { m with heap := h₁ }) hf₁ hroots
  have hf₃ := (stable_fixedOnce.propagateAll hf₂ hpropagate).1
  exact (fixedOnce_finishMarking hf₃ hfinish).beginSweep

theorem SingleSteps.fixedOnce {result : Except CollectError Nat} (hf : m.heap.space.FixedOnce)
    (hp : m.heap.phase ≠ .finalize) (hstep : SingleSteps mu m result m') : m'.heap.space.FixedOnce := by
  cases hstep with
  | blocked => exact hf
  | started _ hstart =>
    obtain ⟨m₁, hroots, hret⟩ := bind_eq_ok_iff.1 hstart
    cases hret
    have hmarked := fixedOnce_markRoots (m := { m with heap := m.heap.clearCycle }) hf hroots
    exact hmarked
  | propagated _ hrun =>
    cases propagateStep_eq_ok hrun with
    | ready hdrain _ =>
      have hdrained := Heap.fixedOnce_drainIfAny hf hdrain
      exact hdrained
    | @batch h _ _ _ hdrain _ hbatch =>
      exact stable_fixedOnce.traverseBatch (m := ⟨m.program, h⟩) (Heap.fixedOnce_drainIfAny hf hdrain) hbatch
  | finished _ hrun => exact fixedOnce_atomicStep hf hrun
  | sweptStrings _ hrun =>
    rw [Heap.sweepStringsStep_eq_ok hrun]
    exact hf
  | swept _ hrun => exact Heap.fixedOnce_sweepStep hf hrun
  | finalized hfinalize => exact absurd hfinalize hp

theorem Step.fixedOnce (hs : m.heap.Sound) (hf : m.heap.space.FixedOnce) (hstep : Step mu allowed m m') :
    m'.heap.space.FixedOnce := by
  cases hstep with
  | compute => exact hf
  | operate hop => exact hop.fixedOnce hs hf
  | setThreshold => exact hf
  | collect hp hrun => exact (singleStep_eq_ok hrun).fixedOnce hf hp
  | finalize _ hrun => exact hf.takePendingFinalizer hrun
  | @complete s _ hrun =>
    exact Heap.fixedOnce_enterPause (h := { m.heap with space := s }) (hf.takePendingFinalizer hrun)

theorem Reachable.fixedOnce (hm : Reachable mu allowed config hashOf m) : m.heap.space.FixedOnce := by
  induction hm with
  | initial _ hh =>
    obtain ⟨-, rfl⟩ := Heap.eq_of_withConfig hh
    exact Space.fixedOnce_empty
  | step hm hstep ih => exact hstep.fixedOnce hm.sound ih

theorem Reachable.flagsAgree (hm : Reachable mu allowed config hashOf m) : m.heap.space.FlagsAgree :=
  hm.sound.flagsAgree hm.fixedOnce

/-- At every point of a run, and after every call, the flags in the headers of the objects agree with the lists
of fixed objects and of registered ones, however objects were resized. -/
theorem flags_agree_with_registers (hmu : Behaved mu Heap.anyResizing config hashOf)
    (hm : Reachable mu Heap.anyResizing config hashOf m) :
    m.heap.space.FlagsAgree ∧ ∀ m', Call mu Heap.anyResizing m m' → m'.heap.space.FlagsAgree :=
  ⟨hm.flagsAgree, fun _ hcall => (hmu.call hm hcall).flagsAgree⟩

/-- A registered block that was resized and moved, and a fixed small object: each is listed once, the block
at its new place. -/
theorem moved_block_and_small_object_listed_once : ∃ m : Machine Ledger,
    m.heap.space.hasFlag Header.hasFinalizer (.huge 6) = true ∧
      m.heap.space.hugeFinalizers.count 6 + m.heap.space.hugePending.count 6 = 1 ∧
      m.heap.space.hasFlag Header.isFixed ⟨7, 1024⟩ = true ∧
      (∀ a ∈ m.heap.space.arenas, a.page = 7 → a.fixed.count 1024 = 1) ∧ m.heap.space.FlagsAgree := by
  let config : Config := { hugeThreshold := 64 }
  let start := answerOf (Heap.build config fun _ => 0) (by decide +kernel)
  have hstart : Heap.withConfig config (fun _ => 0) = .ok (.ok start) := rfl
  obtain ⟨block, registered, resized, small, ⟨hblock, hregister, hresize, hsmall⟩, ⟨hlive, hlive', hlive''⟩,
      ⟨hroom, hroom'⟩, hflag⟩ : ∃ block registered resized small,
      (start.alloc (.page 5) .udata 100 = .ok (.ok (.huge 5), block) ∧
        block.registerFinalizer (.huge 5) = .ok registered ∧
        registered.realloc (.page 6) (.huge 5) 100 200 = .ok (.ok (.huge 6), resized) ∧
        resized.alloc (.page 7) .table 24 = .ok (.ok ⟨7, 1024⟩, small)) ∧
      (block.Live (.huge 5) ∧ registered.Live (.huge 5) ∧ small.Live ⟨7, 1024⟩) ∧
      ((∀ old, (Supply.page 6).Fresh registered.space old) ∧ ∀ old, (Supply.page 7).Fresh resized.space old) ∧
      small.space.hasFlag Header.hasFinalizer (.huge 6) = true :=
    ⟨_, _, _, _,
      ⟨eq_answerOf_of_fst (by decide +kernel) (by decide +kernel), eq_answerOf (by decide +kernel),
        eq_answerOf_of_fst (by decide +kernel) (by decide +kernel),
        eq_answerOf_of_fst (by decide +kernel) (by decide +kernel)⟩,
      ⟨⟨by decide +kernel, by decide +kernel⟩, ⟨by decide +kernel, by decide +kernel⟩, by decide +kernel,
        by decide +kernel⟩,
      ⟨Supply.page_fresh (by decide) (by decide +kernel) (by decide +kernel),
        Supply.page_fresh (by decide) (by decide +kernel) (by decide +kernel)⟩, by decide +kernel⟩
  have hplaced : Reachable Ledger.mutator Heap.anyResizing config (fun _ => 0) ⟨{}, block⟩ :=
    (Reachable.initial {} hstart).step
      (.operate (.alloc (Supply.page_fresh (by decide) rfl (by decide +kernel) 0) hblock))
  have hresized : Reachable Ledger.mutator Heap.anyResizing config (fun _ => 0) ⟨{}, resized⟩ :=
    (hplaced.step (.operate (.registerFinalizer hlive hregister))).step
      (.operate (.realloc hlive' ⟨fun _ => hroom 5, fun _ => hroom 0⟩ hresize fun _ _ => trivial))
  have hreach : Reachable Ledger.mutator Heap.anyResizing config (fun _ => 0) ⟨{}, small⟩ :=
    hresized.step (.operate (.alloc (hroom' 0) hsmall))
  -- the small object can be fixed, which leaves the block alone
  have hs : small.Sound := hreach.sound
  obtain ⟨e, he⟩ := hs.isLive_iff.1 hlive''.1
  obtain ⟨s, hfix, hrev⟩ := Space.fix_spec hs.wf he (hs.fixedAgrees _)
  have hfixed : small.fix ⟨7, 1024⟩ = .ok { small with space := s } :=
    bind_eq_ok_iff.2 ⟨(), require_eq_ok_iff.2 hlive''.1, bind_eq_ok_iff.2 ⟨s, hfix, rfl⟩⟩
  have hisFixed : s.hasFlag Header.isFixed ⟨7, 1024⟩ = true :=
    (Space.hasFlag_iff hrev.wf).2 ⟨_, congrArg Slot.entity? hrev.slot_self, rfl⟩
  have hhasFinalizer : s.hasFlag Header.hasFinalizer (.huge 6) = true := by
    rw [Space.hasFlag_iff hrev.wf, hrev.slot_ne (by decide), ← Space.hasFlag_iff hs.wf]
    exact hflag
  obtain ⟨hagree, -⟩ := flags_agree_with_registers (Ledger.finalizersOperate _ _ _).behaved
    (hreach.step (.operate (.fix hlive'' hfixed)))
  refine ⟨⟨{}, { small with space := s }⟩, hhasFinalizer, ?_, hisFixed, fun a ha hp => ?_, hagree⟩
  · exact (hagree.hugeRegistered 6).trans (congrArg Bool.toNat hhasFinalizer)
  · rw [hagree.fixed a ha 1024, Arena.object, hp]
    exact congrArg Bool.toNat hisFixed

end Machine

end Tricolor
