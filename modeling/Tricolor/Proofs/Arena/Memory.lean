import Tricolor.Proofs.Arena.Slots

/-!
# What is written into the memory of an arena

The memory of an arena is its links, its headers and its bytes. Placing, freeing and sweeping
objects writes nothing but links, and those only into the heads of runs that are free
afterwards, so into no cell of an object. `Arena.Writes` says what else may be written.
-/

namespace Tricolor

/-- The headers differ in their flags at most. -/
def Header.SameObject (h h' : Header) : Prop := h'.kind = h.kind ∧ h'.size = h.size

namespace FreeRuns

/-- Listing a run stores a link in its head at most. -/
theorem push_eq_ok {runs runs' : FreeRuns} {links links' : Links} {head cells : Nat}
    (hrun : runs.push links head cells = .ok (runs', links')) (c : Nat) :
    links'.get c = links.get c ∨ c = head ∧ Links.Holds c := by
  obtain ⟨_, -, hrun⟩ := bind_eq_ok_iff.1 hrun
  split at hrun
  · obtain ⟨stored, hstore, hret⟩ := bind_eq_ok_iff.1 hrun
    cases hret
    obtain ⟨_, hholds, hret⟩ := bind_eq_ok_iff.1 hstore
    cases hret
    by_cases hc : head = c
    · exact .inr ⟨hc.symm, hc ▸ require_eq_ok_iff.1 hholds⟩
    · exact .inl (by rw [Zeroed.get_set, if_neg hc])
  · cases hrun
    exact .inl rfl

end FreeRuns

namespace Arena

/-- A free run starts at the cell. -/
def IsFree (a : Arena) (c : Nat) : Prop := a.block.get c = false ∧ a.mark.get c = true

/-- The memory of `a'` is that of `a`, except in the cells that are written on purpose, for flags
in some headers, and for the links of free runs. -/
structure Writes (own flagged : Nat → Prop) (a a' : Arena) : Prop where
  page : a'.page = a.page
  /-- a link is stored in the head of a free run -/
  link : ∀ c, a'.links.get c = a.links.get c ∨ Links.Holds c ∧ a'.IsFree c
  header : ∀ c, a'.headers.get c = a.headers.get c ∨ own c ∨
    flagged c ∧ (a.headers.get c).SameObject (a'.headers.get c)
  byte : ∀ i, a'.bytes.get i = a.bytes.get i ∨ own (i / cellBytes)

/-- `a'` was written to as `Writes` says, and the free runs of `a` have stayed free. -/
structure Amends (own flagged : Nat → Prop) (a a' : Arena) : Prop extends Writes own flagged a a' where
  index : a'.index = a.index
  top_le : a'.top ≤ a.top
  keepsFree : ∀ c, a.IsFree c → a'.IsFree c

section Writes

variable {own flagged : Nat → Prop} {a a' a'' : Arena}

theorem Writes.trans (h : a.Writes own flagged a') (h' : a'.Amends own flagged a'') :
    a.Writes own flagged a'' where
  page := h'.page.trans h.page
  link c := by
    rcases h'.link c with heq | hfree
    · rw [heq]
      exact (h.link c).imp_right fun hfree => ⟨hfree.1, h'.keepsFree c hfree.2⟩
    · exact .inr hfree
  header c := by
    rcases h'.header c with heq | hown | ⟨hflag, hsame⟩
    · rw [heq]
      exact h.header c
    · exact .inr (.inl hown)
    · rcases h.header c with heq | hown | ⟨-, hsame'⟩
      · exact .inr (.inr ⟨hflag, heq ▸ hsame⟩)
      · exact .inr (.inl hown)
      · exact .inr (.inr ⟨hflag, hsame.1.trans hsame'.1, hsame.2.trans hsame'.2⟩)
  byte i := by
    rcases h'.byte i with heq | hown
    · rw [heq]
      exact h.byte i
    · exact .inr hown

theorem Amends.trans (h : a.Amends own flagged a') (h' : a'.Amends own flagged a'') :
    a.Amends own flagged a'' where
  toWrites := h.toWrites.trans h'
  index := h'.index.trans h.index
  top_le := h'.top_le.trans h.top_le
  keepsFree c hc := h'.keepsFree c (h.keepsFree c hc)

/-- Nothing but links is written as long as headers and bytes are left alone. -/
theorem Writes.of_keeps (hkeeps : a.Keeps a')
    (hlink : ∀ c, a'.links.get c = a.links.get c ∨ Links.Holds c ∧ a'.IsFree c) : a.Writes own flagged a' where
  page := hkeeps.page
  link := hlink
  header c := .inl (by rw [hkeeps.headers])
  byte i := .inl (by rw [hkeeps.bytes])

/-- A change that leaves the memory alone, and the marks of free runs. -/
theorem Amends.of_mark (hpage : a'.page = a.page) (htop : a'.top = a.top) (hblock : a'.block = a.block)
    (hmark : ∀ c, a.IsFree c → a'.mark.get c = true) (hlinks : a'.links = a.links)
    (hheaders : a'.headers = a.headers) (hbytes : a'.bytes = a.bytes) : a.Amends own flagged a' where
  page := hpage
  link c := .inl (by rw [hlinks])
  header c := .inl (by rw [hheaders])
  byte i := .inl (by rw [hbytes])
  index := congrArg (fun block => (Bitmap.word block 0).toNat) hblock
  top_le := htop.le
  keepsFree c hc := ⟨hblock ▸ hc.1, hmark c hc⟩

theorem Amends.refl (a : Arena) : a.Amends own flagged a := .of_mark rfl rfl rfl (fun _ hc => hc.2) rfl rfl rfl

/-- Marking a cell. -/
theorem Amends.marked {c : Nat} (hrun : a.setMark c = .ok a') : a.Amends own flagged a' := by
  obtain ⟨_, hlt, hret⟩ := bind_eq_ok_iff.1 hrun
  cases hret
  refine .of_mark rfl rfl rfl (fun d hd => ?_) rfl rfl rfl
  rw [Bitmap.get_set _ _ _ _ (require_eq_ok_iff.1 hlt), hd.2]
  split <;> rfl

/-- Clearing the mark of an object. -/
theorem Amends.unmarked {c : Nat} (hc : a.isAllocated c = true) (hrun : a.clearMark c = .ok a') :
    a.Amends own flagged a' := by
  obtain ⟨_, hlt, hret⟩ := bind_eq_ok_iff.1 hrun
  cases hret
  refine .of_mark rfl rfl rfl (fun d hd => ?_) rfl rfl rfl
  rw [Bitmap.get_set _ _ _ _ (require_eq_ok_iff.1 hlt), if_neg, hd.2]
  rintro rfl
  exact absurd ((isAllocated_iff.1 hc).2.2.symm.trans hd.1) Bool.true_eq_false_eq_False

/-- Changing a header. -/
theorem Amends.modifyHeader {c : Nat} {f : Header → Header}
    (hc : own c ∨ flagged c ∧ ∀ header : Header, header.SameObject (f header)) :
    a.Amends own flagged { a with headers := a.headers.modify c f } where
  page := rfl
  link _ := .inl rfl
  header d := by
    show (a.headers.modify c f).get d = _ ∨ _
    rw [Zeroed.get_modify]
    split
    · next hcd =>
      subst hcd
      exact .inr (hc.imp_right fun hf => ⟨hf.1, hf.2 _⟩)
    · exact .inl rfl
  byte _ := .inl rfl
  index := rfl
  top_le := le_rfl
  keepsFree _ := id

/-- Changing bytes. -/
theorem Amends.modifyBytes {f : Zeroed UInt8 → Zeroed UInt8}
    (hf : ∀ m i, (f m).get i = m.get i ∨ own (i / cellBytes)) :
    a.Amends own flagged { a with bytes := f a.bytes } where
  page := rfl
  link _ := .inl rfl
  header _ := .inl rfl
  byte := hf a.bytes
  index := rfl
  top_le := le_rfl
  keepsFree _ := id

end Writes

/-! ## Placing and freeing -/

section Place

variable {own flagged : Nat → Prop} {a a' b : Arena} {cells head n : Nat} {black : Bool} {head? : Option Nat}

/-- Claiming cells stores a link in the rest of a split run at most, and that is free then. -/
theorem claim_eq_ok {chains : Nat → List Nat} (h : a.TiledBy chains) (hpos : 0 < cells)
    (hrun : a.claim cells = .ok (head?, b)) : a.Keeps b ∧ b.block = a.block ∧
      ∀ c, b.links.get c = a.links.get c ∨ Links.Holds c ∧ b.IsFree c ∧ head? ≠ some c := by
  obtain ⟨stop, hstop, hrun⟩ := bind_eq_ok_iff.1 hrun
  split at hrun
  · cases hrun
    exact ⟨⟨rfl, rfl, rfl, rfl, rfl, rfl⟩, rfl, fun _ => .inl rfl⟩
  · obtain ⟨⟨found, runs⟩, htake, hrun⟩ := bind_eq_ok_iff.1 hrun
    obtain ⟨_, _, _, htake', -, -, htakes⟩ := FreeRuns.take_spec h.represents hpos h.holds
    rw [htake] at htake'
    cases htake'
    cases found with
    | none =>
      cases hrun
      exact ⟨.refl a, rfl, fun _ => .inl rfl⟩
    | some run =>
      obtain ⟨head, n⟩ := run
      simp only at hrun
      split at hrun
      · next hlt =>
        obtain ⟨_, hrest, hrun⟩ := bind_eq_ok_iff.1 hrun
        obtain ⟨⟨runs', links⟩, hpush, hret⟩ := bind_eq_ok_iff.1 hrun
        cases hret
        refine ⟨⟨rfl, rfl, rfl, rfl, rfl, rfl⟩, rfl, fun c => (FreeRuns.push_eq_ok hpush c).imp_right ?_⟩
        rintro ⟨rfl, hholds⟩
        -- the rest was inside of the run, so no object is headed by it
        obtain ⟨-, -, -, -, hs⟩ := (h.listed head n).1 (htakes.1.symm.subset List.mem_cons_self)
        have hinner := hs.clear (head + cells) (by omega) (by omega)
        rw [isBoundary, Bool.or_eq_false_iff] at hinner
        refine ⟨hholds, ⟨hinner.1, ?_⟩, fun heq => ?_⟩
        · show (a.mark.set (head + cells) true).get (head + cells) = true
          rw [Bitmap.get_set _ _ _ _ hholds.2, if_pos rfl]
        · have := Option.some.inj heq
          omega
      · cases hrun
        exact ⟨⟨rfl, rfl, rfl, rfl, rfl, rfl⟩, rfl, fun _ => .inl rfl⟩

theorem Writes.placed (ha : a.Tiled) (hpos : 0 < cells) (hrun : a.alloc cells black = .ok (head?, a')) :
    a.Writes own flagged a' := by
  obtain ⟨chains, h⟩ := ha
  obtain ⟨⟨found, b⟩, hclaim, hrun⟩ := bind_eq_ok_iff.1 hrun
  obtain ⟨hkeeps, -, hlink⟩ := claim_eq_ok h hpos hclaim
  cases found with
  | none =>
    cases hrun
    exact .of_keeps hkeeps fun c => (hlink c).imp_right fun hc => ⟨hc.1, hc.2.1⟩
  | some head =>
    obtain ⟨_, hoccupy, hret⟩ := bind_eq_ok_iff.1 hrun
    cases hret
    obtain ⟨_, hlt, hoccupy⟩ := bind_eq_ok_iff.1 hoccupy
    obtain ⟨_, -, hret⟩ := bind_eq_ok_iff.1 hoccupy
    cases hret
    have hlt := require_eq_ok_iff.1 hlt
    refine
      { page := hkeeps.page
        link := fun c => (hlink c).imp_right fun ⟨hholds, hfree, hne⟩ => ⟨hholds, ?_⟩
        header := fun c => .inl (congrArg (Zeroed.get · c) hkeeps.headers)
        byte := fun i => .inl (congrArg (Zeroed.get · i) hkeeps.bytes) }
    have hne : head ≠ c := fun heq => hne (congrArg some heq)
    refine ⟨?_, ?_⟩
    · show (b.block.set head true).get c = false
      rw [Bitmap.get_set _ _ _ _ hlt, if_neg hne]
      exact hfree.1
    · show (b.mark.set head black).get c = true
      rw [Bitmap.get_set _ _ _ _ hlt, if_neg hne]
      exact hfree.2

theorem Amends.freed (htop : a.top ≤ arenaCells) (hrun : a.free head = .ok (n, a')) :
    a.Amends own flagged a' := by
  obtain ⟨cells, hcells, hrun⟩ := bind_eq_ok_iff.1 hrun
  obtain ⟨_, halloc, -⟩ := bind_eq_ok_iff.1 hcells
  obtain ⟨hge, hlt', hb⟩ := isAllocated_iff.1 (require_eq_ok_iff.1 halloc)
  have hlt : head < arenaCells := lt_of_lt_of_le hlt' htop
  obtain ⟨used, -, hrun⟩ := bind_eq_ok_iff.1 hrun
  have hindex : ((a.block.set head false).word 0).toNat = a.index := congrArg BitVec.toNat (word_zero_set _ hge _)
  -- a free run is not headed by an object
  have hfree : ∀ (bit : Bool) (c : Nat), a.IsFree c →
      (a.block.set head false).get c = false ∧ (a.mark.set head bit).get c = true := by
    intro bit c hc
    have hne : head ≠ c := by
      rintro rfl
      exact absurd (hb.symm.trans hc.1) Bool.true_eq_false_eq_False
    rw [Bitmap.get_set _ _ _ _ hlt, Bitmap.get_set _ _ _ _ hlt, if_neg hne, if_neg hne]
    exact hc
  simp only at hrun
  split at hrun
  · cases hrun
    exact ⟨⟨rfl, fun _ => .inl rfl, fun _ => .inl rfl, fun _ => .inl rfl⟩, hindex, hlt'.le, hfree false⟩
  · obtain ⟨⟨runs, links⟩, hpush, hret⟩ := bind_eq_ok_iff.1 hrun
    cases hret
    refine ⟨⟨rfl, fun c => (FreeRuns.push_eq_ok hpush c).imp_right ?_, fun _ => .inl rfl, fun _ => .inl rfl⟩,
      hindex, le_rfl, hfree true⟩
    rintro ⟨rfl, hholds⟩
    refine ⟨hholds, ?_, ?_⟩
    · show (a.block.set c false).get c = false
      rw [Bitmap.get_set _ _ _ _ hlt, if_pos rfl]
    · show (a.mark.set c true).get c = true
      rw [Bitmap.get_set _ _ _ _ hlt, if_pos rfl]

end Place

/-! ## Sweeping -/

section Sweep

variable {own flagged : Nat → Prop} {a a' : Arena}

theorem links_combineWords (a : Arena) (newBlock newMark : Word → Word → Word) :
    (a.combineWords newBlock newMark).links = a.links := by
  rw [combineWords]

/-- A harvest stores links in the heads of the runs that it lists, and leaves those heads alone
afterwards. -/
theorem harvestFrom_eq_ok : ∀ {n : Nat} {a a' : Arena} {cursor found top found' : Nat}, a.top ≤ arenaCells →
    a.harvestFrom cursor found n = .ok (top, found', a') → a.Keeps a' ∧ a'.block = a.block ∧
      (∀ c, c < cursor → a'.mark.get c = a.mark.get c) ∧
      ∀ c, a'.links.get c = a.links.get c ∨ Links.Holds c ∧ a'.IsFree c := by
  intro n
  induction n with
  | zero =>
    intro a a' cursor found top found' _ hrun
    cases hrun
    exact ⟨.refl a, rfl, fun _ _ => rfl, fun _ => .inl rfl⟩
  | succ n ih =>
    intro a a' cursor found top found' htop hrun
    have hfinds := Bitmap.finds_scan Bitmap.bitwise_free a.block a.mark cursor a.top htop
    rw [harvestFrom] at hrun
    cases hscan : Bitmap.scan (fun b m => m &&& ~~~b) a.block a.mark cursor a.top with
    | none =>
      simp only [hscan] at hrun
      cases hrun
      exact ⟨.refl a, rfl, fun _ _ => rfl, fun _ => .inl rfl⟩
    | some head =>
      rw [hscan] at hfinds
      obtain ⟨hge, hlt, hfree, -⟩ := hfinds
      rw [Bool.and_eq_true, Bool.not_eq_true'] at hfree
      obtain ⟨stop, mark, hjoin, hj⟩ := joinRuns_joins htop hlt hfree.1 hfree.2
      have hpast : head < stop := hj.stretch.le
      simp only [hscan, hjoin] at hrun
      have hbelow : ∀ c, c ≤ head → mark.get c = a.mark.get c := fun c hc => hj.same c (.inl hc)
      split at hrun
      · cases hrun
        refine ⟨⟨rfl, rfl, rfl, rfl, rfl, rfl⟩, rfl, fun c hc => ?_, fun _ => .inl rfl⟩
        show (mark.set top false).get c = a.mark.get c
        rw [Bitmap.get_set _ _ _ _ (lt_of_lt_of_le hlt htop), if_neg (by omega), hbelow c (by omega)]
      · obtain ⟨⟨runs, links⟩, hpush, hrun⟩ := bind_eq_ok_iff.1 hrun
        obtain ⟨hkeeps, hblock, hmark, hlink⟩ := ih (a := { a with mark, runs, links }) htop hrun
        have hlisted : a.Keeps { a with mark, runs, links } := ⟨rfl, rfl, rfl, rfl, rfl, rfl⟩
        refine ⟨hlisted.trans hkeeps, hblock, fun c hc => ?_, fun c => ?_⟩
        · exact (hmark c (by omega)).trans (hbelow c (by omega))
        · rcases hlink c with heq | hc
          · rcases FreeRuns.push_eq_ok hpush c with heq' | ⟨rfl, hholds⟩
            · exact .inl (heq.trans heq')
            · refine .inr ⟨hholds, hblock ▸ hfree.2, ?_⟩
              exact (hmark c hpast).trans ((hbelow c (le_refl c)).trans hfree.1)
          · exact .inr hc

theorem Writes.swept (htop : a.top ≤ arenaCells) (hrun : a.sweep = .ok a') : a.Writes own flagged a' := by
  rw [Arena.sweep] at hrun
  split at hrun
  · rw [majorSweep] at hrun
    obtain ⟨hswept, -, -, hbulkTop⟩ := combineWords_keeps a (· &&& ·) (· ^^^ ·)
    have hlinks := links_combineWords a (· &&& ·) (· ^^^ ·)
    have htop' := le_of_eq_of_le hbulkTop htop
    generalize a.combineWords (· &&& ·) (· ^^^ ·) = b at hrun hswept hlinks htop'
    simp only at hrun
    split at hrun
    · obtain ⟨⟨found, f⟩, hharvest, hret⟩ := bind_eq_ok_iff.1 hrun
      cases hret
      obtain ⟨⟨top, found', f⟩, hfrom, hharvest⟩ := bind_eq_ok_iff.1 hharvest
      obtain ⟨used, -, hret⟩ := bind_eq_ok_iff.1 hharvest
      cases hret
      obtain ⟨hharvested, -, -, hlink⟩ :=
        harvestFrom_eq_ok (a := { b.endSweep with runs := .empty b.endSweep.top }) htop' hfrom
      refine .of_keeps (hswept.trans ⟨hharvested.page, hharvested.index, hharvested.headers, hharvested.bytes,
        hharvested.grey, hharvested.finalizers⟩) fun c => ?_
      rw [← hlinks]
      exact hlink c
    · obtain ⟨_, -, hrun⟩ := bind_eq_ok_iff.1 hrun
      obtain ⟨_, -, hret⟩ := bind_eq_ok_iff.1 hrun
      cases hret
      obtain ⟨hcleared, -⟩ := combineWords_keeps b.endSweep (fun _ _ => 0) (fun _ _ => 0)
      have hlinks' := links_combineWords b.endSweep (fun _ _ => 0) (fun _ _ => 0)
      generalize b.endSweep.combineWords (fun _ _ => 0) (fun _ _ => 0) = d at hcleared hlinks'
      refine .of_keeps (hswept.trans ⟨hcleared.page, hcleared.index, hcleared.headers, hcleared.bytes,
        hcleared.grey, hcleared.finalizers⟩) fun c => .inl ?_
      rw [← hlinks]
      exact congrArg (Zeroed.get · c) hlinks'
  · cases hrun
    exact (Amends.refl a).toWrites

end Sweep

/-! ## Selecting finalizers -/

/-- Selecting finalizers clears a flag in the headers of objects that it asks about. -/
theorem Amends.selected {own flagged : Nat → Prop} {a a' : Arena} {isFinalizable : Ref → Bool}
    {asked doomed : List Nat} (hasked : ∀ c ∈ asked, flagged c)
    (hrun : a.selectFinalizers isFinalizable = .ok (asked, doomed, a')) : a.Amends own flagged a' := by
  obtain ⟨_, -, hrun⟩ := bind_eq_ok_iff.1 hrun
  let unregister (header : Header) : Header := { header with hasFinalizer := false }
  let forgotten := asked.filter fun cell => !isFinalizable (a.object cell)
  have ha' : ∃ finalizers, a' = { a with
      finalizers, headers := forgotten.foldl (fun headers cell => headers.modify cell unregister) a.headers } := by
    cases hrun
    exact ⟨_, rfl⟩
  obtain ⟨finalizers, rfl⟩ := ha'
  refine ⟨⟨rfl, fun _ => .inl rfl, fun c => ?_, fun _ => .inl rfl⟩, rfl, le_rfl, fun _ => id⟩
  have hget := get_foldl_modify unregister (fun _ => rfl) forgotten a.headers c
  split at hget
  · next hmem =>
    exact .inr (.inr ⟨hasked c (List.mem_of_mem_filter hmem), (congrArg Header.kind hget).trans rfl,
      (congrArg Header.size hget).trans rfl⟩)
  · exact .inl hget

end Arena

end Tricolor
