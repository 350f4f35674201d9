import Tricolor.Proofs.Arena.Placement

/-!
# Sweeping keeps an arena tiled

The bulk sweep keeps every boundary and only changes what it heads: marked objects turn
white, and unmarked ones become free runs. The harvest lists the free runs again, joined
where they touch, and `sweep_spec` says what is left: exactly the objects that were
marked, white, each with the length that it had.
-/

namespace Tricolor

namespace Arena

/-! ## Replacing whole words -/

variable {a : Arena}

/-- The cells in the words that a sweep replaces: every cell that can hold an object, and the cells behind `top`
in the word of the last one. -/
def InSweep (a : Arena) (c : Nat) : Prop := firstWord ≤ c / 64 ∧ c / 64 < a.liveWords

instance (a : Arena) (c : Nat) : Decidable (a.InSweep c) := inferInstanceAs (Decidable (_ ∧ _))

theorem firstWord_le {c : Nat} (hc : firstCell ≤ c) : firstWord ≤ c / 64 := by
  have : firstWord = 16 := rfl
  rw [firstCell_eq] at hc
  omega

theorem inSweep_of_lt_top {c : Nat} (hc : firstCell ≤ c) (hlt : c < a.top) : a.InSweep c :=
  ⟨firstWord_le hc, by rw [liveWords]; omega⟩

/-- Replacing the words bit by bit changes the bits of every cell in these words, and no others. -/
theorem get_combineWords {newBlock newMark : Word → Word → Word} {g k : Bool → Bool → Bool}
    (hblock : Bitmap.Bitwise newBlock g) (hmark : Bitmap.Bitwise newMark k) {c : Nat} (hlt : c < arenaCells) :
    (a.combineWords newBlock newMark).block.get c =
        (if a.InSweep c then g (a.block.get c) (a.mark.get c) else a.block.get c) ∧
      (a.combineWords newBlock newMark).mark.get c =
        if a.InSweep c then k (a.block.get c) (a.mark.get c) else a.mark.get c :=
  ⟨Bitmap.get_combine _ _ _ g hblock _ _ _ hlt,
    Bitmap.get_combine _ _ _ (fun m b => k b m) (fun v w i hi => hmark w v i hi) _ _ _ hlt⟩

/-- In a tiled arena these are the bits of all cells that can hold an object, because from `top` on there is
nothing to change. -/
theorem get_combineWords_of_blank (hblank : ∀ c, a.top ≤ c → c < arenaCells → a.isBoundary c = false)
    {newBlock newMark : Word → Word → Word} {g k : Bool → Bool → Bool}
    (hblock : Bitmap.Bitwise newBlock g) (hmark : Bitmap.Bitwise newMark k)
    (hg : g false false = false) (hk : k false false = false) {c : Nat} (hc : firstCell ≤ c)
    (hlt : c < arenaCells) :
    (a.combineWords newBlock newMark).block.get c = g (a.block.get c) (a.mark.get c) ∧
      (a.combineWords newBlock newMark).mark.get c = k (a.block.get c) (a.mark.get c) := by
  rw [(get_combineWords hblock hmark hlt).1, (get_combineWords hblock hmark hlt).2]
  by_cases hcover : a.InSweep c
  · rw [if_pos hcover, if_pos hcover]
    exact ⟨rfl, rfl⟩
  · have htop : a.top ≤ c := not_lt.1 fun htop => hcover (inSweep_of_lt_top hc htop)
    have hbits := hblank c htop hlt
    rw [isBoundary, Bool.or_eq_false_iff] at hbits
    rw [if_neg hcover, if_neg hcover, hbits.1, hbits.2, hg, hk]
    exact ⟨rfl, rfl⟩

/-- The words with the arena's index are not replaced. -/
theorem index_combineWords (a : Arena) (newBlock newMark : Word → Word → Word) :
    (a.combineWords newBlock newMark).index = a.index := by
  have hword : ¬ (firstWord ≤ 0 ∧ 0 < a.liveWords) := by
    have : firstWord = 16 := rfl
    omega
  rw [index, index, combineWords, Bitmap.word_combine _ _ _ _ _ _ (by decide), if_neg hword]

/-- Only the bitmaps change when words are replaced. -/
theorem combineWords_keeps (a : Arena) (newBlock newMark : Word → Word → Word) :
    a.Keeps (a.combineWords newBlock newMark) ∧
      (a.combineWords newBlock newMark).fixed = a.fixed ∧
      (a.combineWords newBlock newMark).isEmpty = a.isEmpty ∧
      (a.combineWords newBlock newMark).top = a.top := by
  have hindex := index_combineWords a newBlock newMark
  cases a
  exact ⟨⟨rfl, hindex, rfl, rfl, rfl, rfl⟩, rfl, rfl, rfl⟩

/-- Some object is left exactly if a block bit is set in these words. -/
theorem anyObject_iff_inSweep : a.anyObject = true ↔ ∃ c, a.InSweep c ∧ a.block.get c = true := by
  simp only [anyObject, Bitmap.anyWord_iff, InSweep, and_assoc]

/-- In a tiled arena an object is left exactly if a block bit is set below `top`. -/
theorem anyObject_iff (hblank : ∀ c, a.top ≤ c → c < arenaCells → a.isBoundary c = false)
    (htop : a.top ≤ arenaCells) : a.anyObject = true ↔ ∃ c, a.isAllocated c = true := by
  rw [anyObject_iff_inSweep]
  constructor
  · rintro ⟨c, ⟨hge, hlt⟩, hset⟩
    have hword : firstWord = 16 := rfl
    rw [liveWords] at hlt
    refine ⟨c, isAllocated_iff.2 ⟨by rw [firstCell_eq]; omega, ?_, hset⟩⟩
    by_contra hnot
    have := hblank c (not_lt.1 hnot) (by have := arenaCells_eq; omega)
    rw [isBoundary, hset] at this
    cases this
  · rintro ⟨c, hc⟩
    obtain ⟨hge, hlt, hset⟩ := isAllocated_iff.1 hc
    exact ⟨c, inSweep_of_lt_top hge hlt, hset⟩

theorem bitwise_and : Bitmap.Bitwise (· &&& ·) (· && ·) := fun _ _ _ _ => BitVec.getLsbD_and

theorem bitwise_xor : Bitmap.Bitwise (· ^^^ ·) (· ^^ ·) := fun _ _ _ _ => BitVec.getLsbD_xor

theorem bitwise_zero : Bitmap.Bitwise (fun _ _ => 0) fun _ _ => false := by
  intro v w i _
  simp

/-! ## The bulk sweep -/

/-- What the bulk sweep leaves: the same boundaries, and an object exactly where a marked
object was. No object is marked any more. -/
structure Bulk (a b : Arena) : Prop where
  keeps : a.Keeps b
  fixed : b.fixed = a.fixed
  needsSweep : b.needsSweep = false
  isEmpty : b.isEmpty = a.isEmpty
  top : b.top = a.top
  hint : b.runs.hint ≤ firstCell
  block : ∀ c, firstCell ≤ c → c < arenaCells →
    b.block.get c = (a.block.get c && a.mark.get c)
  mark : ∀ c, firstCell ≤ c → c < arenaCells → b.mark.get c = (a.block.get c ^^ a.mark.get c)

theorem bulk_endSweep {b : Arena} (hkeeps : a.Keeps b) (hfixed : b.fixed = a.fixed)
    (hempty : b.isEmpty = a.isEmpty) (htop : b.top = a.top)
    (hbits : ∀ c, firstCell ≤ c → c < arenaCells →
      b.block.get c = (a.block.get c && a.mark.get c) ∧
        b.mark.get c = (a.block.get c ^^ a.mark.get c)) : a.Bulk b.endSweep where
  keeps := ⟨hkeeps.page, hkeeps.index, hkeeps.headers, hkeeps.bytes, hkeeps.grey, hkeeps.finalizers⟩
  fixed := hfixed
  needsSweep := rfl
  isEmpty := hempty
  top := htop
  hint := Nat.min_le_right _ _
  block c hc hlt := (hbits c hc hlt).1
  mark c hc hlt := (hbits c hc hlt).2

theorem bulk_majorSweep {chains : Nat → List Nat} (h : a.TiledBy chains) :
    a.Bulk a.majorSweep.2 := by
  obtain ⟨hkeeps, hfixed, hempty, htop⟩ := combineWords_keeps a (· &&& ·) (· ^^^ ·)
  exact bulk_endSweep hkeeps hfixed hempty htop fun c hc hlt =>
    get_combineWords_of_blank h.blank bitwise_and bitwise_xor rfl rfl hc hlt

namespace Bulk

variable {b : Arena}

theorem isBoundary (h : a.Bulk b) {c : Nat} (hc : firstCell ≤ c) (hlt : c < arenaCells) :
    b.isBoundary c = a.isBoundary c := by
  rw [Arena.isBoundary, Arena.isBoundary, h.block c hc hlt, h.mark c hc hlt]
  cases a.block.get c <;> cases a.mark.get c <;> rfl

theorem isAllocated (h : a.Bulk b) (htop : a.top ≤ arenaCells) (c : Nat) :
    b.isAllocated c = true ↔ a.isAllocated c = true ∧ a.mark.get c = true := by
  rw [isAllocated_iff, isAllocated_iff, h.top]
  constructor
  · rintro ⟨hc, hlt, hb⟩
    rw [h.block c hc (lt_of_lt_of_le hlt htop), Bool.and_eq_true] at hb
    exact ⟨⟨hc, hlt, hb.1⟩, hb.2⟩
  · rintro ⟨⟨hc, hlt, hb⟩, hm⟩
    refine ⟨hc, hlt, ?_⟩
    rw [h.block c hc (lt_of_lt_of_le hlt htop), hb, hm]
    rfl

/-- Survivors are white. -/
theorem mark_eq_false (h : a.Bulk b) (htop : a.top ≤ arenaCells) {c : Nat}
    (hc : b.isAllocated c = true) : b.mark.get c = false := by
  obtain ⟨halloc, hm⟩ := (h.isAllocated htop c).1 hc
  obtain ⟨hge, hlt, hb⟩ := isAllocated_iff.1 halloc
  rw [h.mark c hge (lt_of_lt_of_le hlt htop), hb, hm]
  rfl

theorem stretch (h : a.Bulk b) (htop : a.top ≤ arenaCells) {c : Nat} (hc : firstCell ≤ c)
    (hlt : c < a.top) : Stretch b.isBoundary b.top (c + 1) (c + a.extent c) := by
  rw [h.top]
  refine (stretch_extent htop hlt).congr fun d hd _ hdlt => ?_
  exact h.isBoundary (by omega) (by omega)

end Bulk

/-! ## Joining free runs -/

/-- Joining the runs behind the run at `head` clears their heads, up to the next object or
`top`; no other bit changes. -/
theorem joinRuns_spec (htop : a.top ≤ arenaCells) {head : Nat} :
    ∀ (n stop : Nat) (mark : Bitmap), a.top - stop ≤ n →
      Stretch { a with mark }.isBoundary a.top (head + 1) stop →
      ∃ stop' mark', { a with mark }.joinRuns stop n = (stop', { a with mark := mark' }) ∧
        stop ≤ stop' ∧ Stretch { a with mark := mark' }.isBoundary a.top (head + 1) stop' ∧
        (stop' < a.top → a.block.get stop' = true) ∧
        ∀ c, c < stop ∨ stop' ≤ c → mark'.get c = mark.get c := by
  intro n
  induction n with
  | zero =>
    intro stop mark hn hs
    refine ⟨stop, mark, rfl, le_refl _, hs, fun hlt => ?_, fun _ _ => rfl⟩
    omega
  | succ n ih =>
    intro stop mark hn hs
    rw [joinRuns]
    by_cases hjoin : stop < a.top ∧ a.block.get stop = false
    · obtain ⟨hlt, hfree⟩ := hjoin
      have hltc : stop < arenaCells := lt_of_lt_of_le hlt htop
      rw [if_pos (by simp [hlt, hfree])]
      have hnext := @stretch_nextBoundary { a with mark } (stop + 1) hlt htop
      have hmark : ∀ c, (mark.set stop false).get c = if stop = c then false else mark.get c :=
        fun c => Bitmap.get_set _ _ _ _ hltc
      have hbound : ∀ c, { a with mark := mark.set stop false }.isBoundary c =
          if stop = c then false else { a with mark }.isBoundary c := by
        intro c
        rw [isBoundary, isBoundary]
        simp only [hmark]
        by_cases hc : stop = c
        · rw [if_pos hc, if_pos hc, ← hc, hfree]
          rfl
        · rw [if_neg hc, if_neg hc]
      have hjoined : Stretch { a with mark := mark.set stop false }.isBoundary a.top (head + 1)
          ({ a with mark }.nextBoundary (stop + 1)) := by
        have hle := hnext.le
        have hle' := hs.le
        refine ⟨by omega, hnext.le_top, fun c hc hlt' => ?_, fun hlt' => ?_⟩
        · rw [hbound]
          split
          · rfl
          · next hne =>
            rcases Nat.lt_or_ge c stop with hcs | hcs
            · exact hs.clear c hc hcs
            · exact hnext.clear c (by omega) hlt'
        · rw [hbound, if_neg (by omega)]
          exact hnext.ends hlt'
      obtain ⟨stop', mark', heq, hle, hs', hblock, hsame⟩ :=
        ih _ (mark.set stop false) (by have := hnext.le; omega) hjoined
      have hnextle := hnext.le
      refine ⟨stop', mark', heq, by omega, hs', hblock, fun c hc => ?_⟩
      rw [hsame c (by omega), hmark, if_neg]
      omega
    · rw [if_neg (by simpa using fun hlt => by simpa using fun hfree => hjoin ⟨hlt, hfree⟩)]
      refine ⟨stop, mark, rfl, le_refl _, hs, fun hlt => ?_, fun _ _ => rfl⟩
      by_contra hnot
      exact hjoin ⟨hlt, by simpa using hnot⟩

/-- The free run at `head` is joined with the ones behind it, up to `stop`. That clears the marks of their heads and
leaves `mark`. -/
structure Joins (a : Arena) (head stop : Nat) (mark : Bitmap) : Prop where
  lt : head < a.top
  marked : a.mark.get head = true
  free : a.block.get head = false
  stretch : Stretch { a with mark }.isBoundary a.top (head + 1) stop
  /-- it ends at an object or the top -/
  object : stop < a.top → a.block.get stop = true
  /-- no other bit is changed -/
  same : ∀ c, c ≤ head ∨ stop ≤ c → mark.get c = a.mark.get c

/-- Whatever follows a free run, it can be joined. -/
theorem joinRuns_joins (htop : a.top ≤ arenaCells) {head : Nat} (hlt : head < a.top)
    (hmarked : a.mark.get head = true) (hfree : a.block.get head = false) : ∃ stop mark,
      a.joinRuns (a.nextBoundary (head + 1)) arenaCells = (stop, { a with mark }) ∧ a.Joins head stop mark := by
  have hnext := @stretch_nextBoundary a (head + 1) hlt htop
  obtain ⟨stop, mark, hjoin, hle, hs, hobject, hsame⟩ :=
    joinRuns_spec htop arenaCells (a.nextBoundary (head + 1)) a.mark (by omega) hnext
  have hpast := hnext.le
  exact ⟨stop, mark, hjoin, hlt, hmarked, hfree, hs, hobject, fun c hc => hsame c (by omega)⟩

namespace Joins

variable {head stop c n : Nat} {mark : Bitmap}

theorem isBoundary (h : a.Joins head stop mark) (hc : c ≤ head ∨ stop ≤ c) :
    { a with mark }.isBoundary c = a.isBoundary c := by
  rw [Arena.isBoundary, Arena.isBoundary, h.same c hc]

/-- Behind its head the joined run has neither objects nor further heads. -/
theorem inner (h : a.Joins head stop mark) (hc : head < c) (hlt : c < stop) :
    a.block.get c = false ∧ mark.get c = false :=
  Bool.or_eq_false_iff.1 (h.stretch.clear c hc hlt)

/-- So an object is in front of the joined run or behind it. -/
theorem apart (h : a.Joins head stop mark) (hc : a.block.get c = true) : c < head ∨ stop ≤ c := by
  by_contra hnot
  rcases Nat.lt_trichotomy c head with hlt | rfl | hlt
  · omega
  · rw [h.free] at hc
    cases hc
  · rw [(h.inner hlt (by omega)).1] at hc
    cases hc

/-- Joining changes no stretch that is headed by an object. -/
theorem stretch_of_block (h : a.Joins head stop mark) (hc : a.block.get c = true)
    (hs : Stretch a.isBoundary a.top (c + 1) (c + n)) :
    Stretch { a with mark }.isBoundary a.top (c + 1) (c + n) := by
  have hhead : a.isBoundary head = true := by rw [Arena.isBoundary, h.marked, Bool.or_true]
  have hpast := h.stretch.le
  refine ⟨hs.le, hs.le_top, fun d hd hlt => ?_, fun hlt => ?_⟩
  · rcases Nat.lt_or_ge head d with hin | hout
    · rcases Nat.lt_or_ge d stop with hin' | hout'
      · exact h.stretch.clear d hin hin'
      · rw [h.isBoundary (.inr hout')]
        exact hs.clear d hd hlt
    · rw [h.isBoundary (.inl hout)]
      exact hs.clear d hd hlt
  · rw [h.isBoundary]
    · exact hs.ends hlt
    · -- a stretch from before the run cannot end inside it, since the run's head would have ended it
      by_contra hnot
      have hbefore : c < head := (h.apart hc).resolve_right (by have := hs.le; omega)
      have := hs.boundary_lt hhead (by omega)
      omega

end Joins

/-! ## The harvest -/

/-- Behind each free run there is an object. So no two free runs touch, and none reaches `top`. -/
def Coalesced (a : Arena) : Prop :=
  ∀ c, firstCell ≤ c → c < a.top → a.block.get c = false → a.mark.get c = true →
    a.isAllocated (c + a.extent c) = true

/-- How far a harvest of `b` has come: the free runs below `cursor` are listed in `a`, with
`found` cells in all, and every object still has the stretch that it had in `b`. -/
structure Harvesting (b a : Arena) (chains : Nat → List Nat) (cursor found : Nat) : Prop where
  keeps : b.Keeps a
  fixed : a.fixed = b.fixed
  needsSweep : a.needsSweep = b.needsSweep
  isEmpty : a.isEmpty = b.isEmpty
  top : a.top = b.top
  block : a.block = b.block
  cursor_ge : firstCell ≤ cursor
  cursor_le : cursor ≤ a.top
  /-- the cursor stands on a boundary -/
  cursor_set : cursor < a.top → a.isBoundary cursor = true
  blank : ∀ c, a.top ≤ c → c < arenaCells → a.isBoundary c = false
  first : firstCell < a.top → a.isBoundary firstCell = true
  represents : a.runs.Represents a.links chains
  nodup : ((a.runs.listed chains).map Prod.fst).Nodup
  /-- the listed runs are free stretches below the cursor -/
  sound : ∀ c n, (c, n) ∈ a.runs.listed chains →
    firstCell ≤ c ∧ c + n ≤ cursor ∧ a.block.get c = false ∧ a.mark.get c = true ∧
      Stretch a.isBoundary a.top (c + 1) (c + n)
  /-- the free stretches below the cursor are listed -/
  complete : ∀ c, firstCell ≤ c → c < cursor → a.block.get c = false → a.mark.get c = true →
    ∃ n, (c, n) ∈ a.runs.listed chains
  sum : ((a.runs.listed chains).map Prod.snd).sum = found
  found_le : firstCell + found ≤ cursor
  hint : ∀ x ∈ a.runs.listed chains, a.runs.hint ≤ x.1
  /-- behind each of them there is an object -/
  coalesced : ∀ c n, (c, n) ∈ a.runs.listed chains → c + n < a.top ∧ a.block.get (c + n) = true
  /-- objects are white -/
  white : ∀ c, a.block.get c = true → firstCell ≤ c → c < a.top → a.mark.get c = false
  /-- and have the length that they had -/
  object : ∀ c, b.isAllocated c = true → Stretch a.isBoundary a.top (c + 1) (c + b.extent c)

/-- What a harvest of `b` makes of it: the same objects, still white and as long as they
were, in an arena that is tiled again. -/
structure Harvested (b f : Arena) : Prop where
  keeps : b.Keeps f
  fixed : f.fixed = b.fixed
  needsSweep : f.needsSweep = b.needsSweep
  isEmpty : f.isEmpty = b.isEmpty
  tiled : f.Tiled
  coalesced : f.Coalesced
  allocated : ∀ c, f.isAllocated c = true ↔ b.isAllocated c = true
  white : ∀ c, f.isAllocated c = true → f.mark.get c = false
  extent : ∀ c, f.isAllocated c = true → f.extent c = b.extent c

/-- A harvest that has come to `cursor` in `a`, with `found` cells listed, ends with `f`: no free run is left between
the cursor and the top, and from the top on nothing but unused cells. -/
structure Caps (a f : Arena) (cursor found : Nat) : Prop where
  keeps : a.Keeps f
  fixed : f.fixed = a.fixed
  needsSweep : f.needsSweep = a.needsSweep
  isEmpty : f.isEmpty = a.isEmpty
  runs : f.runs = a.runs
  links : f.links = a.links
  used : f.used = f.top - firstCell - found
  cursor_le : cursor ≤ f.top
  top_le : f.top ≤ a.top
  block : ∀ c, c < f.top → f.block.get c = a.block.get c
  mark : ∀ c, c < f.top → f.mark.get c = a.mark.get c
  blank : ∀ c, f.top ≤ c → c < arenaCells → f.isBoundary c = false
  /-- a lower top is where the last free run was -/
  head : f.top < a.top → a.mark.get f.top = true ∧ a.block.get f.top = false
  clear : ∀ c, cursor ≤ c → c < f.top → a.block.get c = false → a.mark.get c = false
  /-- no object is above the top -/
  object : ∀ c, a.isAllocated c = true → c < f.top

section Harvest

variable {a b f : Arena} {chains : Nat → List Nat} {cursor found c n start stop : Nat}

theorem Caps.isBoundary (h : a.Caps f cursor found) (hc : c < f.top) : f.isBoundary c = a.isBoundary c := by
  rw [Arena.isBoundary, Arena.isBoundary, h.block c hc, h.mark c hc]

/-- A stretch that ends below the new top is left as it was. -/
theorem Caps.stretch (h : a.Caps f cursor found) (hs : Stretch a.isBoundary a.top start stop)
    (hstop : stop ≤ f.top) : Stretch f.isBoundary f.top start stop where
  le := hs.le
  le_top := hstop
  clear c hc hlt := by
    rw [h.isBoundary (by omega)]
    exact hs.clear c hc hlt
  ends hlt := by
    rw [h.isBoundary hlt]
    exact hs.ends (lt_of_lt_of_le hlt h.top_le)

theorem Caps.isAllocated (h : a.Caps f cursor found) (c : Nat) :
    f.isAllocated c = true ↔ a.isAllocated c = true := by
  constructor
  · rw [isAllocated_iff, isAllocated_iff]
    rintro ⟨hc, hlt, hb⟩
    exact ⟨hc, lt_of_lt_of_le hlt h.top_le, by rwa [h.block c hlt] at hb⟩
  · intro hc
    have hlt := h.object c hc
    obtain ⟨hge, -, hb⟩ := isAllocated_iff.1 hc
    exact isAllocated_iff.2 ⟨hge, hlt, by rwa [h.block c hlt]⟩

namespace Harvesting

theorem isAllocated (h : b.Harvesting a chains cursor found) (c : Nat) : a.isAllocated c = b.isAllocated c := by
  rw [Arena.isAllocated, Arena.isAllocated, h.top, h.block]

/-- Below the new top, the free stretches are those that are listed. -/
theorem exists_listed (h : b.Harvesting a chains cursor found) (hf : a.Caps f cursor found) (hc : firstCell ≤ c)
    (hlt : c < f.top) (hb : f.block.get c = false) (hm : f.mark.get c = true) :
    ∃ n, (c, n) ∈ a.runs.listed chains := by
  rw [hf.block c hlt] at hb
  rw [hf.mark c hlt] at hm
  rcases Nat.lt_or_ge c cursor with hcursor | hcursor
  · exact h.complete c hc hcursor hb hm
  · rw [hf.clear c hcursor hlt hb] at hm
    cases hm

/-- A listed run is as long in the end. -/
theorem stretch_listed (h : b.Harvesting a chains cursor found) (hf : a.Caps f cursor found)
    (hx : (c, n) ∈ a.runs.listed chains) : c < f.top ∧ Stretch f.isBoundary f.top (c + 1) (c + n) := by
  obtain ⟨-, hend, -, -, hs⟩ := h.sound c n hx
  have hle := le_trans hend hf.cursor_le
  have hpos := hs.le
  exact ⟨by omega, hf.stretch hs hle⟩

theorem tiledBy (h : b.Harvesting a chains cursor found) (hf : a.Caps f cursor found) (htop : b.top ≤ arenaCells)
    (hempty : b.isEmpty = true → ∀ c, b.isAllocated c = false) : f.TiledBy chains where
  top_ge := le_trans h.cursor_ge hf.cursor_le
  top_le := le_trans hf.top_le (h.top ▸ htop)
  blank := hf.blank
  first hlt := by
    rw [hf.isBoundary hlt]
    exact h.first (lt_of_lt_of_le hlt hf.top_le)
  represents := by
    rw [hf.runs, hf.links]
    exact h.represents
  nodup := by
    rw [hf.runs]
    exact h.nodup
  listed := by
    refine listed_iff_of (fun c n hx => ?_) fun c hc hlt hb hm => ?_
    · rw [hf.runs] at hx
      obtain ⟨hc, -, hb, hm, -⟩ := h.sound c n hx
      obtain ⟨hlt, hs⟩ := h.stretch_listed hf hx
      exact ⟨hc, hlt, by rw [hf.block c hlt, hb], by rw [hf.mark c hlt, hm], hs⟩
    · rw [hf.runs]
      exact h.exists_listed hf hc hlt hb hm
  used := by
    have hfound := h.found_le
    have hcursor := hf.cursor_le
    rw [hf.runs, h.sum, hf.used]
    omega
  hint := by
    rw [hf.runs]
    exact h.hint
  empty hisEmpty c := by
    rw [hf.isEmpty, h.isEmpty] at hisEmpty
    rw [← Bool.not_eq_true, hf.isAllocated, h.isAllocated, hempty hisEmpty c]
    exact Bool.false_ne_true

/-- A listed run does not end at the new top, which is the head of another free run if it is lower than the old
one. -/
theorem end_lt_top (h : b.Harvesting a chains cursor found) (hf : a.Caps f cursor found)
    (hx : (c, n) ∈ a.runs.listed chains) : c + n < f.top := by
  obtain ⟨hend, hobject⟩ := h.coalesced c n hx
  refine lt_of_le_of_ne (h.stretch_listed hf hx).2.le_top fun heq => ?_
  rw [heq] at hend hobject
  rw [(hf.head hend).2] at hobject
  cases hobject

/-- The object at `c` ends below the new top as well. -/
theorem stretch_object (h : b.Harvesting a chains cursor found) (hf : a.Caps f cursor found)
    (hc : b.isAllocated c = true) : Stretch f.isBoundary f.top (c + 1) (c + b.extent c) := by
  have hs := h.object c hc
  refine hf.stretch hs ?_
  rcases Nat.lt_or_ge f.top a.top with hlower | hsame
  · by_contra hnot
    have hhead : a.isBoundary f.top = true := by rw [Arena.isBoundary, (hf.head hlower).1, Bool.or_true]
    have hbefore := hs.boundary_lt hhead (by omega)
    have := hf.object c ((h.isAllocated c).trans hc)
    omega
  · exact le_trans hs.le_top hsame

/-- A harvest is finished when nothing but unused cells is left from the new top on. -/
theorem finish (h : b.Harvesting a chains cursor found) (hf : a.Caps f cursor found) (htop : b.top ≤ arenaCells)
    (hempty : b.isEmpty = true → ∀ c, b.isAllocated c = false) : b.Harvested f := by
  have htiled := h.tiledBy hf htop hempty
  have hallocated : ∀ c, f.isAllocated c = true ↔ b.isAllocated c = true := fun c => by
    rw [hf.isAllocated, h.isAllocated]
  refine
    { keeps := h.keeps.trans hf.keeps
      fixed := hf.fixed.trans h.fixed
      needsSweep := hf.needsSweep.trans h.needsSweep
      isEmpty := hf.isEmpty.trans h.isEmpty
      tiled := ⟨chains, htiled⟩
      coalesced := fun c hc hlt hb hm => ?_
      allocated := hallocated
      white := fun c hc => ?_
      extent := fun c hc => ?_ }
  · obtain ⟨n, hx⟩ := h.exists_listed hf hc hlt hb hm
    have hend := h.end_lt_top hf hx
    have hge := h.cursor_ge
    rw [extent_eq_of_stretch htiled.top_le hlt (h.stretch_listed hf hx).2]
    exact isAllocated_iff.2 ⟨by omega, hend, by rw [hf.block _ hend, (h.coalesced c n hx).2]⟩
  · obtain ⟨hge, hlt, hb⟩ := isAllocated_iff.1 hc
    rw [hf.block c hlt] at hb
    rw [hf.mark c hlt]
    exact h.white c hb hge (lt_of_lt_of_le hlt hf.top_le)
  · have hlt := (isAllocated_iff.1 hc).2.1
    exact extent_eq_of_stretch htiled.top_le hlt (h.stretch_object hf ((hallocated c).1 hc))

/-- Where no free run is left, the top stays where it is. -/
theorem caps_of_clear (h : b.Harvesting a chains cursor found)
    (hclear : ∀ c, cursor ≤ c → c < a.top → a.block.get c = false → a.mark.get c = false) :
    a.Caps { a with used := a.top - firstCell - found } cursor found where
  keeps := ⟨rfl, rfl, rfl, rfl, rfl, rfl⟩
  fixed := rfl
  needsSweep := rfl
  isEmpty := rfl
  runs := rfl
  links := rfl
  used := rfl
  cursor_le := h.cursor_le
  top_le := le_refl _
  block _ _ := rfl
  mark _ _ := rfl
  blank := h.blank
  head hlt := absurd hlt (lt_irrefl _)
  clear := hclear
  object _ hc := (isAllocated_iff.1 hc).2.1

variable {head : Nat} {mark : Bitmap}

/-- Where the next free run reaches the top, it is handed back, and its head is the new top. -/
theorem caps_of_joins (h : b.Harvesting a chains cursor found) (hj : a.Joins head stop mark)
    (htop : a.top ≤ arenaCells) (hge : cursor ≤ head)
    (hclear : ∀ c, cursor ≤ c → c < head → a.block.get c = false → a.mark.get c = false) (hreach : a.top ≤ stop) :
    a.Caps { a with
      mark := mark.set head false
      top := head
      used := head - firstCell - found } cursor found := by
  have hget : ∀ c, (mark.set head false).get c = if head = c then false else mark.get c := fun c =>
    Bitmap.get_set _ _ _ _ (lt_of_lt_of_le hj.lt htop)
  refine
    { keeps := ⟨rfl, rfl, rfl, rfl, rfl, rfl⟩
      fixed := rfl
      needsSweep := rfl
      isEmpty := rfl
      runs := rfl
      links := rfl
      used := rfl
      cursor_le := hge
      top_le := le_of_lt hj.lt
      block := fun _ _ => rfl
      mark := fun c (hc : c < head) => ?_
      blank := fun c (hc : head ≤ c) hlt => ?_
      head := fun _ => ⟨hj.marked, hj.free⟩
      clear := hclear
      object := fun c hc => ?_ }
  · show (mark.set head false).get c = a.mark.get c
    rw [hget, if_neg (by omega), hj.same c (.inl (le_of_lt hc))]
  · show (a.block.get c || (mark.set head false).get c) = false
    rw [hget]
    split
    · next heq => rw [← heq, hj.free, Bool.or_false]
    · next hne =>
      rcases Nat.lt_or_ge c stop with hin | hout
      · exact hj.stretch.clear c (by omega) hin
      · exact (hj.isBoundary (.inr hout)).trans (h.blank c (le_trans hreach hout) hlt)
  · obtain ⟨-, hlt, hb⟩ := isAllocated_iff.1 hc
    exact (hj.apart hb).resolve_right (by omega)

/-- Where the next free run ends at an object, it is listed, and the harvest goes on behind it. -/
theorem list (h : b.Harvesting a chains cursor found) (hj : a.Joins head stop mark) (htop : a.top ≤ arenaCells)
    (hge : cursor ≤ head)
    (hclear : ∀ c, cursor ≤ c → c < head → a.block.get c = false → a.mark.get c = false) (hreach : stop < a.top) :
    ∃ runs links chains', a.runs.push a.links head (stop - head) = .ok (runs, links) ∧
      b.Harvesting { a with mark, runs, links } chains' stop (found + (stop - head)) := by
  have hpast := hj.stretch.le
  have hcursor := h.cursor_ge
  have hfound := h.found_le
  have hfirst := firstCell_eq
  have hcells := arenaCells_eq
  have hend : head + (stop - head) = stop := by omega
  have hfresh : ∀ m, (head, m) ∉ a.runs.listed chains := fun m hx => by
    obtain ⟨-, hend, -, -, hs⟩ := h.sound head m hx
    have := hs.le
    omega
  obtain ⟨runs, links, chains', hpush, hrep, hlist, hhint⟩ :=
    FreeRuns.push_spec h.represents (by omega : 0 < stop - head) (by omega) ⟨by omega, by omega⟩ hfresh
  have hmem : ∀ c m, (c, m) ∈ runs.listed chains' →
      (c = head ∧ m = stop - head) ∨ (c, m) ∈ a.runs.listed chains := fun c m hx =>
    (List.mem_cons.1 (hlist.subset hx)).imp_left Prod.mk.inj
  refine ⟨runs, links, chains', hpush,
    { keeps := h.keeps.trans ⟨rfl, rfl, rfl, rfl, rfl, rfl⟩
      fixed := h.fixed
      needsSweep := h.needsSweep
      isEmpty := h.isEmpty
      top := h.top
      block := h.block
      cursor_ge := by omega
      cursor_le := hj.stretch.le_top
      cursor_set := fun hlt => ?_
      blank := fun c hc hlt => ?_
      first := fun hlt => ?_
      represents := hrep
      nodup := ?_
      sound := fun c m hx => ?_
      complete := fun c hc hlt hb hm => ?_
      sum := ?_
      found_le := by omega
      hint := fun x hx => ?_
      coalesced := fun c m hx => ?_
      white := fun c hb hc hlt => ?_
      object := fun c hc => ?_ }⟩
  · show (a.block.get stop || mark.get stop) = true
    rw [hj.object hlt, Bool.true_or]
  · exact (hj.isBoundary (.inr (le_trans hj.stretch.le_top hc))).trans (h.blank c hc hlt)
  · exact (hj.isBoundary (.inl (by omega))).trans (h.first hlt)
  · refine (hlist.map Prod.fst).nodup_iff.2 (List.nodup_cons.2 ⟨fun hx => ?_, h.nodup⟩)
    obtain ⟨⟨c, m⟩, hx, heq⟩ := List.mem_map.1 hx
    exact hfresh m ((show c = head from heq) ▸ hx)
  · rcases hmem c m hx with ⟨rfl, rfl⟩ | hx
    · refine ⟨by omega, by omega, hj.free, (hj.same c (.inl (le_refl c))).trans hj.marked, ?_⟩
      rw [hend]
      exact hj.stretch
    · obtain ⟨hc, hle, hb, hm, hs⟩ := h.sound c m hx
      have hpos := hs.le
      exact ⟨hc, by omega, hb, (hj.same c (.inl (by omega))).trans hm,
        hs.congr fun d _ hd _ => hj.isBoundary (.inl (by omega))⟩
  · rcases Nat.lt_trichotomy c head with hbefore | rfl | hbehind
    · have hm : a.mark.get c = true := (hj.same c (.inl (le_of_lt hbefore))).symm.trans hm
      rcases Nat.lt_or_ge c cursor with hlisted | hnew
      · obtain ⟨m, hx⟩ := h.complete c hc hlisted hb hm
        exact ⟨m, hlist.symm.subset (List.mem_cons_of_mem _ hx)⟩
      · rw [hclear c hnew hbefore hb] at hm
        cases hm
    · exact ⟨_, hlist.symm.subset List.mem_cons_self⟩
    · rw [show mark.get c = false from (hj.inner hbehind hlt).2] at hm
      cases hm
  · have hsum := (hlist.map Prod.snd).sum_eq
    rw [List.map_cons, List.sum_cons, h.sum] at hsum
    exact hsum.trans (Nat.add_comm _ _)
  · rw [hhint]
    rcases hmem x.1 x.2 hx with ⟨heq, -⟩ | hx
    · exact heq ▸ Nat.min_le_right _ _
    · exact (Nat.min_le_left _ _).trans (h.hint x hx)
  · rcases hmem c m hx with ⟨rfl, rfl⟩ | hx
    · rw [hend]
      exact ⟨hreach, hj.object hreach⟩
    · exact h.coalesced c m hx
  · exact (hj.same c ((hj.apart hb).imp_left le_of_lt)).trans (h.white c hb hc hlt)
  · have hb := (isAllocated_iff.1 ((h.isAllocated c).trans hc)).2.2
    exact hj.stretch_of_block hb (h.object c hc)

end Harvesting

/-- A harvest from `cursor` on finishes what was left of it. -/
theorem harvestFrom_spec (htop : b.top ≤ arenaCells)
    (hempty : b.isEmpty = true → ∀ c, b.isAllocated c = false) :
    ∀ (n : Nat) {a : Arena} {chains : Nat → List Nat} {cursor found : Nat},
      b.Harvesting a chains cursor found → a.top - cursor ≤ n →
        ∃ top' found' a', a.harvestFrom cursor found n = .ok (top', found', a') ∧
          firstCell + found' ≤ top' ∧
          b.Harvested { a' with top := top', used := top' - firstCell - found' } := by
  intro n
  induction n with
  | zero =>
    intro a chains cursor found h hn
    have hfound := le_trans h.found_le h.cursor_le
    exact ⟨a.top, found, a, rfl, hfound, h.finish (h.caps_of_clear fun c hc hlt => by omega) htop hempty⟩
  | succ n ih =>
    intro a chains cursor found h hn
    have htop' : a.top ≤ arenaCells := h.top ▸ htop
    have hfinds := Bitmap.finds_scan Bitmap.bitwise_free a.block a.mark cursor a.top htop'
    rw [harvestFrom]
    cases hscan : Bitmap.scan (fun b m => m &&& ~~~b) a.block a.mark cursor a.top with
    | none =>
      rw [hscan] at hfinds
      have hfound := le_trans h.found_le h.cursor_le
      refine ⟨a.top, found, a, rfl, hfound, h.finish (h.caps_of_clear fun c hc hlt hb => ?_) htop hempty⟩
      simpa [hb] using hfinds c hc hlt
    | some head =>
      rw [hscan] at hfinds
      obtain ⟨hge, hlt, hhead, hleast⟩ := hfinds
      rw [Bool.and_eq_true, Bool.not_eq_true'] at hhead
      have hclear : ∀ c, cursor ≤ c → c < head → a.block.get c = false → a.mark.get c = false :=
        fun c hc hlt hb => by simpa [hb] using hleast c hc hlt
      obtain ⟨stop, mark, hjoin, hj⟩ := joinRuns_joins htop' hlt hhead.1 hhead.2
      simp only [hjoin, bind, Except.bind]
      split
      · next hreach =>
        have hfound := le_trans h.found_le hge
        exact ⟨head, found, _, rfl, hfound, h.finish (h.caps_of_joins hj htop' hge hclear hreach) htop hempty⟩
      · next hreach =>
        obtain ⟨runs, links, chains', hpush, hnext⟩ := h.list hj htop' hge hclear (not_le.1 hreach)
        simp only [hpush]
        have hpast := hj.stretch.le
        exact ih hnext (show a.top - stop ≤ n by omega)

end Harvest

/-! ## The sweep -/

/-- What a sweep leaves: exactly the marked objects, white. -/
structure Swept (a a' : Arena) : Prop where
  keeps : a.Keeps a'
  needsSweep : a'.needsSweep = false
  tiled : a'.Tiled
  coalesced : a'.Coalesced
  allocated : ∀ c, a'.isAllocated c = true ↔ a.isAllocated c = true ∧ a.mark.get c = true
  white : ∀ c, a'.isAllocated c = true → a'.mark.get c = false
  extent : ∀ c, a'.isAllocated c = true → a'.extent c = a.extent c
  /-- the list of fixed objects is kept as long as there are objects -/
  fixed : (∃ c, a'.isAllocated c = true) → a'.fixed = a.fixed
  /-- and an arena without objects is empty -/
  isEmpty : (∀ c, a'.isAllocated c = false) →
    a'.isEmpty = true ∧ a'.fixed = #[] ∧ a'.runs = .empty firstCell

/-- The cells in use are those of the survivors. -/
theorem Swept.used {a' : Arena} (h : a.Swept a') :
    a'.used = ((a.heads.filter a.mark.get).map a.extent).sum := by
  rw [← h.tiled.sum_extent]
  have hperm : a'.heads.Perm (a.heads.filter a.mark.get) := by
    refine (List.perm_ext_iff_of_nodup a'.nodup_heads (List.Nodup.filter _ a.nodup_heads)).2 fun c => ?_
    rw [mem_heads, h.allocated, List.mem_filter, mem_heads]
  have hextent : a'.heads.map a'.extent = a'.heads.map a.extent :=
    List.map_congr_left fun c hc => h.extent c (mem_heads.1 hc)
  rw [hextent]
  exact (hperm.map a.extent).sum_eq

theorem Swept.used_le (ha : a.Tiled) {a' : Arena} (h : a.Swept a') : a'.used ≤ a.used := by
  rw [h.used, ← ha.sum_extent, ← sum_filter_add a.extent a.mark.get a.heads]
  exact Nat.le_add_right _ _

/-- An arena without objects is reset. -/
theorem reset_spec {b : Arena} (hb : a.Bulk b) {chains : Nat → List Nat} (h : a.TiledBy chains)
    (hnone : ∀ c, b.isAllocated c = false) (hgrey : b.grey.isEmpty = true)
    (hfinalizers : b.finalizers.isEmpty = true) : ∃ a', b.reset = .ok a' ∧ a.Swept a' := by
  have htop : b.top ≤ arenaCells := by rw [hb.top]; exact h.top_le
  have hblank : ∀ c, b.top ≤ c → c < arenaCells → b.isBoundary c = false := by
    intro c hc hlt
    rw [hb.top] at hc
    have := h.top_ge
    rw [hb.isBoundary (by omega) hlt]
    exact h.blank c hc hlt
  have hbits : ∀ c, firstCell ≤ c → c < arenaCells → _ := fun c hc hlt =>
    get_combineWords_of_blank hblank bitwise_zero bitwise_zero rfl rfl hc hlt
  obtain ⟨hkeeps, -⟩ := combineWords_keeps b (fun _ _ => 0) (fun _ _ => 0)
  rw [reset, require_eq_ok_iff.2 hgrey, require_eq_ok_iff.2 hfinalizers]
  simp only [bind, Except.bind]
  generalize b.combineWords (fun _ _ => 0) (fun _ _ => 0) = w at hbits hkeeps
  refine ⟨_, rfl, ?_⟩
  have halloc : ∀ c, ({ w with
      top := firstCell
      used := 0
      runs := .empty firstCell
      fixed := #[]
      isEmpty := true
      needsSweep := false } : Arena).isAllocated c = false := by
    intro c
    rw [← Bool.not_eq_true, isAllocated_iff]
    exact fun ⟨hc, hlt, _⟩ => absurd (lt_of_le_of_lt hc hlt) (lt_irrefl _)
  refine
    { keeps := hb.keeps.trans ⟨hkeeps.page, hkeeps.index, hkeeps.headers, hkeeps.bytes, hkeeps.grey,
        hkeeps.finalizers⟩
      needsSweep := rfl
      tiled := ⟨fun _ => [], ?_⟩
      coalesced := fun c hc hlt => absurd (lt_of_le_of_lt hc hlt) (lt_irrefl _)
      allocated := fun c => ?_
      white := fun c hc => ?_
      extent := fun c hc => ?_
      fixed := fun ⟨c, hc⟩ => ?_
      isEmpty := fun _ => ⟨rfl, rfl, rfl⟩ }
  · refine tiledBy_empty rfl (fun c hc hlt => ?_) rfl rfl
    show (w.block.get c || w.mark.get c) = false
    rw [(hbits c hc hlt).1, (hbits c hc hlt).2]
    rfl
  · rw [← hb.isAllocated h.top_le, hnone, halloc]
  · rw [halloc] at hc
    cases hc
  · rw [halloc] at hc
    cases hc
  · rw [halloc] at hc
    cases hc

/-- A harvest starts with no free run listed. -/
theorem Bulk.harvesting {b : Arena} (hb : a.Bulk b) {chains : Nat → List Nat} (h : a.TiledBy chains) :
    b.Harvesting { b with runs := .empty b.top } (fun _ => []) firstCell 0 := by
  have hlisted : (FreeRuns.empty b.top).listed (fun _ => []) = [] := FreeRuns.listed_empty b.top
  have hge := h.top_ge
  have hle := h.top_le
  have hfirst : firstCell < b.top → b.isBoundary firstCell = true := by
    intro hlt
    rw [hb.top] at hlt
    rw [hb.isBoundary (le_refl _) (by omega)]
    exact h.first hlt
  exact
    { keeps := ⟨rfl, rfl, rfl, rfl, rfl, rfl⟩
      fixed := rfl
      needsSweep := rfl
      isEmpty := rfl
      top := rfl
      block := rfl
      cursor_ge := le_refl _
      cursor_le := by show firstCell ≤ b.top; rw [hb.top]; exact hge
      cursor_set := hfirst
      blank := fun c hc hlt => by
        have hc' : a.top ≤ c := by rw [← hb.top]; exact hc
        exact (hb.isBoundary (by omega) hlt).trans (h.blank c hc' hlt)
      first := hfirst
      represents := FreeRuns.represents_empty _ _
      nodup := by rw [hlisted]; exact List.nodup_nil
      sound := fun c n hx => by rw [hlisted] at hx; exact absurd hx List.not_mem_nil
      complete := fun c hc hlt => by omega
      sum := by rw [hlisted]; rfl
      found_le := le_refl _
      hint := fun x hx => by rw [hlisted] at hx; exact absurd hx List.not_mem_nil
      coalesced := fun c n hx => by rw [hlisted] at hx; exact absurd hx List.not_mem_nil
      white := fun c hb' hc hlt =>
        hb.mark_eq_false h.top_le (isAllocated_iff.2 ⟨hc, hlt, hb'⟩)
      object := fun c hc => by
        obtain ⟨hc', hlt, -⟩ := isAllocated_iff.1 hc
        have hs := @stretch_extent b (by rw [hb.top]; exact hle) c hlt
        exact hs }

namespace Bulk

variable {b : Arena} {chains : Nat → List Nat}

/-- What a bulk sweep leaves has the bits of unused cells clear. -/
theorem blank (hb : a.Bulk b) (h : a.TiledBy chains) {c : Nat} (hc : b.top ≤ c) (hlt : c < arenaCells) :
    b.isBoundary c = false := by
  rw [hb.top] at hc
  have := h.top_ge
  rw [hb.isBoundary (by omega) hlt]
  exact h.blank c hc hlt

/-- Objects that are left keep their lengths. -/
theorem extent (hb : a.Bulk b) (h : a.TiledBy chains) {c : Nat} (hc : b.isAllocated c = true) :
    b.extent c = a.extent c := by
  have htop : b.top ≤ arenaCells := by rw [hb.top]; exact h.top_le
  obtain ⟨hge, hlt, -⟩ := isAllocated_iff.1 ((hb.isAllocated h.top_le c).1 hc).1
  exact extent_eq_of_stretch htop (by rw [hb.top]; exact hlt) (hb.stretch h.top_le hge hlt)

/-- After a bulk sweep the free runs can be harvested. -/
theorem harvest_spec (hb : a.Bulk b) (h : a.TiledBy chains) :
    ∃ found f, b.harvest = .ok (found, f) ∧ b.Harvested f := by
  have htop : b.top ≤ arenaCells := by rw [hb.top]; exact h.top_le
  have hempty : b.isEmpty = true → ∀ c, b.isAllocated c = false := by
    intro hempty c
    rw [← Bool.not_eq_true]
    intro hc
    have := h.empty (hb.isEmpty ▸ hempty) c
    rw [((hb.isAllocated h.top_le c).1 hc).1] at this
    cases this
  obtain ⟨top, found, f, hfrom, hfound, hf⟩ :=
    harvestFrom_spec htop hempty arenaCells (hb.harvesting h) (by show b.top - _ ≤ _; omega)
  have hcursor : max b.runs.hint firstCell = firstCell := max_eq_right hb.hint
  have hsub : checkedSub (top - firstCell) found = .ok (top - firstCell - found) :=
    checkedSub_eq_ok_iff.2 ⟨by omega, rfl⟩
  refine ⟨found, _, ?_, hf⟩
  simp only [harvest, hcursor, hfrom, hsub, bind, Except.bind]
  rfl

end Bulk

/-- A bulk sweep answers whether it left an object. -/
theorem majorSweep_spec (h : a.TiledBy chains) :
    a.Bulk a.majorSweep.2 ∧ (a.majorSweep.1 = true ↔ ∃ c, a.majorSweep.2.isAllocated c = true) := by
  have hb := bulk_majorSweep h
  have htop : a.majorSweep.2.top ≤ arenaCells := by rw [hb.top]; exact h.top_le
  exact ⟨hb, anyObject_iff (fun _ => hb.blank h) htop⟩

/-- The marked objects are left by a bulk sweep and a harvest, if there are any. -/
theorem Bulk.swept {b f : Arena} (hb : a.Bulk b) (h : a.TiledBy chains) (hf : b.Harvested f) {d : Nat}
    (hd : b.isAllocated d = true) : a.Swept f where
  keeps := hb.keeps.trans hf.keeps
  needsSweep := hf.needsSweep.trans hb.needsSweep
  tiled := hf.tiled
  coalesced := hf.coalesced
  allocated c := (hf.allocated c).trans (hb.isAllocated h.top_le c)
  white := hf.white
  extent c hc := (hf.extent c hc).trans (hb.extent h ((hf.allocated c).1 hc))
  fixed _ := hf.fixed.trans hb.fixed
  isEmpty hnone := by
    have := hnone d
    rw [(hf.allocated d).2 hd] at this
    cases this

/-- A sweep that succeeds leaves exactly the marked objects. -/
theorem sweep_eq_ok (ha : a.Tiled) (hsweep : a.needsSweep = true) {a' : Arena} (hrun : a.sweep = .ok a') :
    a.Swept a' := by
  obtain ⟨chains, h⟩ := ha
  obtain ⟨hb, hsurvived⟩ := majorSweep_spec h
  rw [sweep, if_pos hsweep] at hrun
  generalize a.majorSweep = m at hb hsurvived hrun
  obtain ⟨survived, b⟩ := m
  cases survived with
  | false =>
    have hnone : ∀ c, b.isAllocated c = false := by simpa using hsurvived
    simp only [Bool.false_eq_true, if_false] at hrun
    obtain ⟨_, hgrey, hrest⟩ := bind_eq_ok_iff.1 hrun
    obtain ⟨_, hfinalizers, -⟩ := bind_eq_ok_iff.1 hrest
    obtain ⟨a'', hreset, hswept⟩ := reset_spec hb h hnone (require_eq_ok_iff.1 hgrey)
      (require_eq_ok_iff.1 hfinalizers)
    rw [hrun] at hreset
    cases hreset
    exact hswept
  | true =>
    simp only [if_true] at hrun
    obtain ⟨d, hd⟩ := hsurvived.1 rfl
    obtain ⟨found, f, hharvest, hf⟩ := hb.harvest_spec h
    obtain ⟨_, hharvest', hret⟩ := bind_eq_ok_iff.1 hrun
    rw [hharvest] at hharvest'
    cases hharvest'
    cases hret
    exact hb.swept h hf hd

/-- The sweep of an arena that awaits it leaves exactly the marked objects. -/
theorem sweep_spec (ha : a.Tiled) (hsweep : a.needsSweep = true) (hgrey : a.grey.isEmpty = true)
    (hfinalizers : (∀ c, a.isAllocated c = true → a.mark.get c = false) →
      a.finalizers.isEmpty = true) : ∃ a', a.sweep = .ok a' ∧ a.Swept a' := by
  obtain ⟨a', hrun⟩ : ∃ a', a.sweep = .ok a' := by
    obtain ⟨chains, h⟩ := ha
    obtain ⟨hb, hsurvived⟩ := majorSweep_spec h
    rw [sweep, if_pos hsweep]
    generalize a.majorSweep = m at hb hsurvived
    obtain ⟨survived, b⟩ := m
    cases survived with
    | false =>
      have hnone : ∀ c, b.isAllocated c = false := by simpa using hsurvived
      have hunmarked : ∀ c, a.isAllocated c = true → a.mark.get c = false := fun c hc => by
        have := mt (hb.isAllocated h.top_le c).2 (Bool.not_eq_true _ ▸ hnone c)
        simpa [hc] using this
      obtain ⟨a', hreset, -⟩ := reset_spec hb h hnone (by rw [hb.keeps.grey]; exact hgrey)
        (by rw [hb.keeps.finalizers]; exact hfinalizers hunmarked)
      exact ⟨a', hreset⟩
    | true =>
      obtain ⟨found, f, hharvest, -⟩ := hb.harvest_spec h
      exact ⟨f, bind_eq_ok_iff.2 ⟨_, hharvest, rfl⟩⟩
  exact ⟨a', hrun, sweep_eq_ok ha hsweep hrun⟩

end Arena

end Tricolor
