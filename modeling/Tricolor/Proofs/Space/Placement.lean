import Tricolor.Proofs.Space.Contents
import Tricolor.Space.Placement

/-!
# Placing and freeing objects in a space

An object is placed where there was none, whatever the memory supply answers within its
contract, and a freed object is gone from its slot with all its registrations.
-/

namespace Tricolor

/-- What the memory supply promises: a region that it provides is not at address 0, lies in
the address space and shares no page with memory that is in use. The block at `old` may be
given up for the region. -/
def Supply.Fresh (supply : Supply) (s : Space) (old : Page) : Prop :=
  ∀ n p, supply n = some p → p ≠ 0 ∧ ∀ q, Page.Within q p n →
    q < pageCount ∧ s.indices[q]? = none ∧
      ∀ p' b, p' ≠ old → s.blocks.entryOf? p' = some b → ¬ Page.Within q p' b.size

namespace Space

variable {s s' s'' : Space} {r : Ref} {e : Entity} {v : Slot} {supply : Supply} {old p : Page} {n : Nat}

theorem within_self (p : Page) {size : Nat} (h : 0 < size) : Page.Within p p size :=
  ⟨le_rfl, Nat.lt_add_of_pos_right h⟩

/-- A fresh region starts at a page without a block. -/
theorem Fresh.entryOf?_eq_none (h : s.Wf) (hfresh : supply.Fresh s old) (hp : supply n = some p)
    (hn : 0 < n) (hold : p ≠ old) : s.blocks.entryOf? p = none := by
  cases hb : s.blocks.entryOf? p with
  | none => rfl
  | some b =>
    have hpos : 0 < b.size := lt_of_lt_of_le (by decide) (h.sizes hb).1
    exact absurd (within_self p hpos) (((hfresh n p hp).2 p (within_self p hn)).2.2 p b hold hb)

/-- A fresh region is vacant. -/
theorem Fresh.vacant (h : s.Wf) (hfresh : supply.Fresh s 0) (hp : supply n = some p) :
    s.Vacant p n := fun q hq =>
  ⟨((hfresh n p hp).2 q hq).2.1, fun p' b _ hb =>
    ((hfresh n p hp).2 q hq).2.2 p' b (page_ne_zero h hb).1 hb⟩

/-! ## Huge blocks -/

theorem supplied_of_askBlock {size : Nat} (hask : askBlock supply size = some p) : supply size = some p := by
  rw [askBlock] at hask
  split at hask
  · exact hask
  · cases hask

theorem getElem?_insert (contents : Std.TreeMap Page HugeBlock) (p q : Page) (b : HugeBlock) :
    (contents.insert p b)[q]? = if p = q then some b else contents[q]? := by
  rw [Std.TreeMap.getElem?_insert]
  simp only [compare_eq_iff]

theorem getElem?_erase (contents : Std.TreeMap Page HugeBlock) (p q : Page) :
    (contents.erase p)[q]? = if p = q then none else contents[q]? := by
  rw [Std.TreeMap.getElem?_erase]
  simp only [compare_eq_iff]

/-- A new object, as it is placed. -/
def placed (size : Nat) (black : Bool) (header : Header) (content : Nat → UInt8) : Entity where
  size
  marked := black
  awaits := black
  header
  content

/-- What a placement leaves: an object where there was none, which outlives the sweep that
its arena or the blocks await. -/
def PlacedAt (s : Space) (r : Ref) (size : Nat) (s' : Space) : Prop :=
  (s.slot r).entity? = none ∧ ∃ black header content,
    s.Revises s' r { s.slot r with entity? := some (placed size black header content) }

/-- What a placement leaves whose bytes are zero. -/
def ZeroedAt (s : Space) (r : Ref) (size : Nat) (s' : Space) : Prop :=
  (s.slot r).entity? = none ∧ ∃ black header,
    s.Revises s' r { s.slot r with entity? := some (placed size black header fun _ => 0) }

/-- Allocating a huge block. -/
theorem allocHuge_eq_ok (h : s.Wf) (hfresh : supply.Fresh s 0) {size : Nat} (hsize : cellBytes ≤ size)
    {result : Except AllocError Ref} (hrun : s.allocHuge supply size = .ok (result, s')) :
    (∀ e, result = .error e → s' = s) ∧ ∀ r, result = .ok r → s.ZeroedAt r size s' := by
  obtain ⟨-, rfl, rfl⟩ | ⟨p, blocks, marked, hask, rfl, hinsert, hmark, hrange, rfl⟩ := allocHuge_cases hrun
  · exact ⟨fun _ _ => rfl, fun _ hr => by cases hr⟩
  · have hp := supplied_of_askBlock hask
    obtain ⟨hpz, -⟩ := hfresh size p hp
    have hpos : 0 < size := lt_of_lt_of_le (by decide) hsize
    have hnone := Fresh.entryOf?_eq_none h hfresh hp hpos hpz
    obtain ⟨hmod, hwf, hbytes, flags, hmarked, hgrey, hentry⟩ :=
      BlockTable.insert_marked h.blocks hpz hnone hinsert hmark
    have hslotNone : (s.slot (.huge p)).entity? = none := by
      show (s.blocks.entryOf? p).map s.entityOf = none
      rw [hnone]
      rfl
    have hnotGrey : p ∉ s.hugeGrey := by
      rw [h.grey, hnone]
      rintro ⟨_, hb, -⟩
      cases hb
    have hself : (s.contents.insert p default)[p]? = some default := by
      rw [getElem?_insert, if_pos rfl]
    have hentrySelf : marked.entryOf? p = some ⟨p, size, flags⟩ := by rw [hentry, Function.update_self]
    have ha : s.AltersBlock p { s with
        blocks := marked, contents := s.contents.insert p default, total := s.total + size } :=
      { blocks := hwf
        entry := fun q hq => by
          show marked.entryOf? q = _
          rw [hentry, Function.update_of_ne hq]
        region := fun hb => by
          cases hentrySelf.symm.trans hb
          exact ⟨hsize, hmod, Fresh.vacant h hfresh hp⟩
        contents := fun q hq => by
          show (s.contents.insert p default)[q]? = _
          rw [getElem?_insert, if_neg (Ne.symm hq)]
        content := by
          show ((s.contents.insert p default)[p]?).isSome = (marked.entryOf? p).isSome
          rw [hself, hentrySelf]
          rfl
        queued := by
          refine ⟨fun hp => absurd hp hnotGrey, fun ⟨_, hb, hg⟩ => ?_⟩
          cases hentrySelf.symm.trans hb
          exact absurd (hgrey.symm.trans hg) Bool.false_ne_true
        greyNodup := h.greyNodup
        registered := h.registered
        total := by
          show s.total + size + s.blocks.bytes = s.total + marked.bytes
          omega
        total_lt := hrange }
    refine ⟨fun _ he => (by cases he), fun r hr => ?_⟩
    cases hr
    refine ⟨hslotNone, s.hugeNeedsSweep, default, (ha.revises h).congr (Slot.ext ?_ rfl rfl rfl rfl)⟩
    show (marked.entryOf? p).map _ = _
    rw [hentrySelf, Option.map_some, entityOf, blockAt, hself, placed]
    refine congrArg some (Entity.ext rfl hmarked rfl rfl (funext fun i => ?_))
    show (if headerBytes + i < size then (default : HugeBlock).bytes.get (headerBytes + i) else 0) = 0
    split
    · exact Zeroed.get_empty _
    · rfl

/-! ## Small objects -/

/-- `s'` looks like `s`: every slot is the same. -/
structure Alike (s s' : Space) : Prop where
  wf : s'.Wf
  slot : s'.slot = s.slot
  unswept : s'.unswept = s.unswept
  hugeNeedsSweep : s'.hugeNeedsSweep = s.hugeNeedsSweep
  arenas_le : s.arenas.size ≤ s'.arenas.size

theorem Alike.refl (h : s.Wf) : s.Alike s := ⟨h, rfl, rfl, rfl, le_rfl⟩

theorem Alike.revises (h : s.Alike s') (h' : s'.Revises s'' r v) : s.Revises s'' r v where
  wf := h'.wf
  slot := by rw [h'.slot, h.slot]
  unswept := h'.unswept.trans h.unswept
  hugeNeedsSweep := h'.hugeNeedsSweep.trans h.hugeNeedsSweep
  arenas_le := h.arenas_le.trans h'.arenas_le

/-- Another arena may be tried first from now on. -/
theorem Wf.setCurrent (h : s.Wf) {current : Option Nat} (hc : ∀ i, current = some i → i < s.arenas.size) :
    Wf { s with current } :=
  AltersArenas.wf
    { indexed :=
        { tiled := h.indexed.tiled
          index := h.index
          page_lt := h.page_lt
          indices := h.indices
          current := hc }
      sound := h.sound
      zero := h.zero
      apart := h.apart
      total := h.total
      total_lt := h.total_lt } h

/-- Placing an object into one arena. -/
theorem allocIn_eq_ok (h : s.Wf) {index cells : Nat} (hpos : 0 < cells) {r? : Option Ref}
    (hrun : s.allocIn index cells = .ok (r?, s')) :
    index < s.arenas.size ∧ (r? = none → s' = s) ∧
      ∀ r, r? = some r → s.PlacedAt r (cells * cellBytes) s' ∧ s'.arenas.size = s.arenas.size := by
  obtain ⟨a, a₁, found, ha, halloc, hcases⟩ := allocIn_cases hrun
  refine ⟨(Array.getElem?_eq_some_iff.1 ha).1, ?_⟩
  obtain ⟨hfull, hplaced⟩ := Arena.alloc_eq_ok (h.sound ha).tiled hpos halloc
  obtain ⟨hnone, rfl, rfl⟩ | ⟨c, hfound, rfl, hrange, rfl⟩ := hcases
  · cases hfull hnone
    exact ⟨fun _ => setArena_self ha, fun _ hr => by cases hr⟩
  · have hspec := hplaced c hfound
    refine ⟨fun hr => (by cases hr), fun r hr => ?_⟩
    cases hr
    have hne : c ≠ 0 := by
      have := hspec.head_ge
      rw [firstCell_eq] at this
      omega
    have hpage := hspec.keeps.page
    have hobj : a₁.object c = a.object c := by rw [Arena.object, Arena.object, hpage]
    obtain ⟨hsound, hslot⟩ := Arena.slot_placed (h.sound ha) hspec
    have hhuge : (a.object c).isHuge = false := by
      rw [Ref.isHuge, beq_eq_false_iff_ne]
      exact hne
    have hold : s.slot (a.object c) = a.slot c :=
      slot_small hhuge ((arena?_eq_some h).2 ⟨index, ha, rfl⟩)
    refine ⟨⟨?_, a.needsSweep, (a.entityOf c (cells * cellBytes)).header,
      (a.entityOf c (cells * cellBytes)).content, ?_⟩, Array.size_setIfInBounds⟩
    · show (s.slot (a₁.object c)).entity? = none
      rw [hobj, hold]
      exact Arena.entity?_of_not_allocated hspec.vacant
    · show s.Revises _ (a₁.object c) _
      rw [hobj, hold]
      refine h.revises_small ha hsound hpage hspec.keeps.index hspec.needsSweep ?_ hrange hhuge rfl hslot
      rw [Arena.usedBytes, Arena.usedBytes, hspec.used, Nat.add_mul]
      show s.total + cells * cellBytes + a.used * cellBytes = s.total + (a.used * cellBytes + cells * cellBytes)
      omega

/-- Placing an object into one of several arenas. -/
theorem allocAmong_eq_ok (h : s.Wf) {cells : Nat} (hpos : 0 < cells) :
    ∀ {indices : List Nat} {r? : Option Ref}, s.allocAmong cells indices = .ok (r?, s') →
      (r? = none → s' = s) ∧ ∀ r, r? = some r → s.PlacedAt r (cells * cellBytes) s' := by
  intro indices
  induction indices with
  | nil =>
    intro r? hrun
    cases hrun
    exact ⟨fun _ => rfl, fun _ hr => by cases hr⟩
  | cons index rest ih =>
    intro r? hrun
    rw [allocAmong] at hrun
    obtain ⟨⟨r₀, s₀⟩, halloc, hrun⟩ := bind_eq_ok_iff.1 hrun
    obtain ⟨hlt, hnone, hsome⟩ := allocIn_eq_ok h hpos halloc
    cases r₀ with
    | some r =>
      cases hrun
      refine ⟨fun hr => (by cases hr), fun r hr => ?_⟩
      cases hr
      obtain ⟨⟨hnone, black, header, content, hrev⟩, hsize⟩ := hsome r rfl
      refine ⟨hnone, black, header, content, ?_⟩
      exact
        { wf := hrev.wf.setCurrent fun i hi => by cases hi; rw [hsize]; exact hlt
          slot := hrev.slot
          unswept := hrev.unswept
          hugeNeedsSweep := hrev.hugeNeedsSweep
          arenas_le := hrev.arenas_le }
    | none =>
      cases hnone rfl
      exact ih hrun

theorem index_new (page : Page) {index : Nat} (hindex : index ≤ pageCount) :
    (Arena.new page index).index = index := by
  have hlt : index < 2 ^ 64 := lt_of_le_of_lt hindex (by decide)
  have hword : (Arena.new page index).block.word 0 = BitVec.ofNat 64 index := by
    show (Bitmap.setWord Bitmap.zero 0 _).word 0 = _
    rw [Bitmap.setWord, Bitmap.word, Array.getD_eq_getD_getElem?, Vector.getElem?_toArray,
      Vector.getElem?_setIfInBounds, if_pos rfl, if_pos (by decide)]
    rfl
  rw [Arena.index, hword, BitVec.toNat_ofNat, Nat.mod_eq_of_lt hlt]

/-- Nothing is recorded of any cell of a new arena. -/
theorem slot_new (page : Page) (index c : Nat) : (Arena.new page index).slot c = .blank := by
  have hnot : (Arena.new page index).isAllocated c = false := by
    rw [← Bool.not_eq_true, Arena.isAllocated_iff]
    exact fun hand => absurd hand.1 (Nat.not_le.2 hand.2.1)
  refine Slot.ext (Arena.entity?_of_not_allocated hnot) ?_ ?_ ?_ ?_
  · exact propext ⟨fun hc => absurd hc (Array.not_mem_empty _), False.elim⟩
  · exact propext ⟨fun hc => absurd hc (Array.not_mem_empty _), False.elim⟩
  · exact propext ⟨fun hc => absurd hc List.not_mem_nil, False.elim⟩
  · exact propext ⟨fun hc => absurd hc List.not_mem_nil, False.elim⟩

theorem sound_new (page : Page) (index : Nat) : (Arena.new page index).Sound :=
  ⟨Arena.tiled_new page index, FinalizerRegister.wf_empty, List.nodup_nil⟩

/-- A new arena gets the next index, and becomes the current one. -/
theorem Indexed.addArena (h : s.Indexed) (hlt : p < pageCount) (hnone : s.indices[p]? = none) :
    Indexed { s with
      arenas := s.arenas.push (.new p s.arenas.size)
      indices := s.indices.insert p s.arenas.size
      current := some s.arenas.size } := by
  have hget : ∀ {j : Nat} {b : Arena}, (s.arenas.push (.new p s.arenas.size))[j]? = some b →
      (j = s.arenas.size ∧ b = .new p s.arenas.size) ∨ s.arenas[j]? = some b := by
    intro j b hb
    rw [Array.getElem?_push] at hb
    split at hb
    · next heq =>
      cases hb
      exact .inl ⟨heq, rfl⟩
    · exact .inr hb
  have hotherPage : ∀ {j : Nat} {b : Arena}, s.arenas[j]? = some b → b.page ≠ p := by
    rintro j b hb rfl
    rw [h.indices.2 ⟨b, hb, rfl⟩] at hnone
    cases hnone
  refine
    { tiled := fun {j b} hb => ?_
      index := fun {j b} hb => ?_
      page_lt := fun {j b} hb => ?_
      indices := fun {q j} => ?_
      current := fun j hj => by cases hj; rw [Array.size_push]; exact Nat.lt_succ_self _ }
  · rcases hget hb with ⟨-, rfl⟩ | hb
    · exact Arena.tiled_new _ _
    · exact h.tiled hb
  · rcases hget hb with ⟨rfl, rfl⟩ | hb
    · exact index_new _ h.arenas_le_pageCount
    · exact h.index hb
  · rcases hget hb with ⟨-, rfl⟩ | hb
    · exact hlt
    · exact h.page_lt hb
  · show (s.indices.insert p s.arenas.size)[q]? = some j ↔
      ∃ b, (s.arenas.push (.new p s.arenas.size))[j]? = some b ∧ b.page = q
    rw [Std.TreeMap.getElem?_insert]
    simp only [compare_eq_iff]
    by_cases hpq : p = q
    · subst hpq
      rw [if_pos rfl, Option.some.injEq]
      constructor
      · rintro rfl
        exact ⟨.new p s.arenas.size, by rw [Array.getElem?_push, if_pos rfl], rfl⟩
      · rintro ⟨b, hb, hbp⟩
        rcases hget hb with ⟨rfl, -⟩ | hb
        · rfl
        · exact absurd hbp (hotherPage hb)
    · rw [if_neg hpq, h.indices]
      constructor
      · rintro ⟨b, hb, hbp⟩
        refine ⟨b, ?_, hbp⟩
        rw [Array.getElem?_push, if_neg, hb]
        rintro rfl
        exact absurd (Array.getElem?_eq_some_iff.1 hb).1 (Nat.lt_irrefl _)
      · rintro ⟨b, hb, hbp⟩
        rcases hget hb with ⟨-, rfl⟩ | hb
        · exact absurd hbp hpq
        · exact ⟨b, hb, hbp⟩

/-- A new arena is not seen in any slot. -/
theorem addArena_alike (h : s.Wf) (hfresh : supply.Fresh s 0) (hp : supply pageBytes = some p) :
    s.Alike { s with
      arenas := s.arenas.push (.new p s.arenas.size)
      indices := s.indices.insert p s.arenas.size
      current := some s.arenas.size } := by
  obtain ⟨hpz, hregion⟩ := hfresh pageBytes p hp
  obtain ⟨hlt, hnone, hblocks⟩ := hregion p (within_self p (by decide))
  have hget : ∀ {j : Nat} {b : Arena}, (s.arenas.push (.new p s.arenas.size))[j]? = some b →
      b = .new p s.arenas.size ∨ s.arenas[j]? = some b := by
    intro j b hb
    rw [Array.getElem?_push] at hb
    split at hb
    · cases hb
      exact .inl rfl
    · exact .inr hb
  have hindices : ∀ q, (s.indices.insert p s.arenas.size)[q]? =
      if p = q then some s.arenas.size else s.indices[q]? := by
    intro q
    rw [Std.TreeMap.getElem?_insert]
    simp only [compare_eq_iff]
  refine ⟨AltersArenas.wf
    { indexed := h.indexed.addArena hlt hnone
      sound := fun hb => (hget hb).elim (fun heq => heq ▸ sound_new _ _) h.sound
      zero := fun hb => (hget hb).elim (fun heq => heq ▸ slot_new _ _ _) h.zero
      apart := fun {q b x} hb hx => ?_
      total := ?_
      total_lt := h.total_lt } h, ?_, ?_, rfl, ?_⟩
  · show (s.indices.insert p s.arenas.size)[x]? = none
    rw [hindices, if_neg, h.apart hb hx]
    rintro rfl
    exact hblocks q b (page_ne_zero h hb).1 hb hx
  · show s.total = ((s.arenas.push (.new p s.arenas.size)).toList.map Arena.usedBytes).sum + s.blocks.bytes
    rw [Array.toList_push, List.map_append, List.sum_append, h.total]
    show _ = _ + (0 + 0) + _
    omega
  · funext t
    cases ht : t.isHuge with
    | true =>
      rw [slot_of_isHuge ht, slot_of_isHuge ht]
      rfl
    | false =>
      rw [slot_of_not_isHuge ht, slot_of_not_isHuge ht, arena?, arena?]
      show (((s.indices.insert p s.arenas.size)[t.page]?).bind
        ((s.arenas.push (.new p s.arenas.size))[·]?)).elim _ _ = _
      rw [hindices]
      by_cases htp : p = t.page
      · rw [if_pos htp, ← htp, hnone, Option.bind_some, Array.getElem?_push, if_pos rfl]
        exact slot_new _ _ _
      · rw [if_neg htp]
        cases hj : s.indices[t.page]? with
        | none => rfl
        | some j =>
          obtain ⟨b, hb, -⟩ := h.indices.1 hj
          rw [Option.bind_some, Option.bind_some, Array.getElem?_push, if_neg]
          rintro rfl
          exact absurd (Array.getElem?_eq_some_iff.1 hb).1 (Nat.lt_irrefl _)
  · funext j
    show ((s.arenas.push (.new p s.arenas.size))[j]?).any _ = (s.arenas[j]?).any _
    rw [Array.getElem?_push]
    split
    · next heq =>
      rw [heq, Array.getElem?_eq_none le_rfl]
      rfl
    · rfl
  · rw [Array.size_push]
    exact Nat.le_succ _

/-- Placing an object anywhere but in the current arena. -/
def allocElsewhere (s : Space) (supply : Supply) (cells : Nat) :
    Except Fault (Except AllocError Ref × Space) := do
  let (r?, s) ← s.allocAmong cells s.otherArenas
  if let some r := r? then return (.ok r, s)
  match s.addArena supply with
  | (.error e, s) => return (.error e, s)
  | (.ok index, s) =>
    let (r?, s) ← { s with current := some index }.allocIn index cells
    match r? with
    | some r => return (.ok r, s)
    | none => return (.error (.tooLarge (cells * cellBytes)), s)

theorem allocElsewhere_eq_ok (h : s.Wf) (hfresh : supply.Fresh s 0) {cells : Nat} (hpos : 0 < cells)
    {result : Except AllocError Ref}
    (hrun : s.allocElsewhere supply cells = .ok (result, s')) :
    (∀ e, result = .error e → s.Alike s') ∧
      ∀ r, result = .ok r → s.PlacedAt r (cells * cellBytes) s' := by
  obtain ⟨⟨r₀, s₀⟩, hamong, hrun⟩ := bind_eq_ok_iff.1 hrun
  obtain ⟨hnone, hsome⟩ := allocAmong_eq_ok h hpos hamong
  cases r₀ with
  | some r =>
    cases hrun
    exact ⟨fun _ he => (by cases he), fun r hr => by cases hr; exact hsome _ rfl⟩
  | none =>
    cases hnone rfl
    simp only [addArena] at hrun
    cases hp : supply pageBytes with
    | none =>
      rw [hp] at hrun
      cases hrun
      exact ⟨fun _ _ => Alike.refl h, fun _ hr => by cases hr⟩
    | some p =>
      rw [hp] at hrun
      have halike := addArena_alike h hfresh hp
      obtain ⟨⟨r₁, s₁⟩, halloc, hrun⟩ := bind_eq_ok_iff.1 hrun
      obtain ⟨-, hnone', hsome'⟩ := allocIn_eq_ok halike.wf hpos halloc
      cases r₁ with
      | none =>
        cases hrun
        cases hnone' rfl
        exact ⟨fun _ _ => halike, fun _ hr => by cases hr⟩
      | some r =>
        cases hrun
        refine ⟨fun _ he => (by cases he), fun r hr => ?_⟩
        cases hr
        obtain ⟨⟨hvacant, black, header, content, hrev⟩, -⟩ := hsome' r rfl
        rw [halike.slot] at hvacant hrev
        exact ⟨hvacant, black, header, content, halike.revises hrev⟩

/-- Placing an object of whole cells. -/
theorem allocCells_eq_ok (h : s.Wf) (hfresh : supply.Fresh s 0) {cells : Nat} (hpos : 0 < cells)
    {result : Except AllocError Ref}
    (hrun : s.allocCells supply cells = .ok (result, s')) :
    (∀ e, result = .error e → s.Alike s') ∧
      ∀ r, result = .ok r → s.PlacedAt r (cells * cellBytes) s' := by
  rw [allocCells] at hrun
  cases hc : s.current with
  | none =>
    rw [hc] at hrun
    exact allocElsewhere_eq_ok h hfresh hpos hrun
  | some index =>
    rw [hc] at hrun
    obtain ⟨⟨r₀, s₀⟩, halloc, hrun⟩ := bind_eq_ok_iff.1 hrun
    obtain ⟨-, hnone, hsome⟩ := allocIn_eq_ok h hpos halloc
    cases r₀ with
    | some r =>
      cases hrun
      exact ⟨fun _ he => (by cases he), fun r hr => by cases hr; exact (hsome _ rfl).1⟩
    | none =>
      cases hnone rfl
      exact allocElsewhere_eq_ok h hfresh hpos hrun

/-! ## Freeing -/

/-- What a freed object leaves at its place: nothing, but for a stale entry in the grey stack
of its arena. -/
def freed (s : Space) (r : Ref) : Slot :=
  { Slot.blank with queued := (s.slot r).queued ∧ r.isHuge = false }

theorem mem_withoutPage {p q : Page} {pages : Array Page} :
    q ∈ withoutPage p pages ↔ q ∈ pages ∧ q ≠ p := by
  rw [withoutPage, Array.mem_filter, bne_iff_ne]

theorem withoutPage_sublist (p : Page) (pages : Array Page) :
    (withoutPage p pages).toList.Sublist pages.toList := by
  rw [withoutPage, Array.toList_filter]
  exact List.filter_sublist

/-- The registrations are dropped as far as the header tells, which is all of them. -/
theorem mem_dropPage {registered : Bool} {p q : Page} {pages : Array Page} (hreg : p ∈ pages → registered = true) :
    q ∈ dropPage registered p pages ↔ q ∈ pages ∧ q ≠ p := by
  cases registered with
  | true => exact mem_withoutPage
  | false =>
    refine ⟨fun hq => ⟨hq, ?_⟩, fun hq => hq.1⟩
    rintro rfl
    cases hreg hq

theorem dropPage_sublist (registered : Bool) (p : Page) (pages : Array Page) :
    (dropPage registered p pages).toList.Sublist pages.toList := by
  cases registered with
  | true => exact withoutPage_sublist p pages
  | false => exact List.Sublist.refl _

/-- A huge block leaves its place with all that is recorded of it. -/
theorem Wf.revises_leave (h : s.Wf) {b : BlockEntry} {blocks : BlockTable} (hwf : blocks.Wf)
    (hbytes : blocks.bytes + b.size = s.blocks.bytes)
    (hentry : blocks.entryOf? = Function.update s.blocks.entryOf? p none) {fixed finalizers pending : Array Page}
    (hfixed : ∀ q, q ∈ fixed ↔ q ∈ s.hugeFixed ∧ q ≠ p)
    (hfinalizers : ∀ q, q ∈ finalizers ↔ q ∈ s.hugeFinalizers ∧ q ≠ p)
    (hpending : ∀ q, q ∈ pending ↔ q ∈ s.hugePending ∧ q ≠ p)
    (hregistered : (finalizers.toList ++ pending.toList).Sublist
      (s.hugeFinalizers.toList ++ s.hugePending.toList)) :
    s.Revises { s with
      blocks, contents := s.contents.erase p, hugeGrey := withoutPage p s.hugeGrey, hugeFixed := fixed,
      hugeFinalizers := finalizers, hugePending := pending, total := s.total - b.size } (.huge p) .blank := by
  have htotal := h.total
  have hgone : (s.contents.erase p)[p]? = none := by rw [getElem?_erase, if_pos rfl]
  have hnone : blocks.entryOf? p = none := by rw [hentry, Function.update_self]
  have ha : s.AltersBlock p { s with
      blocks, contents := s.contents.erase p, hugeGrey := withoutPage p s.hugeGrey, hugeFixed := fixed,
      hugeFinalizers := finalizers, hugePending := pending, total := s.total - b.size } :=
    { blocks := hwf
      entry := fun q hq => by
        show blocks.entryOf? q = _
        rw [hentry, Function.update_of_ne hq]
      region := fun hb => by cases hnone.symm.trans hb
      contents := fun q hq => by
        show (s.contents.erase p)[q]? = _
        rw [getElem?_erase, if_neg (Ne.symm hq)]
      content := by
        show ((s.contents.erase p)[p]?).isSome = (blocks.entryOf? p).isSome
        rw [hgone, hnone]
        rfl
      grey := fun q hq => by rw [mem_withoutPage, and_iff_left hq]
      queued := ⟨fun hq => absurd rfl (mem_withoutPage.1 hq).2, fun ⟨_, hb, _⟩ => by cases hnone.symm.trans hb⟩
      greyNodup := h.greyNodup.sublist (withoutPage_sublist p s.hugeGrey)
      fixed := fun q hq => by rw [hfixed, and_iff_left hq]
      finalizers := fun q hq => by rw [hfinalizers, and_iff_left hq]
      pending := fun q hq => by rw [hpending, and_iff_left hq]
      registered := h.registered.sublist hregistered
      total := by
        show s.total - b.size + s.blocks.bytes = s.total + blocks.bytes
        omega
      total_lt := lt_of_le_of_lt (Nat.sub_le _ _) h.total_lt }
  exact (ha.revises h).congr (Slot.ext (congrArg (Option.map _) hnone)
    (propext ⟨fun hq => absurd rfl (mem_withoutPage.1 hq).2, False.elim⟩)
    (propext ⟨fun hq => absurd rfl ((hfixed _).1 hq).2, False.elim⟩)
    (propext ⟨fun hq => absurd rfl ((hfinalizers _).1 hq).2, False.elim⟩)
    (propext ⟨fun hq => absurd rfl ((hpending _).1 hq).2, False.elim⟩))

/-- Freeing a huge block. -/
theorem freeHuge_spec (h : s.Wf) (hr : r.isHuge = true) (he : (s.slot r).entity? = some e)
    (hfixed : s.FixedAgrees r) (hregistered : s.RegisteredAgrees r) :
    ∃ s', s.freeHuge r = .ok (e.size, s') ∧ s.Revises s' r (s.freed r) := by
  obtain ⟨b, hb, hbe⟩ := exists_entry hr he
  have hsize : b.size = e.size := by rw [← hbe]; rfl
  have hslot : s.slot r = s.hugeSlot r.page := slot_of_isHuge hr
  obtain ⟨blocks, hremove, hwf, hbytes, -, hentry⟩ := BlockTable.remove_spec h.blocks (page_ne_zero h hb).1 hb
  have hpos : e.size ≠ 0 := by
    have hge := (h.sizes hb).1
    rw [hsize] at hge
    exact Nat.ne_of_gt (lt_of_lt_of_le (by decide) hge)
  have htotal : e.size ≤ s.total := by
    have := h.total
    omega
  have hagreesF := hfixed e he
  have hagreesR := hregistered e he
  rw [hslot] at hagreesF hagreesR
  have hrev := h.revises_leave hwf hbytes hentry (fun _ => mem_dropPage hagreesF.1)
    (fun _ => mem_dropPage fun hq => hagreesR.1 (.inl hq)) (fun _ => mem_dropPage fun hq => hagreesR.1 (.inr hq))
    ((dropPage_sublist _ _ _).append (dropPage_sublist _ _ _))
  rw [← eq_huge hr, hsize] at hrev
  have hfreed : s.freed r = .blank :=
    Slot.ext rfl (propext (iff_of_false (fun hq => Bool.false_ne_true (hq.2.symm.trans hr)) id)) rfl rfl rfl
  refine ⟨_, ?_, hfreed ▸ hrev⟩
  rw [freeHuge, header_eq h he]
  refine bind_eq_ok_iff.2 ⟨e.header, rfl, bind_eq_ok_iff.2 ⟨_, hremove, ?_⟩⟩
  show (require (b.size ≠ 0) _ >>= fun _ => _) = _
  rw [hsize]
  refine bind_eq_ok_iff.2 ⟨(), require_eq_ok_iff.2 hpos, ?_⟩
  exact bind_eq_ok_iff.2 ⟨_, shrink_eq_ok_iff.2 ⟨htotal, rfl⟩, rfl⟩

/-- Freeing an object of an arena. -/
theorem freeSmall_spec (h : s.Wf) (hr : r.isHuge = false) (he : (s.slot r).entity? = some e)
    (hfixed : s.FixedAgrees r) (hregistered : s.RegisteredAgrees r) :
    ∃ s', s.freeSmall r = .ok (e.size, s') ∧ s.Revises s' r (s.freed r) := by
  obtain ⟨a, ha, hslot⟩ := exists_arena hr he
  obtain ⟨i, hi, hp⟩ := (arena?_eq_some h).1 ha
  have he' : a.entity? r.cell = some e := by
    rw [hslot] at he
    exact he
  have halloc := Arena.isAllocated_of_entity? he'
  obtain ⟨hsize, -, -, hheader⟩ := Arena.eq_entityOf he'
  obtain ⟨hsound, hunlist⟩ := Arena.slot_unlist (c := r.cell) (h.sound hi)
    (fun hf => by rw [← hslot] at hf; rw [← hheader]; exact (hfixed e he).1 hf)
    (fun hf => by rw [← hslot] at hf; rw [← hheader]; exact (hregistered e he).1 hf)
  obtain ⟨a', hfree, hvacated⟩ := Arena.free_spec hsound.tiled
    (show (a.unlist r.cell).isAllocated r.cell = true from halloc)
  obtain ⟨hsound', hslot'⟩ := Arena.slot_vacated hsound hvacated
  have hextent : (a.unlist r.cell).extent r.cell * cellBytes = e.size := hsize.symm
  have hused : a'.usedBytes + e.size = a.usedBytes := by
    rw [Arena.usedBytes, Arena.usedBytes, ← hextent, ← Nat.add_mul, hvacated.used]
    rfl
  have htotal : e.size ≤ s.total := by
    have hs := h.total
    have hle := List.single_le_sum (l := s.arenas.toList.map Arena.usedBytes) (fun _ _ => Nat.zero_le _)
      a.usedBytes (List.mem_map.2 ⟨a, Array.mem_toList_iff.2 (Array.mem_of_getElem? hi), rfl⟩)
    omega
  refine ⟨{ s with arenas := s.arenas.setIfInBounds i a', total := s.total - e.size }, ?_, ?_⟩
  · rw [freeSmall, ← hp]
    refine bind_eq_ok_iff.2 ⟨i, indexOf_eq h hi, bind_eq_ok_iff.2
      ⟨((a.unlist r.cell).extent r.cell, { s with arenas := s.arenas.setIfInBounds i a' }), ?_, ?_⟩⟩
    · exact updateArena_eq_ok_iff'.2 ⟨a, a', hi, hfree, rfl⟩
    · show (shrink _ ((a.unlist r.cell).extent r.cell * cellBytes) >>= fun _ => _) = _
      rw [hextent]
      refine bind_eq_ok_iff.2 ⟨_, bind_eq_ok_iff.2 ⟨s.total - e.size, ?_, rfl⟩, rfl⟩
      exact checkedSub_eq_ok_iff.2 ⟨htotal, rfl⟩
  · refine h.revises_small hi hsound' hvacated.keeps.page hvacated.keeps.index hvacated.needsSweep
      (by omega) (lt_of_le_of_lt (Nat.sub_le _ _) h.total_lt) hr hp ?_
    rw [hslot', hunlist, Function.update_self, Function.update_idem, freed, hslot]
    congr 1
    refine Slot.ext rfl (propext ⟨fun hq => ⟨hq, hr⟩, fun hq => hq.1⟩) rfl rfl rfl

/-- Freeing an object empties its slot. -/
theorem free_spec (h : s.Wf) (he : (s.slot r).entity? = some e) (hfixed : s.FixedAgrees r)
    (hregistered : s.RegisteredAgrees r) :
    ∃ s', s.free r = .ok (e.size, s') ∧ s.Revises s' r (s.freed r) := by
  rw [free]
  by_cases hr : r.isHuge = true
  · rw [if_pos hr]
    exact freeHuge_spec h hr he hfixed hregistered
  · rw [if_neg hr]
    rw [Bool.not_eq_true] at hr
    exact freeSmall_spec h hr he hfixed hregistered

end Space

end Tricolor
