import Tricolor.Proofs.Sizes
import Tricolor.Proofs.Space.Hosting

/-!
# The address space

Objects lie in the address space, wherever the memory supply places their blocks. As arenas and blocks are
apart there, the bytes in use can always be counted: a small object for which there is room in an arena
never takes the count out of the range of a word.
-/

namespace Tricolor

theorem Arena.Tiled.used_le {a : Arena} (ha : a.Tiled) : a.used ≤ usableCells := by
  obtain ⟨chains, ht⟩ := ha
  have := ht.used
  have := ht.top_le
  rw [usableCells]
  omega

namespace Space

variable {s s' : Space} {supply : Supply} {old : Page} {r : Ref} {a : Arena} {i n cells size : Nat}

/-- Every block lies in the address space. -/
def InReach (s : Space) : Prop := ∀ (p : Nat) b, s.blocks.entryOf? p = some b → p * pageBytes + b.size ≤ wordRange

/-- What the supply provides lies in the address space. -/
theorem Fresh.le_wordRange {p : Nat} (hfresh : supply.Fresh s old) (hp : supply n = some p) (hpos : 0 < n) :
    p * pageBytes + n ≤ wordRange := by
  have hrange : wordRange = pageCount * pageBytes := rfl
  have hpage : 0 < pageBytes := by decide
  -- the page of the last byte is one of the region's
  have hlast : Page.Within ((p * pageBytes + n - 1) / pageBytes) p n := by
    have := Nat.div_mul_le_self (p * pageBytes + n - 1) pageBytes
    exact ⟨(Nat.le_div_iff_mul_le hpage).2 (by omega), by omega⟩
  have := (Nat.div_lt_iff_lt_mul hpage).1 ((hfresh n p hp).2 _ hlast).1
  omega

/-- The pages of the arenas, and the blocks. -/
def regions (s : Space) : List (Nat × Nat) :=
  (s.arenas.toList.map fun a => (a.page * pageBytes, pageBytes)) ++
    s.blocks.entries.map fun b => (b.page * pageBytes, b.size)

/-- Pages are apart. -/
theorem pages_apart {p q : Nat} (hne : p ≠ q) : Apart (p * pageBytes, pageBytes) (q * pageBytes, pageBytes) := by
  have hsucc : ∀ {p q : Nat}, p < q → p * pageBytes + pageBytes ≤ q * pageBytes := fun hlt => by
    rw [← Nat.succ_mul]
    exact Nat.mul_le_mul_right _ hlt
  exact (Nat.lt_or_gt_of_ne hne).imp hsucc hsucc

theorem apart_regions (h : s.Wf) : s.regions.Pairwise Apart := by
  have harena : ∀ {a : Arena}, a ∈ s.arenas.toList → ∃ i : Nat, s.arenas[i]? = some a := fun ha =>
    Array.getElem?_of_mem (Array.mem_toList_iff.1 ha)
  have hentry : ∀ {b : BlockEntry}, b ∈ s.blocks.entries → s.blocks.entryOf? b.page = some b := fun hb =>
    (BlockTable.entryOf?_eq_some_iff h.blocks.distinct).2 ⟨hb, rfl⟩
  refine List.pairwise_append.2 ⟨List.pairwise_map.2 ?_, List.pairwise_map.2 ?_, ?_⟩
  · exact (List.pairwise_map.1 h.indexed.nodup_pages).imp pages_apart
  · exact (List.pairwise_map.1 h.blocks.distinct.1).imp_of_mem fun hb hb' hne =>
      blocks_apart h (hentry hb) (hentry hb') hne
  · intro x hx y hy
    obtain ⟨a, ha, rfl⟩ := List.mem_map.1 hx
    obtain ⟨b, hb, rfl⟩ := List.mem_map.1 hy
    obtain ⟨i, hi⟩ := harena ha
    exact page_apart_block h hi (hentry hb)

/-- Whole arenas and blocks fit into the address space together. -/
theorem regions_le (h : s.Wf) (hreach : s.InReach) : s.arenas.size * pageBytes + s.blocks.bytes ≤ wordRange := by
  have hsum : (s.regions.map Prod.snd).sum = s.arenas.size * pageBytes + s.blocks.bytes := by
    rw [regions, List.map_append, List.sum_append, List.map_map, List.map_map, h.blocks.bytes]
    refine congrArg (· + _) ?_
    rw [show (Prod.snd ∘ fun a : Arena => (a.page * pageBytes, pageBytes)) = fun _ => pageBytes from rfl,
      List.map_const', List.sum_replicate_nat, Array.length_toList]
  rw [← hsum]
  refine sum_le_of_apart (fun x hx => ?_) (apart_regions h)
  rcases List.mem_append.1 hx with hx | hx
  · obtain ⟨a, ha, rfl⟩ := List.mem_map.1 hx
    obtain ⟨i, hi⟩ := Array.getElem?_of_mem (Array.mem_toList_iff.1 ha)
    have hrange : wordRange = pageCount * pageBytes := rfl
    have := Nat.mul_le_mul_right pageBytes (Nat.succ_le_of_lt (h.page_lt hi))
    rw [Nat.succ_mul] at this
    rw [hrange]
    exact this
  · obtain ⟨b, hb, rfl⟩ := List.mem_map.1 hx
    exact hreach b.page b ((BlockTable.entryOf?_eq_some_iff h.blocks.distinct).2 ⟨hb, rfl⟩)

/-- Where one number leaves room for `n` more, so does the sum. -/
theorem sum_add_le {l : List Arena} {count : Arena → Nat} {bound : Nat} (hall : ∀ x ∈ l, count x ≤ bound)
    (ha : a ∈ l) (hn : count a + n ≤ bound) : (l.map count).sum + n ≤ l.length * bound := by
  induction l with
  | nil => cases ha
  | cons b rest ih =>
    rw [List.map_cons, List.sum_cons, List.length_cons, Nat.succ_mul]
    have hb := hall b List.mem_cons_self
    rcases List.mem_cons.1 ha with rfl | ha
    · have hrest := List.sum_le_card_nsmul (rest.map count) bound fun x hx => by
        obtain ⟨y, hy, rfl⟩ := List.mem_map.1 hx
        exact hall y (List.mem_cons_of_mem _ hy)
      rw [List.length_map] at hrest
      have : (rest.map count).sum ≤ rest.length * bound := hrest
      omega
    · have := ih (fun x hx => hall x (List.mem_cons_of_mem _ hx)) ha
      omega

/-- The cells of an arena can be counted. -/
theorem total_add_lt (h : s.Wf) (hreach : s.InReach) (ha : s.arenas[i]? = some a)
    (hroom : a.used + cells ≤ usableCells) : s.total + cells * cellBytes < wordRange := by
  have hcells : usableCells * cellBytes < pageBytes := by decide
  have hbytes : ∀ {n : Nat}, n ≤ usableCells → n * cellBytes < pageBytes := fun hn =>
    lt_of_le_of_lt (Nat.mul_le_mul_right _ hn) hcells
  have hused : ∀ x ∈ s.arenas.toList, x.usedBytes ≤ pageBytes := fun x hx => by
    obtain ⟨j, hj⟩ := Array.getElem?_of_mem (Array.mem_toList_iff.1 hx)
    exact le_of_lt (hbytes (h.sound hj).tiled.used_le)
  have hfits : a.usedBytes + (cells * cellBytes + 1) ≤ pageBytes := by
    have := hbytes hroom
    rw [Nat.add_mul] at this
    rw [Arena.usedBytes]
    omega
  have hsum := sum_add_le hused (Array.mem_toList_iff.2 (Array.mem_of_getElem? ha)) hfits
  have := regions_le h hreach
  rw [Array.length_toList] at hsum
  rw [h.total]
  omega

/-! ## Where blocks are placed -/

/-- A small object is in no block. -/
theorem allocCells_small (h : s.Wf) (hpos : 0 < cells) (hle : cells ≤ usableCells)
    (hrun : s.allocCells supply cells = .ok (.ok r, s')) : r.isHuge = false := by
  have hne : ∀ {b b' : Arena} {head : Nat}, b.Hosts cells head b' → ∀ p, (Ref.mk p head).isHuge = false := by
    intro b b' head hosts p
    have hge := hosts.ge
    rw [firstCell_eq] at hge
    rw [Ref.isHuge, beq_eq_false_iff_ne]
    show head ≠ 0
    omega
  have hsettled : s.Settled supply cells (s.allocCells supply cells) :=
    allocCells_settled (fun ha => (h.sound ha).tiled) h.current hpos hle
  cases hsettled.settles hrun with
  | arena _ hosts => exact hne hosts _
  | enlarged _ _ hosts => exact hne hosts _

theorem allocHuge_supplied (hrun : s.allocHuge supply size = .ok (.ok r, s')) : supply size = some r.page := by
  obtain ⟨-, herror, -⟩ | ⟨p, blocks, marked, hask, hok, -⟩ := allocHuge_cases hrun
  · cases herror
  · cases hok
    exact supplied_of_askBlock hask

theorem resizeHuge_supplied {moved : Ref} (hrun : s.resizeHuge supply r size = .ok (.ok moved, s')) :
    supply size = some moved.page := by
  obtain ⟨old, -, -, ⟨-, herror, -⟩ | ⟨q, blocks, hask, hok, -⟩⟩ := resizeHuge_cases hrun
  · cases herror
  · cases hok
    exact supplied_of_askBlock hask

end Space

namespace Heap

variable {h h' : Heap} {supply : Supply} {r moved : Ref} {kind : Kind} {header : Header} {size old total : Nat}
  {result : Except AllocError Ref}

/-- A block with a payload of `size` bytes lies in the address space. -/
def ReachedAt (r : Ref) (size : Nat) : Prop :=
  r.isHuge = true → ∀ total, objectBytes size = .ok total → r.page * pageBytes + total ≤ wordRange

theorem place_reachedAt (hs : h.Sound) (hfresh : supply.Fresh h.space 0) (hcell : cellBytes ≤ total)
    (hr : r.isHuge = true) (hrun : h.place supply total = .ok (.ok r, h')) :
    r.page * pageBytes + total ≤ wordRange := by
  rw [place] at hrun
  split at hrun
  · obtain ⟨⟨r?, s₁⟩, halloc, hret⟩ := bind_eq_ok_iff.1 hrun
    cases hret
    have hp := Space.allocHuge_supplied halloc
    exact Space.Fresh.le_wordRange hfresh hp (lt_of_lt_of_le (by decide) hcell)
  · next hsmall =>
    obtain ⟨⟨r?, s₁⟩, halloc, hret⟩ := bind_eq_ok_iff.1 hrun
    cases r? with
    | error e => cases hret
    | ok t =>
      obtain ⟨s₂, -, hret⟩ := bind_eq_ok_iff.1 hret
      cases hret
      have hle : total / cellBytes ≤ usableCells := Nat.le_sub_of_add_le' (hs.config.fits_new hsmall)
      rw [Space.allocCells_small hs.wf (Nat.div_pos hcell (by decide)) hle halloc] at hr
      cases hr

theorem alloc_reachedAt (hs : h.Sound) (hfresh : supply.Fresh h.space 0)
    (hrun : h.alloc supply kind size = .ok (.ok r, h')) : ReachedAt r size := by
  intro hr total htotal
  rw [alloc] at hrun
  split at hrun
  · cases hrun
  · obtain ⟨total', htotal', hrun⟩ := bind_eq_ok_iff.1 hrun
    cases htotal.symm.trans htotal'
    obtain ⟨⟨r?, h₁⟩, hplace, hrun⟩ := bind_eq_ok_iff.1 hrun
    cases r? with
    | error e => cases hrun
    | ok t =>
      obtain ⟨s₂, -, hret⟩ := bind_eq_ok_iff.1 hrun
      cases hret
      exact place_reachedAt hs hfresh (objectBytes_eq_ok htotal).2.1 hr hplace

theorem realloc_reachedAt (hs : h.Sound) (hfresh : h.FreshFor supply r size)
    (hrun : h.realloc supply r old size = .ok (.ok moved, h')) : ReachedAt moved size := by
  rw [realloc] at hrun
  obtain ⟨_, -, hrun⟩ := bind_eq_ok_iff.1 hrun
  split at hrun
  · cases hrun
  · obtain ⟨total, htotal, hrun⟩ := bind_eq_ok_iff.1 hrun
    obtain ⟨header, -, hrun⟩ := bind_eq_ok_iff.1 hrun
    obtain ⟨_, -, hrun⟩ := bind_eq_ok_iff.1 hrun
    obtain ⟨_, -, hrun⟩ := bind_eq_ok_iff.1 hrun
    split at hrun
    · next hcond =>
      rw [Bool.and_eq_true, decide_eq_true_iff] at hcond
      obtain ⟨⟨moved?, s₁⟩, hresize, hrun⟩ := bind_eq_ok_iff.1 hrun
      cases moved? with
      | error e => cases hrun
      | ok t =>
        obtain ⟨h₂, -, hret⟩ := bind_eq_ok_iff.1 hrun
        cases hret
        intro _ total' htotal'
        cases htotal.symm.trans htotal'
        have hp := Space.resizeHuge_supplied hresize
        have hpos : 0 < total := lt_of_lt_of_le (by decide) (objectBytes_eq_ok htotal).2.1
        exact Space.Fresh.le_wordRange (hfresh.1 ⟨hcond.1, total, htotal, hcond.2⟩) hp hpos
    · next hcond =>
      have hstays : ¬ h.StaysHuge r size := by
        rintro ⟨hr, total', htotal', hlt⟩
        cases htotal.symm.trans htotal'
        exact hcond (by rw [hr, decide_eq_true hlt]; rfl)
      obtain ⟨bytes, -, hrun⟩ := bind_eq_ok_iff.1 hrun
      split at hrun
      · next hsame =>
        obtain ⟨h₂, -, hret⟩ := bind_eq_ok_iff.1 hrun
        cases hret
        intro hr
        rw [hr] at hsame
        cases hsame
      · obtain ⟨⟨moved?, h₁⟩, halloc, hrun⟩ := bind_eq_ok_iff.1 hrun
        cases moved? with
        | error e => cases hrun
        | ok t =>
          have hret : t = moved := by
            obtain ⟨bytes, -, hrun⟩ := bind_eq_ok_iff.1 hrun
            obtain ⟨s₁, -, hrun⟩ := bind_eq_ok_iff.1 hrun
            obtain ⟨s₂, -, hrun⟩ := ite_bind_eq_ok_iff.1 hrun
            obtain ⟨s₃, -, hrun⟩ := ite_bind_eq_ok_iff.1 hrun
            obtain ⟨marked, -, hrun⟩ := ite_bind_eq_ok_iff.1 hrun
            obtain ⟨s₄, -, hrun⟩ := ite_bind_eq_ok_iff.1 hrun
            obtain ⟨h₂, -, hret⟩ := bind_eq_ok_iff.1 hrun
            cases hret
            rfl
          exact hret ▸ alloc_reachedAt hs (hfresh.2 hstays) halloc

theorem fitting_reachedAt : Fitting ReachedAt where
  alloc := alloc_reachedAt
  realloc := realloc_reachedAt

theorem Each.inReach (hs : h.Sound) (hb : h.Each ReachedAt) : h.space.InReach := by
  intro p b hb'
  have he : (h.space.slot (.huge p)).entity? = some (h.space.entityOf b) := by
    rw [Space.slot_huge, Space.hugeSlot, hb']
    rfl
  exact hb _ _ he rfl _ ((hs.admits _).size he)

end Heap

/-- The blocks of a heap that a program reaches lie in the address space. -/
theorem Machine.Reachable.inReach {σ : Type} {mu : Mutator σ} {allowed : Heap.Resizings} {m : Machine σ}
    {config : Config} {hashOf : List UInt8 → Hash} (hm : Reachable mu allowed config hashOf m) :
    m.heap.space.InReach :=
  (hm.each Heap.fitting_reachedAt).inReach hm.sound

end Tricolor
