import Mathlib.Logic.Function.Basic
import Tricolor.Proofs.BlockTable
import Tricolor.Proofs.Enumeration

/-!
# A block table is a finite map

What callers ask of a block table are `Request`s; `Request.apply` says what each of them does to a map from pages
to sizes and flags, and `History` pairs a table with the map after the same requests. Nothing that a caller can
see tells the two apart: not where the slots lie, nor what growing and closing holes do to them.
-/

namespace Tricolor

/-- The page of an entry and what is registered there. -/
def BlockEntry.pair (e : BlockEntry) : Page × Nat × BlockFlags := (e.page, e.size, e.flags)

namespace BlockTable

variable {t t' : BlockTable} {slots : Array (Option BlockEntry)} {e : BlockEntry} {page : Page} {i z : Nat}

/-! ## Where probing ends -/

section Ahead

variable (hz : z < slots.size) (hempty : entryAt slots z = none)

include hz hempty

/-- A look-up does not pass an empty slot. -/
theorem probeAt_of_empty (address : Nat) : ∀ {n i}, i < slots.size → distance slots.size i z < n → ∀ {m}, n ≤ m →
    probeAt slots address i m = probeAt slots address i n := by
  intro n
  induction n with
  | zero => exact fun _ hn => absurd hn (Nat.not_lt_zero _)
  | succ n ih =>
    intro i hi hn m hm
    obtain ⟨m, rfl⟩ := Nat.exists_eq_add_of_le' (show 1 ≤ m by omega)
    rw [probeAt, probeAt]
    cases he : entryAt slots i with
    | none => rfl
    | some e =>
      have hnear := distance_after hi hz (ne_of_entryAt he hempty)
      simp only [ih (after_lt hi) (by omega) (show n ≤ m by omega)]

/-- The search for a place does not pass an empty slot. -/
theorem placeFrom_of_empty (new : BlockEntry) : ∀ {n i}, i < slots.size → distance slots.size i z < n → ∀ {m}, n ≤ m →
    placeFrom slots new i m = placeFrom slots new i n := by
  intro n
  induction n with
  | zero => exact fun _ hn => absurd hn (Nat.not_lt_zero _)
  | succ n ih =>
    intro i hi hn m hm
    obtain ⟨m, rfl⟩ := Nat.exists_eq_add_of_le' (show 1 ≤ m by omega)
    rw [placeFrom, placeFrom]
    cases he : entryAt slots i with
    | none => rfl
    | some e =>
      have hnear := distance_after hi hz (ne_of_entryAt he hempty)
      simp only [ih (after_lt hi) (by omega) (show n ≤ m by omega)]

end Ahead

/-- The closing of a hole does not pass an empty slot, which stays empty while entries are moved. -/
theorem closeHole_of_empty (bits : Nat) : ∀ {n slots hole i}, z < slots.size → entryAt slots z = none →
    hole < slots.size → hole ≠ z → i < slots.size → distance slots.size i z < n → ∀ {m}, n ≤ m →
      closeHole bits slots hole i m = closeHole bits slots hole i n := by
  intro n
  induction n with
  | zero => exact fun _ _ _ _ _ hn => absurd hn (Nat.not_lt_zero _)
  | succ n ih =>
    intro slots hole i hz hempty hhole hne hi hn m hm
    obtain ⟨m, rfl⟩ := Nat.exists_eq_add_of_le' (show 1 ≤ m by omega)
    rw [closeHole, closeHole]
    cases he : entryAt slots i with
    | none => rfl
    | some e =>
      have hiz := ne_of_entryAt he hempty
      have hnear := distance_after hi hz hiz
      have hnext := after_lt hi
      have hskip := ih hz hempty hhole hne hnext (by omega) (show n ≤ m by omega)
      have hmove := @ih (slots.setIfInBounds hole (some e)) i (after slots i)
        (by rwa [Array.size_setIfInBounds]) (by rw [entryAt_set hhole, if_neg hne, hempty])
        (by rwa [Array.size_setIfInBounds]) hiz (by rwa [Array.size_setIfInBounds])
        (by rw [Array.size_setIfInBounds]; omega) m (by omega)
      simp only [hskip, hmove]

/-- However far the loops over the slots may look, they end within one round. -/
structure LoopsEnd (bits : Nat) (slots : Array (Option BlockEntry)) : Prop where
  /-- some slot is empty -/
  room : ∃ z, z < slots.size ∧ entryAt slots z = none
  probeAt : ∀ {address i n}, i < slots.size → slots.size ≤ n →
    probeAt slots address i n = probeAt slots address i slots.size
  placeFrom : ∀ {e i n}, i < slots.size → slots.size ≤ n →
    placeFrom slots e i n = placeFrom slots e i slots.size
  closeHole : ∀ {hole e n}, entryAt slots hole = some e → slots.size ≤ n →
    closeHole bits slots hole (after slots hole) n = closeHole bits slots hole (after slots hole) slots.size

theorem loopsEnd (bits : Nat) (hroom : (entriesIn slots).length < slots.size) : LoopsEnd bits slots := by
  obtain ⟨z, hz, hempty⟩ := exists_empty hroom
  refine ⟨⟨z, hz, hempty⟩, fun hi hn => ?_, fun hi hn => ?_, fun he hn => ?_⟩
  · exact probeAt_of_empty hz hempty _ hi (distance_lt hi hz) hn
  · exact placeFrom_of_empty hz hempty _ hi (distance_lt hi hz) hn
  · have hhole := entryAt_lt he
    exact closeHole_of_empty bits hz hempty hhole (ne_of_entryAt he hempty) (after_lt hhole)
      (distance_lt (after_lt hhole) hz) hn

/-- A placement takes up one slot at most. -/
theorem placeFrom_length {slots' : Array (Option BlockEntry)} : ∀ {n i}, i < slots.size →
    placeFrom slots e i n = .ok slots' →
      slots'.size = slots.size ∧ (entriesIn slots').length ≤ (entriesIn slots).length + 1 := by
  intro n
  induction n with
  | zero =>
    intro i _ hplace
    cases hplace
    exact ⟨rfl, Nat.le_succ _⟩
  | succ n ih =>
    intro i hi hplace
    rw [placeFrom] at hplace
    cases he : entryAt slots i with
    | none =>
      rw [he] at hplace
      cases hplace
      exact ⟨Array.size_setIfInBounds, (entriesIn_fill hi he e).length_eq.le⟩
    | some other =>
      rw [he] at hplace
      simp only at hplace
      split at hplace
      · cases hplace
      · exact ih (after_lt hi) hplace

theorem place_length {bits : Nat} {slots' : Array (Option BlockEntry)} (hsize : slots.size = 1 <<< bits)
    (hplace : place bits slots e = .ok slots') :
    slots'.size = slots.size ∧ (entriesIn slots').length ≤ (entriesIn slots).length + 1 := by
  rw [place] at hplace
  split at hplace
  · cases hplace
    exact ⟨rfl, Nat.le_succ _⟩
  · exact placeFrom_length (home_lt hsize _) hplace

theorem placeAll_length {bits : Nat} {placed : List BlockEntry} :
    ∀ {slots slots' : Array (Option BlockEntry)}, slots.size = 1 <<< bits →
      placed.foldlM (place bits) slots = .ok slots' →
        slots'.size = slots.size ∧ (entriesIn slots').length ≤ (entriesIn slots).length + placed.length := by
  induction placed with
  | nil =>
    intro slots slots' _ hplace
    cases hplace
    exact ⟨rfl, Nat.le_refl _⟩
  | cons e rest ih =>
    intro slots slots' hsize hplace
    rw [List.foldlM_cons] at hplace
    obtain ⟨first, hfirst, hrest⟩ := bind_eq_ok_iff.1 hplace
    obtain ⟨hs, hlength⟩ := place_length hsize hfirst
    obtain ⟨hs', hlength'⟩ := ih (hs.trans hsize) hrest
    rw [List.length_cons]
    exact ⟨hs'.trans hs, by omega⟩

/-- While the slots are doubled there is room at every point. -/
theorem Wf.loopsEnd_growing (h : t.Wf) {placed rest : List BlockEntry} (hsplit : t.entries = placed ++ rest)
    (hplace : placed.foldlM (place (t.bits + 1)) (Array.replicate (1 <<< (t.bits + 1)) none) = .ok slots) :
    LoopsEnd (t.bits + 1) slots := by
  obtain ⟨hsize, hlength⟩ := placeAll_length Array.size_replicate hplace
  have hdouble : 1 <<< (t.bits + 1) = t.slots.size * 2 := by
    rw [h.slots, Nat.one_shiftLeft, Nat.one_shiftLeft, Nat.pow_succ]
  have hcount := congrArg List.length hsplit
  have hroom : t.entries.length < t.slots.size := h.exists_room
  rw [entriesIn_replicate, List.length_nil] at hlength
  rw [Array.size_replicate, hdouble] at hsize
  rw [List.length_append] at hcount
  exact loopsEnd _ (by omega)

/-! ## Addresses -/

theorem probeAt_page (slots : Array (Option BlockEntry)) (page : Page) :
    ∀ n i, probeAt slots (page * pageBytes) i n = probe slots page i n := by
  intro n
  induction n with
  | zero => exact fun _ => rfl
  | succ n ih =>
    intro i
    rw [probeAt, probe]
    cases entryAt slots i with
    | none => rfl
    | some e => simp only [ih, Nat.mul_left_inj (show pageBytes ≠ 0 by decide)]

/-- The address of a page finds what the page finds. -/
theorem findAt_page (t : BlockTable) (hpage : page ≠ 0) : t.findAt (page * pageBytes) = t.find page := by
  have haddress : page * pageBytes ≠ 0 := Nat.mul_ne_zero hpage (by decide)
  rw [findAt, find, require_eq_ok_iff.2 haddress, require_eq_ok_iff.2 hpage, probeAt_page,
    Nat.mul_div_cancel _ (show 0 < pageBytes by decide)]

/-- Inside a page there is nothing to be found. -/
theorem findAt_inside (t : BlockTable) {address : Nat} (hinside : address % pageBytes ≠ 0) :
    t.findAt address = .ok none := by
  have hprobe : ∀ n i, probeAt t.slots address i n = none := by
    intro n
    induction n with
    | zero => exact fun _ => rfl
    | succ n ih =>
      intro i
      rw [probeAt]
      cases entryAt t.slots i with
      | none => rfl
      | some e =>
        have hne : e.page * pageBytes ≠ address := by
          rintro rfl
          exact hinside (Nat.mul_mod_left _ _)
        simp only [if_neg hne, ih]
  have haddress : address ≠ 0 := by
    rintro rfl
    exact hinside (Nat.zero_mod _)
  rw [findAt, require_eq_ok_iff.2 haddress, hprobe]
  rfl

/-! ## The map -/

/-- What is registered: the size and the flags of the block at each page. -/
abbrev BlockMap := Page → Option (Nat × BlockFlags)

/-- The entry of a page. -/
def BlockMap.entry (map : BlockMap) (page : Page) : Option BlockEntry :=
  (map page).map fun block => ⟨page, block.1, block.2⟩

/-- The blocks of a table with their pages. -/
def registered (t : BlockTable) : List (Page × Nat × BlockFlags) := t.entries.map BlockEntry.pair

/-- The bytes of the blocks in a list. -/
def totalSize (pairs : List (Page × Nat × BlockFlags)) : Nat := (pairs.map fun pair => pair.2.1).sum

theorem totalSize_perm {pairs pairs' : List (Page × Nat × BlockFlags)} (hperm : pairs.Perm pairs') :
    totalSize pairs = totalSize pairs' :=
  (hperm.map _).sum_eq

variable {map : BlockMap}

theorem BlockMap.entry_eq_some : map.entry page = some e ↔ e.page = page ∧ map e.page = some (e.size, e.flags) := by
  rw [BlockMap.entry, Option.map_eq_some_iff]
  constructor
  · rintro ⟨block, hblock, rfl⟩
    exact ⟨rfl, hblock⟩
  · rintro ⟨rfl, hblock⟩
    exact ⟨_, hblock, rfl⟩

theorem BlockMap.entry_update (map : BlockMap) (page : Page) (block : Option (Nat × BlockFlags)) :
    BlockMap.entry (Function.update map page block) =
      Function.update map.entry page (block.map fun block => ⟨page, block.1, block.2⟩) := by
  funext other
  rw [BlockMap.entry]
  by_cases hother : other = page
  · subst hother
    rw [Function.update_self, Function.update_self]
  · rw [Function.update_of_ne hother, Function.update_of_ne hother, BlockMap.entry]

theorem update_none {old : Page} (hfresh : page = old ∨ map page = none) :
    Function.update map old none page = none := by
  rcases hfresh with rfl | hfresh
  · exact Function.update_self _ _ _
  · rw [Function.update_apply, hfresh, ite_self]

theorem mem_registered : (e.page, e.size, e.flags) ∈ t.registered ↔ e ∈ t.entries := by
  rw [registered, List.mem_map]
  constructor
  · rintro ⟨⟨_, _, _⟩, hmem, heq⟩
    cases heq
    exact hmem
  · exact fun hmem => ⟨e, hmem, rfl⟩

theorem registered_pages : t.registered.map Prod.fst = t.entries.map BlockEntry.page := by
  rw [registered, List.map_map]
  rfl

/-- The table and the map hold the same blocks. -/
structure Represents (t : BlockTable) (map : BlockMap) : Prop where
  wf : t.Wf
  entries : t.entryOf? = map.entry
  /-- the counter of the bytes is in its range -/
  fits : t.bytes < wordRange

theorem Wf.enumerates_iff (h : t.Wf) : Enumerates t.registered map ↔ t.entryOf? = map.entry := by
  constructor
  · intro henum
    funext page
    ext e
    rw [entryOf?_eq_some_iff h.distinct, BlockMap.entry_eq_some, ← henum.mem_iff, mem_registered, and_comm]
  · intro hentries
    refine ⟨registered_pages ▸ h.distinct.1, fun page block => ?_⟩
    have hmem : (page, block) ∈ t.registered ↔ (⟨page, block.1, block.2⟩ : BlockEntry) ∈ t.entries :=
      @mem_registered t ⟨page, block.1, block.2⟩
    have hentry := @entryOf?_eq_some_iff ⟨page, block.1, block.2⟩ page t h.distinct
    rw [hentries, BlockMap.entry_eq_some, and_iff_right rfl, and_iff_left rfl] at hentry
    rw [hmem, ← hentry]

namespace Represents

theorem empty : Represents .empty fun _ => none := by
  refine ⟨wf_empty, ?_, by decide⟩
  rw [← wf_empty.enumerates_iff]
  have hnone : BlockTable.empty.registered = [] := congrArg (List.map _) (entriesIn_replicate _)
  rw [hnone]
  exact Enumerates.nil

section Fields

variable (h : Represents t map)

include h

theorem enumerates : Enumerates t.registered map := h.wf.enumerates_iff.2 h.entries

theorem size : t.size = t.registered.length := by
  rw [registered, List.length_map]
  exact h.wf.size

theorem bytes : t.bytes = totalSize t.registered := by
  rw [h.wf.bytes, totalSize, registered, List.map_map]
  rfl

theorem entryOf?_eq (page : Page) : t.entryOf? page = (map page).map fun block => ⟨page, block.1, block.2⟩ :=
  congrFun h.entries page

theorem fresh (hfresh : map page = none) : t.entryOf? page = none := by
  rw [h.entryOf?_eq, hfresh, Option.map_none]

end Fields

/-- A block is registered if the counter of the bytes does not overflow, and otherwise that is the fault. -/
theorem insert (h : Represents t map) (hpage : page ≠ 0) (hfresh : map page = none) {size : Nat}
    (haligned : size % cellBytes = 0) :
    (t.bytes + size < wordRange → ∃ t', t.insert page size = .ok t' ∧
      Represents t' (Function.update map page (some (size, 0)))) ∧
    (wordRange ≤ t.bytes + size → t.insert page size = .error .overflow) := by
  constructor
  · intro hfits
    obtain ⟨t', hrun, hwf, hbytes, hentries⟩ := insert_spec h.wf hpage (h.fresh hfresh) haligned hfits
    refine ⟨t', hrun, hwf, ?_, by omega⟩
    rw [hentries, BlockMap.entry_update, h.entries, Option.map_some]
  · intro hover
    obtain ⟨g, hg, hwf, hperm, hbytes, -⟩ := roomy_spec h.wf
    have hnew : ∀ e ∈ entriesIn g.slots, e.page ≠ page := fun e he =>
      entryOf?_eq_none_iff.1 (h.fresh hfresh) e (hperm.subset he)
    obtain ⟨slots, hplace, -⟩ :=
      @place_spec g.slots g.bits ⟨page, size, 0⟩ hwf.slots hwf.reach hwf.exists_room hpage hnew
    have hadd : checkedAdd wordRange g.bytes size = .error .overflow := by
      rw [checkedAdd, if_neg (by omega)]
    rw [insert_eq, require_eq_ok_iff.2 haligned, hg]
    simp only [bind, Except.bind, hplace, hadd]

/-- A removal answers the size of the block and takes nothing else away. -/
theorem remove (h : Represents t map) (hpage : page ≠ 0) :
    ∃ t', t.remove page = .ok ((map page).map Prod.fst, t') ∧ Represents t' (Function.update map page none) := by
  cases hblock : map page with
  | none =>
    refine ⟨t, remove_of_none h.wf hpage (h.fresh hblock), ?_⟩
    rwa [← hblock, Function.update_eq_self]
  | some block =>
    have hentry : t.entryOf? page = some ⟨page, block.1, block.2⟩ := by
      rw [h.entryOf?_eq, hblock, Option.map_some]
    obtain ⟨t', hrun, hwf, hbytes, -, hentries⟩ := remove_spec h.wf hpage hentry
    have hfits := h.fits
    refine ⟨t', hrun, hwf, ?_, by omega⟩
    rw [hentries, BlockMap.entry_update, h.entries, Option.map_none]

/-- The flags of one block change. -/
theorem updateFlags (h : Represents t map) (hpage : page ≠ 0) (f : BlockFlags → BlockFlags) :
    ∃ t', t.updateFlags page f = .ok t' ∧
      Represents t' (Function.update map page ((map page).map fun block => (block.1, f block.2))) := by
  obtain ⟨t', hrun, hwf, hbytes, hentries⟩ := updateFlags_spec h.wf hpage f
  have hfits := h.fits
  refine ⟨t', hrun, hwf, ?_, by omega⟩
  rw [hentries, BlockMap.entry_update, h.entries, BlockMap.entry, Option.map_map, Option.map_map]
  rfl

/-- A block that is registered anew keeps its flags; a page without a block has none. -/
theorem replace (h : Represents t map) {old : Page} (hold : old ≠ 0) (hpage : page ≠ 0)
    (hfresh : page = old ∨ map page = none) {size : Nat} (haligned : size % cellBytes = 0) :
    ∃ rest, t.remove old = .ok ((map old).map Prod.fst, rest) ∧ Represents rest (Function.update map old none) ∧
      (rest.bytes + size < wordRange → ∃ t', t.replace old page size = .ok t' ∧
        Represents t' (Function.update (Function.update map old none) page
          (some (size, (map old).elim 0 Prod.snd)))) ∧
      (wordRange ≤ rest.bytes + size → t.replace old page size = .error .overflow) := by
  have hflags : t.flags old = .ok ((map old).elim 0 Prod.snd) := by
    rw [flags_eq_ok h.wf hold, h.entryOf?_eq]
    cases map old <;> rfl
  obtain ⟨rest, hremove, hrest⟩ := h.remove hold
  obtain ⟨hinsert, hover⟩ := hrest.insert hpage (update_none hfresh) haligned
  refine ⟨rest, hremove, hrest, fun hfits => ?_, fun hfits => ?_⟩
  · obtain ⟨u, hu, hu'⟩ := hinsert hfits
    obtain ⟨t', hrun, ht'⟩ := hu'.updateFlags hpage (· ||| (map old).elim 0 Prod.snd)
    refine ⟨t', ?_, ?_⟩
    · rw [BlockTable.replace, hflags, hremove]
      simp only [bind, Except.bind, hu]
      exact hrun
    · rwa [Function.update_self, Function.update_idem, Option.map_some, or_flags] at ht'
  · rw [BlockTable.replace, hflags, hremove]
    simp only [bind, Except.bind, hover hfits]

end Represents

/-- What a sweep leaves of a block. -/
def survivor (block : Nat × BlockFlags) : Option (Nat × BlockFlags) :=
  if block.2.isMarked then some (block.1, 0) else none

/-- The entries with a mark, their flags cleared, are the survivors. -/
theorem registered_survivors (entries : List BlockEntry) :
    ((entries.filter (·.flags.isMarked)).map fun e => { e with flags := 0 }).map BlockEntry.pair =
      (entries.map BlockEntry.pair).filterMap fun pair => (survivor pair.2).map (Prod.mk pair.1) := by
  induction entries with
  | nil => rfl
  | cons e rest ih =>
    cases hmark : e.flags.isMarked with
    | false =>
      have hnone : survivor e.pair.2 = none := if_neg (show ¬ e.flags.isMarked = true by rw [hmark]; decide)
      rw [List.filter_cons_of_neg (by rw [hmark]; decide), ih, List.map_cons,
        List.filterMap_cons_none (by rw [hnone, Option.map_none])]
    | true =>
      have hsome : survivor e.pair.2 = some (e.size, 0) := if_pos hmark
      rw [List.filter_cons_of_pos (by rw [hmark]), List.map_cons, List.map_cons, ih, List.map_cons,
        List.filterMap_cons_some (by rw [hsome, Option.map_some])]
      rfl

/-- A sweep answers the blocks without a mark and leaves the others with their flags cleared. -/
theorem Represents.sweep (h : Represents t map) :
    ∃ dead t', t.sweep = .ok (dead, t') ∧ (dead.map BlockEntry.page).Nodup ∧
      (∀ e, e ∈ dead ↔ map e.page = some (e.size, e.flags) ∧ e.flags.isMarked = false) ∧
      Represents t' fun page => (map page).bind survivor := by
  obtain ⟨dead, t', hrun, hwf, rfl, hbytes, hperm⟩ := sweep_spec h.wf
  have hfits := h.fits
  refine ⟨_, t', hrun, ?_, fun e => ?_, hwf, ?_, by omega⟩
  · exact h.wf.distinct.1.sublist (List.filter_sublist.map BlockEntry.page)
  · rw [List.mem_filter, ← mem_registered, h.enumerates.mem_iff, Bool.not_eq_true']
  · rw [← hwf.enumerates_iff]
    have hsurvivors :
        (t.registered.filterMap fun pair => (survivor pair.2).map (Prod.mk pair.1)).Perm t'.registered := by
      rw [registered, ← registered_survivors]
      exact (hperm.map _).symm
    exact (h.enumerates.filterMap fun _ _ => rfl).perm hsurvivors

/-! ## Requests -/

/-- What callers ask of a table. -/
inductive Request where
  /-- register the block of `size` bytes at `page` -/
  | insert (page : Page) (size : Nat)
  /-- unregister `page` -/
  | remove (page : Page)
  /-- register the block at `old` anew at `page` -/
  | replace (old page : Page) (size : Nat)
  /-- set flags of the block at `page` -/
  | setFlags (page : Page) (flags : BlockFlags)
  /-- clear flags of the block at `page` -/
  | clearFlags (page : Page) (flags : BlockFlags)
  /-- drop the blocks without a mark -/
  | sweep
  deriving DecidableEq, Repr

namespace Request

/-- What callers keep to: no block starts at page 0, a block has whole cells, and it is registered at a page that has
none. -/
def Allowed (map : BlockMap) : Request → Prop
  | insert page size => page ≠ 0 ∧ map page = none ∧ size % cellBytes = 0
  | remove page => page ≠ 0
  | replace old page size => old ≠ 0 ∧ page ≠ 0 ∧ (page = old ∨ map page = none) ∧ size % cellBytes = 0
  | setFlags page _ => page ≠ 0
  | clearFlags page _ => page ≠ 0
  | sweep => True

/-- The request on a table. -/
def run (t : BlockTable) : Request → Except Fault BlockTable
  | insert page size => t.insert page size
  | remove page => return (← t.remove page).2
  | replace old page size => t.replace old page size
  | setFlags page flags => t.setFlags page flags
  | clearFlags page flags => t.clearFlags page flags
  | sweep => return (← t.sweep).2

/-- The request on a map. -/
def apply (map : BlockMap) : Request → BlockMap
  | insert page size => Function.update map page (some (size, 0))
  | remove page => Function.update map page none
  | replace old page size =>
    Function.update (Function.update map old none) page (some (size, (map old).elim 0 Prod.snd))
  | setFlags page flags => Function.update map page ((map page).map fun block => (block.1, block.2 ||| flags))
  | clearFlags page flags => Function.update map page ((map page).map fun block => (block.1, block.2 &&& ~~~flags))
  | sweep => fun page => (map page).bind survivor

end Request

/-- A request does to the table what it does to the map, unless the blocks that are registered after it have more
bytes than the counter can count; then it faults. -/
theorem Represents.run (h : Represents t map) {request : Request} (hallowed : request.Allowed map) :
    ∃ pairs, Enumerates pairs (request.apply map) ∧
      (totalSize pairs < wordRange → ∃ t', request.run t = .ok t' ∧ Represents t' (request.apply map)) ∧
      (wordRange ≤ totalSize pairs → request.run t = .error .overflow) := by
  -- a request that succeeds leaves a table whose counter is in its range
  have hsucceeds : (∃ t', request.run t = .ok t' ∧ Represents t' (request.apply map)) →
      ∃ pairs, Enumerates pairs (request.apply map) ∧
        (totalSize pairs < wordRange → ∃ t', request.run t = .ok t' ∧ Represents t' (request.apply map)) ∧
        (wordRange ≤ totalSize pairs → request.run t = .error .overflow) := by
    rintro ⟨t', hrun, ht'⟩
    have hfits := ht'.fits
    rw [ht'.bytes] at hfits
    exact ⟨t'.registered, ht'.enumerates, fun _ => ⟨t', hrun, ht'⟩, fun hover => absurd hfits (by omega)⟩
  cases request with
  | insert page size =>
    obtain ⟨hpage, hfresh, haligned⟩ := hallowed
    obtain ⟨hok, hover⟩ := h.insert hpage hfresh haligned
    have htotal : totalSize ((page, size, 0) :: t.registered) = t.bytes + size := by
      rw [h.bytes, Nat.add_comm]
      rfl
    rw [← htotal] at hok hover
    exact ⟨_, h.enumerates.cons hfresh (size, 0), hok, hover⟩
  | remove page =>
    obtain ⟨t', hrun, ht'⟩ := h.remove hallowed
    exact hsucceeds ⟨t', by rw [Request.run, hrun]; rfl, ht'⟩
  | replace old page size =>
    obtain ⟨hold, hpage, hfresh, haligned⟩ := hallowed
    obtain ⟨rest, -, hrest, hok, hover⟩ := h.replace hold hpage hfresh haligned
    have htotal : totalSize ((page, size, (map old).elim 0 Prod.snd) :: rest.registered) = rest.bytes + size := by
      rw [hrest.bytes, Nat.add_comm]
      rfl
    rw [← htotal] at hok hover
    exact ⟨_, hrest.enumerates.cons (update_none hfresh) _, hok, hover⟩
  | setFlags page flags =>
    obtain ⟨t', hrun, ht'⟩ := h.updateFlags hallowed (· ||| flags)
    exact hsucceeds ⟨t', hrun, ht'⟩
  | clearFlags page flags =>
    obtain ⟨t', hrun, ht'⟩ := h.updateFlags hallowed (· &&& ~~~flags)
    exact hsucceeds ⟨t', hrun, ht'⟩
  | sweep =>
    obtain ⟨dead, t', hrun, -, -, ht'⟩ := h.sweep
    exact hsucceeds ⟨t', by rw [Request.run, hrun]; rfl, ht'⟩

/-- A table and the map after the same requests. -/
inductive History : BlockTable → BlockMap → Prop
  | start : History .empty fun _ => none
  | next {t t' : BlockTable} {map : BlockMap} {request : Request} (h : History t map)
      (hallowed : request.Allowed map) (hrun : request.run t = .ok t') : History t' (request.apply map)

theorem History.represents (h : History t map) : Represents t map := by
  induction h with
  | start => exact Represents.empty
  | @next t t' map request _ hallowed hrun ih =>
    obtain ⟨pairs, -, hok, hover⟩ := ih.run hallowed
    rcases Nat.lt_or_ge (totalSize pairs) wordRange with hfits | hfits
    · obtain ⟨u, hu, hu'⟩ := hok hfits
      rw [hrun] at hu
      cases hu
      exact hu'
    · rw [hover hfits] at hrun
      cases hrun

/-- The table answers every question as the map does, and no loop over its slots runs on. -/
structure Mirrors (t : BlockTable) (map : BlockMap) : Prop where
  find : ∀ page, page ≠ 0 → ∃ place, t.find page = .ok place ∧
    place.bind (entryAt t.slots) = (map page).map fun block => ⟨page, block.1, block.2⟩
  /-- a block is found by the address of its page -/
  start : ∀ page, page ≠ 0 → t.findAt (page * pageBytes) = t.find page
  /-- and by no other address -/
  inside : ∀ address, address % pageBytes ≠ 0 → t.findAt address = .ok none
  contains : ∀ page, page ≠ 0 → t.contains page = .ok (map page).isSome
  sizeOf? : ∀ page, page ≠ 0 → t.sizeOf? page = .ok ((map page).map Prod.fst)
  flags : ∀ page, page ≠ 0 → t.flags page = .ok ((map page).elim 0 Prod.snd)
  registered : Enumerates t.registered map
  size : ∀ pairs, Enumerates pairs map → t.size = pairs.length
  bytes : ∀ pairs, Enumerates pairs map → t.bytes = totalSize pairs
  loops : LoopsEnd t.bits t.slots
  /-- also at every point while the slots are doubled -/
  growing : ∀ placed rest slots, t.entries = placed ++ rest →
    placed.foldlM (place (t.bits + 1)) (Array.replicate (1 <<< (t.bits + 1)) none) = .ok slots →
      LoopsEnd (t.bits + 1) slots

theorem Represents.mirrors (h : Represents t map) : t.Mirrors map where
  find page hpage := by
    rw [← h.entryOf?_eq]
    rcases find_cases h.wf hpage with ⟨i, e, hfind, he, hentry⟩ | ⟨hfind, hentry⟩
    · exact ⟨some i, hfind, by rw [hentry, Option.bind_some, he]⟩
    · exact ⟨none, hfind, by rw [hentry, Option.bind_none]⟩
  start _ := findAt_page t
  inside _ := findAt_inside t
  contains page hpage := by rw [contains_eq_ok h.wf hpage, h.entryOf?_eq, Option.isSome_map]
  sizeOf? page hpage := by
    rw [sizeOf?_eq_ok h.wf hpage, h.entryOf?_eq, Option.map_map]
    rfl
  flags page hpage := by
    rw [flags_eq_ok h.wf hpage, h.entryOf?_eq]
    cases map page <;> rfl
  registered := h.enumerates
  size _ hpairs := h.size.trans (h.enumerates.unique hpairs).length_eq
  bytes _ hpairs := h.bytes.trans (totalSize_perm (h.enumerates.unique hpairs))
  loops := loopsEnd _ h.wf.exists_room
  growing _ _ _ := h.wf.loopsEnd_growing

/-- After any requests a table mirrors the map. A request of a caller succeeds as long as the bytes of the blocks that
are registered after it can be counted; a removal answers the size of the block; and a sweep answers the blocks
without a mark, each once. -/
theorem exact_map (h : History t map) :
    t.Mirrors map ∧
      (∀ request : Request, request.Allowed map → ∃ pairs, Enumerates pairs (request.apply map) ∧
        (totalSize pairs < wordRange → ∃ t', request.run t = .ok t' ∧ History t' (request.apply map)) ∧
        (wordRange ≤ totalSize pairs → request.run t = .error .overflow)) ∧
      (∀ page, page ≠ 0 → ∃ t', t.remove page = .ok ((map page).map Prod.fst, t') ∧
        History t' (Function.update map page none)) ∧
      ∃ dead t', t.sweep = .ok (dead, t') ∧ (dead.map BlockEntry.page).Nodup ∧
        (∀ e, e ∈ dead ↔ map e.page = some (e.size, e.flags) ∧ e.flags.isMarked = false) ∧
        History t' fun page => (map page).bind survivor := by
  have hr := h.represents
  refine ⟨hr.mirrors, fun request hallowed => ?_, fun page hpage => ?_, ?_⟩
  · obtain ⟨pairs, henum, hok, hover⟩ := hr.run hallowed
    refine ⟨pairs, henum, fun hfits => ?_, hover⟩
    obtain ⟨t', hrun, -⟩ := hok hfits
    exact ⟨t', hrun, h.next hallowed hrun⟩
  · obtain ⟨t', hrun, -⟩ := hr.remove hpage
    exact ⟨t', hrun, h.next (show (Request.remove page).Allowed map from hpage) (by rw [Request.run, hrun]; rfl)⟩
  · obtain ⟨dead, t', hrun, hnodup, hmem, -⟩ := hr.sweep
    have hsweep : Request.sweep.run t = .ok t' := by rw [Request.run, hrun]; rfl
    exact ⟨dead, t', hrun, hnodup, hmem, h.next (show Request.sweep.Allowed map from trivial) hsweep⟩

/-- A sweep drops the block without a mark and keeps the other one. -/
theorem marked_block_stays : ∃ (t : BlockTable) (map : BlockMap), History t map ∧ map 1 = some (64, 0) ∧
    map 2 = none ∧ t.contains 1 = .ok true ∧ t.sizeOf? 1 = .ok (some 64) ∧ t.contains 2 = .ok false := by
  let one := answerOf (BlockTable.empty.insert 1 64) (by decide +kernel)
  let two := answerOf (one.insert 2 32) (by decide +kernel)
  let marked := answerOf (two.setFlags 1 BlockFlags.mark) (by decide +kernel)
  have hone : History one _ :=
    History.start.next (show (Request.insert 1 64).Allowed _ from ⟨by decide, rfl, by decide⟩) (eq_answerOf _)
  have htwo : History two _ := hone.next (show (Request.insert 2 32).Allowed _ from ⟨by decide, rfl, by decide⟩)
    (eq_answerOf _)
  have hmarked : History marked _ :=
    htwo.next (show (Request.setFlags 1 BlockFlags.mark).Allowed _ from Nat.one_ne_zero) (eq_answerOf _)
  obtain ⟨-, -, -, dead, t, -, -, -, h⟩ := exact_map hmarked
  have hmirrors := (exact_map h).1
  exact ⟨t, _, h, rfl, rfl, hmirrors.contains 1 (by decide), hmirrors.sizeOf? 1 (by decide),
    hmirrors.contains 2 (by decide)⟩

/-- Two blocks of half the address space cannot both be counted. -/
theorem count_overflows : ∃ (t : BlockTable) (map : BlockMap), History t map ∧
    (Request.insert 2 (2 ^ 63)).Allowed map ∧ (Request.insert 2 (2 ^ 63)).run t = .error .overflow := by
  let one := answerOf (BlockTable.empty.insert 1 (2 ^ 63)) (by decide +kernel)
  have hone : History one ((Request.insert 1 (2 ^ 63)).apply fun _ => none) :=
    History.start.next (show (Request.insert 1 (2 ^ 63)).Allowed _ from ⟨by decide, rfl, by decide⟩) (eq_answerOf _)
  have hbytes : one.bytes = 2 ^ 63 := by decide +kernel
  have hallowed : (Request.insert 2 (2 ^ 63)).Allowed ((Request.insert 1 (2 ^ 63)).apply fun _ => none) :=
    ⟨by decide, rfl, by decide⟩
  exact ⟨one, _, hone, hallowed,
    (hone.represents.insert hallowed.1 hallowed.2.1 hallowed.2.2).2 (by rw [hbytes]; decide)⟩

end BlockTable

end Tricolor
