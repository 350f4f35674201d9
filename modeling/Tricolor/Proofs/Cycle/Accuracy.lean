import Tricolor.Proofs.Cycle.Finishing

/-!
# Arithmetic within range

Sums, products and differences are computed at a few places only. Marking asks for none of them, nor does the
selection of finalizers. So whatever a program reports, and whatever else goes wrong, the arithmetic of a
collection goes wrong at those few places, or in the program itself when it clears a table.
-/

namespace Tricolor

/-- A sum, a product or a difference left its range. -/
def Fault.isArithmetic : Fault → Bool
  | .overflow | .underflow => true
  | _ => false

/-- The arithmetic of an operation goes wrong only in the ways that are excepted. -/
structure Accurate {α : Type} (except : Fault → Prop) (x : Except Fault α) : Prop where
  excepted : ∀ {fault}, x = .error fault → fault.isArithmetic = true → except fault

namespace Accurate

variable {α β : Type} {except except' : Fault → Prop}

theorem ok (a : α) : Accurate except (.ok a : Except Fault α) := ⟨nofun⟩

theorem error {fault : Fault} (h : fault.isArithmetic = true → except fault) :
    Accurate except (.error fault : Except Fault α) :=
  ⟨fun heq harith => by cases heq; exact h harith⟩

theorem fault {fault : Fault} (h : fault.isArithmetic = false) : Accurate except (.error fault : Except Fault α) :=
  error fun harith => by rw [h] at harith; cases harith

theorem mono {x : Except Fault α} (hx : Accurate except x) (h : ∀ fault, except fault → except' fault) :
    Accurate except' x :=
  ⟨fun heq harith => h _ (hx.excepted heq harith)⟩

/-- A sequence of operations. -/
theorem bind {x : Except Fault α} {f : α → Except Fault β} (hx : Accurate except x)
    (hf : ∀ a, x = .ok a → Accurate except (f a)) : Accurate except (x >>= f) := by
  cases x with
  | error => exact error fun harith => hx.excepted rfl harith
  | ok a => exact hf a rfl

theorem map {x : Except Fault α} (hx : Accurate except x) (f : α → β) : Accurate except (f <$> x) := by
  cases x with
  | error => exact error fun harith => hx.excepted rfl harith
  | ok a => exact ok _

theorem require {p : Prop} [Decidable p] {fault : Fault} (h : fault.isArithmetic = false) :
    Accurate except (require p fault) := by
  unfold Tricolor.require
  split
  · exact ok ()
  · exact .fault h

theorem foldlM {f : β → α → Except Fault β} (h : ∀ b a, Accurate except (f b a)) :
    ∀ (as : List α) (b : β), Accurate except (as.foldlM f b)
  | [], b => ok b
  | a :: as, b => bind (h b a) fun b' _ => foldlM h as b'

theorem filterM {f : α → Except Fault Bool} (h : ∀ a, Accurate except (f a)) (as : List α) :
    Accurate except (as.filterM f) := by
  have haux : ∀ as kept : List α, Accurate except (as.filterAuxM f kept) := by
    intro as
    induction as with
    | nil => exact fun kept => ok kept
    | cons a rest ih => exact fun kept => bind (h a) fun _ _ => ih _
  exact bind (haux as []) fun _ _ => ok _

end Accurate

variable {except : Fault → Prop}

/-! ## Marking -/

namespace BlockTable

theorem accurate_find (t : BlockTable) (page : Page) : Accurate except (t.find page) :=
  .bind (.require rfl) fun _ _ => .ok _

theorem accurate_contains (t : BlockTable) (page : Page) : Accurate except (t.contains page) :=
  .bind (accurate_find ..) fun _ _ => .ok _

theorem accurate_flags (t : BlockTable) (page : Page) : Accurate except (t.flags page) :=
  .bind (.bind (accurate_find ..) fun _ _ => .ok _) fun _ _ => .ok _

theorem accurate_updateFlags (t : BlockTable) (page : Page) (f : BlockFlags → BlockFlags) :
    Accurate except (t.updateFlags page f) := by
  refine .bind (accurate_find ..) fun place? _ => ?_
  split
  · exact .ok _
  · exact .ok _

end BlockTable

namespace Arena

theorem accurate_isMarked (a : Arena) (cell : Nat) : Accurate except (a.isMarked cell) :=
  .bind (.require rfl) fun _ _ => .ok _

theorem accurate_setMark (a : Arena) (cell : Nat) : Accurate except (a.setMark cell) :=
  .bind (.require rfl) fun _ _ => .ok _

theorem accurate_selectFinalizers (a : Arena) (isFinalizable : Ref → Bool) :
    Accurate except (a.selectFinalizers isFinalizable) := by
  have hforM : ∀ cells : List Nat, Accurate except (cells.forM fun cell => require
      (cell < arenaCells ∧ (a.mark.get cell = true ∨ firstCell ≤ cell)) (.cellOutOfRange cell)) := by
    intro cells
    induction cells with
    | nil => exact .ok ()
    | cons cell rest ih => exact .bind (.require rfl) fun _ _ => ih
  exact .bind (hforM _) fun _ _ => .ok _

end Arena

namespace Space

theorem accurate_indexOf (s : Space) (page : Page) : Accurate except (s.indexOf page) := by
  unfold indexOf
  split
  · exact .fault rfl
  · split
    · exact .fault rfl
    · split
      · exact .ok _
      · exact .fault rfl

theorem accurate_arenaOf (s : Space) (r : Ref) : Accurate except (s.arenaOf r) := by
  refine .bind (accurate_indexOf ..) fun index _ => ?_
  unfold arenaAt
  split
  · exact .ok _
  · exact .fault rfl

theorem accurate_updateArena {α : Type} (s : Space) (index : Nat) {f : Arena → Except Fault (α × Arena)}
    (hf : ∀ a, Accurate except (f a)) : Accurate except (s.updateArena index f) := by
  obtain ⟨arenas⟩ := s
  rw [updateArena]
  split
  · exact .bind (hf _) fun _ _ => .ok _
  · exact .fault rfl

theorem accurate_modifyArenaOf (s : Space) (r : Ref) {f : Arena → Except Fault Arena}
    (hf : ∀ a, Accurate except (f a)) : Accurate except (s.modifyArenaOf r f) :=
  .bind (accurate_indexOf ..) fun _ _ =>
    .bind (accurate_updateArena _ _ fun a => .bind (hf a) fun _ _ => .ok _) fun _ _ => .ok _

theorem accurate_header (s : Space) (r : Ref) : Accurate except (s.header r) := by
  rw [header]
  split
  · split
    · exact .ok _
    · exact .fault rfl
  · exact .bind (accurate_arenaOf ..) fun _ _ => .ok _

theorem accurate_modifyHeader (s : Space) (r : Ref) (f : Header → Header) : Accurate except (s.modifyHeader r f) := by
  rw [modifyHeader]
  split
  · exact .bind (.require rfl) fun _ _ => .ok _
  · exact accurate_modifyArenaOf s r fun _ => .ok _

theorem accurate_isMarked (s : Space) (r : Ref) : Accurate except (s.isMarked r) := by
  rw [isMarked]
  split
  · exact .bind (BlockTable.accurate_flags ..) fun _ _ => .ok _
  · exact .bind (accurate_arenaOf ..) fun _ _ => .bind (.require rfl) fun _ _ => .ok _

theorem accurate_mark (s : Space) (r : Ref) : Accurate except (s.mark r) := by
  refine .bind (accurate_header ..) fun header _ => ?_
  split
  · refine .bind (BlockTable.accurate_contains ..) fun _ _ => .bind (.require rfl) fun _ _ => ?_
    refine .bind (BlockTable.accurate_flags ..) fun _ _ => ?_
    split
    · exact .ok _
    · split
      · exact .bind (BlockTable.accurate_updateFlags ..) fun _ _ => .ok _
      · exact .bind (BlockTable.accurate_updateFlags ..) fun _ _ => .ok _
  · refine accurate_modifyArenaOf s r fun a => .bind (.require rfl) fun _ _ => ?_
    refine .bind (Arena.accurate_isMarked ..) fun _ _ => ?_
    split
    · exact .ok _
    · refine .bind (Arena.accurate_setMark ..) fun _ _ => ?_
      split
      · exact .ok _
      · exact .bind (.bind (.require rfl) fun _ _ => .ok _) fun _ _ => .ok _

theorem accurate_visit (mode : WeakMode) (s : Space) (v : Visit) : Accurate except (s.visit mode v) := by
  rw [visit]
  split
  · refine .bind (accurate_header ..) fun _ _ => ?_
    split
    · exact accurate_mark ..
    · exact .ok _
  · exact accurate_mark ..

theorem accurate_popPage : ∀ (n : Nat) (s : Space), Accurate except (s.popPage n)
  | 0, s => .ok _
  | n + 1, s => by
    rw [popPage]
    split
    · exact .ok _
    · refine .bind (BlockTable.accurate_contains ..) fun _ _ => ?_
      split
      · exact .bind (BlockTable.accurate_updateFlags ..) fun _ _ => .ok _
      · exact accurate_popPage n _

theorem accurate_popGrey (s : Space) (source : GreySource) : Accurate except (s.popGrey source) := by
  cases source with
  | arena index =>
    rw [popGrey]
    exact accurate_updateArena _ _ fun _ => .ok _
  | huge => exact .bind (accurate_popPage ..) fun _ _ => .ok _

/-! ## Finalizers -/

theorem accurate_selectInArenas (isFinalizable : Ref → Bool) :
    ∀ (indices : List Nat) (s : Space), Accurate except (s.selectInArenas isFinalizable indices)
  | [], _ => .ok _
  | index :: rest, s => by
    refine .bind (accurate_updateArena _ _ fun a => .bind (Arena.accurate_selectFinalizers ..) fun _ _ => .ok _) ?_
    exact fun _ _ => .bind (accurate_selectInArenas isFinalizable rest _) fun _ _ => .ok _

theorem accurate_selectFinalizers (s : Space) (isFinalizable : Ref → Bool) :
    Accurate except (s.selectFinalizers isFinalizable) := by
  have hhuge : ∀ s : Space, Accurate except (s.selectHuge isFinalizable) := fun s =>
    .bind (.filterM (fun _ => .bind (BlockTable.accurate_flags ..) fun _ _ => .ok _) _) fun _ _ =>
      .bind (.foldlM (fun _ _ => accurate_modifyHeader ..) _ _) fun _ _ => .ok _
  exact .bind (accurate_selectInArenas ..) fun _ _ => .bind (hhuge _) fun _ _ => .ok _

end Space

namespace Heap

theorem accurate_drainStores (h : Heap) : Accurate except h.drainStores := by
  refine .bind ?_ fun _ _ => .ok _
  rw [← Array.foldlM_toList]
  refine .foldlM (fun s r => .bind (Space.accurate_isMarked ..) fun _ _ => ?_) _ _
  split
  · exact .ok _
  · exact Space.accurate_mark ..

theorem accurate_drainIfAny (h : Heap) : Accurate except h.drainIfAny := by
  rw [drainIfAny]
  split
  · exact .ok _
  · exact accurate_drainStores h

end Heap

/-! ## Whole steps -/

namespace Machine

variable {σ : Type} {mu : Mutator σ}

theorem accurate_markRoots (mu : Mutator σ) (m : Machine σ) : Accurate except (m.markRoots mu) :=
  .bind (.foldlM (fun _ _ => Space.accurate_mark ..) _ _) fun _ _ =>
    .bind (.foldlM (fun _ _ => Space.accurate_mark ..) _ _) fun _ _ => .ok _

theorem accurate_traverse (mu : Mutator σ) (m : Machine σ) (r : Ref) : Accurate except (m.traverse mu r) :=
  .bind (Space.accurate_header ..) fun _ _ =>
    .bind (.foldlM (fun _ _ => Space.accurate_visit ..) _ _) fun _ _ => .ok _

theorem accurate_propagateFrom (mu : Mutator σ) :
    ∀ (n cost : Nat) (m : Machine σ) (source? : Option GreySource),
      Accurate except (m.propagateFrom mu source? cost n)
  | 0, _, _, _ => .fault rfl
  | n + 1, cost, m, none => by
    refine .bind (Heap.accurate_drainIfAny _) fun _ _ => ?_
    dsimp only
    split
    · exact .ok _
    · exact accurate_propagateFrom mu n cost _ _
  | n + 1, cost, m, some source => by
    refine .bind (Space.accurate_popGrey ..) ?_
    rintro ⟨r?, s⟩ -
    dsimp only
    split
    · exact accurate_propagateFrom mu n cost _ _
    · exact .bind (accurate_traverse ..) fun _ _ => accurate_propagateFrom mu n _ _ _

/-- The program does its arithmetic within range when it clears a table, with the excepted faults apart. -/
def ClearsAccurately (mu : Mutator σ) (except : Fault → Prop) : Prop :=
  ∀ (program : σ) (t : Ref) (h : Heap), Accurate except (mu.clearWeak program t h.isDead)

theorem ClearsAccurately.clearWeakTables (hmu : ClearsAccurately mu except) (m : Machine σ) :
    Accurate except (m.clearWeakTables mu) :=
  .bind (.foldlM (fun _ _ => hmu ..) _ _) fun _ _ => .ok _

theorem ClearsAccurately.finishMarking (hmu : ClearsAccurately mu except) (m : Machine σ) :
    Accurate except (m.finishMarking mu) := by
  refine .bind (Space.accurate_selectFinalizers ..) fun _ _ => .bind (hmu.clearWeakTables _) fun _ _ => ?_
  split
  · exact .ok _
  · exact .bind (.foldlM (fun _ _ => Space.accurate_mark ..) _ _) fun _ _ =>
      .bind (accurate_propagateFrom ..) fun _ _ => .bind (hmu.clearWeakTables _) fun _ _ => .ok _

theorem ClearsAccurately.atomicStep (hmu : ClearsAccurately mu except) (m : Machine σ) :
    Accurate except (m.atomicStep mu) :=
  .bind (Heap.accurate_drainStores _) fun _ _ => .bind (accurate_markRoots ..) fun _ _ =>
    .bind (accurate_propagateFrom ..) fun _ _ => .bind (hmu.finishMarking _) fun _ _ =>
      .bind (.require rfl) fun _ _ => .ok _

end Machine

end Tricolor
