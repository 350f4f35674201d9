import Tricolor.Proofs.Space.Hosting

/-!
# Refused memory

The supply may refuse memory, for a new arena or for a block. Then the space is as it was. Nothing else is
refused: an object that is not huge fits into a new arena.
-/

namespace Tricolor

/-- The supply does not provide `size` bytes, or they are more than it can be asked for. -/
def Supply.Refuses (supply : Supply) (size : Nat) : Prop := supply size = none ∨ Space.maxBlockBytes < size

namespace Space

variable {s s' : Space} {supply : Supply} {r : Ref} {cells size : Nat} {error : AllocError}

theorem refuses_of_askBlock (hask : askBlock supply size = none) : supply.Refuses size := by
  rw [askBlock] at hask
  split at hask
  · exact .inl hask
  · next hlarge => exact .inr (not_le.1 hlarge)

theorem allocHuge_refused (hrun : s.allocHuge supply size = .ok (.error error, s')) :
    s' = s ∧ error = .outOfMemory size ∧ supply.Refuses size := by
  obtain ⟨hask, herror, rfl⟩ | ⟨p, blocks, marked, -, hok, -⟩ := allocHuge_cases hrun
  · exact ⟨rfl, Except.error.inj herror, refuses_of_askBlock hask⟩
  · cases hok

theorem resizeHuge_refused (hrun : s.resizeHuge supply r size = .ok (.error error, s')) :
    s' = s ∧ error = .outOfMemory size ∧ supply.Refuses size := by
  obtain ⟨old, -, -, ⟨hask, herror, rfl⟩ | ⟨q, blocks, -, hok, -⟩⟩ := resizeHuge_cases hrun
  · exact ⟨rfl, Except.error.inj herror, refuses_of_askBlock hask⟩
  · cases hok

theorem allocCells_refused (h : s.Wf) (hpos : 0 < cells) (hle : cells ≤ usableCells)
    (hrun : s.allocCells supply cells = .ok (.error error, s')) :
    s' = s ∧ error = .outOfMemory pageBytes ∧ supply.Refuses pageBytes := by
  have hsettled : s.Settled supply cells (s.allocCells supply cells) :=
    allocCells_settled (fun ha => (h.sound ha).tiled) h.current hpos hle
  cases hsettled.settles hrun with
  | refused _ hrefused => exact ⟨rfl, rfl, .inl hrefused⟩

end Space

end Tricolor
