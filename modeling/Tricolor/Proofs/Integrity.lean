import Tricolor.Proofs.Cycle.Calls
import Tricolor.Proofs.Cycle.Footprint
import Tricolor.Proofs.Ledger

/-!
# The integrity of payloads

What a program stored in an object stays there as long as the object does. An operation writes the
object that it was asked for, flags in the header of the object that it was told of, and the links of
free runs. A step of the collector writes flags of the objects whose finalizers it judges, and the links
of free runs. The payload of a new object is zero, whatever its cells were used for before.
-/

namespace Tricolor

namespace Heap

variable {h : Heap}

/-- A heap is the same to its objects whatever its threshold is. -/
theorem Conserves.setThreshold {h' : Heap} {r : Ref} (hc : h.Conserves r h') (threshold : Nat) :
    h.Conserves r (h'.setThreshold threshold) := fun hlive => by
  obtain ⟨hbefore, kind, bytes, hshows, hshown⟩ := hc hlive
  exact ⟨hbefore, kind, bytes, hshows, hshown.kind, hshown.length, hshown.payload⟩

end Heap

namespace Machine

variable {σ : Type} {mu : Mutator σ} {m m' : Machine σ} {config : Config} {hashOf : List UInt8 → Hash} {r : Ref}

/-- A call that lets the collector work. -/
inductive CollectorCall (mu : Mutator σ) (m : Machine σ) : Machine σ → Prop where
  | singleStep {result : Except CollectError Nat} {m' : Machine σ} :
      m.singleStep mu = .ok (result, m') → CollectorCall mu m m'
  | step {fuel : Nat} {result : Except CollectError Nat} {m' : Machine σ} :
      m.step mu fuel = .ok (result, m') → CollectorCall mu m m'
  | checkStep {fuel : Nat} {result : Except CollectError Bool} {m' : Machine σ} :
      m.checkStep mu fuel = .ok (result, m') → CollectorCall mu m m'
  | fullCollect {fuel : Nat} {result : Except CollectError Unit} {m' : Machine σ} :
      m.fullCollect mu fuel = .ok (result, m') → CollectorCall mu m m'

theorem Stepwise.collectorCall {P : Machine σ → Prop} (hP : Stepwise mu P) (hm : P m)
    (hcall : CollectorCall mu m m') : P m' := by
  cases hcall with
  | singleStep hrun => exact hP.singleStep hm hrun
  | step hrun => exact hP.step hm hrun
  | checkStep hrun => exact hP.checkStep hm hrun
  | fullCollect hrun => exact hP.fullCollect hm hrun

end Machine

end Tricolor
