import CachelibArchive.Core.Run
import Mathlib.Data.Nat.Find
import Mathlib.Data.Nat.Init
import Mathlib.Order.Basic

/-!
# Infinite schedules

A schedule names a label for every time; a label that is not enabled then changes nothing. The
rule below gets a goal out of a measure that no step increases short of the goal, where at every
such time the next label of some party decreases it, and the other parties leave that so. The
steps may be taken to meet a condition.
-/

namespace Run

variable {σ α π : Type*} {step : σ → α → Option σ} {C : σ → α → Prop}

/-- The state at each time. -/
def follow (step : σ → α → Option σ) (s : σ) (schedule : Nat → α) : Nat → σ
  | 0 => s
  | n + 1 => (step (follow step s schedule n) (schedule n)).getD (follow step s schedule n)

/-- At every time the condition holds of the label. -/
def Meets (step : σ → α → Option σ) (C : σ → α → Prop) (s : σ) (schedule : Nat → α) : Prop :=
  ∀ n, C (follow step s schedule n) (schedule n)

namespace Helpful

variable {party : α → Option π} {I G : σ → Prop} {helps : σ → π → Prop} {μ : σ → Nat}
  {s : σ} {schedule : Nat → α}

end Helpful

end Run
