import Mathlib.Data.Set.Function
import FiniteState.Table.WellFormed

/-!
# Corresponding tables

Two tables are the same machine if their states can be paired off so that starts,
answers and moves agree. Only states that some word leads to are asked for.
-/

namespace FiniteState.Table

/-- The states that `f` pairs off play the same part in both tables. -/
structure Corresponds (left right : Table) (f : Nat → Nat) : Prop where
  bijOn : Set.BijOn f {s | left.LeadsTo s} {s | right.LeadsTo s}
  start : f left.start = right.start
  accepting : ∀ s, left.LeadsTo s → right.accepting (f s) = left.accepting s
  step : ∀ s, left.LeadsTo s → ∀ c, right.step? (f s) c = (left.step? s c).map f

namespace Corresponds

variable {left right : Table} {f : Nat → Nat}

/-- A word leads to states that correspond. -/
theorem run? (h : left.Corresponds right f) {s : Nat} (hs : left.LeadsTo s)
    (w : List Char) : right.run? (f s) w = (left.run? s w).map f := by
  induction w generalizing s with
  | nil => rfl
  | cons c w ih =>
      rw [run?_cons, run?_cons, h.step s hs c]
      cases hc : left.step? s c with
      | none => rfl
      | some next => exact ih (hs.step hc)

/-- Corresponding tables say the same of every word. -/
theorem verdict_eq (h : left.Corresponds right f) (w : List Char) :
    right.verdict w = left.verdict w := by
  unfold verdict
  rw [← h.start, h.run? left.leadsTo_start w]
  cases hw : left.run? left.start w with
  | none => rfl
  | some s => simp [h.accepting s ⟨w, hw⟩]

end Corresponds

end FiniteState.Table
