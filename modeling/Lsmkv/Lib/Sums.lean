import Mathlib.Algebra.BigOperators.Group.List.Basic
import Mathlib.Algebra.Ring.Nat

/-!
# Sums over a list that changes in one place

A sum over a list, such as a measure or a count of what is owed, after one element was exchanged.
-/

namespace Sums

variable {α : Type*}

/-- One element is exchanged, and the sum changes by the difference. -/
theorem sum_map_set (f : α → ℕ) {l : List α} {k : ℕ} {a : α} (this : l[k]? = some a) (b : α) :
    ((l.set k b).map f).sum + f a = (l.map f).sum + f b := by
  induction l generalizing k with
  | nil => simp at this
  | cons c l ih =>
      cases k with
      | zero =>
          obtain rfl : c = a := by simpa using this
          simp only [List.set_cons_zero, List.map_cons, List.sum_cons]
          omega
      | succ k =>
          have ih := ih (by simpa using this)
          simp only [List.set_cons_succ, List.map_cons, List.sum_cons]
          omega

end Sums
