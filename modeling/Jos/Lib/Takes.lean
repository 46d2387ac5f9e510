import Mathlib.Data.List.Basic
import Mathlib.Algebra.GroupWithZero.Nat

/-!
# Taking a list piece by piece

Readers that take turns at one list, each asking for some number of elements, get consecutive
pieces of it. What they get is determined by the numbers, in the order in which they are served.
-/

namespace Jos.Lib

variable {α : Type*}

/-- The pieces that requests for `ns` elements get, one after the other. -/
def takes (xs : List α) : List Nat → List (List α)
  | [] => []
  | n :: ns => xs.take n :: takes (xs.drop n) ns

theorem takes_concat (xs : List α) (ns : List Nat) (n : Nat) :
    takes xs (ns ++ [n]) = takes xs ns ++ [(xs.drop ns.sum).take n] := by
  induction ns generalizing xs with
  | nil => simp [takes]
  | cons k ns ih => rw [List.cons_append, takes, ih, takes, List.sum_cons, List.drop_drop,
      List.cons_append]

/-- No element is lost and none is repeated. -/
theorem flatten_takes (xs : List α) (ns : List Nat) : (takes xs ns).flatten = xs.take ns.sum := by
  induction ns generalizing xs with
  | nil => simp [takes]
  | cons k ns ih => rw [takes, List.flatten_cons, ih, List.sum_cons, List.take_add]

/-- A request gets less than it asks for only at the end. -/
theorem length_take_drop (xs : List α) (k n : Nat) :
    ((xs.drop k).take n).length = min n (xs.length - k) := by
  rw [List.length_take, List.length_drop]

theorem drop_min_length (xs : List α) (n : Nat) : xs.drop (min n xs.length) = xs.drop n := by
  by_cases h : n ≤ xs.length
  · rw [Nat.min_eq_left h]
  · rw [Nat.min_eq_right (by omega), List.drop_length, List.drop_eq_nil_of_le (by omega)]

end Jos.Lib
