import Mathlib.Data.List.Basic
import Mathlib.Data.Nat.ModEq
import Mathlib.Logic.Function.Basic

/-!
# Ring buffers

A ring of `N` cells holds the values of a growing list from position `r` on: the value at position
`k` is in cell `k % N`.
-/

namespace Jos.Lib

variable {α : Type*} {N r : Nat} {buf : Nat → α} {l : List α}

/-- The cells hold the values of `l` from position `r` on. -/
def RingHolds (N : Nat) (buf : Nat → α) (l : List α) (r : Nat) : Prop :=
  ∀ k, r ≤ k → ∀ hk : k < l.length, buf (k % N) = l[k]

theorem ringHolds_nil : RingHolds N buf [] r := by
  intro k _ hk
  cases hk

theorem RingHolds.mono {r' : Nat} (h : RingHolds N buf l r) (hr : r ≤ r') : RingHolds N buf l r' :=
  fun k hk => h k (Nat.le_trans hr hk)

/-- The next value overwrites a cell that is not in use if there are fewer than `N` values. -/
theorem RingHolds.push (h : RingHolds N buf l r) (hroom : l.length < r + N) (a : α) :
    RingHolds N (Function.update buf (l.length % N) a) (l ++ [a]) r := by
  intro k hr hk
  rw [List.length_append, List.length_singleton] at hk
  by_cases heq : k = l.length
  · subst heq
    rw [Function.update_self, List.getElem_concat_length rfl]
  · have hlt : k < l.length := by omega
    have hne : k % N ≠ l.length % N := by
      intro hmod
      have hdvd : N ∣ l.length - k := (Nat.modEq_iff_dvd' (Nat.le_of_lt hlt)).mp hmod
      have := Nat.le_of_dvd (by omega) hdvd
      omega
    rw [Function.update_of_ne hne, List.getElem_append_left hlt]
    exact h k hr hlt

/-! ## Distances around a ring -/

/-- The number of cells from cell `i` on to cell `j`. -/
def ringDist (N i j : Nat) : Nat := (j + N - i) % N

/-- Two places of a walk around the ring, less than one round apart. -/
theorem ringDist_add {a i j : Nat} (hij : i ≤ j) (hj : j - i < N) :
    ringDist N ((a + i) % N) ((a + j) % N) = j - i := by
  have hN : 0 < N := by omega
  have hlt : (a + i) % N < N := Nat.mod_lt _ hN
  have hsplit : a + j = (a + i) + (j - i) := by omega
  have hmod : (a + j) % N = ((a + i) % N + (j - i)) % N := by
    rw [hsplit, Nat.add_mod (a + i) (j - i), Nat.mod_eq_of_lt hj]
  rw [ringDist, hmod]
  generalize (a + i) % N = c at hlt ⊢
  by_cases hwrap : c + (j - i) < N
  · rw [Nat.mod_eq_of_lt hwrap, show c + (j - i) + N - c = (j - i) + N by omega, Nat.add_mod_right,
      Nat.mod_eq_of_lt hj]
  · have hback : (c + (j - i)) % N = c + (j - i) - N := by
      rw [Nat.mod_eq_sub_mod (by omega), Nat.mod_eq_of_lt (by omega)]
    rw [hback, show c + (j - i) - N + N - c = j - i by omega, Nat.mod_eq_of_lt hj]

end Jos.Lib
