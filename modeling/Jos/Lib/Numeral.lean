import Mathlib.Data.Nat.Digits.Lemmas

/-!
# Numerals

The digits of a number in a base, the most significant one first. Zero has one digit, and no other numeral
begins with the digit zero.
-/

namespace Jos.Lib

/-- The digits of `n`, the most significant one first. -/
def numeral (base n : Nat) : List Nat := if n = 0 then [0] else (Nat.digits base n).reverse

/-- The number with these digits. -/
def readNumeral (base : Nat) (l : List Nat) : Nat := l.foldl (fun n d => base * n + d) 0

variable {base n d k : Nat} {l : List Nat}

theorem numeral_of_lt (h : n < base) : numeral base n = [n] := by
  unfold numeral
  split
  · rename_i h0
    rw [h0]
  · rename_i h0
    rw [Nat.digits_of_lt base n h0 h]
    rfl

/-- One digit more. -/
theorem numeral_of_le (hb : 2 ≤ base) (h : base ≤ n) :
    numeral base n = numeral base (n / base) ++ [n % base] := by
  have hn : 0 < n := by omega
  have hdiv : n / base ≠ 0 := Nat.pos_iff_ne_zero.mp (Nat.div_pos h (by omega))
  unfold numeral
  rw [if_neg (Nat.pos_iff_ne_zero.mp hn), if_neg hdiv, Nat.digits_def' hb hn, List.reverse_cons]

theorem readNumeral_concat : readNumeral base (l ++ [d]) = base * readNumeral base l + d := by
  unfold readNumeral
  rw [List.foldl_append]
  rfl

/-- The induction that follows the digits. -/
theorem numeral_induction {P : Nat → Prop} (hb : 2 ≤ base) (hlt : ∀ n < base, P n)
    (hle : ∀ n, base ≤ n → P (n / base) → P n) (n : Nat) : P n := by
  induction n using Nat.strongRecOn with
  | ind n ih =>
      by_cases h : base ≤ n
      · apply hle n h
        apply ih
        exact Nat.div_lt_self (by omega) hb
      · exact hlt n (Nat.not_le.mp h)

theorem readNumeral_numeral (hb : 2 ≤ base) (n : Nat) : readNumeral base (numeral base n) = n := by
  apply numeral_induction (P := fun n => readNumeral base (numeral base n) = n) hb
  · intro n h
    rw [numeral_of_lt h]
    exact Nat.zero_add n
  · intro n h ih
    rw [numeral_of_le hb h, readNumeral_concat, ih]
    exact Nat.div_add_mod n base

theorem numeral_lt (hb : 2 ≤ base) (n : Nat) : ∀ d ∈ numeral base n, d < base := by
  apply numeral_induction (P := fun n => ∀ d ∈ numeral base n, d < base) hb
  · intro n h d hd
    rw [numeral_of_lt h, List.mem_singleton] at hd
    rw [hd]
    exact h
  · intro n h ih d hd
    rw [numeral_of_le hb h, List.mem_append, List.mem_singleton] at hd
    rcases hd with hd | rfl
    · exact ih d hd
    · exact Nat.mod_lt n (by omega)

theorem numeral_ne_nil (hb : 2 ≤ base) (n : Nat) : numeral base n ≠ [] := by
  by_cases h : base ≤ n
  · rw [numeral_of_le hb h]
    simp
  · rw [numeral_of_lt (Nat.not_le.mp h)]
    simp

/-- There is no leading zero. -/
theorem numeral_head (hb : 2 ≤ base) (n : Nat) : n ≠ 0 → (numeral base n).head? ≠ some 0 := by
  apply numeral_induction (P := fun n => n ≠ 0 → (numeral base n).head? ≠ some 0) hb
  · intro n h hn hhead
    rw [numeral_of_lt h] at hhead
    exact hn (Option.some.inj hhead)
  · intro n h ih hn
    rw [numeral_of_le hb h, List.head?_append_of_ne_nil _ (numeral_ne_nil hb _)]
    exact ih (Nat.pos_iff_ne_zero.mp (Nat.div_pos h (by omega)))

theorem numeral_length_le (hb : 2 ≤ base) (hk : 0 < k) (h : n < base ^ k) : (numeral base n).length ≤ k := by
  unfold numeral
  split
  · exact hk
  · rw [List.length_reverse]
    exact (Nat.digits_length_le_iff hb n).mpr h

end Jos.Lib
