import Jos.Lib.ByteMem

/-!
# Strings in memory
-/

namespace Jos.User

open Jos.Lib

/-- The string `s` with a zero behind it. -/
structure CString (c : Mem) (a : Nat) (s : List (BitVec 8)) : Prop where
  byte : ∀ k (h : k < s.length), c (a + k) = s.get ⟨k, h⟩
  zero : c (a + s.length) = 0#8

section

variable {m m' : Mem} {a n : Nat} {c : BitVec 8} {s t : List (BitVec 8)}

theorem CString.tail (h : CString m n (c :: s)) : CString m (n + 1) s := by
  refine ⟨fun k hk => ?_, ?_⟩
  · rw [Nat.add_assoc, Nat.add_comm 1 k, h.byte (k + 1) (Nat.succ_lt_succ hk)]
    rfl
  · rw [Nat.add_assoc, Nat.add_comm 1 s.length]
    exact h.zero

theorem CString.head (h : CString m n (c :: s)) : m n = c := h.byte 0 (Nat.succ_pos _)

theorem CString.keep (h : CString m n s) (hb : ∀ x, n ≤ x → x ≤ n + s.length → m' x = m x) :
    CString m' n s := by
  refine ⟨fun k hk => ?_, ?_⟩
  · rw [hb _ (Nat.le_add_right _ _) (by omega), h.byte k hk]
  · rw [hb _ (Nat.le_add_right _ _) (Nat.le_refl _), h.zero]

/-- A string ends at its first zero. -/
theorem CString.unique (h : CString m n s) (h' : CString m n t) (hs : 0#8 ∉ s) (ht : 0#8 ∉ t) : s = t := by
  induction s generalizing n t with
  | nil =>
      cases t with
      | nil => rfl
      | cons d t =>
          have hd : d = 0#8 := h'.head.symm.trans h.zero
          exact absurd (List.mem_cons.mpr (Or.inl hd.symm)) ht
  | cons c s ih =>
      cases t with
      | nil =>
          have hc : c = 0#8 := h.head.symm.trans h'.zero
          exact absurd (List.mem_cons.mpr (Or.inl hc.symm)) hs
      | cons d t =>
          rw [ih h.tail h'.tail (List.not_mem_of_not_mem_cons hs) (List.not_mem_of_not_mem_cons ht),
            h.head.symm.trans h'.head]

end

end Jos.User
