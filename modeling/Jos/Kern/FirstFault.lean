import Jos.Kern.Machine
import Jos.Kern.UserMemSpec

/-!
# The address that `user_mem_check` reports

`user_mem_check` goes from page to page, but what it reports is an address of the range: the start of
the range if the first page is refused, and the start of the page if a later one is. Nothing is assumed
of the state, the page directory or the range.

Main result:
* `user_mem_check_first_fault`: the first address of the range that is refused.
-/

namespace Jos.Kern

open Jos.Lib Kernel

/-- The page of `va` has an entry with the bits `perm`. -/
def PteGrants (s : Kernel) (pgdir : Nat) (perm va : BitVec 32) : Prop :=
  ∃ pte, pgdirWalk s pgdir va false = some (s, some pte) ∧ s.mem.read32 pte &&& perm = perm

section

variable {s s' : Kernel} {e : EnvIx} {d : Nat} {va va' len perm x : BitVec 32} {a b n fuel : Nat}
  {o : Option Nat}

/-- A look-up changes nothing. -/
theorem pgdirWalk_look (h : pgdirWalk s d va false = some (s', o)) : s' = s := by
  unfold pgdirWalk at h
  simp only [Bool.false_eq_true, if_false] at h
  split at h
  · rw [Option.bind_eq_bind, Option.bind_eq_some_iff] at h
    obtain ⟨t, -, h⟩ := h
    cases h
    rfl
  · cases h
    rfl

theorem PteGrants.congr_page (h : va.toNat / 4096 = va'.toNat / 4096) (hg : PteGrants s d perm va) :
    PteGrants s d perm va' := by
  obtain ⟨h1, h2⟩ := same_page h
  unfold PteGrants pgdirWalk at hg ⊢
  rw [← h1, ← h2]
  exact hg

/-- The loop stops at the first page that is refused. -/
theorem userMemLoop_error (ha : a < 2 ^ 20) (hb : b < 2 ^ 20)
    (h : userMemLoop s d va perm (pageVa b) fuel (pageVa a) = some (.error x)) :
    ∃ n, a ≤ n ∧ n < b ∧ x = faultAddr va (pageVa n) ∧ ¬ PteGrants s d perm (pageVa n) ∧
      ∀ m, a ≤ m → m < n → PteGrants s d perm (pageVa m) := by
  induction fuel generalizing a with
  | zero => cases h
  | succ fuel ih =>
      unfold userMemLoop at h
      split at h
      · rename_i hlt
        have hab : a < b := by
          rw [BitVec.lt_def, pageVa_toNat ha, pageVa_toNat hb] at hlt
          omega
        rw [Option.bind_eq_bind, Option.bind_eq_some_iff] at h
        obtain ⟨⟨s1, o⟩, hwalk, h⟩ := h
        have hs := pgdirWalk_look hwalk
        subst hs
        cases o with
        | none =>
            cases h
            refine ⟨a, Nat.le_refl a, hab, rfl, ?_, fun m h1 h2 => by omega⟩
            rintro ⟨pte, hpte, -⟩
            rw [hwalk] at hpte
            cases hpte
        | some pte =>
            simp only at h
            split at h
            · rename_i hno
              cases h
              refine ⟨a, Nat.le_refl a, hab, rfl, ?_, fun m h1 h2 => by omega⟩
              rintro ⟨pte', hpte, hperm⟩
              rw [hwalk] at hpte
              cases hpte
              exact hno hperm
            · rename_i hyes
              rw [ne_eq, not_not] at hyes
              rw [pageVa_succ (by omega)] at h
              obtain ⟨n, h1, h2, h3, h4, h5⟩ := ih (by omega) h
              refine ⟨n, by omega, h2, h3, h4, fun m hm hm' => ?_⟩
              by_cases hma : m = a
              · rw [hma]
                exact ⟨pte, hwalk, hyes⟩
              · exact h5 m (by omega) hm'
      · cases h

/-- A page from the one of `va` on: the reported address is on it, at or after `va`. -/
theorem faultAddr_eq (hn : n < 2 ^ 20) (h : va.toNat / 4096 ≤ n) :
    faultAddr va (pageVa n) = va + BitVec.ofNat 32 (4096 * n - va.toNat) ∧
      (faultAddr va (pageVa n)).toNat / 4096 = n := by
  have hva := va.isLt
  have hpage := pageVa_toNat hn
  have hsum : va.toNat ≤ 4096 * n → pageVa n = va + BitVec.ofNat 32 (4096 * n - va.toNat) := by
    intro hle
    apply BitVec.eq_of_toNat_eq
    rw [hpage, BitVec.toNat_add, BitVec.toNat_ofNat]
    omega
  unfold faultAddr
  split
  · rename_i hlt
    rw [BitVec.lt_def, hpage] at hlt
    refine ⟨?_, by omega⟩
    rw [Nat.sub_eq_zero_of_le (by omega)]
    simp
  · rename_i hge
    rw [BitVec.lt_def, hpage] at hge
    refine ⟨hsum (by omega), ?_⟩
    rw [hpage]
    omega

/-- When `user_mem_check` fails, the address that it reports is the first one of the range that is above
`ULIM` or on a page without the permissions. -/
theorem user_mem_check_first_fault (hd : (s.envs e).envPgdir = some d) (hlen : 1 ≤ len)
    (h : userMemCheck s e va len perm = some (.error x)) :
    ∃ k < len.toNat, x = va + BitVec.ofNat 32 k ∧ (ulim < x ∨ ¬ PteGrants s d (perm ||| pteP) x) ∧
      ∀ j < k, PteGrants s d (perm ||| pteP) (va + BitVec.ofNat 32 j) := by
  have hva := va.isLt
  have hpos : 1 ≤ len.toNat := hlen
  unfold userMemCheck at h
  split at h
  · rename_i hulim
    cases h
    refine ⟨0, by omega, by simp, Or.inl hulim, fun j hj => absurd hj (Nat.not_lt_zero j)⟩
  · rw [hd, Option.bind_eq_bind, Option.bind_some, roundUp_eq, roundDown_eq] at h
    obtain ⟨n, hstart, hend, rfl, hno, hyes⟩ := userMemLoop_error (by omega) (by omega) h
    rw [BitVec.toNat_add] at hend
    have hn : n < 2 ^ 20 := by omega
    obtain ⟨hsum, hpage⟩ := @faultAddr_eq va _ hn hstart
    refine ⟨4096 * n - va.toNat, by omega, hsum, Or.inr fun hg => hno ?_, fun j hj => ?_⟩
    · refine hg.congr_page ?_
      rw [hpage, pageVa_toNat hn]
      omega
    · have hj' : (va + BitVec.ofNat 32 j).toNat = va.toNat + j := by
        rw [BitVec.toNat_add, BitVec.toNat_ofNat]
        omega
      refine (hyes ((va.toNat + j) / 4096) (by omega) (by omega)).congr_page ?_
      rw [hj', pageVa_toNat (by omega)]
      omega

end

/-- One page at 0x1000: of the range from 0x1800 to 0x2800 the first bad address is 0x2000. -/
theorem user_mem_check_first_fault_page : ∃ k < (0x1000#32).toNat, 0x2000#32 = 0x1800#32 + BitVec.ofNat 32 k ∧
    (ulim < 0x2000#32 ∨ ¬ PteGrants (smallAfter onePageRun) 2 (pteU ||| pteP) 0x2000#32) ∧
    ∀ j < k, PteGrants (smallAfter onePageRun) 2 (pteU ||| pteP) (0x1800#32 + BitVec.ofNat 32 j) :=
  user_mem_check_first_fault (e := env0) (by decide +kernel) (by decide) (by decide +kernel)

end Jos.Kern
