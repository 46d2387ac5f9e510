import Jos.Kern.Machine

/-!
# Soundness of the user-pointer check

When does a successful `user_mem_check` mean that the range may be accessed? The check
rounds the end of the range modulo `2 ^ 32`, so a range that ends in the last page of the
address space or beyond is checked on its first page or not at all; and it looks at page
table entries only, so in the window at `UVPT` it takes directory entries for page table
entries and does not see that the self-map is read-only. In all other cases it is sound.

Main results:
* `userMemCheck_sound_iff`: the ranges for which the check is sound;
* `userMemCheck_unsound`: two for which it is not.
-/

namespace Jos.Kern

open Jos.Lib Kernel

/-- What a successful check of `[va, va + len)` for `perm` should mean. -/
def CheckSound (s : Kernel) (e : EnvIx) (va len perm : BitVec 32) : Prop :=
  userMemCheck s e va len perm = some (.ok ()) →
    va.toNat + len.toNat < 2 ^ 32 ∧ ∀ d, (s.envs e).envPgdir = some d →
      ∀ x : BitVec 32, va ≤ x → x.toNat < va.toNat + len.toNat →
        x < ulim ∧ x86Grants s d x (perm ||| pteP)

/-- A write to the window at `UVPT`, where every directory entry that stands for a page of
the range has the bits asked for. -/
def WindowWrite (s : Kernel) (d : Nat) (va len perm : BitVec 32) : Prop :=
  perm &&& pteW ≠ 0#32 ∧ uvpt ≤ va ∧ va.toNat + len.toNat ≤ ulim.toNat ∧
    ∀ n, va.toNat / 4096 ≤ n → 4096 * n < va.toNat + len.toNat →
      s.entry d (n % 1024) &&& (perm ||| pteP) = perm ||| pteP

/-- The ranges on which the check does what it should. -/
def RangeChecked (s : Kernel) (d : Nat) (va len perm : BitVec 32) : Prop :=
  ulim < va ∨
  (va.toNat + len.toNat ≤ 2 ^ 32 - 4096 ∧ ¬ WindowWrite s d va len perm) ∨
  (2 ^ 32 < len.toNat + pgoff va ∧ ¬ PagePasses s d (perm ||| pteP) va)

section

variable {R : Nat → Prop} {s : Kernel} {e : EnvIx} {d : Nat} {va len perm x : BitVec 32}

theorem pdx_pageVa {n : Nat} (h : n < 2 ^ 20) : pdx (pageVa n) = n / 1024 := by
  rw [pdx_eq, pageVa_toNat h]
  omega

theorem ptx_pageVa {n : Nat} (h : n < 2 ^ 20) : ptx (pageVa n) = n % 1024 := by
  rw [ptx_eq, pageVa_toNat h]
  omega

theorem pageVa_div (x : BitVec 32) : (pageVa (x.toNat / 4096)).toNat / 4096 = x.toNat / 4096 := by
  have := x.isLt
  rw [pageVa_toNat (by omega)]
  omega

theorem or_pteP_and_ne_zero {m : BitVec 32} (h : perm &&& m ≠ 0#32) :
    (perm ||| pteP) &&& m ≠ 0#32 := by
  intro h0
  apply h
  have hsub : (perm ||| pteP) &&& perm = perm := by
    rw [BitVec.and_comm, BitVec.and_or_distrib_left, BitVec.and_self]
    ext i hi
    simp only [BitVec.getElem_or, BitVec.getElem_and]
    cases perm[i] <;> simp
  exact and_eq_zero_of_subset hsub h0

theorem toNat_ulim : ulim.toNat = 0xEF800000 := rfl

/-- The pages that are checked when the rounded end does not wrap around. -/
theorem checkEnd_of_le (h : va.toNat + len.toNat ≤ 2 ^ 32 - 4096) :
    checkEnd va len = (va.toNat + len.toNat + 4095) / 4096 := by
  rw [checkEnd, BitVec.toNat_add, Nat.mod_eq_of_lt (by omega), Nat.mod_eq_of_lt (by omega)]

/-- A range that reaches into the last page of the address space is not checked, except
for the page of `va` when the range comes round to it again. -/
theorem checkEnd_of_wrap (hva : va ≤ ulim) (h : 2 ^ 32 - 4096 < va.toNat + len.toNat) :
    (¬ 2 ^ 32 < len.toNat + pgoff va → checkEnd va len ≤ checkStart va) ∧
      (2 ^ 32 < len.toNat + pgoff va → checkEnd va len = checkStart va + 1) := by
  have hva' : va.toNat ≤ 0xEF800000 := hva
  have hlen := len.isLt
  rw [checkEnd, checkStart, pgoff_eq, BitVec.toNat_add]
  omega

/-- A page above `ULIM` never passes a check for the user. -/
theorem Shape.not_passes_above (hs : Shape R s) (hd : (s.envs e).envPgdir = some d)
    (hU : perm &&& pteU ≠ 0#32) (hx : ulim ≤ x) : ¬ PagePasses s d (perm ||| pteP) x := by
  intro hp
  have hx' : 0xEF800000 ≤ x.toNat := hx
  have hpdx : pdxUvpt < pdx x := by
    rw [pdx_eq, pdxUvpt]
    omega
  have hlow : pdxUtop ≤ pdx x := Nat.le_of_lt (Nat.lt_trans (by decide) hpdx)
  exact or_pteP_and_ne_zero hU ((hs.passes_high hd hlow (by omega) hp).2 hpdx)

/-- Ranges whose rounded end does not wrap around. -/
theorem Shape.checkSound_iff_of_le (hs : Shape R s) (len : BitVec 32) (hd : (s.envs e).envPgdir = some d)
    (hdn : d < s.npages) (hlen : len ≠ 0#32) (hU : perm &&& pteU ≠ 0#32) (hva : va ≤ ulim)
    (hle : va.toNat + len.toNat ≤ 2 ^ 32 - 4096) :
    CheckSound s e va len perm ↔ ¬ WindowWrite s d va len perm := by
  have hva' : va.toNat ≤ 0xEF800000 := hva
  have hlen' : 0 < len.toNat := by
    rw [Nat.pos_iff_ne_zero]
    exact fun h => hlen (BitVec.eq_of_toNat_eq h)
  have hstart : checkStart va = va.toNat / 4096 := rfl
  have hend := checkEnd_of_le hle
  have hcheck := hs.userMemCheck va len perm hd hdn
  constructor
  · -- in the window the check passes and the processor does not grant the write
    rintro hsound ⟨hW, huvpt, hulim, hall⟩
    rw [toNat_ulim] at hulim
    have huvpt' : 0xEF400000 ≤ va.toNat := huvpt
    have hpass : ∀ n, checkStart va ≤ n → n < checkEnd va len →
        PagePasses s d (perm ||| pteP) (pageVa n) := by
      intro n hn hn'
      rw [hstart] at hn
      rw [hend] at hn'
      have hn20 : n < 2 ^ 20 := by omega
      have hpdx : pdx (pageVa n) = pdxUvpt := by
        rw [pdx_pageVa hn20, pdxUvpt]
        omega
      refine (hs.window hd hdn hpdx).1.mpr ?_
      rw [ptx_pageVa hn20]
      exact hall n hn (by omega)
    rcases hcheck with ⟨hok, _⟩ | ⟨_, hno⟩
    · have hgr := ((hsound hok).2 d hd va (BitVec.le_refl va) (by omega)).2
      have hpdx : pdx va = pdxUvpt := by
        rw [pdx_eq, pdxUvpt]
        omega
      exact or_pteP_and_ne_zero hW ((hs.window hd hdn hpdx).2.mp hgr).2
    · exact hno ⟨hva, hpass⟩
  · intro hwin hok
    have hpass : ∀ n, va.toNat / 4096 ≤ n → 4096 * n < va.toNat + len.toNat →
        PagePasses s d (perm ||| pteP) (pageVa n) := by
      rcases hcheck with ⟨_, _, hall⟩ | ⟨⟨x, herr⟩, _⟩
      · intro n hn hn'
        exact hall n hn (by rw [hend]; omega)
      · rw [herr] at hok
        cases hok
    -- the last page is below `ULIM`
    have hbelow : va.toNat + len.toNat ≤ 0xEF800000 := by
      by_contra hover
      have hlast := hpass ((va.toNat + len.toNat - 1) / 4096) (by omega) (by omega)
      refine hs.not_passes_above hd hU ?_ hlast
      rw [BitVec.le_def, toNat_ulim, pageVa_toNat (by omega)]
      omega
    refine ⟨by omega, fun d' hd' x hx hx' => ?_⟩
    rw [hd] at hd'
    cases hd'
    rw [BitVec.le_def] at hx
    have hpx : PagePasses s d (perm ||| pteP) x :=
      (PagePasses.congr_page (pageVa_div x)).mp (hpass _ (by omega) (by omega))
    refine ⟨by rw [BitVec.lt_def, toNat_ulim]; omega, ?_⟩
    by_cases hpdx : pdx x = pdxUvpt
    · refine (hs.window hd hdn hpdx).2.mpr ⟨(hs.window hd hdn hpdx).1.mp hpx, ?_⟩
      by_contra hW
      have hW' : perm &&& pteW ≠ 0#32 := by
        intro h0
        apply hW
        rw [BitVec.and_comm, BitVec.and_or_distrib_left, BitVec.and_comm pteW perm, h0]
        decide
      rw [pdx_eq, pdxUvpt] at hpdx
      -- otherwise the last page of `UPAGES`, which is read-only, would have passed
      have hlow : 0xEF400000 ≤ va.toNat := by
        by_contra hlow
        have hp := hpass (0xEF400 - 1) (by omega) (by omega)
        have hpdx' : pdx (pageVa (0xEF400 - 1)) = 956 := by rw [pdx_pageVa (by omega)]
        refine hW ((hs.passes_high hd ?_ ?_ hp).1 ?_) <;> rw [hpdx'] <;> decide
      refine hwin ⟨hW', hlow, hbelow, fun n hn hn' => ?_⟩
      have hn20 : n < 2 ^ 20 := by omega
      have hpdxn : pdx (pageVa n) = pdxUvpt := by
        rw [pdx_pageVa hn20, pdxUvpt]
        omega
      have := (hs.window hd hdn hpdxn).1.mp (hpass n hn hn')
      rwa [ptx_pageVa hn20] at this
    · exact hs.x86Grants_of_passes hd hpdx hpx

/-- Ranges whose rounded end wraps around are never accessible. -/
theorem Shape.checkSound_iff_of_wrap (hs : Shape R s) (hd : (s.envs e).envPgdir = some d)
    (hdn : d < s.npages) (hva : va ≤ ulim) (hwrap : 2 ^ 32 - 4096 < va.toNat + len.toNat) :
    CheckSound s e va len perm ↔
      2 ^ 32 < len.toNat + pgoff va ∧ ¬ PagePasses s d (perm ||| pteP) va := by
  have hva' : va.toNat ≤ 0xEF800000 := hva
  obtain ⟨hempty, hone⟩ := checkEnd_of_wrap hva hwrap
  have hcheck := hs.userMemCheck va len perm hd hdn
  -- no successful check of such a range is sound
  have hunsound : CheckSound s e va len perm ↔
      Kern.userMemCheck s e va len perm ≠ some (.ok ()) := by
    constructor
    · intro hsound hok
      obtain ⟨hlt, hall⟩ := hsound hok
      have hx : (BitVec.ofNat 32 (va.toNat + len.toNat - 1)).toNat =
          va.toNat + len.toNat - 1 := by
        rw [BitVec.toNat_ofNat, Nat.mod_eq_of_lt (by omega)]
      have := (hall d hd (BitVec.ofNat 32 (va.toNat + len.toNat - 1))
        (by rw [BitVec.le_def, hx]; omega) (by rw [hx]; omega)).1
      rw [BitVec.lt_def, hx, toNat_ulim] at this
      omega
    · exact fun hno hok => absurd hok hno
  rw [hunsound]
  have hpassVa : PagePasses s d (perm ||| pteP) (pageVa (checkStart va)) ↔
      PagePasses s d (perm ||| pteP) va := PagePasses.congr_page (pageVa_div va)
  rcases hcheck with ⟨hok, _, hall⟩ | ⟨⟨y, herr⟩, hno⟩
  · refine ⟨fun h => absurd hok h, ?_⟩
    rintro ⟨hbig, hnp⟩
    have hp := hall (checkStart va) (Nat.le_refl _) (by rw [hone hbig]; omega)
    exact absurd (hpassVa.mp hp) hnp
  · constructor
    · intro _
      by_cases hbig : 2 ^ 32 < len.toNat + pgoff va
      · refine ⟨hbig, fun hp => hno ⟨hva, fun n hn hn' => ?_⟩⟩
        rw [hone hbig] at hn'
        obtain rfl : n = checkStart va := by omega
        exact hpassVa.mpr hp
      · refine absurd ⟨hva, fun n hn hn' => ?_⟩ hno
        have := hempty hbig
        omega
    · intro _ hok
      rw [herr] at hok
      cases hok

/-- The check is sound exactly on the ranges described by `RangeChecked`. -/
theorem userMemCheck_sound_iff (h : Reachable R s) (hd : (s.envs e).envPgdir = some d)
    (hlen : len ≠ 0#32) (hU : perm &&& pteU ≠ 0#32) :
    CheckSound s e va len perm ↔ RangeChecked s d va len perm := by
  have hinv := h.inv.1
  have hs := hinv.pages.shape
  have hdn := (hinv.pages.target_lt (k := .pgdir e) hd).1
  by_cases hva : ulim < va
  · refine ⟨fun _ => Or.inl hva, fun _ hok => ?_⟩
    simp [userMemCheck, hva] at hok
  have hva' : va.toNat ≤ 0xEF800000 := BitVec.not_lt.mp hva
  by_cases hle : va.toNat + len.toNat ≤ 2 ^ 32 - 4096
  · rw [hs.checkSound_iff_of_le _ hd hdn hlen hU (BitVec.not_lt.mp hva) hle]
    refine ⟨fun hw => Or.inr (Or.inl ⟨hle, hw⟩), ?_⟩
    rintro (hgt | ⟨_, hw⟩ | ⟨hbig, _⟩)
    · exact absurd hgt hva
    · exact hw
    · rw [pgoff_eq] at hbig
      omega
  · rw [hs.checkSound_iff_of_wrap hd hdn (BitVec.not_lt.mp hva) (by omega)]
    refine ⟨fun hw => Or.inr (Or.inr hw), ?_⟩
    rintro (hgt | ⟨hle', _⟩ | hbig)
    · exact absurd hgt hva
    · exact absurd hle' hle
    · exact hbig

end

/-- An environment with one page at `0x1000`. -/
def pointerRun : List Cmd :=
  [.create, .call env0 (.pageAlloc 0#32 0x1000#32 7#32)]

theorem userMemCheck_sound_page :
    CheckSound (smallAfter pointerRun) ⟨0, by decide⟩ 0x1010#32 0x20#32 pteU ∧
      userMemCheck (smallAfter pointerRun) ⟨0, by decide⟩ 0x1010#32 0x20#32 pteU =
        some (.ok ()) := by
  refine ⟨(userMemCheck_sound_iff (R := smallReserved) (d := 2)
    (smallAfter_reachable (by decide +kernel) (by decide)) (by decide +kernel) (by decide)
    (by decide)).mpr (Or.inr (Or.inl ⟨by decide, ?_⟩)), by decide +kernel⟩
  rintro ⟨hW, _⟩
  exact hW (by decide)

/-- The whole address space passes the check, and so does a write to the page directory
through the window at `UVPT`. -/
theorem userMemCheck_unsound :
    Reachable smallReserved (smallAfter pointerRun) ∧
    ((smallAfter pointerRun).envs ⟨0, by decide⟩).envPgdir = some 2 ∧
    ¬ CheckSound (smallAfter pointerRun) ⟨0, by decide⟩ 0#32 0xFFFFFFFF#32 pteU ∧
    ¬ CheckSound (smallAfter pointerRun) ⟨0, by decide⟩ uvpt 4#32 (pteU ||| pteW) := by
  refine ⟨smallAfter_reachable (by decide +kernel) (by decide), by decide +kernel, ?_, ?_⟩
  · intro h
    have hx := ((h (by decide +kernel)).2 2 (by decide +kernel) ulim (by decide) (by decide)).1
    exact absurd hx (by decide)
  · intro h
    have hx := ((h (by decide +kernel)).2 2 (by decide +kernel) uvpt (by decide) (by decide)).2
    exact absurd hx (by decide +kernel)

end Jos.Kern
