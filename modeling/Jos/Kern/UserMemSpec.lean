import Jos.Kern.SyscallSpec

/-!
# What `user_mem_check` checks

`user_mem_check` looks at the page table entry of every page between the rounded ends of
the range, and at no directory entry. `PagePasses` is that test for one page; the lemmas of
this module compare it with the translation of the processor, region by region: below
`UVPT` the two agree, in the window at `UVPT` the directory itself is read as a page table,
and above `ULIM` no user page passes.
-/

namespace Jos.Kern

open Jos.Lib Kernel

/-- The address of page `n`. -/
def pageVa (n : Nat) : BitVec 32 := BitVec.ofNat 32 (4096 * n)

/-- The test of `user_mem_check` on the page of `va`. -/
def PagePasses (s : Kernel) (pgdir : Nat) (perm va : BitVec 32) : Prop :=
  mmuPde s pgdir va ≠ 0#32 ∧ mmuPte s pgdir va &&& perm = perm

instance (s : Kernel) (pgdir : Nat) (perm va : BitVec 32) :
    Decidable (PagePasses s pgdir perm va) := inferInstanceAs (Decidable (_ ∧ _))

section

variable {R : Nat → Prop} {held : List Nat} {s s' : Kernel} {e : EnvIx} {d : Nat}
  {va va' len perm m w : BitVec 32} {a b n fuel : Nat}

/-! ## Pages and bits -/

theorem pageVa_toNat (h : n < 2 ^ 20) : (pageVa n).toNat = 4096 * n := by
  rw [pageVa, BitVec.toNat_ofNat]
  exact Nat.mod_eq_of_lt (by omega)

theorem pageVa_succ (h : n + 1 < 2 ^ 20) : pageVa n + 4096#32 = pageVa (n + 1) := by
  apply BitVec.eq_of_toNat_eq
  rw [BitVec.toNat_add, pageVa_toNat (by omega), pageVa_toNat h]
  simp only [BitVec.toNat_ofNat]
  omega

theorem roundDown_eq (va : BitVec 32) : roundDown va = pageVa (va.toNat / 4096) := by
  have := va.isLt
  apply BitVec.eq_of_toNat_eq
  rw [roundDown_toNat, pageVa_toNat (by omega)]
  omega

theorem roundUp_eq (va : BitVec 32) : roundUp va = pageVa ((va.toNat + 4095) % 2 ^ 32 / 4096) := by
  apply BitVec.eq_of_toNat_eq
  rw [roundUp_toNat, pageVa_toNat (by omega)]
  omega

/-- Both tests depend only on the page. -/
theorem same_page (h : va.toNat / 4096 = va'.toNat / 4096) :
    pdx va = pdx va' ∧ ptx va = ptx va' := by
  rw [pdx_eq, pdx_eq, ptx_eq, ptx_eq, h]
  omega

theorem PagePasses.congr_page (h : va.toNat / 4096 = va'.toNat / 4096) :
    PagePasses s d perm va ↔ PagePasses s d perm va' := by
  obtain ⟨h1, h2⟩ := same_page h
  rw [PagePasses, PagePasses, mmuPte, mmuPte, mmuPde, mmuPde, h1, h2]

theorem x86Grants.congr_page (h : va.toNat / 4096 = va'.toNat / 4096) :
    x86Grants s d va perm ↔ x86Grants s d va' perm := by
  obtain ⟨h1, h2⟩ := same_page h
  rw [x86Grants, x86Grants, mmuPte, mmuPte, mmuPde, mmuPde, h1, h2]

/-- Bits missing from an entry cannot be asked for. -/
theorem and_eq_zero_of_subset (h : w &&& perm = perm) (hw : w &&& m = 0#32) :
    perm &&& m = 0#32 := by
  rw [← h, BitVec.and_comm w, BitVec.and_assoc, hw, BitVec.and_zero]

theorem and_accessBits_lt (perm : BitVec 32) : (perm &&& accessBits).toNat < 4096 := by
  rw [BitVec.toNat_and]
  exact Nat.lt_of_le_of_lt Nat.and_le_right (by decide)

/-- The entry of a page table grants everything that the processor asks of a directory. -/
theorem tableEntry_and_accessBits (t : Nat) (perm : BitVec 32) :
    tableEntry t &&& (perm &&& accessBits) = perm &&& accessBits := by
  rw [tableEntry_and t (and_accessBits_lt perm)]
  have h7 : (7#32 : BitVec 32) = accessBits := by decide
  rw [h7, BitVec.and_comm, BitVec.and_assoc, BitVec.and_self]

/-- The self-map grants everything but writing. -/
theorem selfMap_and_accessBits (d : Nat) (perm : BitVec 32) :
    (page2pa d ||| pteP ||| pteU) &&& (perm &&& accessBits) = perm &&& accessBits ↔
      perm &&& pteW = 0#32 := by
  have hsplit : accessBits = (pteP ||| pteU) ||| pteW := by decide
  have hdisj : (pteP ||| pteU) &&& pteW = 0#32 := by decide
  rw [BitVec.or_assoc, entry_and (and_accessBits_lt perm)]
  constructor
  · intro h
    rw [← BitVec.and_assoc, BitVec.and_comm _ perm, BitVec.and_assoc] at h
    have h5 : (pteP ||| pteU) &&& accessBits = pteP ||| pteU := by decide
    have hw : accessBits &&& pteW = pteW := by decide
    rw [h5] at h
    have := congrArg (· &&& pteW) h
    simp only [BitVec.and_assoc, hdisj, hw, BitVec.and_zero] at this
    exact this.symm
  · intro h
    have hacc : perm &&& accessBits = perm &&& (pteP ||| pteU) := by
      rw [hsplit, BitVec.and_or_distrib_left, h, BitVec.or_zero]
    rw [hacc, BitVec.and_comm, BitVec.and_assoc, BitVec.and_self]

/-! ## The walk -/

/-- Every directory entry of an environment is zero or refers to a frame in memory. -/
theorem Shape.pde_cases (hs : Shape R s) (hd : (s.envs e).envPgdir = some d) (hdn : d < s.npages)
    (va : BitVec 32) : mmuPde s d va = 0#32 ∨ pteFrame (mmuPde s d va) < s.npages := by
  have hlt := pdx_lt va
  by_cases hlow : pdx va < pdxUtop
  · rcases hs.dir_low e d (pdx va) hd hlow with hz | ⟨t, ht, hent⟩
    · exact Or.inl hz
    · right
      rw [mmuPde, hent, pteFrame_tableEntry (hs.lt_two_pow ht)]
      exact ht
  · have hhigh := hs.dir_high e d (pdx va) hd (by omega) hlt
    by_cases hu : pdx va = pdxUvpt
    · right
      rw [if_pos hu, BitVec.or_assoc] at hhigh
      rw [mmuPde, hhigh, pteFrame_entry (hs.lt_two_pow hdn) (by decide)]
      exact hdn
    · rw [if_neg hu] at hhigh
      rcases hs.kern_high (pdx va) (by omega) hlt hu with hz | ⟨t, _, ht, hent, _⟩
      · exact Or.inl (hhigh.trans hz)
      · right
        rw [mmuPde, hhigh, hent, pteFrame_tableEntry (hs.lt_two_pow ht)]
        exact ht

/-- `pgdir_walk` without `create` finds the entry that the processor uses. -/
theorem Shape.pgdirWalk_read (hs : Shape R s) (hd : (s.envs e).envPgdir = some d)
    (hdn : d < s.npages) (va : BitVec 32) :
    (mmuPde s d va = 0#32 ∧ pgdirWalk s d va false = some (s, none)) ∨
      (mmuPde s d va ≠ 0#32 ∧ ∃ pte, pgdirWalk s d va false = some (s, some pte) ∧
        s.mem.read32 pte = mmuPte s d va) := by
  by_cases hz : mmuPde s d va = 0#32
  · refine Or.inl ⟨hz, ?_⟩
    rw [mmuPde] at hz
    simp [pgdirWalk, hz]
  · have hfr := (hs.pde_cases hd hdn va).resolve_left hz
    refine Or.inr ⟨hz, entryAddr (pteFrame (mmuPde s d va)) (ptx va), ?_, rfl⟩
    have haddr : (pteAddr (mmuPde s d va)).toNat = 4096 * pteFrame (mmuPde s d va) := by
      rw [pteAddr_toNat, pteFrame_eq, Nat.mul_comm]
    have hka : s.kaddr (pteAddr (mmuPde s d va)) = some (4096 * pteFrame (mmuPde s d va)) := by
      rw [kaddr, haddr]
      exact if_pos hfr
    rw [mmuPde] at hz hka ⊢
    simp only [pgdirWalk, ne_eq, hz, not_false_eq_true, if_true, hka, Option.bind_eq_bind,
      Option.bind_some, entryAddr]

/-- The loop of `user_mem_check` tests the pages in order up to the first that fails. -/
theorem Shape.userMemLoop (hs : Shape R s) (va perm : BitVec 32) {fuel : Nat} (hd : (s.envs e).envPgdir = some d)
    (hdn : d < s.npages) (ha : a < 2 ^ 20) (hb : b < 2 ^ 20) (hfuel : b - a < fuel) :
    (userMemLoop s d va perm (pageVa b) fuel (pageVa a) = some (.ok ()) ∧
      ∀ n, a ≤ n → n < b → PagePasses s d perm (pageVa n)) ∨
    ∃ n, a ≤ n ∧ n < b ∧ (∀ m, a ≤ m → m < n → PagePasses s d perm (pageVa m)) ∧
      ¬ PagePasses s d perm (pageVa n) ∧
      userMemLoop s d va perm (pageVa b) fuel (pageVa a) =
        some (.error (faultAddr va (pageVa n))) := by
  induction fuel generalizing a with
  | zero => exact absurd hfuel (Nat.not_lt_zero _)
  | succ fuel ih =>
      by_cases hab : a < b
      · have hlt : pageVa a < pageVa b := by
          rw [BitVec.lt_def, pageVa_toNat ha, pageVa_toNat hb]
          omega
        rcases hs.pgdirWalk_read hd hdn (pageVa a) with ⟨hz, hwalk⟩ | ⟨hnz, pte, hwalk, hpte⟩
        · refine Or.inr ⟨a, Nat.le_refl a, hab, fun m h1 h2 => by omega, fun hp => hp.1 hz, ?_⟩
          simp [Kern.userMemLoop, hlt, hwalk]
        by_cases hperm : mmuPte s d (pageVa a) &&& perm = perm
        · have hpass : PagePasses s d perm (pageVa a) := ⟨hnz, hperm⟩
          have hstep : Kern.userMemLoop s d va perm (pageVa b) (fuel + 1) (pageVa a) =
              Kern.userMemLoop s d va perm (pageVa b) fuel (pageVa (a + 1)) := by
            simp [Kern.userMemLoop, hlt, hwalk, hpte, hperm, pageVa_succ (n := a) (by omega)]
          rw [hstep]
          rcases ih (a := a + 1) (by omega) (by omega) with ⟨hok, hall⟩ | ⟨n, h1, h2, h3, h4, h5⟩
          · refine Or.inl ⟨hok, fun n hn hn' => ?_⟩
            by_cases hna : n = a
            · rw [hna]
              exact hpass
            · exact hall n (by omega) hn'
          · refine Or.inr ⟨n, by omega, h2, fun m hm hm' => ?_, h4, h5⟩
            by_cases hma : m = a
            · rw [hma]
              exact hpass
            · exact h3 m (by omega) hm'
        · refine Or.inr ⟨a, Nat.le_refl a, hab, fun m h1 h2 => by omega, fun hp => hperm hp.2, ?_⟩
          simp [Kern.userMemLoop, hlt, hwalk, hpte, hperm]
      · left
        have hlt : ¬ pageVa a < pageVa b := by
          rw [BitVec.lt_def, pageVa_toNat ha, pageVa_toNat hb]
          omega
        exact ⟨by simp [Kern.userMemLoop, hlt], fun n hn hn' => by omega⟩

/-- The first page `user_mem_check` looks at, and the one where it stops. -/
def checkStart (va : BitVec 32) : Nat := va.toNat / 4096

def checkEnd (va len : BitVec 32) : Nat := ((va + len).toNat + 4095) % 2 ^ 32 / 4096

/-- `user_mem_check` returns; it succeeds when `va` is not above `ULIM` and every page
between the rounded ends passes. -/
theorem Shape.userMemCheck (hs : Shape R s) (va len perm : BitVec 32) (hd : (s.envs e).envPgdir = some d)
    (hdn : d < s.npages) :
    (userMemCheck s e va len perm = some (.ok ()) ∧ va ≤ ulim ∧
      ∀ n, checkStart va ≤ n → n < checkEnd va len →
        PagePasses s d (perm ||| pteP) (pageVa n)) ∨
    (∃ x, userMemCheck s e va len perm = some (.error x)) ∧
      ¬ (va ≤ ulim ∧ ∀ n, checkStart va ≤ n → n < checkEnd va len →
        PagePasses s d (perm ||| pteP) (pageVa n)) := by
  have hlt := va.isLt
  by_cases hu : ulim < va
  · refine Or.inr ⟨⟨va, by simp [Kern.userMemCheck, hu]⟩, fun h => ?_⟩
    exact absurd h.1 (BitVec.not_le.mpr hu)
  · have hstart : checkStart va < 2 ^ 20 := by
      rw [checkStart]
      omega
    have hend : checkEnd va len < 2 ^ 20 := by
      rw [checkEnd]
      omega
    -- the fuel is abstract from here on, so that nothing unfolds it
    obtain ⟨fuel, hfuel⟩ : ∃ fuel, 2 ^ 20 + 1 = fuel := ⟨_, rfl⟩
    have hrun : Kern.userMemCheck s e va len perm =
        Kern.userMemLoop s d va (perm ||| pteP) (pageVa (checkEnd va len)) fuel
          (pageVa (checkStart va)) := by
      simp only [Kern.userMemCheck, hu, if_false, hd, Option.bind_eq_bind, Option.bind_some,
        roundUp_eq, roundDown_eq, checkStart, checkEnd, hfuel]
    rw [hrun]
    rcases hs.userMemLoop va (perm ||| pteP) hd hdn hstart hend
      (show _ < fuel by omega) with ⟨hok, hall⟩ | ⟨n, h1, h2, _, h4, h5⟩
    · exact Or.inl ⟨hok, BitVec.not_lt.mp hu, hall⟩
    · exact Or.inr ⟨⟨_, h5⟩, fun h => h4 (h.2 n h1 h2)⟩

/-! ## Regions of the address space -/

/-- Below `UTOP` the processor grants what the page table entry has. -/
theorem Shape.x86Grants_low (hs : Shape R s) (hd : (s.envs e).envPgdir = some d)
    (hva : va < utop) (hp : perm &&& pteP = pteP) :
    x86Grants s d va perm ↔ pteOf s (slotOf e va hva) &&& perm = perm := by
  have hne : perm ≠ 0#32 := by
    rintro rfl
    exact absurd hp (by decide)
  have hpacc : perm &&& accessBits ≠ 0#32 := by
    intro h
    have h1 : perm &&& accessBits &&& pteP = perm &&& pteP := by
      have : accessBits &&& pteP = pteP := by decide
      rw [BitVec.and_assoc, this]
    rw [h, hp] at h1
    exact absurd h1 (by decide)
  cases ht : target s (.pde e ⟨pdx va, pdx_lt_of_lt_utop hva⟩) with
  | none =>
      have hz := hs.pde_zero hd ht
      rw [← mmuPde] at hz
      rw [slotOf, pteOf_of_none ht, x86Grants, hz, BitVec.zero_and, BitVec.zero_and]
      constructor
      · intro h
        exact absurd h.1.symm hpacc
      · intro h
        exact absurd h.symm hne
  | some t =>
      obtain ⟨hent, htn⟩ := hs.pde_eq hd ht
      rw [← mmuPde] at hent
      have hpte : mmuPte s d va = pteOf s (slotOf e va hva) := by
        rw [mmuPte, hent, pteFrame_tableEntry (hs.lt_two_pow htn), slotOf, pteOf_eq ht]
      rw [x86Grants, hent, hpte]
      exact ⟨fun h => h.2, fun h => ⟨tableEntry_and_accessBits t perm, h⟩⟩

/-- The two tests agree outside the window at `UVPT`. -/
theorem Shape.x86Grants_of_passes (hs : Shape R s) (hd : (s.envs e).envPgdir = some d)
    (hu : pdx va ≠ pdxUvpt) (h : PagePasses s d perm va) : x86Grants s d va perm := by
  have hlt := pdx_lt va
  have htab : ∃ t, mmuPde s d va = tableEntry t := by
    by_cases hlow : pdx va < pdxUtop
    · rcases hs.dir_low e d (pdx va) hd hlow with hz | ⟨t, _, hent⟩
      · exact absurd hz h.1
      · exact ⟨t, hent⟩
    · have hhigh := hs.dir_high e d (pdx va) hd (by omega) hlt
      rw [if_neg hu] at hhigh
      rcases hs.kern_high (pdx va) (by omega) hlt hu with hz | ⟨t, _, _, hent, _⟩
      · exact absurd (hhigh.trans hz) h.1
      · exact ⟨t, hhigh.trans hent⟩
  obtain ⟨t, ht⟩ := htab
  refine ⟨?_, h.2⟩
  rw [ht]
  exact tableEntry_and_accessBits t perm

/-- The entries of the kernel's tables that a user page would need. -/
theorem Shape.passes_high (hs : Shape R s) (hd : (s.envs e).envPgdir = some d)
    (hlow : pdxUtop ≤ pdx va) (hu : pdx va ≠ pdxUvpt) (h : PagePasses s d perm va) :
    (pdx va < pdxUvpt → perm &&& pteW = 0#32) ∧ (pdxUvpt < pdx va → perm &&& pteU = 0#32) := by
  have hlt := pdx_lt va
  have hhigh := hs.dir_high e d (pdx va) hd hlow hlt
  rw [if_neg hu] at hhigh
  rcases hs.kern_high (pdx va) hlow hlt hu with hz | ⟨t, _, ht, hent, hpte⟩
  · exact absurd (hhigh.trans hz) h.1
  · have hpde : mmuPde s d va = tableEntry t := hhigh.trans hent
    have hread : mmuPte s d va = s.entry t (ptx va) := by
      rw [mmuPte, hpde, pteFrame_tableEntry (hs.lt_two_pow ht)]
    have hsub := h.2
    rw [hread] at hsub
    obtain ⟨h1, h2⟩ := hpte (ptx va) (ptx_lt va)
    exact ⟨fun hl => and_eq_zero_of_subset hsub (h1 hl),
      fun hl => and_eq_zero_of_subset hsub (h2 hl)⟩

/-- In the window at `UVPT` the check reads directory entries as page table entries, and
the processor also looks at the self-map. -/
theorem Shape.window (hs : Shape R s) (hd : (s.envs e).envPgdir = some d) (hdn : d < s.npages)
    (hu : pdx va = pdxUvpt) :
    (PagePasses s d perm va ↔ s.entry d (ptx va) &&& perm = perm) ∧
      (x86Grants s d va perm ↔ s.entry d (ptx va) &&& perm = perm ∧ perm &&& pteW = 0#32) := by
  have hlt := pdx_lt va
  have hpde : mmuPde s d va = page2pa d ||| pteP ||| pteU := by
    have := hs.dir_high e d (pdx va) hd (by rw [hu]; decide) hlt
    rwa [if_pos hu] at this
  have hpte : mmuPte s d va = s.entry d (ptx va) := by
    rw [mmuPte, hpde, BitVec.or_assoc, pteFrame_entry (hs.lt_two_pow hdn) (by decide)]
  have hnz : mmuPde s d va ≠ 0#32 := by
    intro h0
    have hU : mmuPde s d va &&& pteU = pteU := by
      rw [hpde, BitVec.or_assoc, entry_and (by decide)]
      decide
    rw [h0] at hU
    exact absurd hU (by decide)
  rw [PagePasses, x86Grants, hpte]
  refine ⟨⟨fun h => h.2, fun h => ⟨hnz, h⟩⟩, ?_⟩
  rw [hpde, selfMap_and_accessBits]
  exact And.comm

/-! ## Stores to user memory -/

/-- The rights that a user program needs for a write. -/
def userWrite : BitVec 32 := pteP ||| pteU ||| pteW

theorem x86Grants.mono (h : x86Grants s d va perm) (hsub : perm &&& m = m) :
    x86Grants s d va m := by
  have hacc : m &&& accessBits = m &&& (perm &&& accessBits) := by
    rw [← BitVec.and_assoc, BitVec.and_comm m perm, hsub]
  refine ⟨?_, ?_⟩
  · rw [hacc, BitVec.and_comm m, ← BitVec.and_assoc, h.1]
  · rw [← hsub, ← BitVec.and_assoc, h.2]

/-- The user may write only below `UTOP`. -/
theorem Shape.lt_utop_of_write (hs : Shape R s) (hd : (s.envs e).envPgdir = some d)
    (hdn : d < s.npages) (hw : x86Grants s d va userWrite) : va < utop := by
  have hpass : PagePasses s d userWrite va := by
    refine ⟨?_, hw.2⟩
    intro h0
    have h1 := hw.1
    rw [h0, BitVec.zero_and] at h1
    exact absurd h1 (by decide)
  by_contra hva
  have hlow : pdxUtop ≤ pdx va := by
    have hle : 0xEEC00000 ≤ va.toNat := BitVec.not_lt.mp hva
    rw [pdx_eq, pdxUtop]
    omega
  by_cases hu : pdx va = pdxUvpt
  · have := ((hs.window hd hdn hu).2.mp hw).2
    exact absurd this (by decide)
  · obtain ⟨h1, h2⟩ := hs.passes_high hd hlow hu hpass
    rcases Nat.lt_or_gt_of_ne hu with hlt | hgt
    · exact absurd (h1 hlt) (by decide)
    · exact absurd (h2 hgt) (by decide)

/-- The frame behind a page below `UTOP` that the processor lets through. -/
theorem PageInv.physAddr_eq (h : PageInv R held s) (hd : (s.envs e).envPgdir = some d)
    (hva : va < utop) (hp : perm &&& pteP = pteP) (hw : x86Grants s d va perm) :
    ∃ f, entryTarget (pteOf s (slotOf e va hva)) = some f ∧
      physAddr s d va = 4096 * f + pgoff va := by
  have hpte := (h.shape.x86Grants_low hd hva hp).mp hw
  have hpres : isPresent (pteOf s (slotOf e va hva)) = true := by
    have : pteOf s (slotOf e va hva) &&& pteP = pteP := by
      rw [← hp, ← BitVec.and_assoc, hpte]
    rw [isPresent, this]
    rfl
  refine ⟨pteFrame (pteOf s (slotOf e va hva)), by rw [entryTarget, if_pos hpres], ?_⟩
  cases ht : target s (.pde e ⟨pdx va, pdx_lt_of_lt_utop hva⟩) with
  | none =>
      rw [slotOf, pteOf_of_none ht] at hpres
      cases hpres
  | some t =>
      obtain ⟨hent, htn⟩ := h.shape.pde_eq hd ht
      rw [← mmuPde] at hent
      rw [physAddr, mmuPte, hent, pteFrame_tableEntry (h.shape.lt_two_pow htn), slotOf, pteOf_eq ht]

/-- A change of a byte in a mapped page changes no table. -/
theorem PageInv.sameTables_store {f x : Nat} (h : PageInv R held s) (hf : Mapped s f)
    (hx : 4096 * f ≤ x) (hx' : x < 4096 * f + 4096) (c : BitVec 8) :
    SameTables R s { s with mem := Function.update s.mem x c } := by
  refine SameTables.of_mem ?_ rfl rfl fun _ => rfl
  intro g hg y hy hy'
  have hne : g ≠ f := by
    rintro rfl
    rcases hg with hg | ⟨k, hk, hkg⟩
    · obtain ⟨k, hk⟩ := hf
      rw [← target_placeOf] at hk
      exact (h.target_lt hk).2.1 hg
    · exact h.noTable_of_mapped hf k hk hkg
  exact Function.update_of_ne (by omega) ..

theorem SameTables.inv (hst : SameTables R s s') (h : Inv R s) (hlink : s'.ppLink = s.ppLink)
    (hfl : s'.pageFreeList = s.pageFreeList) (href : s'.ppRef = s.ppRef) (henvs : s'.envs = s.envs)
    (hef : s'.envFreeList = s.envFreeList) : Inv R s' := by
  refine ⟨⟨hst.shape h.pages.shape, ?_⟩, h.envs.congr henvs hef⟩
  obtain ⟨⟨free, h1, h2, h3⟩, _⟩ := h.pages.accounts
  rw [hst.target_eq]
  refine ⟨⟨free, ?_, ?_, ?_⟩, by simp⟩
  · rw [hlink, hfl]
    exact h1
  · rw [href]
    refine h2.congr (fun p => ?_) fun _ _ => rfl
    rw [Owned, Owned, hst.npages]
  · rw [hst.npages, hlink]
    exact h3

/-- Rights of the user survive as long as the tables do. -/
theorem SameTables.x86Grants (hst : SameTables R s s') (hs : Shape R s)
    (hd : (s.envs e).envPgdir = some d) (hdn : d < s.npages) (hw : x86Grants s d va userWrite) :
    x86Grants s' d va userWrite := by
  have hva := hs.lt_utop_of_write hd hdn hw
  have hp : userWrite &&& pteP = pteP := by decide
  rw [(hst.shape hs).x86Grants_low (by rw [hst.dir, hd]) hva hp, hst.pteOf_eq]
  exact (hs.x86Grants_low hd hva hp).mp hw

/-- The tables map the same frames with the same rights. -/
def SameMaps (s s' : Kernel) : Prop := target s' = target s ∧ pteOf s' = pteOf s

theorem SameMaps.trans {s'' : Kernel} (h : SameMaps s s') (h' : SameMaps s' s'') : SameMaps s s'' :=
  ⟨h'.1.trans h.1, h'.2.trans h.2⟩

/-- The state while the kernel writes to a range of the user. -/
structure Writing (R : Nat → Prop) (e : EnvIx) (d : Nat) (va : BitVec 32) (n : Nat) (s : Kernel) :
    Prop where
  inv : Inv R s
  dir : (s.envs e).envPgdir = some d
  grants : ∀ i < n, x86Grants s d (va + BitVec.ofNat 32 i) userWrite

namespace Writing

theorem storeByte {i : Nat} {c : BitVec 8} (h : Writing R e d va n s) (hi : i < n)
    (hs : storeByte s d (va + BitVec.ofNat 32 i) c = some s') :
    Writing R e d va n s' ∧ s'.envs = s.envs ∧ SameMaps s s' := by
  have hdn := (h.inv.pages.target_lt (k := .pgdir e) h.dir).1
  have hw := h.grants i hi
  rw [Kern.storeByte, if_pos (hw.mono (by decide))] at hs
  cases hs
  obtain ⟨f, hf, hphys⟩ := h.inv.pages.physAddr_eq h.dir
    (h.inv.pages.shape.lt_utop_of_write h.dir hdn hw) (by decide) hw
  have hoff : pgoff (va + BitVec.ofNat 32 i) < 4096 := by
    rw [pgoff_eq]
    exact Nat.mod_lt _ (by omega)
  rw [hphys]
  have hst := h.inv.pages.sameTables_store ⟨_, hf⟩ (Nat.le_add_right (4096 * f) _)
    (Nat.add_lt_add_left hoff _) c
  exact ⟨⟨hst.inv h.inv rfl rfl rfl rfl rfl, h.dir, fun i' hi' =>
    hst.x86Grants h.inv.pages.shape h.dir hdn (h.grants i' hi')⟩, rfl, hst.target_eq, hst.pteOf_eq⟩

theorem add_ofNat (va : BitVec 32) (i j : Nat) :
    va + BitVec.ofNat 32 i + BitVec.ofNat 32 j = va + BitVec.ofNat 32 (i + j) := by
  rw [BitVec.add_assoc, BitVec.ofNat_add]

theorem store16 {i : Nat} {c : BitVec 16} (h : Writing R e d va n s) (hi : i + 1 < n)
    (hs : store16 s d (va + BitVec.ofNat 32 i) c = some s') :
    Writing R e d va n s' ∧ s'.envs = s.envs ∧ SameMaps s s' := by
  simp only [Kern.store16, Option.bind_eq_bind, Option.bind_eq_some_iff] at hs
  obtain ⟨s1, hs1, hs2⟩ := hs
  rw [add_ofNat va i 1] at hs2
  obtain ⟨h1, he1, ht1⟩ := h.storeByte (by omega) hs1
  obtain ⟨h2, he2, ht2⟩ := h1.storeByte hi hs2
  exact ⟨h2, he2.trans he1, ht1.trans ht2⟩

theorem store32 {i : Nat} {c : BitVec 32} (h : Writing R e d va n s) (hi : i + 3 < n)
    (hs : store32 s d (va + BitVec.ofNat 32 i) c = some s') :
    Writing R e d va n s' ∧ s'.envs = s.envs ∧ SameMaps s s' := by
  simp only [Kern.store32, Option.bind_eq_bind, Option.bind_eq_some_iff] at hs
  obtain ⟨s1, hs1, hs2⟩ := hs
  rw [add_ofNat va i 2] at hs2
  obtain ⟨h1, he1, ht1⟩ := h.store16 (by omega) hs1
  obtain ⟨h2, he2, ht2⟩ := h1.store16 (by omega) hs2
  exact ⟨h2, he2.trans he1, ht1.trans ht2⟩

/-- The accesses of `sys_env_set_trapframe`, when the user may write the whole frame. -/
theorem trapframeStore {cur : EnvIx} {tf : BitVec 32} (h : Writing R cur d tf 68 s)
    (hrun : trapframeStore s cur e tf = some s') :
    Inv R s' ∧ SameMaps s s' := by
  simp only [Kern.trapframeStore, h.dir, Option.bind_eq_bind, Option.bind_some,
    Option.bind_eq_some_iff] at hrun
  obtain ⟨s1, h1, s2, h2, s3, h3, s4, h4, s5, h5, eflags, _, s6, h6, envTf, _, hend⟩ := hrun
  obtain ⟨w1, _, t1⟩ := h.store16 (i := 36) (by omega) h1
  obtain ⟨w2, _, t2⟩ := w1.store16 (i := 32) (by omega) h2
  obtain ⟨w3, _, t3⟩ := w2.store16 (i := 64) (by omega) h3
  obtain ⟨w4, _, t4⟩ := w3.store16 (i := 52) (by omega) h4
  obtain ⟨w5, _, t5⟩ := w4.store32 (i := 56) (by omega) h5
  obtain ⟨w6, _, t6⟩ := w5.store32 (i := 56) (by omega) h6
  cases hend
  refine ⟨w6.inv.setEnv rfl rfl Iff.rfl (w6.inv.envs.dstva_ok e), ?_⟩
  exact ((((t1.trans t2).trans t3).trans t4).trans t5).trans t6 |>.trans (target_setEnv rfl)

end Writing

end

end Jos.Kern
