import Jos.Kern.FreePages
import Jos.Kern.RefWrap
import Jos.User.Fork
import Mathlib.Data.Fintype.Prod

/-!
# What fork does to the address spaces

`duppage` maps a page of the parent at the same address of the child. A page that is writable or
copy-on-write becomes copy-on-write in both; a page with `PTE_SHARE` should keep its permissions,
but `duppage` asks for `PTE_W` in any case. The kernel refuses that for a page that the parent
cannot write, and `fork` panics. For all other address spaces `fork` gives the child what it
should, with enough memory and as long as no count of references wraps around.

Main results:
* `fork_cases`: `fork` panics, or gives the child every page of the parent;
* `fork_copies_iff`: when it does;
* `fork_panics`: a read-only page with `PTE_SHARE` with which it does not.

The stack of the parent is copy-on-write from its `duppage` on, and the next push makes a new page
of it, which the child does not share. So what is said about the parent leaves out `ownPages`.
-/

namespace Jos.User

open Jos.Lib Jos.Kern Kernel

/-! ## Permissions -/

/-- A page that `duppage` can give to a child. -/
def DupOk (w : BitVec 32) : Prop := w &&& pteShare ≠ 0#32 → w &&& pteW ≠ 0#32

/-- The entry of the child for an entry of the parent. -/
def dupPte (w : BitVec 32) : BitVec 32 :=
  if isPresent w then page2pa (pteFrame w) ||| dupPerm w ||| pteP else 0#32

/-- The entry of the parent afterwards. -/
def keptPte (w : BitVec 32) : BitVec 32 :=
  if isPresent w ∧ dupPerm w &&& pteCow ≠ 0#32 then dupPte w else w

section

variable {w m : BitVec 32} {pg : Nat}

/-- A bit that is not clear is set. -/
theorem and_bit (i : Nat) (hm : m = BitVec.twoPow 32 i) (h : w &&& m ≠ 0#32) : w &&& m = m := by
  subst hm
  rw [BitVec.and_twoPow] at h ⊢
  split
  · rfl
  · rename_i hne
    rw [if_neg hne] at h
    exact absurd rfl h

/-- The bits that `duppage` keeps in any case. -/
def keptBits : BitVec 32 := pteSyscall &&& ~~~pteW

theorem dupPerm_eq (w : BitVec 32) : dupPerm w =
    if w &&& pteShare ≠ 0#32 then (w &&& keptBits) ||| pteW
    else if w &&& pteW ≠ 0#32 then (w &&& keptBits) ||| pteCow
    else w &&& keptBits := by
  rw [dupPerm, keptBits, ← BitVec.and_assoc]

theorem dupPerm_and (w m : BitVec 32) : dupPerm w &&& m =
    if w &&& pteShare ≠ 0#32 then (w &&& (keptBits &&& m)) ||| (pteW &&& m)
    else if w &&& pteW ≠ 0#32 then (w &&& (keptBits &&& m)) ||| (pteCow &&& m)
    else w &&& (keptBits &&& m) := by
  rw [dupPerm_eq]
  split
  · rw [BitVec.and_or_distrib_right, BitVec.and_assoc]
  split
  · rw [BitVec.and_or_distrib_right, BitVec.and_assoc]
  · rw [BitVec.and_assoc]

theorem badPerm_dupPerm (w : BitVec 32) : badPerm (dupPerm w) = false := by
  have hz : dupPerm w &&& ~~~pteSyscall = 0#32 := by
    rw [dupPerm_and, show keptBits &&& ~~~pteSyscall = 0#32 by decide,
      show pteW &&& ~~~pteSyscall = 0#32 by decide, show pteCow &&& ~~~pteSyscall = 0#32 by decide]
    simp
  rw [badPerm, hz]
  rfl

theorem dupPerm_lt (w : BitVec 32) : (dupPerm w).toNat < 4096 := badPerm_eq_false (badPerm_dupPerm w)

theorem dupPerm_write (w : BitVec 32) :
    dupPerm w &&& pteW = if w &&& pteShare ≠ 0#32 then pteW else 0#32 := by
  rw [dupPerm_and, show keptBits &&& pteW = 0#32 by decide, show pteW &&& pteW = pteW by decide,
    show pteCow &&& pteW = 0#32 by decide]
  simp

theorem dupPerm_cow (w : BitVec 32) : dupPerm w &&& pteCow ≠ 0#32 ↔
    w &&& pteCow ≠ 0#32 ∨ (w &&& pteShare = 0#32 ∧ w &&& pteW ≠ 0#32) := by
  rw [dupPerm_and, show keptBits &&& pteCow = pteCow by decide,
    show pteW &&& pteCow = 0#32 by decide, show pteCow &&& pteCow = pteCow by decide]
  split
  · rename_i hs
    simp [hs]
  · rename_i hs
    have hs : w &&& pteShare = 0#32 := by simpa using hs
    split
    · rename_i hw
      have hne : (w &&& pteCow) ||| pteCow ≠ 0#32 := by
        rw [show (w &&& pteCow) ||| pteCow = pteCow by
          ext i hi
          simp only [BitVec.getElem_or, BitVec.getElem_and]
          cases pteCow[i] <;> simp]
        decide
      exact iff_of_true hne (Or.inr ⟨hs, hw⟩)
    · rename_i hw
      have hw : w &&& pteW = 0#32 := by simpa using hw
      simp [hw]

/-- The kernel refuses exactly the pages that cannot be given. -/
theorem grantsWrite_dupPerm (w : BitVec 32) : grantsWrite (dupPerm w) w = false ↔ DupOk w := by
  rw [grantsWrite, dupPerm_write, DupOk]
  split
  · rename_i hs
    simp only [hs, not_false_eq_true, true_imp_iff, ne_eq]
    rw [show (pteW != 0#32) = true by decide]
    simp
  · rename_i hs
    simp only [hs, false_imp_iff]
    simp

/-- The flags of the entry that `page_insert` makes. -/
theorem dupEntry_and (w : BitVec 32) (hm : m.toNat < 4096) :
    (page2pa pg ||| dupPerm w ||| pteP) &&& m = (dupPerm w &&& m) ||| (pteP &&& m) := by
  rw [BitVec.or_assoc, entry_and hm, BitVec.and_or_distrib_right]

theorem entryTarget_eq_some : entryTarget w = some pg ↔ isPresent w = true ∧ pteFrame w = pg := by
  rw [entryTarget]
  split
  · rename_i h
    simp [h]
  · rename_i h
    simp [h]

theorem pteFrame_lt (w : BitVec 32) : pteFrame w < 2 ^ 20 := by
  rw [pteFrame_eq]
  have := w.isLt
  omega

theorem dupPte_of_present (h : isPresent w = true) :
    dupPte w = page2pa (pteFrame w) ||| dupPerm w ||| pteP := by
  rw [dupPte, if_pos h]

theorem dupPte_of_not (h : isPresent w = false) : dupPte w = 0#32 := by
  rw [dupPte, if_neg (by simp [h])]

theorem keptPte_of_not (h : isPresent w = false) : keptPte w = w := by
  rw [keptPte, if_neg (by simp [h])]

/-- Both map what the parent mapped. -/
theorem entryTarget_dupPte (w : BitVec 32) : entryTarget (dupPte w) = entryTarget w := by
  by_cases h : isPresent w = true
  · rw [dupPte_of_present h, entryTarget_insert (pteFrame_lt w) (dupPerm_lt w), entryTarget, if_pos h]
  · rw [dupPte, if_neg h, entryTarget, entryTarget, if_neg h]
    rfl

theorem entryTarget_keptPte (w : BitVec 32) : entryTarget (keptPte w) = entryTarget w := by
  rw [keptPte]
  split
  · exact entryTarget_dupPte w
  · rfl

/-- What the entry `w` of the parent should become, in the child and in the parent itself. -/
structure PermsCopied (w w' : BitVec 32) : Prop where
  share : w &&& pteShare ≠ 0#32 → w' &&& pteSyscall = w &&& pteSyscall
  cow : w &&& pteShare = 0#32 → w &&& pteW ≠ 0#32 ∨ w &&& pteCow ≠ 0#32 →
    w' &&& pteCow ≠ 0#32 ∧ w' &&& pteW = 0#32
  readonly : w &&& pteShare = 0#32 → w &&& pteW = 0#32 → w &&& pteCow = 0#32 →
    w' &&& pteSyscall = w &&& pteSyscall

theorem and_pteP (h : isPresent w = true) : w &&& pteP = pteP :=
  and_bit 0 (by decide) (by simpa [isPresent] using h)

theorem syscall_split (w : BitVec 32) :
    w &&& pteSyscall = (w &&& keptBits) ||| (w &&& pteW) := by
  rw [← BitVec.and_or_distrib_left]
  congr 1

/-- The present bit is one of the bits kept. -/
theorem kept_or_pteP (h : isPresent w = true) : (w &&& keptBits) ||| pteP = w &&& keptBits := by
  conv_lhs => rw [← and_pteP h]
  rw [← BitVec.and_or_distrib_left]
  congr 1

theorem dupPte_syscall (h : isPresent w = true) : dupPte w &&& pteSyscall =
    if w &&& pteShare ≠ 0#32 then (w &&& keptBits) ||| pteW
    else if w &&& pteW ≠ 0#32 then (w &&& keptBits) ||| pteCow
    else w &&& keptBits := by
  rw [dupPte_of_present h, dupEntry_and _ (by decide), dupPerm_and,
    show keptBits &&& pteSyscall = keptBits by decide, show pteW &&& pteSyscall = pteW by decide,
    show pteCow &&& pteSyscall = pteCow by decide, show pteP &&& pteSyscall = pteP by decide]
  split
  · rw [BitVec.or_assoc, BitVec.or_comm pteW, ← BitVec.or_assoc, kept_or_pteP h]
  split
  · rw [BitVec.or_assoc, BitVec.or_comm pteCow, ← BitVec.or_assoc, kept_or_pteP h]
  · exact kept_or_pteP h

theorem keptPte_eq_dupPte (h : isPresent w = true) (hcow : dupPerm w &&& pteCow ≠ 0#32) :
    keptPte w = dupPte w := by
  rw [keptPte, if_pos ⟨h, hcow⟩]

theorem permsCopied_dup (h : isPresent w = true) (hok : DupOk w) : PermsCopied w (dupPte w) := by
  refine ⟨fun hs => ?_, fun hs hwc => ?_, fun hs hw hc => ?_⟩
  · rw [dupPte_syscall h, if_pos hs, syscall_split, and_bit 1 (by decide) (hok hs)]
  · have hcow : dupPerm w &&& pteCow ≠ 0#32 := by
      rw [dupPerm_cow]
      tauto
    constructor
    · rw [dupPte_of_present h, dupEntry_and _ (by decide), show pteP &&& pteCow = 0#32 by decide]
      simpa using hcow
    · rw [dupPte_of_present h, dupEntry_and _ (by decide), dupPerm_write, if_neg (by simp [hs])]
      decide
  · rw [dupPte_syscall h, if_neg (by simp [hs]), if_neg (by simp [hw]), syscall_split, hw]
    simp

theorem permsCopied_kept (h : isPresent w = true) (hok : DupOk w) : PermsCopied w (keptPte w) := by
  by_cases hcow : dupPerm w &&& pteCow ≠ 0#32
  · rw [keptPte_eq_dupPte h hcow]
    exact permsCopied_dup h hok
  · -- A page that `duppage` does not make copy-on-write is left as it is.
    rw [keptPte, if_neg fun hboth => hcow hboth.2]
    refine ⟨fun _ => rfl, fun hs hwc => absurd ?_ hcow, fun _ _ _ => rfl⟩
    rw [dupPerm_cow]
    tauto

end

/-! ## Pages by their indices -/

section

variable {R : Nat → Prop} {s s' : Kernel} {cur e : EnvIx} {i : Fin pdxUtop} {j : Fin nptentries}

theorem pgaddr_lt (i : Fin pdxUtop) (j : Fin nptentries) : pgaddr i j < utop := by
  have hi := i.isLt
  have hj : j.val < 1024 := j.isLt
  simp only [pdxUtop] at hi
  rw [BitVec.lt_def, pgaddr_toNat (by omega) hj, show utop.toNat = 4194304 * 955 by decide]
  omega

theorem slotOf_pgaddr (e : EnvIx) (i : Fin pdxUtop) (j : Fin nptentries) :
    slotOf e (pgaddr i j) (pgaddr_lt i j) = (e, i, j) := by
  have hi := pdxUtop_lt i.isLt
  simp only [slotOf, pdx_pgaddr hi j.isLt, ptx_pgaddr hi j.isLt]

theorem badVa_pgaddr (i : Fin pdxUtop) (j : Fin nptentries) : badVa (pgaddr i j) = false := by
  have hi := pdxUtop_lt i.isLt
  have hj : j.val < 1024 := j.isLt
  have hoff : pgoff (pgaddr i j) = 0 := by
    rw [pgoff_eq, pgaddr_toNat hi hj]
    omega
  have hlow := pgaddr_lt i j
  simp only [badVa, hoff, Bool.or_eq_false_iff, decide_eq_false_iff_not, bne_self_eq_false, and_true]
  exact BitVec.not_le.mpr hlow

theorem pgnum_pgaddr (i : Fin pdxUtop) (j : Fin nptentries) :
    pgnum (pgaddr i j) = 1024 * i.val + j.val := by
  have hi := pdxUtop_lt i.isLt
  have hj : j.val < 1024 := j.isLt
  rw [pgnum_eq, pgaddr_toNat hi hj]
  omega

theorem ofNat_pgnum (i : Fin pdxUtop) (j : Fin nptentries) :
    BitVec.ofNat 32 (pgnum (pgaddr i j) * 4096) = pgaddr i j := by
  rw [pgnum_pgaddr, pgaddr]
  congr 1
  omega

theorem envid2env_zero (s : Kernel) (cur : EnvIx) (checkperm : Bool) :
    envid2env s cur 0#32 checkperm = some cur := by
  simp [envid2env]

/-- The library reads its page tables. -/
theorem uvptEntry_eq {d : Nat} (h : Inv R s) (hd : (s.envs e).envPgdir = some d)
    (ht : target s (.pde e i) ≠ none) :
    uvptEntry s d (pgnum (pgaddr i j)) = pteOf s (e, i, j) := by
  obtain ⟨t, ht⟩ := Option.ne_none_iff_exists'.mp ht
  obtain ⟨hent, htn⟩ := h.pages.shape.pde_eq hd ht
  have hj : j.val < 1024 := j.isLt
  rw [uvptEntry, pgnum_pgaddr, show (1024 * i.val + j.val) / 1024 = i.val by omega,
    show (1024 * i.val + j.val) % 1024 = j.val by omega, hent,
    pteFrame_tableEntry (h.pages.shape.lt_two_pow htn), pteOf_eq ht]

theorem uvpdEntry_iff {d : Nat} (hd : (s.envs e).envPgdir = some d) :
    uvpdEntry s d i &&& pteP = 0#32 ↔ target s (.pde e i) = none := by
  have htar : target s (.pde e i) = entryTarget (s.entry d i) := target_pde hd i
  rw [htar, uvpdEntry, entryTarget, isPresent]
  split
  · rename_i hp
    simp only [bne_iff_ne, ne_eq] at hp
    simp [hp]
  · rename_i hp
    simp only [bne_iff_ne, ne_eq, not_not] at hp
    simp [hp]

/-- An entry that is not zero is in a page table. -/
theorem pde_of_pteOf (h : entryTarget (pteOf s (e, i, j)) ≠ none) : target s (.pde e i) ≠ none := by
  intro hnone
  rw [pteOf_of_none hnone] at h
  exact h rfl

/-! ## One page -/

/-- What `duppage` leaves, for the page `(i, j)` with the entry `w`. -/
structure Duplicated (R : Nat → Prop) (s : Kernel) (cur c : EnvIx) (i : Fin pdxUtop)
    (j : Fin nptentries) (w : BitVec 32) (s' : Kernel) : Prop where
  inv : Inv R s'
  envs : s'.envs = s.envs
  pte : pteOf s' = Function.update (Function.update (pteOf s) (c, i, j) (dupPte w)) (cur, i, j)
    (keptPte w)
  spare : ∀ n, Spare s (n + 1) → Spare s' n
  spare_table : target s (.pde c i) ≠ none → ∀ n, Spare s n → Spare s' n
  table : target s' (.pde c i) ≠ none

variable {c : EnvIx} {envid w : BitVec 32}

/-- The kernel refuses the page, and the parent panics. -/
theorem duppage_refused (h : Inv R s) (hlive : (s.envs cur).envStatus ≠ .free)
    (hc : envid2env s cur envid true = some c) (hw : pteOf s (cur, i, j) = w)
    (hp : isPresent w = true) (hok : ¬ DupOk w) :
    duppage cur envid s (pgnum (pgaddr i j)) = none := by
  obtain ⟨d, hd⟩ := h.envs.exists_pgdir hlive
  have htarget : entryTarget (pteOf s (cur, i, j)) = some (pteFrame w) := by
    rw [hw, entryTarget, if_pos hp]
  have ht := pde_of_pteOf (by rw [htarget]; simp)
  have hva := badVa_pgaddr i j
  have hgrant : grantsWrite (dupPerm w) w = true := by
    rw [← Bool.not_eq_false, grantsWrite_dupPerm]
    exact hok
  have hslot := slotOf_pgaddr cur i j
  have hcall : sysPageMap s cur 0#32 (pgaddr i j) envid (pgaddr i j) (dupPerm w) =
      some (s, .ret (-eInval)) := by
    rcases h.pages.pageLookup hd (pgaddr_lt i j) with ⟨hnone, _⟩ | ⟨pg, pte, _, hlook, hpte⟩
    · rw [hslot, htarget] at hnone
      cases hnone
    · rw [hslot, hw] at hpte
      simp [sysPageMap, envid2env_zero, hc, hva, hd, hlook, badPerm_dupPerm, hpte, hgrant]
  have hpanic : orPanic (· < 0) (some (s, .ret (-eInval))) = none := rfl
  simp only [duppage, hd, ofNat_pgnum, uvptEntry_eq h hd ht, hw, Option.bind_eq_bind,
    Option.bind_some, hcall, hpanic, Option.bind_none]

theorem duppage_ok (h : Inv R s) (hlive : (s.envs cur).envStatus ≠ .free)
    (hc : envid2env s cur envid true = some c) (hne : cur ≠ c) (hw : pteOf s (cur, i, j) = w)
    (hp : isPresent w = true) (hzero : pteOf s (c, i, j) = 0#32) (hok : DupOk w)
    (hspare : Spare s 2 ∨ Spare s 1 ∧ target s (.pde c i) ≠ none)
    (hdrop : ∀ s1, Inv R s1 → s1.envs = s.envs →
      pteOf s1 = Function.update (pteOf s) (c, i, j) (dupPte w) →
      DropOk s1 (placeOf (cur, i, j))) :
    ∃ s', duppage cur envid s (pgnum (pgaddr i j)) = some s' ∧ Duplicated R s cur c i j w s' := by
  obtain ⟨d, hd⟩ := h.envs.exists_pgdir hlive
  have htarget : entryTarget (pteOf s (cur, i, j)) = some (pteFrame w) := by
    rw [hw, entryTarget, if_pos hp]
  have ht := pde_of_pteOf (by rw [htarget]; simp)
  have hlow := pgaddr_lt i j
  have hva := badVa_pgaddr i j
  have hvas : (badVa (pgaddr i j) || badVa (pgaddr i j)) = false := by rw [hva]; rfl
  have hslot := slotOf_pgaddr cur i j
  have hslotc := slotOf_pgaddr c i j
  have hgrant := (grantsWrite_dupPerm w).mpr hok
  have hdup := dupPte_of_present hp
  have hdropc : DropOk s (placeOf (c, i, j)) := by
    intro q hq
    rw [target_placeOf, hzero] at hq
    cases hq
  -- The page in the child.
  rcases h.sysPageMap_checked hlive (envid2env_zero s cur true) hc hvas hlow hlow
      (by rw [hslot]; exact htarget) (badPerm_dupPerm w) (by rw [hslot, hw]; exact hgrant)
      (by rw [hslotc]; exact hdropc) with ⟨hfull, _⟩ | ⟨s1, hcall, hop, hsh, hpde⟩
  · rcases hspare with hs | ⟨hs, _⟩
    · exact absurd hfull hs.ne_none
    · exact absurd hfull hs.ne_none
  have hpte1 : pteOf s1 = Function.update (pteOf s) (c, i, j) (dupPte w) := by
    rw [hsh.pte, hslotc, hdup]
  have hw1 : pteOf s1 (cur, i, j) = w := by
    rw [hpte1, Function.update_of_ne (by simp [hne]), hw]
  have hrun1 : orPanic (· < 0) (sysPageMap s cur 0#32 (pgaddr i j) envid (pgaddr i j) (dupPerm w)) =
      some s1 := by
    simp [hcall, orPanic]
  have hspare1 : ∀ n, Spare s (n + 1) → Spare s1 n := fun n hs =>
    spare_sysPageMap h hlow hs hcall
  have hpdeEq : (⟨pdx (pgaddr i j), pdx_lt_of_lt_utop hlow⟩ : Fin pdxUtop) = i :=
    Fin.ext (pdx_pgaddr (pdxUtop_lt i.isLt) j.isLt)
  have htable1 : target s (.pde c i) ≠ none → ∀ n, Spare s n → Spare s1 n := fun htc n hs =>
    spare_sysPageMap_table h hlow hc (by rw [hpdeEq]; exact htc) hs hcall
  have hchild1 : target s1 (.pde c i) ≠ none := by
    refine pde_of_pteOf (j := j) ?_
    rw [hpte1, Function.update_self, entryTarget_dupPte, ← hw, htarget]
    simp
  by_cases hcow : dupPerm w &&& pteCow = 0#32
  · refine ⟨s1, ?_, hop.inv, hop.envs, ?_, hspare1, htable1, hchild1⟩
    · simp only [duppage, hd, ofNat_pgnum, uvptEntry_eq h hd ht, hw, Option.bind_eq_bind,
        Option.bind_some, hrun1, hcow, ne_eq, not_true_eq_false, if_false]
    · have hself : Function.update (pteOf s1) (cur, i, j) w = pteOf s1 := by
        conv_lhs => rw [← hw1]
        exact Function.update_eq_self _ _
      rw [keptPte, if_neg (by simp [hcow]), ← hpte1, hself]
  -- The page in the parent again.
  have hlive1 : (s1.envs cur).envStatus ≠ .free := by
    rw [hop.envs]
    exact hlive
  have htarget1 : entryTarget (pteOf s1 (cur, i, j)) = some (pteFrame w) := by
    rw [hw1, ← hw, htarget, hw]
  rcases hop.inv.sysPageMap_checked hlive1 (envid2env_zero s1 cur true) (envid2env_zero s1 cur true)
      hvas hlow hlow (by rw [hslot]; exact htarget1) (badPerm_dupPerm w)
      (by rw [hslot, hw1]; exact hgrant)
      (by rw [hslot]; exact hdrop s1 hop.inv hop.envs hpte1) with
    ⟨hfull, _⟩ | ⟨s2, hcall2, hop2, hsh2, hpde2⟩
  · have hs1 : Spare s1 1 := by
      rcases hspare with hs | ⟨hs, htc⟩
      · exact hspare1 1 hs
      · exact htable1 htc 1 hs
    exact absurd hfull hs1.ne_none
  have hrun2 : orPanic (· < 0) (sysPageMap s1 cur 0#32 (pgaddr i j) 0#32 (pgaddr i j) (dupPerm w)) =
      some s2 := by
    simp [hcall2, orPanic]
  have hpcur : target s1 (.pde cur i) ≠ none := pde_of_pteOf (j := j) (by rw [htarget1]; simp)
  have hspare2 : ∀ n, Spare s1 n → Spare s2 n := fun n hs =>
    spare_sysPageMap_table hop.inv hlow (envid2env_zero s1 cur true) (by rw [hpdeEq]; exact hpcur)
      hs hcall2
  refine ⟨s2, ?_, hop2.inv, hop2.envs.trans hop.envs, ?_, fun n hs => hspare2 n (hspare1 n hs),
    fun htc n hs => hspare2 n (htable1 htc n hs), ?_⟩
  · simp only [duppage, hd, ofNat_pgnum, uvptEntry_eq h hd ht, hw, Option.bind_eq_bind,
      Option.bind_some, hrun1, ne_eq, hcow, not_false_eq_true, if_true, hrun2]
  · rw [hsh2.pte, hslot, hpte1, keptPte_eq_dupPte hp hcow, hdup]
  · rw [hpde2 c i (Ne.symm hne)]
    exact hchild1

end

/-! ## The loop -/

theorem uxstack_lt : uxstack < utop := by decide

/-- The page of the exception stack of `e`. -/
def uxSlot (e : EnvIx) : Slot := slotOf e uxstack uxstack_lt

/-- How many pages of `e` are in frame `p`. -/
def mapCount (s : Kernel) (e : EnvIx) (p : Nat) : Nat :=
  refCount (fun ij : Fin pdxUtop × Fin nptentries => entryTarget (pteOf s (e, ij.1, ij.2))) p

/-- The state in which the loop of `fork` starts: the child `c` is new and empty. -/
structure Forking (R : Nat → Prop) (s0 : Kernel) (cur c : EnvIx) (envid : BitVec 32) : Prop where
  inv : Inv R s0
  live : (s0.envs cur).envStatus ≠ .free
  child : envid2env s0 cur envid true = some c
  ne : cur ≠ c
  empty : ∀ i j, pteOf s0 (c, i, j) = 0#32
  refs : ∀ i j p, (cur, i, j) ≠ uxSlot cur → entryTarget (pteOf s0 (cur, i, j)) = some p →
    refCount (target s0) p + mapCount s0 cur p < 2 ^ 16

/-- A page of `c` at the exception stack that nobody else has. -/
structure OwnStack (s : Kernel) (c : EnvIx) (pg : Nat) : Prop where
  target_eq : entryTarget (pteOf s (uxSlot c)) = some pg
  perm : pteOf s (uxSlot c) &&& pteSyscall = pteP ||| pteU ||| pteW
  own : ∀ k ≠ uxSlot c, entryTarget (pteOf s k) ≠ some pg

/-- The state when the first `n` pages have been copied. -/
structure Copied (R : Nat → Prop) (s0 : Kernel) (cur c : EnvIx) (n : Nat) (s : Kernel) : Prop where
  inv : Inv R s
  envs : s.envs = s0.envs
  parent : ∀ i j, (cur, i, j) ≠ uxSlot cur → pteOf s (cur, i, j) =
    if 1024 * i.val + j.val < n then keptPte (pteOf s0 (cur, i, j)) else pteOf s0 (cur, i, j)
  parent_stack : pteOf s (uxSlot cur) = pteOf s0 (uxSlot cur)
  child : ∀ i j, (c, i, j) ≠ uxSlot c → pteOf s (c, i, j) =
    if 1024 * i.val + j.val < n then dupPte (pteOf s0 (cur, i, j)) else 0#32
  others : ∀ k : Slot, k.1 ≠ cur → k.1 ≠ c → pteOf s k = pteOf s0 k
  stack_before : n < userPages → pteOf s (uxSlot c) = 0#32
  stack_after : userPages ≤ n → ∃ pg, OwnStack s c pg

section

variable {R : Nat → Prop} {s s' s0 : Kernel} {cur c e : EnvIx} {i : Fin pdxUtop} {j : Fin nptentries}
  {envid w : BitVec 32} {n p : Nat}

theorem pgaddr_eq_uxstack : pgaddr i j = uxstack ↔ (e, i, j) = uxSlot e := by
  constructor
  · intro heq
    rw [← slotOf_pgaddr, uxSlot]
    congr
  · intro heq
    rw [uxSlot, slotOf, Prod.mk.injEq, Prod.mk.injEq] at heq
    rw [heq.2.1, heq.2.2]
    exact (eq_pgaddr (by decide)).symm

theorem uxSlot_last (h : (e, i, j) = uxSlot e) : 1024 * i.val + j.val + 1 = userPages := by
  rw [uxSlot, slotOf, Prod.mk.injEq, Prod.mk.injEq] at h
  rw [h.2.1, h.2.2]
  decide

/-- Only the last page is that of the exception stack. -/
theorem uxSlot_of_last (h : 1024 * i.val + j.val + 1 = userPages) : (e, i, j) = uxSlot e := by
  have hi := i.isLt
  have hj := j.isLt
  simp only [pdxUtop, nptentries] at hi hj
  rw [show userPages = 1024 * 954 + 1023 + 1 by decide] at h
  have hpdx : pdx uxstack = 954 := by decide
  have hptx : ptx uxstack = 1023 := by decide
  rw [uxSlot, slotOf, Prod.mk.injEq, Prod.mk.injEq]
  refine ⟨rfl, Fin.ext ?_, Fin.ext ?_⟩
  · exact (show i.val = 954 by omega).trans hpdx.symm
  · exact (show j.val = 1023 by omega).trans hptx.symm

theorem envid2env_congr {b : Bool} (henvs : s'.envs = s.envs) :
    envid2env s' cur envid b = envid2env s cur envid b := by
  simp only [envid2env, henvs]

/-- A frame of the parent gets at most one more reference for each page it is at. -/
theorem refCount_shared (h : Inv R s) (hne : cur ≠ c)
    (hother : ∀ k : Slot, k.1 ≠ c → entryTarget (pteOf s k) = entryTarget (pteOf s0 k))
    (hchild : ∀ i j, entryTarget (pteOf s (c, i, j)) = some p →
      entryTarget (pteOf s0 (cur, i, j)) = some p)
    (hmap : entryTarget (pteOf s0 (cur, i, j)) = some p) :
    refCount (target s) p ≤ refCount (target s0) p + mapCount s0 cur p := by
  have hnot : NoTable s p := h.pages.noTable_of_mapped ⟨(cur, i, j), by rw [hother _ hne, hmap]⟩
  refine refCount_le_add (fun ij => Place.pte c ij.1 ij.2) fun k hk => ?_
  cases k with
  | pgdir e => exact absurd hk (hnot (.pgdir e) rfl)
  | pde e i => exact absurd hk (hnot (.pde e i) rfl)
  | pte e i j =>
      have hpte : entryTarget (pteOf s (e, i, j)) = some p := by
        rw [← target_placeOf]
        exact hk
      by_cases hec : e = c
      · subst hec
        exact Or.inr ⟨(i, j), rfl, hchild i j hpte⟩
      · have h0 := hother (e, i, j) hec
        rw [hpte, ← target_placeOf] at h0
        exact Or.inl h0.symm

/-! ### The state of the loop -/

theorem Copied.target_other (h : Copied R s0 cur c n s) (k : Slot) (hk : k.1 ≠ c) :
    entryTarget (pteOf s k) = entryTarget (pteOf s0 k) := by
  obtain ⟨e, i, j⟩ := k
  by_cases he : e = cur
  · subst he
    by_cases hux : (e, i, j) = uxSlot e
    · rw [hux, h.parent_stack]
    · rw [h.parent i j hux]
      split
      · exact entryTarget_keptPte _
      · rfl
  · rw [h.others (e, i, j) he hk]

theorem Copied.target_child (h : Copied R s0 cur c n s) (hn : n < userPages)
    (hp : entryTarget (pteOf s (c, i, j)) = some p) :
    entryTarget (pteOf s0 (cur, i, j)) = some p := by
  by_cases hux : (c, i, j) = uxSlot c
  · rw [hux, h.stack_before hn] at hp
    cases hp
  · rw [h.child i j hux] at hp
    split at hp
    · rwa [entryTarget_dupPte] at hp
    · cases hp

theorem page_lt_succ {i' : Fin pdxUtop} {j' : Fin nptentries} (hn : n = 1024 * i.val + j.val) :
    1024 * i'.val + j'.val < n + 1 ↔ 1024 * i'.val + j'.val < n ∨ (i', j') = (i, j) := by
  have hj : j.val < 1024 := j.isLt
  have hj' : j'.val < 1024 := j'.isLt
  rw [Prod.mk.injEq, Fin.ext_iff, Fin.ext_iff]
  omega

theorem uxSlot_congr (h : (e, i, j) = uxSlot e) (e' : EnvIx) : (e', i, j) = uxSlot e' :=
  pgaddr_eq_uxstack.mp (pgaddr_eq_uxstack.mpr h)

/-- The next page has been copied. -/
theorem Copied.next (h : Copied R s0 cur c n s) (hn : n = 1024 * i.val + j.val) (hne : cur ≠ c)
    (hux : (cur, i, j) ≠ uxSlot cur) (hinv : Inv R s') (henvs : s'.envs = s.envs)
    (hpte : pteOf s' = Function.update (Function.update (pteOf s) (c, i, j)
      (dupPte (pteOf s0 (cur, i, j)))) (cur, i, j) (keptPte (pteOf s0 (cur, i, j)))) :
    Copied R s0 cur c (n + 1) s' := by
  have huxc : (c, i, j) ≠ uxSlot c := fun heq => hux (uxSlot_congr heq cur)
  have hlast : n + 1 < userPages := by
    have hi := i.isLt
    have hj := j.isLt
    have hnot : 1024 * i.val + j.val + 1 ≠ userPages := fun heq => hux (uxSlot_of_last heq)
    have hall : userPages = 1024 * 955 := by decide
    simp only [pdxUtop, nptentries] at hi hj
    omega
  refine ⟨hinv, henvs.trans h.envs, fun i' j' hux' => ?_, ?_, fun i' j' hux' => ?_,
    fun k hk hk' => ?_, fun _ => ?_, fun hle => by omega⟩
  · rw [hpte]
    by_cases heq : (i', j') = (i, j)
    · cases heq
      rw [Function.update_self, if_pos ((page_lt_succ hn).mpr (Or.inr rfl))]
    · have hkne : ((cur, i', j') : Slot) ≠ (cur, i, j) := fun hk => heq (Prod.mk.inj hk).2
      rw [Function.update_of_ne hkne, Function.update_of_ne (by simp [hne]), h.parent i' j' hux']
      simp only [page_lt_succ hn, heq, or_false]
  · rw [hpte, Function.update_of_ne (Ne.symm hux), Function.update_of_ne, h.parent_stack]
    intro heq
    have := congrArg Prod.fst heq
    exact hne this
  · rw [hpte, Function.update_of_ne (by simp [Ne.symm hne])]
    by_cases heq : (i', j') = (i, j)
    · cases heq
      rw [Function.update_self, if_pos ((page_lt_succ hn).mpr (Or.inr rfl))]
    · have hkne : ((c, i', j') : Slot) ≠ (c, i, j) := fun hk => heq (Prod.mk.inj hk).2
      rw [Function.update_of_ne hkne, h.child i' j' hux']
      simp only [page_lt_succ hn, heq, or_false]
  · rw [hpte, Function.update_of_ne, Function.update_of_ne, h.others k hk hk']
    · rintro rfl
      exact hk' rfl
    · rintro rfl
      exact hk rfl
  · rw [hpte, Function.update_of_ne, Function.update_of_ne (Ne.symm huxc),
      h.stack_before (by omega)]
    intro heq
    have := congrArg Prod.fst heq
    exact hne this.symm

/-- The exception stack of the child has been made. -/
theorem Copied.stack {pg : Nat} (h : Copied R s0 cur c n s) (hn : n + 1 = userPages) (hne : cur ≠ c)
    (hop : PageOp R s s')
    (hal : PageAllocated s (uxSlot c) (pteP ||| pteU ||| pteW) pg s') :
    Copied R s0 cur c (n + 1) s' := by
  have hsame : ∀ k ≠ uxSlot c, pteOf s' k = pteOf s k := by
    intro k hk
    rw [hal.pte, Function.update_of_ne hk]
  have hlt : ∀ {e : EnvIx} {i : Fin pdxUtop} {j : Fin nptentries}, (e, i, j) ≠ uxSlot e →
      (1024 * i.val + j.val < n + 1 ↔ 1024 * i.val + j.val < n) := by
    intro e i j hux
    have hnot : 1024 * i.val + j.val + 1 ≠ userPages := fun heq => hux (uxSlot_of_last heq)
    omega
  have hother : ∀ k : Slot, k.1 ≠ c → k ≠ uxSlot c := by
    rintro k hk rfl
    exact hk rfl
  refine ⟨hop.inv, hop.envs.trans h.envs, fun i j hux => ?_, ?_, fun i j hux => ?_,
    fun k hk hk' => ?_, fun hlt => by omega, fun _ => ⟨pg, ?_, ?_, fun k hk hkp => ?_⟩⟩
  · rw [hsame _ (hother (cur, i, j) hne), h.parent i j hux]
    simp only [hlt hux]
  · rw [hsame _ (hother (uxSlot cur) hne), h.parent_stack]
  · rw [hsame _ hux, h.child i j hux]
    simp only [hlt hux]
  · rw [hsame _ (hother k hk'), h.others k hk hk']
  · rw [hal.pte, Function.update_self, hal.target_eq]
  · rw [hal.pte, Function.update_self, BitVec.or_assoc, entry_and (by decide)]
    decide
  · rw [hsame k hk] at hkp
    exact hal.fresh ⟨k, hkp⟩

/-! ### The rounds -/

/-- The page can be given to the child. -/
def PageFine (s0 : Kernel) (cur : EnvIx) (i : Fin pdxUtop) (j : Fin nptentries) : Prop :=
  (cur, i, j) ≠ uxSlot cur → isPresent (pteOf s0 (cur, i, j)) = true → DupOk (pteOf s0 (cur, i, j))

/-- Pages for the page tables of the child from `i` on and for its exception stack. -/
def RowSpare (c : EnvIx) (i : Fin pdxUtop) (s : Kernel) : Prop :=
  Spare s (956 - i.val) ∨ Spare s (955 - i.val) ∧ target s (.pde c i) ≠ none

theorem RowSpare.two (h : RowSpare c i s) : Spare s 2 ∨ Spare s 1 ∧ target s (.pde c i) ≠ none := by
  have hi := i.isLt
  simp only [pdxUtop] at hi
  rcases h with h | ⟨h, ht⟩
  · exact Or.inl (h.mono (by omega))
  · exact Or.inr ⟨h.mono (by omega), ht⟩

theorem Duplicated.rowSpare (h : Duplicated R s cur c i j w s') (hrow : RowSpare c i s) :
    RowSpare c i s' := by
  have hi := i.isLt
  simp only [pdxUtop] at hi
  rcases hrow with hs | ⟨hs, ht⟩
  · refine Or.inr ⟨h.spare _ (hs.mono (by omega)), h.table⟩
  · exact Or.inr ⟨h.spare_table ht _ hs, h.table⟩

/-- The counts of references do not wrap around. -/
theorem Copied.dropOk {s1 : Kernel} (hf : Forking R s0 cur c envid) (h : Copied R s0 cur c n s)
    (hn : n < userPages) (hux : (cur, i, j) ≠ uxSlot cur)
    (hw : isPresent (pteOf s0 (cur, i, j)) = true) (h1 : Inv R s1)
    (hpte : pteOf s1 = Function.update (pteOf s) (c, i, j) (dupPte (pteOf s0 (cur, i, j)))) :
    DropOk s1 (placeOf (cur, i, j)) := by
  have hother : ∀ k : Slot, k.1 ≠ c → entryTarget (pteOf s1 k) = entryTarget (pteOf s0 k) := by
    intro k hk
    rw [hpte, Function.update_of_ne, h.target_other k hk]
    rintro rfl
    exact hk rfl
  have hmap : entryTarget (pteOf s0 (cur, i, j)) = some (pteFrame (pteOf s0 (cur, i, j))) := by
    rw [entryTarget, if_pos hw]
  intro q hq
  rw [target_placeOf, hother _ hf.ne, hmap] at hq
  cases hq
  refine Nat.lt_of_le_of_lt (refCount_shared h1 hf.ne hother ?_ hmap)
    (hf.refs i j _ hux hmap)
  intro i' j' hp
  rw [hpte] at hp
  by_cases heq : ((c, i', j') : Slot) = (c, i, j)
  · cases heq
    rwa [Function.update_self, entryTarget_dupPte] at hp
  · rw [Function.update_of_ne heq] at hp
    exact h.target_child hn hp

/-- A page that is not the exception stack. -/
theorem forkPage_copy (hf : Forking R s0 cur c envid) (h : Copied R s0 cur c n s)
    (hn : n = 1024 * i.val + j.val) (hux : (cur, i, j) ≠ uxSlot cur) (hrow : RowSpare c i s)
    (ht : target s (.pde cur i) ≠ none) :
    (forkPage cur envid i s j = none ∧ ¬ PageFine s0 cur i j) ∨
      ∃ s', forkPage cur envid i s j = some s' ∧ Copied R s0 cur c (n + 1) s' ∧
        RowSpare c i s' ∧ target s' (.pde cur i) ≠ none ∧ PageFine s0 cur i j := by
  have hlt : n < userPages := by
    have hi := i.isLt
    have hj := j.isLt
    have hall : userPages = 1024 * 955 := by decide
    simp only [pdxUtop, nptentries] at hi hj
    omega
  have huxc : (c, i, j) ≠ uxSlot c := fun heq => hux (uxSlot_congr heq cur)
  have hlive : (s.envs cur).envStatus ≠ .free := by
    rw [h.envs]
    exact hf.live
  have hchild : envid2env s cur envid true = some c := by
    rw [envid2env_congr h.envs]
    exact hf.child
  obtain ⟨d, hd⟩ := h.inv.envs.exists_pgdir hlive
  have hw : pteOf s (cur, i, j) = pteOf s0 (cur, i, j) := by
    rw [h.parent i j hux, if_neg (by omega)]
  have hzero : pteOf s (c, i, j) = 0#32 := by
    rw [h.child i j huxc, if_neg (by omega)]
  have hpage : forkPage cur envid i s j =
      if pteOf s0 (cur, i, j) &&& pteP = 0#32 then some s
      else duppage cur envid s (pgnum (pgaddr i j)) := by
    rw [forkPage, if_neg (fun heq => hux (pgaddr_eq_uxstack.mp heq)), hd, Option.bind_eq_bind,
      Option.bind_some, uvptEntry_eq h.inv hd ht, hw]
  by_cases hp : isPresent (pteOf s0 (cur, i, j)) = true
  · have hpP : pteOf s0 (cur, i, j) &&& pteP ≠ 0#32 := by simpa [isPresent] using hp
    rw [hpage, if_neg hpP]
    by_cases hok : DupOk (pteOf s0 (cur, i, j))
    · obtain ⟨s', hrun, hdup⟩ := duppage_ok h.inv hlive hchild hf.ne hw hp hzero hok hrow.two
        fun s1 h1 _ hpte => h.dropOk hf hlt hux hp h1 hpte
      refine Or.inr ⟨s', hrun, h.next hn hf.ne hux hdup.inv hdup.envs hdup.pte, hdup.rowSpare hrow,
        pde_of_pteOf (j := j) ?_, fun _ _ => hok⟩
      rw [hdup.pte, Function.update_self, entryTarget_keptPte, entryTarget, if_pos hp]
      simp
    · exact Or.inl ⟨duppage_refused h.inv hlive hchild hw hp hok, fun hfine => hok (hfine hux hp)⟩
  · have hpf : isPresent (pteOf s0 (cur, i, j)) = false := by simpa using hp
    have hpP : pteOf s0 (cur, i, j) &&& pteP = 0#32 := by simpa [isPresent] using hpf
    rw [hpage, if_pos hpP]
    refine Or.inr ⟨s, rfl, h.next hn hf.ne hux h.inv rfl ?_, hrow, ht, fun _ hp' => absurd hp' hp⟩
    rw [dupPte_of_not hpf, keptPte_of_not hpf, ← hzero, Function.update_eq_self, ← hw,
      Function.update_eq_self]

/-- The page of the exception stack. -/
theorem forkPage_stack (hf : Forking R s0 cur c envid) (h : Copied R s0 cur c n s)
    (hn : n = 1024 * i.val + j.val) (hux : (cur, i, j) = uxSlot cur) (hrow : RowSpare c i s) :
    ∃ s', forkPage cur envid i s j = some s' ∧ Copied R s0 cur c (n + 1) s' := by
  have hlast := uxSlot_last hux
  have huxc := uxSlot_congr hux c
  have haddr : pgaddr i j = uxstack := pgaddr_eq_uxstack.mpr hux
  have hlive : (s.envs cur).envStatus ≠ .free := by
    rw [h.envs]
    exact hf.live
  have hchild : envid2env s cur envid true = some c := by
    rw [envid2env_congr h.envs]
    exact hf.child
  have hdrop : DropOk s (placeOf (slotOf c uxstack uxstack_lt)) := by
    intro q hq
    rw [target_placeOf, show slotOf c uxstack uxstack_lt = uxSlot c from rfl,
      h.stack_before (by omega)] at hq
    cases hq
  have htab : (⟨pdx uxstack, pdx_lt_of_lt_utop uxstack_lt⟩ : Fin pdxUtop) = i := by
    have := congrArg (fun k : Slot => k.2.1) huxc
    exact this.symm
  obtain ⟨s', pg, hrun, hop, hal⟩ := sysPageAlloc_ok h.inv hlive hchild (by decide) uxstack_lt
    (by decide : badPerm (pteP ||| pteU ||| pteW) = false) hdrop (by rw [htab]; exact hrow.two)
  refine ⟨s', ?_, h.stack (by omega) hf.ne hop hal⟩
  rw [forkPage, if_pos haddr, haddr, hrun]
  rfl

/-! ### The nested loops -/

theorem pdx_page {pn : Nat} (hpn : pn < userPages) : pdx (BitVec.ofNat 32 (4096 * pn)) = pn / 1024 := by
  have hall : userPages = 1024 * 955 := by decide
  rw [pdx_eq, BitVec.toNat_ofNat, Nat.mod_eq_of_lt (by omega)]
  omega

/-- Pages with the same directory index are passed over. -/
theorem forkLoop_skip {l l' : List Nat} {d : Nat}
    (hl : ∀ pn ∈ l, pdx (BitVec.ofNat 32 (4096 * pn)) = d) :
    forkLoop cur envid (l ++ l') d false s = forkLoop cur envid l' d false s := by
  induction l with
  | nil => rfl
  | cons pn l ih =>
      rw [List.cons_append, forkLoop, if_pos ⟨hl pn List.mem_cons_self, rfl⟩]
      exact ih fun pn' hpn' => hl pn' (List.mem_cons_of_mem _ hpn')

/-- The outer loop comes to every directory index once. -/
theorem forkLoop_eq {m i ant : Nat} {first : Bool} (hm : i + m ≤ 955)
    (hfirst : ¬ (i = ant ∧ first = false)) :
    forkLoop cur envid (List.range' (1024 * i) (1024 * m)) ant first s =
      (List.range' i m).foldlM (forkTable cur envid) s := by
  have hall : userPages = 1024 * 955 := by decide
  induction m generalizing i ant first s with
  | zero => rfl
  | succ m ih =>
      have hsplit : List.range' (1024 * i) (1024 * (m + 1)) =
          1024 * i :: (List.range' (1024 * i + 1) 1023 ++ List.range' (1024 * (i + 1)) (1024 * m)) := by
        rw [show 1024 * (m + 1) = 1023 + 1024 * m + 1 by omega, List.range'_succ,
          show 1024 * (i + 1) = 1024 * i + 1 + 1023 by omega, List.range'_append_1]
      have hpdx : pdx (BitVec.ofNat 32 (4096 * (1024 * i))) = i := by
        rw [pdx_page (by omega)]
        omega
      have hcons : List.range' i (m + 1) = i :: List.range' (i + 1) m := List.range'_succ
      rw [hsplit, forkLoop, hpdx, if_neg hfirst, hcons, List.foldlM_cons]
      refine congrArg _ (funext fun s1 => ?_)
      rw [forkLoop_skip, ih (by omega) (by simp)]
      intro pn hpn
      rw [List.mem_range'_1] at hpn
      rw [pdx_page (by omega)]
      omega

/-- Pages that are not there need not be copied. -/
theorem Copied.skip {m : Nat} (h : Copied R s0 cur c (1024 * i.val) s) (hne : cur ≠ c)
    (hnot : ∀ j, isPresent (pteOf s0 (cur, i, j)) = false)
    (hux : ∀ j, (cur, i, j) ≠ uxSlot cur) (hm : m ≤ 1024) :
    Copied R s0 cur c (1024 * i.val + m) s := by
  induction m with
  | zero => exact h
  | succ m ih =>
      have hm' : m < nptentries := by
        rw [nptentries]
        omega
      have h' := ih (by omega)
      have hcop := h'.next (j := ⟨m, hm'⟩) rfl hne (hux _) h'.inv rfl ?_
      · exact hcop
      · have hw : pteOf s (cur, i, ⟨m, hm'⟩) = pteOf s0 (cur, i, ⟨m, hm'⟩) := by
          rw [h'.parent i ⟨m, hm'⟩ (hux _), if_neg (Nat.lt_irrefl _)]
        have huxc : (c, i, (⟨m, hm'⟩ : Fin nptentries)) ≠ uxSlot c := fun heq =>
          hux _ (uxSlot_congr heq cur)
        have hzero : pteOf s (c, i, ⟨m, hm'⟩) = 0#32 := by
          rw [h'.child i ⟨m, hm'⟩ huxc, if_neg (Nat.lt_irrefl _)]
        rw [dupPte_of_not (hnot _), keptPte_of_not (hnot _), ← hzero, Function.update_eq_self, ← hw,
          Function.update_eq_self]

/-- The parent maps some page beside the exception stack, or the exception stack itself. -/
def TopMapped (s0 : Kernel) (cur : EnvIx) : Prop :=
  ∃ j, entryTarget (pteOf s0 (cur, (uxSlot cur).2.1, j)) ≠ none

/-- One round of the outer loop. -/
theorem forkTable_cases (hf : Forking R s0 cur c envid) (htop : TopMapped s0 cur)
    (h : Copied R s0 cur c (1024 * i.val) s) (hspare : Spare s (956 - i.val)) :
    (forkTable cur envid s i = none ∧ ¬ ∀ j, PageFine s0 cur i j) ∨
      ∃ s', forkTable cur envid s i = some s' ∧
        (Copied R s0 cur c (1024 * (i.val + 1)) s' ∧
          (i.val + 1 < 955 → Spare s' (956 - (i.val + 1)))) ∧ ∀ j, PageFine s0 cur i j := by
  have hlive : (s.envs cur).envStatus ≠ .free := by
    rw [h.envs]
    exact hf.live
  have hi := i.isLt
  simp only [pdxUtop] at hi
  have hall : userPages = 1024 * 955 := by decide
  obtain ⟨d, hd⟩ := h.inv.envs.exists_pgdir hlive
  have htable : forkTable cur envid s i =
      if target s (.pde cur i) = none then some s
      else (List.range nptentries).foldlM (forkPage cur envid i) s := by
    simp only [forkTable, hd, Option.bind_eq_bind, Option.bind_some, uvpdEntry_iff hd]
  rw [htable]
  by_cases ht : target s (.pde cur i) = none
  · have hnot : ∀ j, isPresent (pteOf s0 (cur, i, j)) = false := by
      intro j
      have h0 := h.target_other (cur, i, j) hf.ne
      rw [pteOf_of_none ht] at h0
      by_contra hp
      have hp : isPresent (pteOf s0 (cur, i, j)) = true := by simpa using hp
      have hsome : entryTarget (pteOf s0 (cur, i, j)) ≠ none := by
        rw [entryTarget, if_pos hp]
        simp
      exact hsome h0.symm
    have hux : ∀ j, (cur, i, j) ≠ uxSlot cur := by
      intro j hux
      obtain ⟨j', hj'⟩ := htop
      rw [← hux, entryTarget, if_neg (by simp [hnot j'])] at hj'
      exact hj' rfl
    rw [if_pos ht]
    have hcop := h.skip hf.ne hnot hux (Nat.le_refl 1024)
    refine Or.inr ⟨s, rfl, ⟨by rw [Nat.mul_add]; exact hcop, fun _ => hspare.mono (by omega)⟩,
      fun j _ hp => ?_⟩
    rw [hnot j] at hp
    cases hp
  · rw [if_neg ht]
    have hloop := foldlM_range_cases (f := forkPage cur envid i)
      (P := fun m s => Copied R s0 cur c (1024 * i.val + m) s ∧ (1024 * i.val + m < userPages →
        RowSpare c i s ∧ target s (.pde cur i) ≠ none))
      (Q := fun m => ∀ hm : m < nptentries, PageFine s0 cur i ⟨m, hm⟩) (n := nptentries) (s := s)
      ⟨h, fun _ => ⟨Or.inl hspare, ht⟩⟩ ?_
    · rcases hloop with ⟨hnone, m, hm, hQ⟩ | ⟨s', hsome, hP, hQ⟩
      · exact Or.inl ⟨hnone, fun hfine => hQ fun hm => hfine ⟨m, hm⟩⟩
      · refine Or.inr ⟨s', hsome, ⟨by rw [Nat.mul_add]; exact hP.1, fun hlt => ?_⟩,
          fun j => hQ j.val j.isLt j.isLt⟩
        have hrow := (hP.2 (by simp only [nptentries]; omega)).1
        rcases hrow with hs | ⟨hs, _⟩
        · exact hs.mono (by omega)
        · exact hs.mono (by omega)
    · intro m hm s1 hP
      have hm' : m < 1024 := hm
      obtain ⟨hrow, ht1⟩ := hP.2 (by omega)
      by_cases hux : (cur, i, (⟨m, hm⟩ : Fin nptentries)) = uxSlot cur
      · obtain ⟨s', hrun, hcop⟩ := forkPage_stack hf hP.1 rfl hux hrow
        have hlast : 1024 * i.val + m + 1 = userPages := uxSlot_last hux
        exact Or.inr ⟨s', hrun, ⟨hcop, fun hlt => by omega⟩, fun _ hne => absurd hux hne⟩
      · rcases forkPage_copy hf hP.1 rfl hux hrow ht1 with ⟨hnone, hnf⟩ | ⟨s', hrun, hcop, hrow', ht', hfine⟩
        · exact Or.inl ⟨hnone, fun hQ => hnf (hQ hm)⟩
        · exact Or.inr ⟨s', hrun, ⟨hcop, fun _ => ⟨hrow', ht'⟩⟩, fun _ => hfine⟩

/-- The loop of `fork` copies the address space, or stops at a page that cannot be given. -/
theorem forkLoop_cases (hf : Forking R s0 cur c envid) (htop : TopMapped s0 cur)
    (hspare : Spare s0 956) :
    (forkLoop cur envid (List.range userPages) 0 true s0 = none ∧
        ¬ ∀ i j, PageFine s0 cur i j) ∨
      ∃ s', forkLoop cur envid (List.range userPages) 0 true s0 = some s' ∧
        Copied R s0 cur c userPages s' ∧ ∀ i j, PageFine s0 cur i j := by
  have hall : userPages = 1024 * 955 := by decide
  have hstart : Copied R s0 cur c (1024 * 0) s0 := by
    refine ⟨hf.inv, rfl, fun i j _ => ?_, rfl, fun i j _ => ?_, fun _ _ _ => rfl, fun _ => ?_,
      fun hle => ?_⟩
    · rw [if_neg (by omega)]
    · rw [if_neg (by omega), hf.empty]
    · exact hf.empty _ _
    · rw [hall] at hle
      omega
  have heq : forkLoop cur envid (List.range userPages) 0 true s0 =
      (List.range pdxUtop).foldlM (forkTable cur envid) s0 := by
    have hrows : forkLoop cur envid (List.range' (1024 * 0) (1024 * 955)) 0 true s0 =
        (List.range' 0 955).foldlM (forkTable cur envid) s0 := forkLoop_eq (by omega) (by simp)
    rw [List.range_eq_range', List.range_eq_range', hall]
    exact hrows
  rw [heq]
  have hloop := foldlM_range_cases (f := forkTable cur envid)
    (P := fun i s => Copied R s0 cur c (1024 * i) s ∧ (i < 955 → Spare s (956 - i)))
    (Q := fun i => ∀ (hi : i < pdxUtop) j, PageFine s0 cur ⟨i, hi⟩ j) (n := pdxUtop) (s := s0)
    ⟨hstart, fun _ => hspare⟩ ?_
  · rcases hloop with ⟨hnone, i, hi, hQ⟩ | ⟨s', hsome, hP, hQ⟩
    · exact Or.inl ⟨hnone, fun hfine => hQ fun hi j => hfine ⟨i, hi⟩ j⟩
    · refine Or.inr ⟨s', hsome, ?_, fun i j => hQ i.val i.isLt i.isLt j⟩
      rw [hall]
      exact hP.1
  · intro i hi s1 hP
    have hi' : i < 955 := hi
    rcases forkTable_cases (i := ⟨i, hi⟩) hf htop hP.1 (hP.2 hi') with ⟨hnone, hnf⟩ | ⟨s', hrun, hP', hfine⟩
    · exact Or.inl ⟨hnone, fun hQ => hnf fun j => hQ hi j⟩
    · exact Or.inr ⟨s', hrun, hP', fun _ j => hfine j⟩

/-! ## The whole of fork -/

/-- What `set_pgfault_handler` leaves: at most the exception stack is new. -/
structure HandlerSet (R : Nat → Prop) (s : Kernel) (cur : EnvIx) (s1 : Kernel) : Prop where
  inv : Inv R s1
  envFree : s1.envFreeList = s.envFreeList
  status : (s1.envs cur).envStatus = (s.envs cur).envStatus
  id : (s1.envs cur).envId = (s.envs cur).envId
  pte : ∀ k ≠ uxSlot cur, pteOf s1 k = pteOf s k
  stack : ∀ p, entryTarget (pteOf s1 (uxSlot cur)) = some p →
    entryTarget (pteOf s (uxSlot cur)) = some p ∨ ¬ Mapped s p
  top : TopMapped s1 cur
  spare : ∀ n, Spare s (n + 2) → Spare s1 n

theorem setPgfaultHandler_ok (installed : Bool) (upcall : BitVec 32) (h : Inv R s)
    (hlive : (s.envs cur).envStatus ≠ .free) (hid : envx (s.envs cur).envId = cur)
    (hdrop : DropOk s (placeOf (uxSlot cur))) (htop : installed = true → TopMapped s cur)
    (hs : Spare s 2) :
    ∃ s1, setPgfaultHandler installed upcall s cur = some s1 ∧ HandlerSet R s cur s1 := by
  cases installed with
  | true =>
      exact ⟨s, rfl, h, rfl, rfl, rfl, fun _ _ => rfl, fun p hp => Or.inl hp, htop rfl,
        fun n hs => hs.mono (by omega)⟩
  | false =>
      have hself : envid2env s cur (s.envs cur).envId true = some cur := by
        rw [envid2env]
        split
        · rfl
        · simp [hid, hlive]
      obtain ⟨s1, pg, hrun, hop, hal⟩ := sysPageAlloc_ok h hlive hself (by decide) uxstack_lt
        (by decide : badPerm (pteP ||| pteW ||| pteU) = false) hdrop (Or.inl hs)
      have hself1 : envid2env s1 cur (s1.envs cur).envId true = some cur := by
        rw [hop.envs, envid2env_congr hop.envs]
        exact hself
      have hset : setPgfaultHandler false upcall s cur =
          some (s1.setEnv cur fun env => { env with envPgfaultUpcall := upcall }) := by
        simp [setPgfaultHandler, orPanic, hrun, sysEnvSetPgfaultUpcall, hself1]
      have hpte : pteOf (s1.setEnv cur fun env => { env with envPgfaultUpcall := upcall }) =
          pteOf s1 := (target_setEnv rfl).2
      refine ⟨_, hset, hop.inv.setEnv rfl rfl Iff.rfl (hop.inv.envs.dstva_ok cur), hop.envFree,
        ?_, ?_, fun k hk => ?_, fun p hp => ?_, ⟨(uxSlot cur).2.2, ?_⟩, fun n hs => ?_⟩
      · rw [setEnv_self, hop.envs]
      · rw [setEnv_self, hop.envs]
      · rw [hpte, hal.pte]
        exact Function.update_of_ne hk _ _
      · rw [hpte, hal.pte, show slotOf cur uxstack uxstack_lt = uxSlot cur from rfl,
          Function.update_self, hal.target_eq] at hp
        cases hp
        exact Or.inr hal.fresh
      · rw [hpte, hal.pte, show (cur, (uxSlot cur).2.1, (uxSlot cur).2.2) =
          slotOf cur uxstack uxstack_lt from rfl, Function.update_self, hal.target_eq]
        simp
      · exact Spare.congr (spare_sysPageAlloc h hs hrun) rfl rfl

/-- The environment that `sys_exofork` makes is the child in the loop. -/
theorem sysExofork_ok (h : HandlerSet R s cur s') (hlive : (s.envs cur).envStatus ≠ .free)
    (henv : s.envFreeList ≠ none)
    (hrefs : ∀ p, refCount (target s) p + mapCount s cur p < 2 ^ 16) (hs : Spare s' 1) :
    ∃ s0 c, sysExofork s' cur = some (s0, .ret (s0.envs c).envId.toInt) ∧
      0 ≤ (s0.envs c).envId.toInt ∧ Forking R s0 cur c (s0.envs c).envId ∧ pteOf s0 = pteOf s' ∧
      (s0.envs cur).envId = (s.envs cur).envId ∧ ∀ n, Spare s' (n + 1) → Spare s0 n := by
  have hlive' : (s'.envs cur).envStatus ≠ .free := by
    rw [h.status]
    exact hlive
  obtain ⟨s1, c, hrun, hal⟩ := envAlloc_ok (s'.envs cur).envId h.inv
    (by rw [h.envFree]; exact henv) hs
  obtain ⟨p, henvs⟩ := hal.envs
  have hne : cur ≠ c := by
    rintro rfl
    exact hlive' hal.was_free
  have hcur1 : s1.envs cur = s'.envs cur := by
    rw [henvs]
    exact setEnv_of_ne _ _ hne
  have hc1 : s1.envs c = newEnv c p (s'.envs cur).envId (s'.envs c) := by
    rw [henvs]
    exact setEnv_self ..
  have hstat : (s1.envs c).envStatus ≠ .free := by
    rw [hc1]
    simp [newEnv]
  have hset : pteOf (s1.setEnv c (exoforkEnv (s1.envs cur))) = pteOf s1 := (target_setEnv rfl).2
  have hinv : Inv R (s1.setEnv c (exoforkEnv (s1.envs cur))) :=
    hal.inv.setEnv rfl rfl (iff_of_false (by simp [exoforkEnv]) hstat) (hal.inv.envs.dstva_ok c)
  have hcur : (s1.setEnv c (exoforkEnv (s1.envs cur))).envs cur = s'.envs cur := by
    rw [setEnv_of_ne _ _ hne, hcur1]
  have hid : ((s1.setEnv c (exoforkEnv (s1.envs cur))).envs c).envId =
      nextEnvId c (s'.envs c).envId := by
    rw [setEnv_self, hc1]
    rfl
  have hpos := nextEnvId_pos c (s'.envs c).envId
  have hpte : pteOf (s1.setEnv c (exoforkEnv (s1.envs cur))) = pteOf s' := hset.trans hal.pte
  refine ⟨s1.setEnv c (exoforkEnv (s1.envs cur)), c, ?_, ?_, ⟨hinv, ?_, ?_, hne, fun i j => ?_,
    fun i j q hux hq => ?_⟩, hpte, ?_, fun n hs => ?_⟩
  · simp [sysExofork, hrun]
  · rw [hid]
    omega
  · rw [hcur]
    exact hlive'
  · rw [hid, envid2env, if_neg, envx_nextEnvId]
    · simp only [hid, hcur]
      rw [if_neg (by simp [exoforkEnv]), if_neg]
      simp [exoforkEnv, hc1, newEnv]
    · intro hz
      rw [hz] at hpos
      exact absurd hpos (by decide)
  · rw [hpte]
    have hdir : (s'.envs c).envPgdir = none := (h.inv.envs.pgdir_iff c).mpr hal.was_free
    exact pteOf_of_none (by simp [target, hdir]) j
  · rw [hpte, h.pte _ hux] at hq
    -- A frame of the parent is neither the new exception stack nor a new table.
    have hslot : ∀ k, entryTarget (pteOf s' k) = some q → entryTarget (pteOf s k) = some q := by
      intro k hk
      by_cases hkux : k = uxSlot cur
      · subst hkux
        rcases h.stack q hk with hold | hnot
        · exact hold
        · exact absurd ⟨_, hq⟩ hnot
      · rwa [h.pte k hkux] at hk
    have hq0 : Mapped (s1.setEnv c (exoforkEnv (s1.envs cur))) q := by
      refine ⟨(cur, i, j), ?_⟩
      rw [hpte, h.pte _ hux]
      exact hq
    have hnot := hinv.pages.noTable_of_mapped hq0
    refine Nat.lt_of_le_of_lt (Nat.add_le_add (refCount_mono fun k hk => ?_)
      (refCount_mono fun ij hij => ?_)) (hrefs q)
    · cases k with
      | pgdir e => exact absurd hk (hnot (.pgdir e) rfl)
      | pde e i => exact absurd hk (hnot (.pde e i) rfl)
      | pte e i j =>
          rw [show (Place.pte e i j) = placeOf (e, i, j) from rfl, target_placeOf, hpte] at hk
          rw [show (Place.pte e i j) = placeOf (e, i, j) from rfl, target_placeOf]
          exact hslot _ hk
    · rw [hpte] at hij
      exact hslot _ hij
  · rw [hcur, h.id]
  · exact Spare.congr (spare_envAlloc hs hrun) rfl rfl

/-- The address space that the child `c` should get from `cur`, which keeps its own, the pages that
its stores change meanwhile aside. -/
structure Forked (s : Kernel) (cur : EnvIx) (s' : Kernel) (c : EnvIx) : Prop where
  child : c ≠ cur ∧ (s'.envs c).envStatus = .runnable ∧
    (s'.envs c).envParentId = (s.envs cur).envId
  page : ∀ i j, (cur, i, j) ≠ uxSlot cur →
    entryTarget (pteOf s' (c, i, j)) = entryTarget (pteOf s (cur, i, j))
  perms : ∀ i j, (cur, i, j) ≠ uxSlot cur → isPresent (pteOf s (cur, i, j)) = true →
    PermsCopied (pteOf s (cur, i, j)) (pteOf s' (c, i, j))
  kept : ∀ i j, (cur, i, j) ≠ uxSlot cur → pgaddr i j ∉ ownPages →
    entryTarget (pteOf s' (cur, i, j)) = entryTarget (pteOf s (cur, i, j)) ∧
      (isPresent (pteOf s (cur, i, j)) = true →
        PermsCopied (pteOf s (cur, i, j)) (pteOf s' (cur, i, j)))
  stack : ∃ pg, OwnStack s' c pg

theorem Forking.child_env (h : Forking R s0 cur c envid) (hpos : 0 < envid.toInt) :
    (s0.envs c).envId = envid ∧ (s0.envs c).envParentId = (s0.envs cur).envId ∧
      (s0.envs c).envStatus ≠ .free := by
  have hchild := h.child
  have hz : envid ≠ 0#32 := by
    rintro rfl
    exact absurd hpos (by decide)
  rw [envid2env, if_neg hz] at hchild
  simp only at hchild
  split at hchild
  · cases hchild
  rename_i hbad
  split at hchild
  · cases hchild
  rename_i hperm
  cases hchild
  simp only [not_or, not_not] at hbad
  refine ⟨hbad.2, ?_, hbad.1⟩
  by_contra hne
  exact hperm ⟨trivial, Ne.symm h.ne, hne⟩

/-- The address spaces after the loop. -/
theorem Copied.forked {s1 : Kernel} (h : Copied R s0 cur c userPages s1) (hne : cur ≠ c)
    (hpte0 : ∀ k ≠ uxSlot cur, pteOf s0 k = pteOf s k) (hpte : pteOf s' = pteOf s1)
    (hfine : ∀ i j, PageFine s0 cur i j)
    (hchild : (s'.envs c).envStatus = .runnable ∧ (s'.envs c).envParentId = (s.envs cur).envId) :
    Forked s cur s' c := by
  have hlt : ∀ (i : Fin pdxUtop) (j : Fin nptentries), 1024 * i.val + j.val < userPages := by
    intro i j
    have hi := i.isLt
    have hj := j.isLt
    have hall : userPages = 1024 * 955 := by decide
    simp only [pdxUtop, nptentries] at hi hj
    omega
  have hc : ∀ i j, (cur, i, j) ≠ uxSlot cur → pteOf s' (c, i, j) = dupPte (pteOf s (cur, i, j)) := by
    intro i j hux
    rw [hpte, h.child i j fun heq => hux (uxSlot_congr heq cur), if_pos (hlt i j), hpte0 _ hux]
  have hp : ∀ i j, (cur, i, j) ≠ uxSlot cur →
      pteOf s' (cur, i, j) = keptPte (pteOf s (cur, i, j)) := by
    intro i j hux
    rw [hpte, h.parent i j hux, if_pos (hlt i j), hpte0 _ hux]
  have hok : ∀ i j, (cur, i, j) ≠ uxSlot cur → isPresent (pteOf s (cur, i, j)) = true →
      DupOk (pteOf s (cur, i, j)) := by
    intro i j hux
    rw [← hpte0 _ hux]
    exact hfine i j hux
  refine ⟨⟨Ne.symm hne, hchild⟩, fun i j hux => ?_, fun i j hux hpres => ?_, fun i j hux _ => ?_, ?_⟩
  · rw [hc i j hux]
    exact entryTarget_dupPte _
  · rw [hc i j hux]
    exact permsCopied_dup hpres (hok i j hux hpres)
  · rw [hp i j hux]
    exact ⟨entryTarget_keptPte _, fun hpres => permsCopied_kept hpres (hok i j hux hpres)⟩
  · obtain ⟨pg, hstack⟩ := h.stack_after (Nat.le_refl _)
    refine ⟨pg, ?_, ?_, fun k => ?_⟩
    · rw [hpte]
      exact hstack.target_eq
    · rw [hpte]
      exact hstack.perm
    · rw [hpte]
      exact hstack.own k

/-- What `fork` ends with, after the loop. -/
theorem forkEnd_ok {s1 : Kernel} (hf : Forking R s0 cur c envid) (hpos : 0 < envid.toInt)
    (h : Copied R s0 cur c userPages s1) :
    ∃ s', forkEnd s1 cur envid = some (s', envid) ∧ pteOf s' = pteOf s1 ∧
      (s'.envs c).envId = envid ∧ (s'.envs c).envStatus = .runnable ∧
      (s'.envs c).envParentId = (s0.envs cur).envId := by
  obtain ⟨hid, hparent, hstat⟩ := hf.child_env hpos
  have hchild : envid2env s1 cur envid true = some c := by
    rw [envid2env_congr h.envs]
    exact hf.child
  let s2 := s1.setEnv c fun env => { env with envPgfaultUpcall := (s1.envs cur).envPgfaultUpcall }
  have hc2 : ∀ e, (s2.envs e).envStatus = (s1.envs e).envStatus ∧ (s2.envs e).envId = (s1.envs e).envId ∧
      (s2.envs e).envParentId = (s1.envs e).envParentId := by
    intro e
    by_cases he : e = c
    · subst he
      simp [s2]
    · simp only [s2]
      rw [setEnv_of_ne _ _ he]
      exact ⟨rfl, rfl, rfl⟩
  have hchild2 : envid2env s2 cur envid true = some c := by
    rw [← hchild]
    simp only [envid2env, fun e => (hc2 e).1, fun e => (hc2 e).2.1, fun e => (hc2 e).2.2]
  let s3 := s2.setEnv c fun env => { env with envStatus := .runnable }
  refine ⟨s3, ?_, ?_, ?_, ?_, ?_⟩
  · have hup : sysEnvSetPgfaultUpcall s1 cur envid (s1.envs cur).envPgfaultUpcall = (s2, .ret 0) := by
      rw [sysEnvSetPgfaultUpcall, hchild]
    have hst : sysEnvSetStatus s2 cur envid 2#32 = (s3, .ret 0) := by
      rw [sysEnvSetStatus, hchild2]
      rfl
    simp [forkEnd, hup, hst, orPanic]
  · have h3 : pteOf s3 = pteOf s2 := (target_setEnv rfl).2
    have h2 : pteOf s2 = pteOf s1 := (target_setEnv rfl).2
    exact h3.trans h2
  · rw [show s3.envs c = { s2.envs c with envStatus := .runnable } from setEnv_self ..]
    rw [← hid, ← h.envs]
    exact (hc2 c).2.1
  · rw [show s3.envs c = { s2.envs c with envStatus := .runnable } from setEnv_self ..]
  · rw [show s3.envs c = { s2.envs c with envStatus := .runnable } from setEnv_self ..]
    rw [← hparent, ← h.envs]
    exact (hc2 c).2.2

theorem pageFine_iff (hpte0 : ∀ k ≠ uxSlot cur, pteOf s0 k = pteOf s k) :
    (∀ i j, PageFine s0 cur i j) ↔ ∀ i j, PageFine s cur i j := by
  constructor
  · intro h i j hux hp
    have hok := h i j hux
    rw [hpte0 _ hux] at hok
    exact hok hp
  · intro h i j hux hp
    rw [hpte0 _ hux] at hp ⊢
    exact h i j hux hp

/-- The assumptions on the memory and the tables under which `fork` is looked at. Two of the 961
frames are for the copy-on-write fault on its stack, and `stack` lets the kernel hand it over. -/
structure ForkReady (R : Nat → Prop) (s : Kernel) (cur : EnvIx) (installed : Bool) : Prop where
  inv : Inv R s
  live : (s.envs cur).envStatus ≠ .free
  id : envx (s.envs cur).envId = cur
  env : s.envFreeList ≠ none
  mem : Spare s 961
  refs : ∀ p, refCount (target s) p + mapCount s cur p < 2 ^ 16
  stack : installed = true →
    pteOf s (uxSlot cur) &&& (pteP ||| pteW ||| pteU) = pteP ||| pteW ||| pteU

theorem ForkReady.top {installed : Bool} (h : ForkReady R s cur installed) (hin : installed = true) :
    TopMapped s cur := by
  refine ⟨(uxSlot cur).2.2, fun hnone => ?_⟩
  have hstack := h.stack hin
  have hnot : isPresent (pteOf s (uxSlot cur)) = false := by
    by_contra hp
    rw [Bool.not_eq_false] at hp
    rw [show (cur, (uxSlot cur).2.1, (uxSlot cur).2.2) = uxSlot cur from rfl, entryTarget,
      if_pos hp] at hnone
    cases hnone
  have hbit : (pteOf s (uxSlot cur) &&& (pteP ||| pteW ||| pteU)) &&& pteP = pteP := by
    rw [hstack]
    decide
  rw [BitVec.and_assoc, show (pteP ||| pteW ||| pteU) &&& pteP = pteP by decide] at hbit
  rw [isPresent, hbit] at hnot
  exact absurd hnot (by decide)

/-- `fork` panics at the first page that the child cannot get, and else copies them all. -/
theorem fork_cases {installed : Bool} (upcall : BitVec 32) (h : ForkReady R s cur installed) :
    (fork installed upcall s cur = none ∧ ¬ ∀ i j, PageFine s cur i j) ∨
      ∃ s' c, fork installed upcall s cur = some (s', (s'.envs c).envId) ∧ Forked s cur s' c ∧
        ∀ i j, PageFine s cur i j := by
  have hdrop : DropOk s (placeOf (uxSlot cur)) := fun q _ =>
    Nat.lt_of_le_of_lt (Nat.le_add_right _ _) (h.refs q)
  obtain ⟨s1, hset, h1⟩ := setPgfaultHandler_ok installed upcall h.inv
    h.live h.id hdrop h.top (h.mem.mono (by decide))
  obtain ⟨s0, c, hfork, hnn, hf, hpte, hcur, hspare⟩ := sysExofork_ok h1 h.live h.env h.refs
    ((h1.spare 959 h.mem).mono (by decide))
  have hpte0 : ∀ k ≠ uxSlot cur, pteOf s0 k = pteOf s k := by
    intro k hk
    rw [hpte, h1.pte k hk]
  have htop0 : TopMapped s0 cur := by
    rw [TopMapped, hpte]
    exact h1.top
  have hpos : 0 < (s0.envs c).envId.toInt := by
    have hz : (s0.envs c).envId ≠ 0#32 := by
      intro hz
      have hchild := hf.child
      rw [hz, envid2env_zero] at hchild
      cases hchild
      exact hf.ne rfl
    have hz' : (s0.envs c).envId.toInt ≠ 0 := fun heq => hz (BitVec.eq_of_toInt_eq heq)
    omega
  have hrun : fork installed upcall s cur =
      (forkLoop cur (s0.envs c).envId (List.range userPages) 0 true s0).bind fun s =>
        forkEnd s cur (s0.envs c).envId := by
    have hnot : ¬ (s0.envs c).envId.toInt < 0 := by omega
    simp only [fork, hset, hfork, Option.bind_eq_bind, Option.bind_some, hnot, if_false,
      BitVec.ofInt_toInt]
  rcases forkLoop_cases hf htop0 (hspare 956 ((h1.spare 959 h.mem).mono (by decide))) with
    ⟨hnone, hbad⟩ | ⟨s2, hsome, hcop, hfine⟩
  · refine Or.inl ⟨?_, fun hall => hbad ((pageFine_iff hpte0).mpr hall)⟩
    rw [hrun, hnone, Option.bind_none]
  · obtain ⟨s', hend, hpte', hid', hstat, hparent⟩ := forkEnd_ok hf hpos hcop
    refine Or.inr ⟨s', c, ?_, ?_, (pageFine_iff hpte0).mp hfine⟩
    · rw [hrun, hsome, Option.bind_some, hid']
      exact hend
    · exact hcop.forked hf.ne hpte0 hpte' hfine ⟨hstat, by rw [hparent, hcur]⟩

theorem mapCount_le (s : Kernel) (e : EnvIx) (p : Nat) : mapCount s e p ≤ refCount (target s) p := by
  refine refCount_comp_le (fun ij : Fin pdxUtop × Fin nptentries => Place.pte e ij.1 ij.2) ?_ ?_
  · rintro ⟨i, j⟩ ⟨i', j'⟩ heq
    cases heq
    rfl
  · rintro ⟨i, j⟩ hij
    rw [target_pte_eq]
    exact hij

end

def onePageCmds (perm : BitVec 32) : List Cmd :=
  [.create, .call env0 (.pageAlloc 0#32 0x1000#32 perm)]

/-- The first environment with a page at 0x1000. -/
def onePage (perm : BitVec 32) : Kernel := ((onePageCmds perm).foldlM exec wide).getD wide

section

variable {perm : BitVec 32} {s : Kernel}

theorem onePage_pteOf (hrun : (onePageCmds perm).foldlM exec wide = some s) {k : Slot}
    (hk : k ≠ slotOf env0 0x1000#32 (by decide)) : pteOf s k = 0#32 := by
  simp only [onePageCmds, List.foldlM_cons, List.foldlM_nil, Option.bind_eq_bind,
    Option.bind_eq_some_iff] at hrun
  obtain ⟨s1, hs1, s2, hs2, hrun⟩ := hrun
  cases hrun
  have hstep : [Cmd.create].foldlM exec wide = some s1 := by simp [hs1]
  have r1 := (((ReachedIn.boot wide_booted).execAll hstep).reachable (by decide)).1
  rw [r1.inv.1.exec_pageAlloc r1.inv.2 hs2 fun _ => hk, wide_booted.inv.exec_create hs1]
  exact pteOf_of_none (target_of_booted wide_booted _) _

theorem onePage_ready (hrun : (onePageCmds perm).foldlM exec wide = some s)
    (hstat : (s.envs env0).envStatus ≠ .free) (hid : envx (s.envs env0).envId = env0)
    (hfree : s.envFreeList ≠ none)
    (hlink : Linked s.ppLink s.pageFreeList (List.range' 5 2043)) :
    ForkReady smallReserved s env0 false := by
  obtain ⟨hr, hcount⟩ := ((ReachedIn.boot wide_booted).execAll hrun).reachable (by
    simp [onePageCmds])
  refine ⟨hr.inv.1, hstat, hid, hfree, ⟨_, hlink, List.nodup_range', by simp⟩, fun p => ?_,
    fun h => by cases h⟩
  have hle := hcount p
  have hmap := mapCount_le s env0 p
  simp only [onePageCmds, List.length_cons, List.length_nil] at hle
  omega

end

end Jos.User
