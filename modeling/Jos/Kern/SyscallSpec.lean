import Jos.Kern.EnvSpec
import Jos.Kern.EnvChange

/-!
# What the system calls do

One lemma for each system call that works on pages or environments: on a state that
satisfies the invariant it returns, keeps the invariant, and changes the page table
entries and the environments as stated. `Inv` is the whole invariant of the kernel.
-/

namespace Jos.Kern

open Jos.Lib Kernel

/-- The invariant of the kernel between two system calls. -/
structure Inv (R : Nat → Prop) (s : Kernel) : Prop where
  pages : PageInv R [] s
  envs : EnvsOk s

/-- Some environment maps frame `f` below `UTOP`. -/
def Mapped (s : Kernel) (f : Nat) : Prop := ∃ k : Slot, entryTarget (pteOf s k) = some f

/-- Frame `f` is on `page_free_list`. -/
def OnFreeList (s : Kernel) (f : Nat) : Prop := ∃ l, Linked s.ppLink s.pageFreeList l ∧ f ∈ l

/-- The slot of an address below `UTOP`. -/
def slotOf (e : EnvIx) (va : BitVec 32) (hva : va < utop) : Slot :=
  (e, ⟨pdx va, pdx_lt_of_lt_utop hva⟩, ⟨ptx va, ptx_lt va⟩)

/-- The place of a page table entry. -/
def placeOf (k : Slot) : Place := .pte k.1 k.2.1 k.2.2

section

variable {R : Nat → Prop} {held : List Nat} {s s' : Kernel} {cur e : EnvIx} {d p f : Nat}
  {envid va perm : BitVec 32} {i : Fin pdxUtop} {j : Fin nptentries}

theorem target_placeOf (s : Kernel) (k : Slot) : target s (placeOf k) = entryTarget (pteOf s k) :=
  target_pte_eq s k.1 k.2.1 k.2.2

/-- A mapped frame is no table. -/
theorem PageInv.noTable_of_mapped (h : PageInv R held s) (hf : Mapped s f) : NoTable s f := by
  obtain ⟨k, hk⟩ := hf
  rw [← target_placeOf] at hk
  intro k' hk' hkf
  have := h.shape.table_unique k' (placeOf k) f hk' hkf hk
  rw [← this] at hk'
  cases hk'

/-- Nothing refers to a frame on the free list. -/
theorem PageInv.target_of_free (h : PageInv R held s) (hf : OnFreeList s f) (k : Place) :
    target s k ≠ some f := by
  obtain ⟨l, hl, hmem⟩ := hf
  obtain ⟨free, hlink, hled, _⟩ := h.accounts.pages
  rw [hl.unique hlink] at hmem
  exact hled.free_unref f hmem k

/-- What every page operation leaves alone: the environments and the contents of the pages
that stay mapped. -/
structure PageOp (R : Nat → Prop) (s s' : Kernel) : Prop where
  inv : Inv R s'
  npages : s'.npages = s.npages
  kern : s'.kernPgdir = s.kernPgdir
  envs : s'.envs = s.envs
  envFree : s'.envFreeList = s.envFreeList
  data : ∀ f, Mapped s f → Mapped s' f → SameFrame s s' f
  count_le : ∀ p, refCount (target s') p ≤ refCount (target s) p + 2

theorem PageOp.refl (h : Inv R s) : PageOp R s s :=
  ⟨h, rfl, rfl, rfl, rfl, fun _ _ _ _ _ _ => rfl, fun _ => Nat.le_add_right _ _⟩

theorem TablesOnly.pageOp (ht : TablesOnly s s') (h : Inv R s) (h' : PageInv R [] s')
    (hle : ∀ p, refCount (target s') p ≤ refCount (target s) p + 2) : PageOp R s s' where
  inv := ⟨h', h.envs.congr ht.envs ht.envFree⟩
  npages := ht.npages
  kern := ht.kern
  envs := ht.envs
  envFree := ht.envFree
  data f hf hf' := ht.data f (h.pages.noTable_of_mapped hf) (h'.noTable_of_mapped hf')
  count_le := hle

/-- `envid2env` finds an environment in use. -/
theorem envid2env_live {checkperm : Bool} (hcur : (s.envs cur).envStatus ≠ .free)
    (he : envid2env s cur envid checkperm = some e) : (s.envs e).envStatus ≠ .free := by
  rw [envid2env] at he
  split at he
  · cases he
    exact hcur
  · simp only at he
    split at he
    · cases he
    · rename_i hbad
      split at he
      · cases he
      · cases he
        exact fun hfree => hbad (Or.inl hfree)

theorem badVa_eq_false (h : badVa va = false) : va < utop ∧ pgoff va = 0 := by
  simp only [badVa, Bool.or_eq_false_iff, decide_eq_false_iff_not, bne_eq_false_iff_eq] at h
  exact ⟨BitVec.not_le.mp h.1, h.2⟩

theorem badPerm_eq_false (h : badPerm perm = false) : perm.toNat < 4096 := by
  simp only [badPerm, bne_eq_false_iff_eq] at h
  exact toNat_lt_of_syscall h

/-! ## Pages -/

/-- A page that was taken off the free list and mapped at one place. -/
theorem Taken.pageOp {zero : Bool} {s1 s2 : Kernel} {k : Slot} {w : BitVec 32}
    (htk : Taken R [] s zero p s1) (hins : Inserted R [] s1 k p w s2) (h : Inv R s) :
    PageOp R s s2 ∧ ¬ Mapped s p ∧ pteOf s2 = Function.update (pteOf s) k w ∧ SameFrame s1 s2 p := by
  have htab := hins.tables
  have hpte : pteOf s2 = Function.update (pteOf s) k w := by rw [hins.pte, htk.same.pteOf_eq]
  have hfresh : ¬ Mapped s p := by
    rintro ⟨k, hk⟩
    rw [← target_placeOf] at hk
    exact htk.fresh _ hk
  -- pages that stay mapped are not the new page
  have hdata : ∀ f, Mapped s f → ∀ x, 4096 * f ≤ x → x < 4096 * f + 4096 → s1.mem x = s.mem x := by
    intro f hf x hx hx'
    have hne : f ≠ p := by
      rintro rfl
      exact hfresh hf
    exact htk.mem x (by omega)
  have hm1 : ∀ f, Mapped s f → Mapped s1 f := by
    intro f hf
    rwa [Mapped, htk.same.pteOf_eq]
  have hmapped : Mapped s2 p := ⟨k, by rw [hpte, Function.update_self, hins.target_eq]⟩
  have hnot1 : NoTable s1 p := by
    intro k _
    rw [htk.same.target_eq]
    exact htk.fresh k
  refine ⟨⟨⟨hins.inv, ?_⟩, ?_, ?_, ?_, ?_, fun f hf hf' x hx hx' => ?_, fun q => ?_⟩, hfresh, hpte,
    htab.data p hnot1 (hins.inv.noTable_of_mapped hmapped)⟩
  · exact h.envs.congr (htab.envs.trans htk.envs) (htab.envFree.trans htk.envFree)
  · exact htab.npages.trans htk.same.npages
  · exact htab.kern.trans htk.same.kern
  · exact htab.envs.trans htk.envs
  · exact htab.envFree.trans htk.envFree
  · rw [htab.data f (htk.inv.noTable_of_mapped (hm1 f hf)) (hins.inv.noTable_of_mapped hf') x hx hx',
      hdata f hf x hx hx']
  · rw [← htk.same.target_eq]
    exact hins.count_le q

/-- A new page has been mapped at `k`. -/
structure PageAllocated (s : Kernel) (k : Slot) (perm : BitVec 32) (pg : Nat) (s' : Kernel) :
    Prop where
  head : s.pageFreeList = some pg
  fresh : ¬ Mapped s pg
  pte : pteOf s' = Function.update (pteOf s) k (page2pa pg ||| perm ||| pteP)
  target_eq : entryTarget (page2pa pg ||| perm ||| pteP) = some pg
  zero : ∀ x, 4096 * pg ≤ x → x < 4096 * pg + 4096 → s'.mem x = 0#8

/-- `sys_page_alloc` returns; on success a zeroed page that nobody had mapped is mapped. -/
theorem Inv.sysPageAlloc (h : Inv R s) (hcur : (s.envs cur).envStatus ≠ .free)
    (envid va perm : BitVec 32)
    (hb : ∀ e (hva : va < utop), envid2env s cur envid true = some e →
      DropOk s (placeOf (slotOf e va hva))) :
    (∃ s' r, r ≠ 0 ∧ sysPageAlloc s cur envid va perm = some (s', .ret r) ∧ PageOp R s s' ∧
      pteOf s' = pteOf s) ∨
    ∃ s' e pg, sysPageAlloc s cur envid va perm = some (s', .ret 0) ∧ PageOp R s s' ∧
      envid2env s cur envid true = some e ∧ pgoff va = 0 ∧ badPerm perm = false ∧
      ∃ hva : va < utop, PageAllocated s (slotOf e va hva) perm pg s' := by
  cases henv : envid2env s cur envid true with
  | none =>
      exact Or.inl ⟨s, -eBadEnv, by decide, by simp only [Kern.sysPageAlloc, henv], PageOp.refl h, rfl⟩
  | some e =>
      by_cases hbad : badVa va = true
      · exact Or.inl ⟨s, -eInval, by decide, by simp [Kern.sysPageAlloc, henv, hbad],
          PageOp.refl h, rfl⟩
      rw [Bool.not_eq_true] at hbad
      by_cases hperm : badPerm perm = true
      · exact Or.inl ⟨s, -eInval, by decide, by simp [Kern.sysPageAlloc, henv, hbad, hperm],
          PageOp.refl h, rfl⟩
      rw [Bool.not_eq_true] at hperm
      obtain ⟨hva, hoff⟩ := badVa_eq_false hbad
      obtain ⟨d, hd⟩ := h.envs.exists_pgdir (envid2env_live hcur henv)
      rcases h.pages.pageAlloc true with ⟨_, hal⟩ | ⟨pg, s1, hal, htk⟩
      · exact Or.inl ⟨s, -eNoMem, by decide, by simp [Kern.sysPageAlloc, henv, hbad, hperm, hal],
          PageOp.refl h, rfl⟩
      have hd1 : (s1.envs e).envPgdir = some d := by rw [htk.envs, hd]
      have hb1 : DropOk s1 (placeOf (slotOf e va hva)) := by
        intro q hq
        rw [htk.same.target_eq] at hq ⊢
        exact hb e hva henv q hq
      rcases htk.inv.pageInsert _ (Or.inr ⟨rfl, by simp⟩) hd1 rfl rfl (badPerm_eq_false hperm) hb1 with
        ⟨_, hins⟩ | ⟨s2, hins, h2⟩
      · obtain ⟨s2, hfree, hsame, _, h2⟩ := htk.inv.pageFree (by simp)
        have hst : SameTables R s1 s2 := hsame.sameTables
        refine Or.inl ⟨s2, -eNoMem, by decide, ?_, ⟨⟨h2, ?_⟩, ?_, ?_, ?_, ?_, ?_, ?_⟩, ?_⟩
        · have hpos : ¬ eNoMem ≤ 0 := by decide
          simp [Kern.sysPageAlloc, henv, hbad, hperm, hal, hd1, hins, hpos, hfree]
        · exact h.envs.congr (hsame.envs.trans htk.envs) (hsame.envFree.trans htk.envFree)
        · exact hsame.npages.trans htk.same.npages
        · exact hsame.kern.trans htk.same.kern
        · exact hsame.envs.trans htk.envs
        · exact hsame.envFree.trans htk.envFree
        · intro f hf _ x hx hx'
          have hne : f ≠ pg := by
            rintro rfl
            obtain ⟨k, hk⟩ := hf
            rw [← target_placeOf] at hk
            exact htk.fresh _ hk
          rw [hsame.mem]
          exact htk.mem x (by omega)
        · intro p
          rw [hst.target_eq, htk.same.target_eq]
          exact Nat.le_add_right _ _
        · rw [hst.pteOf_eq, htk.same.pteOf_eq]
      · obtain ⟨hop, hfresh, hpte, hframe⟩ := htk.pageOp h2 h
        refine Or.inr ⟨s2, e, pg, ?_, hop, rfl, hoff, hperm, hva, pageAlloc_head hal, hfresh, hpte,
          h2.target_eq, fun x hx hx' => ?_⟩
        · simp [Kern.sysPageAlloc, henv, hbad, hperm, hal, hd1, hins]
        · rw [hframe x hx hx', htk.zero rfl x hx hx']

/-- Looking up a page of an environment and inserting it, as `sys_page_map` and
`sys_ipc_try_send` do. -/
structure PageShared (s : Kernel) (src dst : Slot) (perm : BitVec 32) (pg : Nat) (s' : Kernel) :
    Prop where
  source : entryTarget (pteOf s src) = some pg
  perm_ok : badPerm perm = false
  write_ok : grantsWrite perm (pteOf s src) = false
  target_eq : entryTarget (page2pa pg ||| perm ||| pteP) = some pg
  pte : pteOf s' = Function.update (pteOf s) dst (page2pa pg ||| perm ||| pteP)

/-- `page_lookup` on an environment's directory, in terms of its entries. -/
theorem PageInv.pageLookup (h : PageInv R held s) (hd : (s.envs e).envPgdir = some d)
    (hva : va < utop) :
    (entryTarget (pteOf s (slotOf e va hva)) = none ∧ pageLookup s d va = some none) ∨
      ∃ pg pte, entryTarget (pteOf s (slotOf e va hva)) = some pg ∧
        pageLookup s d va = some (some (pg, pte)) ∧
        s.mem.read32 pte = pteOf s (slotOf e va hva) := by
  cases hq : entryTarget (pteOf s (slotOf e va hva)) with
  | none =>
      rw [← target_placeOf] at hq
      exact Or.inl ⟨rfl, h.shape.pageLookup_none hd rfl rfl hq⟩
  | some pg =>
      rw [← target_placeOf] at hq
      obtain ⟨t, ht, _, hlook⟩ := h.shape.pageLookup_some hd rfl rfl hq (h.target_lt hq).1
      exact Or.inr ⟨pg, _, rfl, hlook, (pteOf_eq ht ⟨ptx va, ptx_lt va⟩).symm⟩

theorem PageInv.pageInsert_mapped {src : Slot} (h : PageInv R [] s)
    (hsrc : entryTarget (pteOf s src) = some p) (hd : (s.envs e).envPgdir = some d)
    (hva : va < utop) (hperm : badPerm perm = false) (hb : DropOk s (placeOf (slotOf e va hva))) :
    (s.pageFreeList = none ∧ Kern.pageInsert s d p va perm = some (s, -eNoMem)) ∨
      ∃ s', Kern.pageInsert s d p va perm = some (s', 0) ∧
        Inserted R [] s (slotOf e va hva) p (page2pa p ||| perm ||| pteP) s' := by
  rw [← target_placeOf] at hsrc
  exact h.pageInsert _ (Or.inl ⟨rfl, placeOf src, rfl, hsrc⟩) hd rfl rfl (badPerm_eq_false hperm) hb

/-- `sys_page_map` after its checks: it fails only when no page is free. -/
theorem Inv.sysPageMap_checked {srcE dstE : EnvIx} {srcenvid srcva dstenvid dstva : BitVec 32}
    (h : Inv R s) (hcur : (s.envs cur).envStatus ≠ .free)
    (hsrcE : envid2env s cur srcenvid true = some srcE)
    (hdstE : envid2env s cur dstenvid true = some dstE)
    (hbad : (badVa srcva || badVa dstva) = false) (hsrc : srcva < utop) (hdst : dstva < utop)
    (hpg : entryTarget (pteOf s (slotOf srcE srcva hsrc)) = some p) (hperm : badPerm perm = false)
    (hw : grantsWrite perm (pteOf s (slotOf srcE srcva hsrc)) = false)
    (hb : DropOk s (placeOf (slotOf dstE dstva hdst))) :
    (s.pageFreeList = none ∧
      sysPageMap s cur srcenvid srcva dstenvid dstva perm = some (s, .ret (-eNoMem))) ∨
    ∃ s', sysPageMap s cur srcenvid srcva dstenvid dstva perm = some (s', .ret 0) ∧
      PageOp R s s' ∧ PageShared s (slotOf srcE srcva hsrc) (slotOf dstE dstva hdst) perm p s' ∧
      ∀ e i, e ≠ dstE → target s' (.pde e i) = target s (.pde e i) := by
  obtain ⟨hbad1, hbad2⟩ := Bool.or_eq_false_iff.mp hbad
  obtain ⟨sd, hsd⟩ := h.envs.exists_pgdir (envid2env_live hcur hsrcE)
  obtain ⟨dd, hdd⟩ := h.envs.exists_pgdir (envid2env_live hcur hdstE)
  rcases h.pages.pageLookup hsd hsrc with ⟨hnone, _⟩ | ⟨pg, pte, hpg', hlook, hpte⟩
  · rw [hnone] at hpg
    cases hpg
  rw [hpg] at hpg'
  cases hpg'
  have hw' : grantsWrite perm (s.mem.read32 pte) = false := by rw [hpte, hw]
  rcases h.pages.pageInsert_mapped hpg hdd hdst hperm hb with ⟨hfree, hins⟩ | ⟨s1, hins, h1⟩
  · refine Or.inl ⟨hfree, ?_⟩
    have hpos : ¬ eNoMem ≤ 0 := by decide
    simp [Kern.sysPageMap, hsrcE, hdstE, hbad1, hbad2, hsd, hlook, hperm, hw', hdd, hins, hpos]
  · refine Or.inr ⟨s1, ?_, h1.tables.pageOp h h1.inv h1.count_le,
      ⟨hpg, hperm, hw, h1.target_eq, h1.pte⟩, h1.pde⟩
    simp [Kern.sysPageMap, hsrcE, hdstE, hbad1, hbad2, hsd, hlook, hperm, hw', hdd, hins]

/-- `sys_page_map` returns; on success the page is mapped in both places. -/
theorem Inv.sysPageMap (h : Inv R s) (hcur : (s.envs cur).envStatus ≠ .free)
    (srcenvid srcva dstenvid dstva perm : BitVec 32)
    (hb : ∀ e (hva : dstva < utop), envid2env s cur dstenvid true = some e →
      DropOk s (placeOf (slotOf e dstva hva))) :
    (∃ r ≠ 0, sysPageMap s cur srcenvid srcva dstenvid dstva perm = some (s, .ret r)) ∨
    ∃ s' srcE dstE pg,
      sysPageMap s cur srcenvid srcva dstenvid dstva perm = some (s', .ret 0) ∧ PageOp R s s' ∧
      envid2env s cur srcenvid true = some srcE ∧ envid2env s cur dstenvid true = some dstE ∧
      pgoff srcva = 0 ∧ pgoff dstva = 0 ∧ ∃ (hsrc : srcva < utop) (hdst : dstva < utop),
        PageShared s (slotOf srcE srcva hsrc) (slotOf dstE dstva hdst) perm pg s' := by
  cases hsrcE : envid2env s cur srcenvid true with
  | none => exact Or.inl ⟨-eBadEnv, by decide, by simp only [Kern.sysPageMap, hsrcE]⟩
  | some srcE =>
  cases hdstE : envid2env s cur dstenvid true with
  | none => exact Or.inl ⟨-eBadEnv, by decide, by simp only [Kern.sysPageMap, hsrcE, hdstE]⟩
  | some dstE =>
  by_cases hbad : (badVa srcva || badVa dstva) = true
  · exact Or.inl ⟨-eInval, by decide, by simp [Kern.sysPageMap, hsrcE, hdstE, hbad]⟩
  rw [Bool.not_eq_true] at hbad
  obtain ⟨hbad1, hbad2⟩ := Bool.or_eq_false_iff.mp hbad
  obtain ⟨hsrc, hsoff⟩ := badVa_eq_false hbad1
  obtain ⟨hdst, hdoff⟩ := badVa_eq_false hbad2
  obtain ⟨sd, hsd⟩ := h.envs.exists_pgdir (envid2env_live hcur hsrcE)
  rcases h.pages.pageLookup hsd hsrc with ⟨_, hlook⟩ | ⟨pg, pte, hpg, hlook, hpte⟩
  · exact Or.inl ⟨-eInval, by decide,
      by simp [Kern.sysPageMap, hsrcE, hdstE, hbad1, hbad2, hsd, hlook]⟩
  by_cases hperm : badPerm perm = true
  · exact Or.inl ⟨-eInval, by decide,
      by simp [Kern.sysPageMap, hsrcE, hdstE, hbad1, hbad2, hsd, hlook, hperm]⟩
  rw [Bool.not_eq_true] at hperm
  by_cases hw : grantsWrite perm (s.mem.read32 pte) = true
  · exact Or.inl ⟨-eInval, by decide,
      by simp [Kern.sysPageMap, hsrcE, hdstE, hbad1, hbad2, hsd, hlook, hperm, hw]⟩
  rw [Bool.not_eq_true, hpte] at hw
  rcases h.sysPageMap_checked hcur hsrcE hdstE hbad hsrc hdst hpg hperm hw (hb dstE hdst hdstE) with
    ⟨_, hrun⟩ | ⟨s1, hrun, hop, hsh, _⟩
  · exact Or.inl ⟨-eNoMem, by decide, hrun⟩
  · exact Or.inr ⟨s1, srcE, dstE, pg, hrun, hop, rfl, rfl, hsoff, hdoff, hsrc, hdst, hsh⟩

/-- `sys_page_unmap` returns; on success nothing is mapped there. -/
theorem Inv.sysPageUnmap (h : Inv R s) (hcur : (s.envs cur).envStatus ≠ .free)
    (envid va : BitVec 32)
    (hb : ∀ e (hva : va < utop), envid2env s cur envid true = some e →
      DropOk s (placeOf (slotOf e va hva))) :
    (∃ r ≠ 0, sysPageUnmap s cur envid va = some (s, .ret r)) ∨
    ∃ s' e, sysPageUnmap s cur envid va = some (s', .ret 0) ∧ PageOp R s s' ∧
      envid2env s cur envid true = some e ∧ ∃ hva : va < utop,
        entryTarget (pteOf s' (slotOf e va hva)) = none ∧
        ∀ k ≠ slotOf e va hva, pteOf s' k = pteOf s k := by
  cases henv : envid2env s cur envid true with
  | none => exact Or.inl ⟨-eBadEnv, by decide, by simp only [Kern.sysPageUnmap, henv]⟩
  | some e =>
  by_cases hbad : badVa va = true
  · exact Or.inl ⟨-eInval, by decide, by simp [Kern.sysPageUnmap, henv, hbad]⟩
  rw [Bool.not_eq_true] at hbad
  obtain ⟨hva, _⟩ := badVa_eq_false hbad
  obtain ⟨d, hd⟩ := h.envs.exists_pgdir (envid2env_live hcur henv)
  obtain ⟨s1, hrem, h1, htar, hnone, hpte, htab, _⟩ :=
    h.pages.pageRemove hd rfl rfl (i := ⟨pdx va, pdx_lt_of_lt_utop hva⟩) (j := ⟨ptx va, ptx_lt va⟩)
      (hb e hva henv)
  have hle : ∀ p, refCount (target s1) p ≤ refCount (target s) p + 2 := by
    intro p
    rw [htar]
    exact Nat.le_trans (refCount_update_none_le ..) (Nat.le_add_right _ _)
  refine Or.inr ⟨s1, e, ?_, htab.pageOp h h1 hle, rfl, hva, hnone, hpte⟩
  simp [Kern.sysPageUnmap, henv, hbad, hd, hrem]

/-! ## Environments -/

theorem sameTables_setEnv {g : Env → Env}
    (hdir : (g (s.envs e)).envPgdir = (s.envs e).envPgdir) : SameTables R s (s.setEnv e g) := by
  refine ⟨rfl, rfl, fun e' => ?_, fun _ _ _ _ => rfl⟩
  by_cases he : e' = e
  · subst he
    rw [setEnv_self, hdir]
  · rw [setEnv_of_ne _ _ he]

/-- Changing fields of an environment that are neither its directory nor its place on the
free list keeps the invariant. -/
theorem Inv.setEnv (h : Inv R s) {g : Env → Env}
    (hdir : (g (s.envs e)).envPgdir = (s.envs e).envPgdir)
    (hlink : (g (s.envs e)).envLink = (s.envs e).envLink)
    (hfree : (g (s.envs e)).envStatus = .free ↔ (s.envs e).envStatus = .free)
    (hdst : (g (s.envs e)).envIpcDstva < utop ∧ pgoff (g (s.envs e)).envIpcDstva = 0) :
    Inv R (s.setEnv e g) := by
  have hst : SameTables R s (s.setEnv e g) := sameTables_setEnv hdir
  refine ⟨⟨hst.shape h.pages.shape, ?_⟩, h.envs.setEnv hdir hlink hfree hdst⟩
  rw [hst.target_eq]
  exact ⟨h.pages.accounts.pages, h.pages.accounts.held_ok⟩

/-- The page tables do not depend on the other fields of the environments. -/
theorem target_setEnv {g : Env → Env} (hdir : (g (s.envs e)).envPgdir = (s.envs e).envPgdir) :
    target (s.setEnv e g) = target s ∧ pteOf (s.setEnv e g) = pteOf s :=
  let hst := sameTables_setEnv (R := fun _ => False) hdir
  ⟨hst.target_eq, hst.pteOf_eq⟩

/-- The result of a successful `env_alloc`. -/
structure EnvAllocated (R : Nat → Prop) (s : Kernel) (parentId : BitVec 32) (e : EnvIx)
    (s' : Kernel) : Prop where
  inv : Inv R s'
  was_free : (s.envs e).envStatus = .free
  npages : s'.npages = s.npages
  envs : ∃ p, s'.envs = (s.setEnv e (newEnv e p parentId)).envs
  pte : pteOf s' = pteOf s
  data : ∀ f, Mapped s f → SameFrame s s' f
  count_le : ∀ p, refCount (target s') p ≤ refCount (target s) p + 1

/-- `env_alloc` returns; when it fails the state is unchanged. -/
theorem Inv.envAlloc (h : Inv R s) (parentId : BitVec 32) :
    (∃ r < 0, envAlloc s parentId = some (s, .error r)) ∨
      ∃ s' e, envAlloc s parentId = some (s', .ok e) ∧ EnvAllocated R s parentId e s' := by
  obtain ⟨l, hl, hnd, hmem⟩ := h.envs.free_list
  cases hfl : s.envFreeList with
  | none => exact Or.inl ⟨-eNoFreeEnv, by decide, by simp [Kern.envAlloc, hfl]⟩
  | some e =>
      rw [hfl] at hl
      obtain ⟨l', rfl, hl'⟩ := hl.exists_cons
      have hstat : (s.envs e).envStatus = .free := (hmem e).mp List.mem_cons_self
      have hnone : (s.envs e).envPgdir = none := (h.envs.pgdir_iff e).mpr hstat
      rcases h.pages.envSetupVm hnone with ⟨_, hvm⟩ | ⟨p, s1, hvm, h1⟩
      · refine Or.inl ⟨-eNoMem, by decide, ?_⟩
        have hneg : -eNoMem < 0 := by decide
        simp only [Kern.envAlloc, hfl, hvm, Option.bind_eq_bind, Option.bind_some, hneg, if_true]
      · right
        let s2 : Kernel := { s1 with
          envs := (s.setEnv e (newEnv e p parentId)).envs
          envFreeList := (s.envs e).envLink }
        have hrun : Kern.envAlloc s parentId = some (s2, .ok e) := by
          have hnn : ¬ (0 : Int) < 0 := by decide
          simp only [Kern.envAlloc, hfl, hvm, Option.bind_eq_bind, Option.bind_some, hnn, if_false,
            Option.some.injEq, Prod.mk.injEq, and_true]
          simp only [s2, Kernel.setEnv, h1.envs, Function.update_self, Function.update_idem]
          rfl
        have hst : SameTables R s1 s2 := by
          refine ⟨rfl, rfl, fun e' => ?_, fun _ _ _ _ => rfl⟩
          by_cases he : e' = e
          · subst he
            simp [s2, h1.envs, newEnv]
          · simp only [s2, h1.envs]
            rw [setEnv_of_ne _ _ he, setEnv_of_ne _ _ he]
        have hcases : ∀ e', s2.envs e' = if e' = e then newEnv e p parentId (s.envs e)
            else s.envs e' := by
          intro e'
          by_cases he : e' = e
          · subst he
            simp [s2]
          · rw [if_neg he]
            exact setEnv_of_ne s _ he
        have hlinks : (fun e' => (s2.envs e').envLink) = fun e' => (s.envs e').envLink := by
          funext e'
          rw [hcases]
          split
          · rename_i he
            rw [he]
            rfl
          · rfl
        refine ⟨s2, e, hrun, ⟨⟨hst.shape h1.inv.shape, ?_⟩, ⟨?_, ⟨l', ?_, ?_, ?_⟩, ?_⟩⟩, hstat,
          ?_, ⟨p, rfl⟩, ?_, ?_, ?_⟩
        · rw [hst.target_eq]
          exact ⟨h1.inv.accounts.pages, h1.inv.accounts.held_ok⟩
        · intro e'
          rw [hcases]
          split
          · simp [newEnv]
          · exact h.envs.pgdir_iff e'
        · rw [hlinks]
          exact hl'
        · exact (List.nodup_cons.mp hnd).2
        · intro e'
          rw [hcases]
          split
          · rename_i he
            subst he
            simp [newEnv, (List.nodup_cons.mp hnd).1]
          · rename_i he
            rw [← hmem, List.mem_cons]
            simp [he]
        · intro e'
          rw [hcases]
          split
          · exact h.envs.dstva_ok e
          · exact h.envs.dstva_ok e'
        · exact h1.npages
        · rw [hst.pteOf_eq, h1.pte]
        · intro f hf x hx hx'
          obtain ⟨k, hk⟩ := hf
          rw [← target_placeOf] at hk
          have hne : f ≠ p := by
            rintro rfl
            exact h1.fresh _ hk
          exact h1.mem x (by omega)
        · intro q
          rw [hst.target_eq, h1.target_eq]
          exact refCount_update_le ..

/-- `env_free` on an environment in use keeps the invariant. -/
theorem Inv.envFree (h : Inv R s) (he : (s.envs e).envStatus ≠ .free) (hb : Bounded s) :
    ∃ s', envFree s e = some s' ∧ Inv R s' ∧ EnvFreed R [] s e s' := by
  obtain ⟨d, hd⟩ := h.envs.exists_pgdir he
  obtain ⟨s', hrun, h'⟩ := h.pages.envFree hd hb
  refine ⟨s', hrun, ⟨h'.inv, ?_⟩, h'⟩
  obtain ⟨l, hl, hnd, hmem⟩ := h.envs.free_list
  have hel : e ∉ l := fun hmem' => he ((hmem e).mp hmem')
  have hcases : ∀ e', s'.envs e' = if e' = e then { s.envs e with
      envPgdir := none, envStatus := .free, envLink := s.envFreeList } else s.envs e' := by
    intro e'
    rw [h'.envs, Function.update_apply]
  have hlinks : (fun e' => (s'.envs e').envLink) =
      Function.update (fun e' => (s.envs e').envLink) e s.envFreeList := by
    funext e'
    rw [hcases, Function.update_apply]
    split <;> rfl
  refine ⟨?_, ⟨e :: l, ?_, ?_, ?_⟩, ?_⟩
  · intro e'
    rw [hcases]
    split
    · simp
    · exact h.envs.pgdir_iff e'
  · rw [hlinks, h'.envFree]
    exact hl.push hel
  · exact List.nodup_cons.mpr ⟨hel, hnd⟩
  · intro e'
    rw [hcases, List.mem_cons]
    split
    · rename_i he'
      simp [he']
    · rename_i he'
      simp [he', hmem]
  · intro e'
    rw [hcases]
    split
    · exact h.envs.dstva_ok e
    · exact h.envs.dstva_ok e'

/-- `env_destroy` on an environment in use: it is marked, or freed. -/
theorem Inv.envDestroy (h : Inv R s) (cur : EnvIx) (he : (s.envs e).envStatus ≠ .free) (hb : Bounded s) :
    ((s.envs e).envStatus = .running ∧ cur ≠ e ∧ envDestroy s cur e =
      some (s.setEnv e fun env => { env with envStatus := .dying }, false) ∧
      Inv R (s.setEnv e fun env => { env with envStatus := .dying })) ∨
    (¬ ((s.envs e).envStatus = .running ∧ cur ≠ e) ∧ ∃ s',
      envDestroy s cur e = some (s', decide (cur = e)) ∧ Inv R s' ∧ EnvFreed R [] s e s') := by
  by_cases hrun : (s.envs e).envStatus = .running ∧ cur ≠ e
  · refine Or.inl ⟨hrun.1, hrun.2, by simp only [Kern.envDestroy, if_pos hrun], ?_⟩
    exact h.setEnv rfl rfl (by simp [he]) (h.envs.dstva_ok e)
  · obtain ⟨s', hfree, hinv, h'⟩ := h.envFree he hb
    refine Or.inr ⟨hrun, s', ?_, hinv, h'⟩
    simp only [Kern.envDestroy, if_neg hrun, hfree, Option.bind_eq_bind, Option.bind_some]

/-- `sys_ipc_try_send` returns: it fails and changes nothing, delivers a value only, or
delivers a value with a page. -/
theorem Inv.sysIpcTrySend (h : Inv R s) (hcur : (s.envs cur).envStatus ≠ .free)
    (envid value srcva perm : BitVec 32)
    (hb : ∀ e (hva : (s.envs e).envIpcDstva < utop), envid2env s cur envid false = some e →
      DropOk s (placeOf (slotOf e _ hva))) :
    (∃ r ≠ 0, sysIpcTrySend s cur envid value srcva perm = some (s, .ret r)) ∨
    (∃ e, sysIpcTrySend s cur envid value srcva perm =
        some (ipcDeliver s cur e value 0#32, .ret 0) ∧ ¬ srcva < utop ∧
      envid2env s cur envid false = some e ∧ (s.envs e).envIpcRecving = true) ∨
    ∃ s1 e pg, sysIpcTrySend s cur envid value srcva perm =
        some (ipcDeliver s1 cur e value perm, .ret 0) ∧ PageOp R s s1 ∧
      envid2env s cur envid false = some e ∧ (s.envs e).envIpcRecving = true ∧ pgoff srcva = 0 ∧
      ∃ (hsrc : srcva < utop) (hdst : (s.envs e).envIpcDstva < utop),
        PageShared s (slotOf cur srcva hsrc) (slotOf e _ hdst) perm pg s1 := by
  cases henv : envid2env s cur envid false with
  | none => exact Or.inl ⟨-eBadEnv, by decide, by simp only [Kern.sysIpcTrySend, henv]⟩
  | some e =>
  by_cases hrec : (s.envs e).envIpcRecving = true
  swap
  · exact Or.inl ⟨-eIpcNotRecv, by decide, by simp [Kern.sysIpcTrySend, henv, hrec]⟩
  obtain ⟨hdst, _⟩ := h.envs.dstva_ok e
  by_cases hsrc : srcva < utop
  swap
  · exact Or.inr (Or.inl ⟨e, by simp [Kern.sysIpcTrySend, henv, hrec, hsrc], hsrc, rfl, hrec⟩)
  by_cases hoff : pgoff srcva = 0
  swap
  · exact Or.inl ⟨-eInval, by decide, by simp [Kern.sysIpcTrySend, henv, hrec, hsrc, hdst, hoff]⟩
  obtain ⟨sd, hsd⟩ := h.envs.exists_pgdir hcur
  obtain ⟨dd, hdd⟩ := h.envs.exists_pgdir (envid2env_live hcur henv)
  rcases h.pages.pageLookup hsd hsrc with ⟨_, hlook⟩ | ⟨pg, pte, hpg, hlook, hpte⟩
  · exact Or.inl ⟨-eInval, by decide,
      by simp [Kern.sysIpcTrySend, henv, hrec, hsrc, hdst, hoff, hsd, hlook]⟩
  by_cases hperm : badPerm perm = true
  · exact Or.inl ⟨-eInval, by decide,
      by simp [Kern.sysIpcTrySend, henv, hrec, hsrc, hdst, hoff, hsd, hlook, hperm]⟩
  rw [Bool.not_eq_true] at hperm
  by_cases hw : grantsWrite perm (s.mem.read32 pte) = true
  · exact Or.inl ⟨-eInval, by decide,
      by simp [Kern.sysIpcTrySend, henv, hrec, hsrc, hdst, hoff, hsd, hlook, hperm, hw]⟩
  rw [Bool.not_eq_true] at hw
  rcases h.pages.pageInsert_mapped hpg hdd hdst hperm (hb e hdst henv) with
    ⟨_, hins⟩ | ⟨s1, hins, h1⟩
  · refine Or.inl ⟨-eNoMem, by decide, ?_⟩
    have hpos : ¬ eNoMem ≤ 0 := by decide
    simp [Kern.sysIpcTrySend, henv, hrec, hsrc, hdst, hoff, hsd, hlook, hperm, hw, hdd, hins, hpos]
  · refine Or.inr (Or.inr ⟨s1, e, pg, ?_, h1.tables.pageOp h h1.inv h1.count_le, rfl, hrec, hoff, hsrc, hdst, ?_⟩)
    · simp [Kern.sysIpcTrySend, henv, hrec, hsrc, hdst, hoff, hsd, hlook, hperm, hw, hdd, hins]
    · rw [hpte] at hw
      exact ⟨hpg, hperm, hw, h1.target_eq, h1.pte⟩

theorem Inv.ipcDeliver (h : Inv R s) (he : (s.envs e).envStatus ≠ .free) (value : BitVec 32) :
    Inv R (ipcDeliver s cur e value perm) :=
  h.setEnv rfl rfl (by simp [he]) (h.envs.dstva_ok e)

end

end Jos.Kern
