import Jos.Kern.SyscallSpec

/-!
# How many pages stay free

A system call that maps a page takes at most one page for it and one for a page table, and the
latter only where there is no table yet. `Spare s n` says that `n` pages are free.
-/

namespace Jos.Kern

open Jos.Lib Kernel

/-- There are at least `n` pages on `page_free_list`. -/
def Spare (s : Kernel) (n : Nat) : Prop :=
  ∃ l, Linked s.ppLink s.pageFreeList l ∧ l.Nodup ∧ n ≤ l.length

/-- Frame `p` is not on `page_free_list`. -/
def InUse (s : Kernel) (p : Nat) : Prop := ∀ l, Linked s.ppLink s.pageFreeList l → p ∉ l

section

variable {R : Nat → Prop} {held : List Nat} {s s' : Kernel} {cur e : EnvIx} {d p pp n : Nat}
  {va perm : BitVec 32} {k : Place}

theorem Spare.mono {k : Nat} (h : Spare s n) (hle : k ≤ n) : Spare s k := by
  obtain ⟨l, hl, hnd, hn⟩ := h
  exact ⟨l, hl, hnd, Nat.le_trans hle hn⟩

theorem Spare.congr (h : Spare s n) (hlink : s'.ppLink = s.ppLink)
    (hfree : s'.pageFreeList = s.pageFreeList) : Spare s' n := by
  rw [Spare, hlink, hfree]
  exact h

theorem Spare.ne_none (h : Spare s (n + 1)) : s.pageFreeList ≠ none := by
  obtain ⟨l, hl, _, hn⟩ := h
  intro hnone
  rw [hnone] at hl
  rw [hl.eq_nil] at hn
  exact absurd hn (by simp)

/-- A frame that some place refers to is in use. -/
theorem PageInv.inUse (h : PageInv R held s) (hk : target s k = some p) : InUse s p := by
  intro l hl
  obtain ⟨free, hlink, hled, _⟩ := h.accounts.pages
  rw [hl.unique hlink]
  exact hled.target_notMem hk

theorem lookup_inUse {pte : Nat} (h : PageInv R held s) (hd : (s.envs e).envPgdir = some d)
    (hva : va < utop) (hlook : pageLookup s d va = some (some (p, pte))) : InUse s p := by
  rcases h.pageLookup hd hva with ⟨_, hnone⟩ | ⟨q, _, hq, hsome, _⟩
  · rw [hnone] at hlook
    cases hlook
  · rw [hsome] at hlook
    cases hlook
    rw [← target_placeOf] at hq
    exact h.inUse hq

/-! ## The allocator -/

theorem spare_pageAlloc {zero : Bool} {q : Option Nat} (hs : Spare s (n + 1))
    (h : pageAlloc s zero = some (s', q)) : Spare s' n := by
  obtain ⟨l, hl, hnd, hn⟩ := hs
  unfold pageAlloc at h
  split at h
  · rename_i hnone
    rw [hnone] at hl
    rw [hl.eq_nil] at hn
    exact absurd hn (by simp)
  · rename_i page hfl
    rw [hfl] at hl
    obtain ⟨l', rfl, _⟩ := hl.exists_cons
    have hafter : Spare { s with
        pageFreeList := s.ppLink page
        ppLink := Function.update s.ppLink page none } n :=
      ⟨l', hl.pop hnd, (List.nodup_cons.mp hnd).2, by simpa using hn⟩
    split at h
    · simp only [Option.bind_eq_bind, Option.bind_eq_some_iff] at h
      obtain ⟨_, _, h⟩ := h
      cases h
      exact hafter
    · cases h
      exact hafter

theorem spare_pageFree (hs : Spare s n) (hp : InUse s pp) (h : pageFree s pp = some s') :
    Spare s' n := by
  obtain ⟨l, hl, hnd, hn⟩ := hs
  unfold pageFree at h
  split at h
  · cases h
  · cases h
    exact ⟨pp :: l, hl.push (hp l hl), List.nodup_cons.mpr ⟨hp l hl, hnd⟩,
      Nat.le_trans hn (Nat.le_succ _)⟩

theorem spare_pageDecref (hs : Spare s n) (hp : InUse s pp) (h : pageDecref s pp = some s') :
    Spare s' n := by
  unfold pageDecref at h
  simp only at h
  split at h
  · have hs1 : Spare { s with ppRef := Function.update s.ppRef pp (s.ppRef pp - 1#16) } n :=
      hs.congr rfl rfl
    exact spare_pageFree hs1 hp h
  · cases h
    exact hs.congr rfl rfl

/-! ## Page tables -/

theorem spare_pageRemove (hs : Spare s n)
    (hp : ∀ q pte, pageLookup s d va = some (some (q, pte)) → InUse s q)
    (h : pageRemove s d va = some s') : Spare s' n := by
  simp only [pageRemove, Option.bind_eq_bind, Option.bind_eq_some_iff] at h
  obtain ⟨q, hlook, h⟩ := h
  cases q with
  | none =>
      cases h
      exact hs
  | some q =>
      obtain ⟨q, pte⟩ := q
      simp only [Option.bind_eq_some_iff] at h
      obtain ⟨s1, hdec, h⟩ := h
      have h1 := spare_pageDecref hs (hp q pte hlook) hdec
      cases h
      split
      · exact h1.congr rfl rfl
      · exact h1

theorem pageLookup_incRef : pageLookup (s.incRef pp) d va = pageLookup s d va := by
  unfold pageLookup pgdirWalk
  by_cases hz : s.entry d (pdx va) = 0#32
  · have hz' : (s.incRef pp).entry d (pdx va) = 0#32 := hz
    simp [hz, hz']
  · have hz' : (s.incRef pp).entry d (pdx va) ≠ 0#32 := hz
    have hka : (s.incRef pp).kaddr (pteAddr ((s.incRef pp).entry d (pdx va))) =
        s.kaddr (pteAddr (s.entry d (pdx va))) := rfl
    simp only [ne_eq, hz, hz', not_false_eq_true, if_true, hka]
    cases s.kaddr (pteAddr (s.entry d (pdx va))) with
    | none => rfl
    | some t => rfl

theorem spare_insertEntry {pte : Nat} (h : PageInv R held s)
    (hd : (s.envs e).envPgdir = some d) (hva : va < utop) (hs : Spare s n)
    (hrun : insertEntry s d pp va perm pte = some s') : Spare s' n := by
  have hs1 : Spare (s.incRef pp) n := hs.congr rfl rfl
  simp only [insertEntry] at hrun
  split at hrun
  · simp only [Option.bind_eq_bind, Option.bind_eq_some_iff] at hrun
    obtain ⟨s1, hrem, hrun⟩ := hrun
    cases hrun
    refine Spare.congr (spare_pageRemove hs1 (fun q pte hlook => ?_) hrem) rfl rfl
    rw [pageLookup_incRef] at hlook
    have huse : InUse s q := lookup_inUse h hd hva hlook
    exact huse
  · cases hrun
    exact hs1.congr rfl rfl

/-- `pgdir_walk` takes a page when it makes a table. -/
theorem spare_pgdirWalk {create : Bool} {q : Option Nat} (hs : Spare s (n + 1))
    (h : pgdirWalk s d va create = some (s', q)) : Spare s' n := by
  unfold pgdirWalk at h
  simp only at h
  split at h
  · simp only [Option.bind_eq_bind, Option.bind_eq_some_iff] at h
    obtain ⟨_, _, h⟩ := h
    cases h
    exact hs.mono (Nat.le_succ n)
  · split at h
    · simp only [Option.bind_eq_bind, Option.bind_eq_some_iff] at h
      obtain ⟨⟨s1, q1⟩, hal, h⟩ := h
      have h1 := spare_pageAlloc hs hal
      cases q1 with
      | none =>
          cases h
          exact h1
      | some t =>
          simp only [Option.bind_eq_some_iff] at h
          obtain ⟨_, _, h⟩ := h
          cases h
          exact h1.congr rfl rfl
    · cases h
      exact hs.mono (Nat.le_succ n)

theorem spare_pageInsert_table {r : Int} (h : PageInv R held s)
    (hd : (s.envs e).envPgdir = some d) (hva : va < utop)
    (ht : target s (.pde e ⟨pdx va, pdx_lt_of_lt_utop hva⟩) ≠ none) (hs : Spare s n)
    (hrun : pageInsert s d pp va perm = some (s', r)) : Spare s' n := by
  obtain ⟨t, ht⟩ := Option.ne_none_iff_exists'.mp ht
  simp only [pageInsert, h.shape.pgdirWalk_table hd rfl rfl (j := ⟨ptx va, ptx_lt va⟩) ht,
    Option.bind_eq_bind, Option.bind_some, Option.bind_eq_some_iff] at hrun
  obtain ⟨s1, hins, hrun⟩ := hrun
  cases hrun
  exact spare_insertEntry h hd hva hs hins

theorem spare_pageInsert {r : Int} (h : PageInv R held s)
    (hd : (s.envs e).envPgdir = some d) (hva : va < utop) (hs : Spare s (n + 1))
    (hrun : pageInsert s d pp va perm = some (s', r)) : Spare s' n := by
  cases ht : target s (.pde e ⟨pdx va, pdx_lt_of_lt_utop hva⟩) with
  | some t =>
      exact (spare_pageInsert_table h hd hva (by rw [ht]; simp) hs hrun).mono (Nat.le_succ n)
  | none =>
      simp only [pageInsert, Option.bind_eq_bind, Option.bind_eq_some_iff] at hrun
      obtain ⟨⟨s1, q⟩, hwalk, hrun⟩ := hrun
      have h1 := spare_pgdirWalk hs hwalk
      rcases h.pgdirWalk_create hd rfl rfl (j := ⟨ptx va, ptx_lt va⟩) ht with
        ⟨_, hnone⟩ | ⟨t, s2, hsome, hinv, _, _, htab, _⟩
      · rw [hnone] at hwalk
        cases hwalk
        cases hrun
        exact h1
      · rw [hsome] at hwalk
        cases hwalk
        simp only [Option.bind_eq_some_iff] at hrun
        obtain ⟨s3, hins, hrun⟩ := hrun
        cases hrun
        have hd1 : (s1.envs e).envPgdir = some d := by rw [htab.envs, hd]
        exact spare_insertEntry hinv hd1 hva h1 hins

/-! ## System calls -/

theorem spare_sysPageAlloc {envid : BitVec 32} (h : Inv R s) (hs : Spare s (n + 2))
    (hrun : sysPageAlloc s cur envid va perm = some (s', .ret 0)) : Spare s' n := by
  unfold sysPageAlloc at hrun
  split at hrun
  · cases hrun
  rename_i e henv
  split at hrun
  · cases hrun
  rename_i hbad
  split at hrun
  · cases hrun
  simp only [Option.bind_eq_bind, Option.bind_eq_some_iff] at hrun
  obtain ⟨⟨s1, q⟩, hal, hrun⟩ := hrun
  have h1 := spare_pageAlloc hs hal
  rcases h.pages.pageAlloc true with ⟨_, hnone⟩ | ⟨pg, s2, hal', htk⟩
  · rw [hnone] at hal
    cases hal
    cases hrun
  rw [hal'] at hal
  cases hal
  obtain ⟨hva, _⟩ := badVa_eq_false (by simpa using hbad)
  simp only [Option.bind_eq_some_iff] at hrun
  obtain ⟨d, hd, ⟨s3, r⟩, hins, hrun⟩ := hrun
  have h3 := spare_pageInsert htk.inv hd hva h1 hins
  simp only at hrun
  split at hrun
  · simp only [Option.bind_eq_some_iff] at hrun
    obtain ⟨s4, _, hrun⟩ := hrun
    cases hrun
  · cases hrun
    exact h3

/-- The part of `sys_page_map` that can take pages. -/
theorem sysPageMap_insert {srcenvid srcva dstenvid : BitVec 32}
    (hrun : sysPageMap s cur srcenvid srcva dstenvid va perm = some (s', .ret 0)) :
    ∃ e d pg r, envid2env s cur dstenvid true = some e ∧ (s.envs e).envPgdir = some d ∧
      pageInsert s d pg va perm = some (s', r) := by
  unfold sysPageMap at hrun
  split at hrun
  · rename_i srcE dstE hsrc hdst
    split at hrun
    · cases hrun
    simp only [Option.bind_eq_bind, Option.bind_eq_some_iff] at hrun
    obtain ⟨sd, _, q, _, hrun⟩ := hrun
    cases q with
    | none => cases hrun
    | some q =>
        simp only at hrun
        split at hrun
        · cases hrun
        split at hrun
        · cases hrun
        simp only [Option.bind_eq_some_iff] at hrun
        obtain ⟨d, hd, ⟨s1, r⟩, hins, hrun⟩ := hrun
        simp only at hrun
        split at hrun
        · cases hrun
        · cases hrun
          exact ⟨dstE, d, q.1, r, hdst, hd, hins⟩
  · cases hrun

theorem spare_sysPageMap {srcenvid srcva dstenvid : BitVec 32} (h : Inv R s) (hva : va < utop)
    (hs : Spare s (n + 1))
    (hrun : sysPageMap s cur srcenvid srcva dstenvid va perm = some (s', .ret 0)) :
    Spare s' n := by
  obtain ⟨e, d, pg, r, _, hd, hins⟩ := sysPageMap_insert hrun
  exact spare_pageInsert h.pages hd hva hs hins

/-- Where there is a page table, no page is taken. -/
theorem spare_sysPageMap_table {srcenvid srcva dstenvid : BitVec 32} (h : Inv R s) (hva : va < utop)
    (he : envid2env s cur dstenvid true = some e)
    (ht : target s (.pde e ⟨pdx va, pdx_lt_of_lt_utop hva⟩) ≠ none) (hs : Spare s n)
    (hrun : sysPageMap s cur srcenvid srcva dstenvid va perm = some (s', .ret 0)) :
    Spare s' n := by
  obtain ⟨e', d, pg, r, he', hd, hins⟩ := sysPageMap_insert hrun
  rw [he] at he'
  cases he'
  exact spare_pageInsert_table h.pages hd hva ht hs hins

theorem spare_sysPageUnmap {envid : BitVec 32} {o : Outcome} (h : Inv R s) (hs : Spare s n)
    (hrun : sysPageUnmap s cur envid va = some (s', o)) : Spare s' n := by
  unfold sysPageUnmap at hrun
  split at hrun
  · cases hrun
    exact hs
  split at hrun
  · cases hrun
    exact hs
  rename_i hbad
  obtain ⟨hva, _⟩ := badVa_eq_false (by simpa using hbad)
  simp only [Option.bind_eq_bind, Option.bind_eq_some_iff] at hrun
  obtain ⟨d, hd, s1, hrem, hrun⟩ := hrun
  cases hrun
  exact spare_pageRemove hs (fun q pte hlook => lookup_inUse h.pages hd hva hlook) hrem

theorem spare_envAlloc {parentId : BitVec 32} (hs : Spare s (n + 1))
    (hrun : envAlloc s parentId = some (s', .ok e)) : Spare s' n := by
  unfold envAlloc at hrun
  split at hrun
  · cases hrun
  simp only [Option.bind_eq_bind, Option.bind_eq_some_iff, envSetupVm] at hrun
  obtain ⟨⟨s1, r⟩, ⟨⟨s2, q⟩, hal, hvm⟩, hrun⟩ := hrun
  have h2 := spare_pageAlloc hs hal
  cases q with
  | none =>
      cases hvm
      simp only at hrun
      rw [if_pos (by decide)] at hrun
      cases hrun
  | some p =>
      simp only [Option.bind_eq_some_iff] at hvm
      obtain ⟨kva, _, hvm⟩ := hvm
      cases hvm
      simp only at hrun
      rw [if_neg (by decide)] at hrun
      cases hrun
      exact h2.congr rfl rfl

/-! ## Enough pages -/

/-- Where there is a page table, `page_insert` does not fail. -/
theorem pageInsert_table {r : Int} (h : PageInv R held s) (hd : (s.envs e).envPgdir = some d)
    (hva : va < utop) (ht : target s (.pde e ⟨pdx va, pdx_lt_of_lt_utop hva⟩) ≠ none)
    (hrun : pageInsert s d pp va perm = some (s', r)) : r = 0 := by
  obtain ⟨t, ht⟩ := Option.ne_none_iff_exists'.mp ht
  simp only [pageInsert, h.shape.pgdirWalk_table hd rfl rfl (j := ⟨ptx va, ptx_lt va⟩) ht,
    Option.bind_eq_bind, Option.bind_some, Option.bind_eq_some_iff] at hrun
  obtain ⟨_, _, hrun⟩ := hrun
  cases hrun
  rfl

/-- A page, and a page table if there is none. -/
theorem sysPageAlloc_ok {envid : BitVec 32} (h : Inv R s) (hcur : (s.envs cur).envStatus ≠ .free)
    (he : envid2env s cur envid true = some e) (hbad : badVa va = false) (hva : va < utop)
    (hperm : badPerm perm = false) (hb : DropOk s (placeOf (slotOf e va hva)))
    (hs : Spare s 2 ∨ Spare s 1 ∧ target s (.pde e ⟨pdx va, pdx_lt_of_lt_utop hva⟩) ≠ none) :
    ∃ s' pg, sysPageAlloc s cur envid va perm = some (s', .ret 0) ∧ PageOp R s s' ∧
      PageAllocated s (slotOf e va hva) perm pg s' := by
  rcases h.sysPageAlloc hcur envid va perm (fun e' _ he' => by
      rw [he] at he'
      cases he'
      exact hb) with ⟨s', r, hr, hrun, _⟩ | ⟨s', e', pg, hrun, hop, he', _, _, hva', hal⟩
  · exfalso
    have hs1 : Spare s 1 := by
      rcases hs with hs | ⟨hs, _⟩
      · exact hs.mono (by decide)
      · exact hs
    rcases h.pages.pageAlloc true with ⟨hnone, _⟩ | ⟨pg, s1, hal, htk⟩
    · exact hs1.ne_none hnone
    obtain ⟨d, hd⟩ := h.envs.exists_pgdir (envid2env_live hcur he)
    have hd1 : (s1.envs e).envPgdir = some d := by rw [htk.envs, hd]
    have hb1 : DropOk s1 (placeOf (slotOf e va hva)) := by
      intro q hq
      rw [htk.same.target_eq] at hq ⊢
      exact hb q hq
    rcases htk.inv.pageInsert perm (Or.inr ⟨rfl, by simp⟩) hd1 rfl rfl (badPerm_eq_false hperm)
        (i := ⟨pdx va, pdx_lt_of_lt_utop hva⟩) (j := ⟨ptx va, ptx_lt va⟩) hb1 with
      ⟨hfull, hins⟩ | ⟨s2, hins, _⟩
    · rcases hs with hs | ⟨_, ht⟩
      · exact (spare_pageAlloc hs hal).ne_none hfull
      · rw [← htk.same.target_eq] at ht
        exact absurd (pageInsert_table htk.inv hd1 hva ht hins) (by decide)
    · have hok : sysPageAlloc s cur envid va perm = some (s2, .ret 0) := by
        simp [sysPageAlloc, he, hbad, hperm, hal, hd1, hins]
      rw [hok] at hrun
      cases hrun
      exact hr rfl
  · rw [he] at he'
    cases he'
    exact ⟨s', pg, hrun, hop, hal⟩

/-- A page directory and a free environment. -/
theorem envAlloc_ok (parentId : BitVec 32) (h : Inv R s) (hfree : s.envFreeList ≠ none)
    (hs : Spare s 1) :
    ∃ s' e, envAlloc s parentId = some (s', .ok e) ∧ EnvAllocated R s parentId e s' := by
  rcases h.envAlloc parentId with ⟨r, _, hrun⟩ | hok
  · exfalso
    obtain ⟨e, hfl⟩ := Option.ne_none_iff_exists'.mp hfree
    obtain ⟨l, hl, _, hmem⟩ := h.envs.free_list
    rw [hfl] at hl
    have hstat : (s.envs e).envStatus = .free := (hmem e).mp hl.head_mem
    rcases h.pages.envSetupVm ((h.envs.pgdir_iff e).mpr hstat) with ⟨hnone, _⟩ | ⟨p, s1, hvm, _⟩
    · exact hs.ne_none hnone
    · simp [envAlloc, hfl, hvm] at hrun
  · exact hok

end

end Jos.Kern
