import Jos.Kern.WriteAccess

/-!
# Failed system calls

A system call that returns a negative value has changed nothing but the contents of free frames, in
whatever state it was made: the checks come before the first change, and the one call that takes a page
before it can fail, `sys_page_alloc`, puts it back. All that is left of it is that the page has been
zeroed. No page table is in a free frame as long as no counter has wrapped around and no call has
written through a pointer of the kernel; otherwise the page that is zeroed can be a page table in use.

* `syscall_eq_neg`: the states before and after a call that fails differ in free frames only.
* `Unchanged.tables`: then no entry of a page table below `UTOP` differs in the states that `Reachable`
  allows.
* `error_atomic`: both together, for the nine calls.
* `failed_alloc_clears_table`: after two writes of `sys_env_set_trapframe` through pointers of the kernel
  a `sys_page_alloc` that fails clears a page table.
-/

namespace Jos.Kern

open Jos.Lib Kernel

/-- The physical address `x` is in a frame on `page_free_list`. -/
def InFreeFrame (s : Kernel) (x : Nat) : Prop :=
  ∃ p, OnFreeList s p ∧ pgnum (page2pa p) = x / 4096

/-- Nothing has changed but the contents of free frames. -/
structure Unchanged (s s' : Kernel) : Prop where
  envs : s'.envs = s.envs
  envFree : s'.envFreeList = s.envFreeList
  ppRef : s'.ppRef = s.ppRef
  ppLink : s'.ppLink = s.ppLink
  freeList : s'.pageFreeList = s.pageFreeList
  npages : s'.npages = s.npages
  kern : s'.kernPgdir = s.kernPgdir
  mem : ∀ x, ¬ InFreeFrame s x → s'.mem x = s.mem x

/-- The system calls that report errors and work on environments, pages or messages. -/
def Call.reports : Call → Bool
  | .exofork | .envSetStatus _ _ | .envSetPgfaultUpcall _ _ | .envDestroy _ | .pageAlloc _ _ _
  | .pageMap _ _ _ _ _ | .pageUnmap _ _ | .ipcTrySend _ _ _ _ | .ipcRecv _ => true
  | _ => false

section

variable {R : Nat → Prop} {s s' : Kernel} {cur : EnvIx} {d p pp : Nat} {va perm envid : BitVec 32}
  {r : Int} {zero : Bool} {c : Call}

theorem Unchanged.refl (s : Kernel) : Unchanged s s :=
  ⟨rfl, rfl, rfl, rfl, rfl, rfl, rfl, fun _ _ => rfl⟩

/-- In a reachable state no table is on the free list, so no entry changes either. -/
theorem Unchanged.tables (h : Unchanged s s') (hs : PageInv R [] s) :
    target s' = target s ∧ pteOf s' = pteOf s := by
  obtain ⟨free, hlink, hled, _⟩ := hs.accounts.pages
  have hst : SameTables R s s' := by
    refine .of_mem (fun f hf x hx hx' => h.mem x ?_) h.npages h.kern fun e => by rw [h.envs]
    rintro ⟨q, ⟨l, hl, hmem⟩, hq⟩
    rw [hl.unique hlink] at hmem
    have hown := hled.free_own q hmem
    have hlt := hs.shape.npages_le
    have hqlt : q < 2 ^ 20 := by
      have := hown.1
      omega
    have hqf : q = f := by
      rw [pgnum_eq, page2pa_toNat hqlt] at hq
      omega
    subst hqf
    rcases hf with hR | ⟨k, _, hk⟩
    · exact hown.2.1 hR
    · exact hled.free_unref q hmem k hk
  exact ⟨hst.target_eq, hst.pteOf_eq⟩

/-! ## Pages -/

theorem pageAlloc_eq_none (h : pageAlloc s zero = some (s', none)) :
    s' = s ∧ s.pageFreeList = none := by
  unfold pageAlloc at h
  split at h
  · rename_i hfl
    cases h
    exact ⟨rfl, hfl⟩
  · split at h
    · simp only [Option.bind_eq_bind, Option.bind_eq_some_iff] at h
      obtain ⟨kva, _, h⟩ := h
      cases h
    · cases h

/-- `page_alloc` with `ALLOC_ZERO` takes the head of the list and zeroes it. -/
theorem pageAlloc_eq_some (h : pageAlloc s true = some (s', some p)) :
    s.pageFreeList = some p ∧ s' = { s with
      pageFreeList := s.ppLink p
      ppLink := Function.update s.ppLink p none
      mem := s.mem.fill (page2pa p).toNat 0 pgsize } := by
  unfold pageAlloc at h
  split at h
  · cases h
  · rename_i q hfl
    simp only [if_true, Option.bind_eq_bind, Option.bind_eq_some_iff, kaddr] at h
    obtain ⟨kva, hkva, h⟩ := h
    split at hkva
    · cases hkva
      cases h
      exact ⟨hfl, rfl⟩
    · cases hkva

/-- `page_insert` fails only for want of a page table, and then nothing has been done. -/
theorem pageInsert_eq_neg (h : pageInsert s d pp va perm = some (s', r)) (hr : r < 0) :
    s' = s ∧ s.pageFreeList = none := by
  simp only [pageInsert, Option.bind_eq_bind, Option.bind_eq_some_iff] at h
  obtain ⟨⟨s1, q⟩, hwalk, h⟩ := h
  cases q with
  | some pte =>
      simp only [Option.bind_eq_some_iff] at h
      obtain ⟨s2, _, h⟩ := h
      cases h
      exact absurd hr (by decide)
  | none =>
      cases h
      simp only [pgdirWalk] at hwalk
      split at hwalk
      · simp only [Option.bind_eq_bind, Option.bind_eq_some_iff] at hwalk
        obtain ⟨t, _, h⟩ := hwalk
        cases h
      · simp only [if_true, Option.bind_eq_bind, Option.bind_eq_some_iff] at hwalk
        obtain ⟨⟨s2, q⟩, hal, h⟩ := hwalk
        cases q with
        | none =>
            cases h
            exact pageAlloc_eq_none hal
        | some q =>
            simp only [Option.bind_eq_some_iff] at h
            obtain ⟨t, _, h⟩ := h
            cases h

/-- The page that `sys_page_alloc` has taken goes back where it came from. -/
theorem unchanged_putBack {s1 : Kernel} (hal : pageAlloc s true = some (s1, some p))
    (hnone : s1.pageFreeList = none) (hfree : pageFree s1 p = some s') : Unchanged s s' := by
  obtain ⟨hhead, rfl⟩ := pageAlloc_eq_some hal
  have hlink : s.ppLink p = none := hnone
  unfold pageFree at hfree
  split at hfree
  · cases hfree
  · cases hfree
    have hpp : Function.update (Function.update s.ppLink p none) p (s.ppLink p) = s.ppLink := by
      rw [Function.update_idem, Function.update_eq_self]
    refine ⟨rfl, rfl, rfl, hpp, hhead.symm, rfl, rfl, fun x hx => ?_⟩
    apply Mem.fill_of_disjoint
    by_contra hin
    refine hx ⟨p, ⟨[p], ?_, List.mem_singleton_self p⟩, ?_⟩
    · rw [hhead]
      exact ⟨rfl, hlink⟩
    · have hpg : pgsize = 4096 := rfl
      have hal : (page2pa p).toNat % 4096 = 0 := by
        simp only [page2pa, BitVec.toNat_shiftLeft, Nat.shiftLeft_eq, BitVec.toNat_ofNat]
        omega
      rw [pgnum_eq]
      omega

/-! ## Environments -/

theorem envSetupVm_eq_neg {e : EnvIx} (h : envSetupVm s e = some (s', r)) (hr : r < 0) : s' = s := by
  simp only [envSetupVm, Option.bind_eq_bind, Option.bind_eq_some_iff] at h
  obtain ⟨⟨s1, q⟩, hal, h⟩ := h
  cases q with
  | none =>
      cases h
      exact (pageAlloc_eq_none hal).1
  | some q =>
      simp only [Option.bind_eq_some_iff] at h
      obtain ⟨kva, _, h⟩ := h
      cases h
      exact absurd hr (by decide)

theorem envAlloc_eq_error {parentId : BitVec 32} (h : envAlloc s parentId = some (s', .error r)) :
    s' = s := by
  unfold envAlloc at h
  split at h
  · cases h
    rfl
  · simp only [Option.bind_eq_bind, Option.bind_eq_some_iff] at h
    obtain ⟨⟨s1, q⟩, hvm, h⟩ := h
    simp only at h
    split at h
    · rename_i hneg
      cases h
      exact envSetupVm_eq_neg hvm hneg
    · cases h

theorem envAlloc_id {parentId : BitVec 32} {e : EnvIx}
    (h : envAlloc s parentId = some (s', .ok e)) : ∃ id, (s'.envs e).envId = nextEnvId e id := by
  unfold envAlloc at h
  split at h
  · cases h
  · simp only [Option.bind_eq_bind, Option.bind_eq_some_iff] at h
    obtain ⟨⟨s1, q⟩, hvm, h⟩ := h
    simp only at h
    split at h
    · cases h
    · cases h
      exact ⟨(s1.envs e).envId, by simp⟩

/-! ## The system calls -/

theorem sysPageAlloc_eq_neg (h : sysPageAlloc s cur envid va perm = some (s', .ret r))
    (hr : r < 0) : Unchanged s s' := by
  unfold sysPageAlloc at h
  split at h
  · cases h
    exact .refl s
  split at h
  · cases h
    exact .refl s
  split at h
  · cases h
    exact .refl s
  simp only [Option.bind_eq_bind, Option.bind_eq_some_iff] at h
  obtain ⟨⟨s1, q⟩, hal, h⟩ := h
  cases q with
  | none =>
      cases h
      rw [(pageAlloc_eq_none hal).1]
      exact .refl s
  | some pg =>
      simp only [Option.bind_eq_some_iff] at h
      obtain ⟨d, _, ⟨s2, r2⟩, hins, h⟩ := h
      simp only at h
      split at h
      · rename_i hneg
        obtain ⟨rfl, hnone⟩ := pageInsert_eq_neg hins hneg
        simp only [Option.bind_eq_some_iff] at h
        obtain ⟨s3, hfree, h⟩ := h
        cases h
        exact unchanged_putBack hal hnone hfree
      · cases h
        exact absurd hr (by decide)

theorem sysPageMap_eq_neg {srcenvid srcva dstenvid dstva : BitVec 32}
    (h : sysPageMap s cur srcenvid srcva dstenvid dstva perm = some (s', .ret r)) (hr : r < 0) :
    s' = s := by
  unfold sysPageMap at h
  split at h
  swap
  · cases h
    rfl
  split at h
  · cases h
    rfl
  simp only [Option.bind_eq_bind, Option.bind_eq_some_iff] at h
  obtain ⟨d, _, q, _, h⟩ := h
  cases q with
  | none =>
      cases h
      rfl
  | some q =>
      simp only at h
      split at h
      · cases h
        rfl
      split at h
      · cases h
        rfl
      simp only [Option.bind_eq_some_iff] at h
      obtain ⟨d', _, ⟨s2, r2⟩, hins, h⟩ := h
      simp only at h
      split at h
      · rename_i hneg
        cases h
        exact (pageInsert_eq_neg hins hneg).1
      · cases h
        exact absurd hr (by decide)

theorem sysPageUnmap_eq_neg (h : sysPageUnmap s cur envid va = some (s', .ret r)) (hr : r < 0) :
    s' = s := by
  unfold sysPageUnmap at h
  split at h
  · cases h
    rfl
  split at h
  · cases h
    rfl
  simp only [Option.bind_eq_bind, Option.bind_eq_some_iff] at h
  obtain ⟨d, _, s1, _, h⟩ := h
  cases h
  exact absurd hr (by decide)

theorem sysIpcTrySend_eq_neg {value srcva : BitVec 32}
    (h : sysIpcTrySend s cur envid value srcva perm = some (s', .ret r)) (hr : r < 0) : s' = s := by
  unfold sysIpcTrySend at h
  split at h
  · cases h
    rfl
  split at h
  · cases h
    rfl
  split at h
  swap
  · cases h
    exact absurd hr (by decide)
  split at h
  · cases h
    rfl
  simp only [Option.bind_eq_bind, Option.bind_eq_some_iff] at h
  obtain ⟨d, _, q, _, h⟩ := h
  cases q with
  | none =>
      cases h
      rfl
  | some q =>
      simp only at h
      split at h
      · cases h
        rfl
      split at h
      · cases h
        rfl
      simp only [Option.bind_eq_some_iff] at h
      obtain ⟨d', _, ⟨s2, r2⟩, hins, h⟩ := h
      simp only at h
      split at h
      · rename_i hneg
        cases h
        exact (pageInsert_eq_neg hins hneg).1
      · cases h
        exact absurd hr (by decide)

theorem sysExofork_eq_neg (h : sysExofork s cur = some (s', .ret r)) (hr : r < 0) : s' = s := by
  unfold sysExofork at h
  simp only [Option.bind_eq_bind, Option.bind_eq_some_iff] at h
  obtain ⟨⟨s1, q⟩, hal, h⟩ := h
  cases q with
  | error n =>
      cases h
      exact envAlloc_eq_error hal
  | ok e =>
      obtain ⟨id, hid⟩ := envAlloc_id hal
      have hpos := nextEnvId_pos e id
      simp only [setEnv_self, exoforkEnv, hid] at h
      cases h
      omega

theorem sysEnvDestroy_eq_neg (h : sysEnvDestroy s cur envid = some (s', .ret r)) (hr : r < 0) :
    s' = s := by
  unfold sysEnvDestroy at h
  split at h
  · cases h
    rfl
  · simp only [Option.bind_eq_bind, Option.bind_eq_some_iff] at h
    obtain ⟨⟨s1, f⟩, _, h⟩ := h
    cases f
    · cases h
      exact absurd hr (by decide)
    · cases h

theorem syscall_eq_neg (hc : c.reports = true) (h : syscall s cur c = some (s', .ret r))
    (hr : r < 0) : Unchanged s s' := by
  have hsame : s' = s → Unchanged s s' := by
    rintro rfl
    exact .refl _
  cases c with
  | exofork => exact hsame (sysExofork_eq_neg h hr)
  | envDestroy envid => exact hsame (sysEnvDestroy_eq_neg h hr)
  | pageAlloc envid va perm => exact sysPageAlloc_eq_neg h hr
  | pageMap srcenvid srcva dstenvid dstva perm => exact hsame (sysPageMap_eq_neg h hr)
  | pageUnmap envid va => exact hsame (sysPageUnmap_eq_neg h hr)
  | ipcTrySend envid value srcva perm => exact hsame (sysIpcTrySend_eq_neg h hr)
  | envSetStatus envid status =>
      simp only [syscall, sysEnvSetStatus, Option.some.injEq] at h
      split at h
      · cases h
        exact .refl _
      split at h
      · cases h
        exact .refl _
      · cases h
        exact absurd hr (by decide)
  | envSetPgfaultUpcall envid func =>
      simp only [syscall, sysEnvSetPgfaultUpcall, Option.some.injEq] at h
      split at h
      · cases h
        exact .refl _
      · cases h
        exact absurd hr (by decide)
  | ipcRecv dstva =>
      simp only [syscall, sysIpcRecv, Option.some.injEq] at h
      split at h
      · cases h
        exact .refl _
      · cases h
  | _ => cases hc

/-- A call that reports a negative result leaves everything as it was but the contents of free frames.
In a state reached with counters that did not wrap and safe stores no page table is such a frame, so
the page tables are the same too. -/
theorem error_atomic (hc : c.reports = true) (hrun : syscall s cur c = some (s', .ret r))
    (hr : r < 0) :
    Unchanged s s' ∧ ∀ R, Reachable R s → target s' = target s ∧ pteOf s' = pteOf s := by
  have h := syscall_eq_neg hc hrun hr
  exact ⟨h, fun R hs => h.tables hs.inv.1.pages⟩

end

/-- Eleven pages and their page table leave one free frame. -/
def fullRun : List Cmd :=
  .create :: (List.range 11).map fun i =>
    .call env0 (.pageAlloc 0#32 (BitVec.ofNat 32 (4096 * (i + 1))) 7#32)

/-- The last frame is taken for the page; there is none left for its page table. -/
theorem error_atomic_full : ∃ s', syscall (smallAfter fullRun) env0
      (.pageAlloc 0#32 0x400000#32 7#32) = some (s', .ret (-eNoMem)) ∧
    Unchanged (smallAfter fullRun) s' ∧ pteOf s' = pteOf (smallAfter fullRun) ∧
    s'.pageFreeList = some 15 := by
  have hout : (syscall (smallAfter fullRun) env0 (.pageAlloc 0#32 0x400000#32 7#32)).map (·.2) =
      some (.ret (-eNoMem)) := by decide +kernel
  obtain ⟨⟨s', o⟩, hrun, heq⟩ := Option.map_eq_some_iff.mp hout
  cases heq
  obtain ⟨hun, htab⟩ := error_atomic rfl hrun (by decide)
  refine ⟨s', hrun, hun, (htab _ (smallAfter_reachable (by decide +kernel) (by decide))).2, ?_⟩
  rw [hun.freeList]
  decide +kernel

/-! ## A page table in a free frame -/

/-- A machine with four free frames, and with the memory of `kernMapped`, so that the kernel's addresses
are mapped. -/
def tight : Kernel := { kernMapped with
  npages := 6
  ppRef := small.ppRef
  ppLink p := if 2 ≤ p ∧ p < 5 then some (p + 1) else none
  pageFreeList := some 2 }

theorem tight_booted : Booted smallReserved tight where
  kern := kernMapped_shape rfl rfl (by decide : 0 < 2) (by decide : 1 < 2) (by decide) (by decide)
  free := by
    refine ⟨[2, 3, 4, 5], by simp [tight], by decide, fun p => ?_⟩
    simp only [List.mem_cons, List.not_mem_nil, or_false, tight, smallReserved]
    omega
  unref := small_booted.unref
  envs e := ⟨rfl, rfl, rfl, rfl, rfl⟩
  envFree := rfl

/-- The first environment ends, the second one makes a child, whose directory is in frame 2, and takes
the two other frames for a page and its page table. -/
def tightRun : List Cmd :=
  [.create, .create, .call env0 (.envDestroy 0#32), .call env1 .exofork,
    .call env1 (.pageAlloc 0#32 0x1000#32 7#32)]

/-- The last entry of the stray table that is not zero. -/
def strayPte : Slot := (env1, ⟨16, by decide⟩, ⟨960, by decide⟩)

/-- Each `sys_env_set_trapframe` destroys a child, which frees frame 2, and writes to the kernel's
addresses of the page directory in frame 3. The second write is one byte further on: entry 16 becomes
0x2323, a page table in frame 2. The `sys_page_alloc` takes that frame off the list, clears it and finds
none for the page table that it needs. -/
theorem failed_alloc_clears_table : ∃ s s1 s2 s3 s', Reachable smallReserved s ∧
    syscall s env1 (.envSetTrapframe 0x2000#32 0xF000301C#32) = some (s1, .ret 0) ∧
    syscall s1 env1 .exofork = some (s2, .ret 0x3000) ∧
    syscall s2 env1 (.envSetTrapframe 0x3000#32 0xF000301D#32) = some (s3, .ret 0) ∧
    (s3.envs env1).envStatus ≠ .free ∧
    syscall s3 env1 (.pageAlloc 0#32 0x400000#32 7#32) = some (s', .ret (-eNoMem)) ∧
    pteOf s' ≠ pteOf s3 := by
  have hall : (do
      let s ← tightRun.foldlM exec tight
      let x1 ← syscall s env1 (.envSetTrapframe 0x2000#32 0xF000301C#32)
      let x2 ← syscall x1.1 env1 .exofork
      let x3 ← syscall x2.1 env1 (.envSetTrapframe 0x3000#32 0xF000301D#32)
      let x4 ← syscall x3.1 env1 (.pageAlloc 0#32 0x400000#32 7#32)
      some ([x1.2, x2.2, x3.2, x4.2], (x3.1.envs env1).envStatus, pteOf x3.1 strayPte,
        pteOf x4.1 strayPte)) =
      some ([.ret 0, .ret 0x3000, .ret 0, .ret (-eNoMem)], .runnable, 7#32, 0#32) := by
    unfold exec execEvent syscall sysEnvDestroy sysEnvSetTrapframe trapframeCheck userMemAssert envDestroy
    rw [envFree_eq_byte]
    decide +kernel
  simp only [Option.bind_eq_bind, Option.bind_eq_some_iff, Option.some.injEq, Prod.mk.injEq,
    List.cons.injEq, and_true] at hall
  obtain ⟨s, hs, ⟨s1, _⟩, h1, ⟨s2, _⟩, h2, ⟨s3, _⟩, h3, ⟨s4, _⟩, h4, ⟨rfl, rfl, rfl, rfl⟩, hst, hbefore,
    hafter⟩ := hall
  refine ⟨s, s1, s2, s3, s4, (((ReachedIn.boot tight_booted).execAll hs).reachable (by decide)).1, h1, h2,
    h3, by rw [hst]; decide, h4, fun heq => ?_⟩
  rw [heq, hbefore] at hafter
  exact absurd hafter (by decide)

end Jos.Kern
