import Jos.Kern.Privilege

/-!
# Kernels in which no page is shared

As long as no environment passes a page on, every frame is mapped at one place at most, and no counter
can wrap around. This is kept by `env_create`, by `env_free` and by the system calls other than
`sys_page_map` and `sys_ipc_try_send`. `sys_env_set_trapframe` is left out as well: it may write to
memory that the caller cannot write.
-/

namespace Jos.Kern

open Jos.Lib Kernel

/-- No frame is mapped below `UTOP` at two places. -/
def Unshared (s : Kernel) : Prop :=
  ∀ k k' : Slot, ∀ p, entryTarget (pteOf s k) = some p → entryTarget (pteOf s k') = some p → k = k'

/-- The invariant of the kernel, with no page shared. -/
structure Single (R : Nat → Prop) (s : Kernel) : Prop where
  inv : Inv R s
  unshared : Unshared s

/-- The calls that do not share pages. -/
def Call.Keeps : Call → Prop
  | .pageMap .. | .ipcTrySend .. | .envSetTrapframe .. => False
  | _ => True

/-- The segments of a program are in user space, and have as much memory as bytes in the file. -/
def SegmentsLow (img : Mem) : Prop :=
  ∀ ph ∈ loadable (proghdrs img),
    ph.pFilesz.toNat ≤ ph.pMemsz.toNat ∧ ph.pVa.toNat + ph.pMemsz.toNat ≤ 4096 * lowPages

section

variable {R : Nat → Prop} {s s' : Kernel} {cur e : EnvIx} {d n p : Nat} {k : Slot} {w : BitVec 32}
  {c : Call} {o : Outcome} {f : Bool}

/-! ## Places -/

/-- A frame is referred to from one place at most. -/
theorem Single.target_inj (h : Single R s) {q q' : Place} (hq : target s q = some p)
    (hq' : target s q' = some p) : q = q' := by
  have htable := h.inv.pages.shape.table_unique
  cases q with
  | pgdir e => exact (htable _ _ p rfl hq hq').symm
  | pde e i => exact (htable _ _ p rfl hq hq').symm
  | pte e i j =>
      cases q' with
      | pgdir e' => exact htable _ _ p rfl hq' hq
      | pde e' i' => exact htable _ _ p rfl hq' hq
      | pte e' i' j' =>
          have hk : entryTarget (pteOf s (e, i, j)) = some p := by
            rw [← target_placeOf]
            exact hq
          have hk' : entryTarget (pteOf s (e', i', j')) = some p := by
            rw [← target_placeOf]
            exact hq'
          have heq := h.unshared _ _ p hk hk'
          simp only [Prod.mk.injEq] at heq
          obtain ⟨rfl, rfl, rfl⟩ := heq
          rfl

theorem Single.bounded (h : Single R s) : Bounded s := by
  intro p
  have hone : refCount (target s) p ≤ 1 := refCount_le_one fun q q' hq hq' => h.target_inj hq hq'
  omega

/-! ## Changes of the page tables -/

theorem Unshared.of_pte (h : Unshared s) (hpte : pteOf s' = pteOf s) : Unshared s' := by
  unfold Unshared
  rw [hpte]
  exact h

/-- Pages are only taken away. -/
theorem Unshared.of_sub (h : Unshared s)
    (hsub : ∀ k p, entryTarget (pteOf s' k) = some p → entryTarget (pteOf s k) = some p) :
    Unshared s' := by
  intro k k' p hk hk'
  exact h k k' p (hsub k p hk) (hsub k' p hk')

/-- A page that nobody had mapped is mapped. -/
theorem Unshared.insert (h : Unshared s) (hpte : pteOf s' = Function.update (pteOf s) k w)
    (hw : entryTarget w = some p) (hfresh : ¬ Mapped s p) : Unshared s' := by
  have hold : ∀ k' q, k' ≠ k → entryTarget (pteOf s' k') = some q →
      entryTarget (pteOf s k') = some q ∧ q ≠ p := by
    intro k' q hne hq
    rw [hpte, Function.update_of_ne hne] at hq
    refine ⟨hq, ?_⟩
    rintro rfl
    exact hfresh ⟨k', hq⟩
  have hnew : ∀ q, entryTarget (pteOf s' k) = some q → q = p := by
    intro q hq
    rw [hpte, Function.update_self, hw] at hq
    exact (Option.some.inj hq).symm
  intro k₁ k₂ q h₁ h₂
  by_cases hk₁ : k₁ = k
  · by_cases hk₂ : k₂ = k
    · rw [hk₁, hk₂]
    · rw [hk₁] at h₁
      exact absurd (hnew q h₁) (hold k₂ q hk₂ h₂).2
  · by_cases hk₂ : k₂ = k
    · rw [hk₂] at h₂
      exact absurd (hnew q h₂) (hold k₁ q hk₁ h₁).2
    · exact h k₁ k₂ q (hold k₁ q hk₁ h₁).1 (hold k₂ q hk₂ h₂).1

/-- The pages of an environment without a directory. -/
theorem entryTarget_of_no_dir (hnone : (s.envs k.1).envPgdir = none) : entryTarget (pteOf s k) = none := by
  rw [← target_placeOf]
  simp only [placeOf, target, hnone, Option.bind_none]

theorem EnvFreed.unshared (h : EnvFreed R [] s e s') (hu : Unshared s) : Unshared s' := by
  refine hu.of_sub fun k p hk => ?_
  by_cases hke : k.1 = e
  · have hnone : (s'.envs k.1).envPgdir = none := by
      rw [h.envs, hke, Function.update_self]
    rw [entryTarget_of_no_dir hnone] at hk
    cases hk
  · rw [h.pte k hke] at hk
    exact hk

theorem Single.setEnv (h : Single R s) {g : Env → Env}
    (hdir : (g (s.envs e)).envPgdir = (s.envs e).envPgdir)
    (hlink : (g (s.envs e)).envLink = (s.envs e).envLink)
    (hfree : (g (s.envs e)).envStatus = .free ↔ (s.envs e).envStatus = .free)
    (hdst : (g (s.envs e)).envIpcDstva < utop ∧ pgoff (g (s.envs e)).envIpcDstva = 0) :
    Single R (s.setEnv e g) :=
  ⟨h.inv.setEnv hdir hlink hfree hdst, h.unshared.of_pte (target_setEnv hdir).2⟩

/-! ## Environments -/

theorem Single.envDestroy (h : Single R s) (he : (s.envs e).envStatus ≠ .free)
    (hrun : Kern.envDestroy s cur e = some (s', f)) : Single R s' := by
  rcases h.inv.envDestroy cur he h.bounded with ⟨_, _, hrun', hinv⟩ | ⟨_, s1, hrun', hinv, hfreed⟩
  · rw [hrun'] at hrun
    cases hrun
    exact ⟨hinv, h.unshared.of_pte (target_setEnv rfl).2⟩
  · rw [hrun'] at hrun
    cases hrun
    exact ⟨hinv, hfreed.unshared h.unshared⟩

theorem Single.envAlloc {parentId : BitVec 32} {r : Except Int EnvIx} (h : Single R s)
    (hrun : Kern.envAlloc s parentId = some (s', r)) : Single R s' := by
  rcases h.inv.envAlloc_cases hrun with ⟨rfl, _⟩ | ⟨e, _, hal⟩
  · exact h
  · exact ⟨hal.inv, h.unshared.of_pte hal.pte⟩

theorem Single.userMemAssert {va len perm : BitVec 32} (h : Single R s)
    (he : (s.envs e).envStatus ≠ .free)
    (hrun : Kern.userMemAssert s cur e va len perm = some (s', f)) : Single R s' := by
  rcases userMemAssert_cases hrun with ⟨rfl, _⟩ | ⟨_, hdes⟩
  · exact h
  · exact h.envDestroy he hdes

/-! ## System calls -/

theorem Single.sysPageAlloc {envid va perm : BitVec 32} (h : Single R s)
    (hcur : (s.envs cur).envStatus ≠ .free)
    (hrun : Kern.sysPageAlloc s cur envid va perm = some (s', o)) : Unshared s' := by
  rcases h.inv.sysPageAlloc hcur envid va perm fun _ _ _ => h.bounded.dropOk _ with
    ⟨s1, r, _, hrun', _, hpte⟩ | ⟨s1, e, pg, hrun', _, _, _, _, hva, hal⟩
  · rw [hrun'] at hrun
    cases hrun
    exact h.unshared.of_pte hpte
  · rw [hrun'] at hrun
    cases hrun
    exact h.unshared.insert hal.pte hal.target_eq hal.fresh

theorem Single.sysPageUnmap {envid va : BitVec 32} (h : Single R s)
    (hcur : (s.envs cur).envStatus ≠ .free)
    (hrun : Kern.sysPageUnmap s cur envid va = some (s', o)) : Unshared s' := by
  rcases h.inv.sysPageUnmap hcur envid va fun _ _ _ => h.bounded.dropOk _ with
    ⟨r, _, hrun'⟩ | ⟨s1, e, hrun', _, _, hva, hnone, hkeep⟩
  · rw [hrun'] at hrun
    cases hrun
    exact h.unshared
  · rw [hrun'] at hrun
    cases hrun
    refine h.unshared.of_sub fun k p hk => ?_
    by_cases hke : k = slotOf e va hva
    · rw [hke, hnone] at hk
      cases hk
    · rw [hkeep k hke] at hk
      exact hk

/-- A call that shares no page. -/
theorem Single.syscall (h : Single R s) (hcur : (s.envs cur).envStatus ≠ .free) (hc : c.Keeps)
    (hrun : Kern.syscall s cur c = some (s', o)) : Single R s' := by
  have hsafe : SafeCall s cur c := by
    cases c with
    | envSetTrapframe envid tf => exact hc.elim
    | _ => trivial
  refine ⟨(h.inv.syscall h.bounded hcur hsafe hrun).inv, ?_⟩
  cases c with
  | cputs va len =>
      simp only [Kern.syscall, sysCputs, Option.bind_eq_bind, Option.bind_eq_some_iff] at hrun
      obtain ⟨⟨s1, f⟩, h1, h2⟩ := hrun
      cases h2
      exact (h.userMemAssert hcur h1).unshared
  | cgetc ch =>
      cases hrun
      exact h.unshared
  | getenvid =>
      cases hrun
      exact h.unshared
  | envDestroy envid =>
      simp only [Kern.syscall, sysEnvDestroy] at hrun
      split at hrun
      · cases hrun
        exact h.unshared
      · rename_i e he
        simp only [Option.bind_eq_bind, Option.bind_eq_some_iff] at hrun
        obtain ⟨⟨s1, f⟩, h1, h2⟩ := hrun
        cases h2
        exact (h.envDestroy (envid2env_live hcur he) h1).unshared
  | pageAlloc envid va perm => exact h.sysPageAlloc hcur hrun
  | pageMap srcenvid srcva dstenvid dstva perm => exact hc.elim
  | pageUnmap envid va => exact h.sysPageUnmap hcur hrun
  | exofork =>
      simp only [Kern.syscall, sysExofork, Option.bind_eq_bind, Option.bind_eq_some_iff] at hrun
      obtain ⟨⟨s1, r⟩, h1, h2⟩ := hrun
      have hs1 := (h.envAlloc h1).unshared
      cases r with
      | error n =>
          cases h2
          exact hs1
      | ok e =>
          cases h2
          exact hs1.of_pte (target_setEnv rfl).2
  | envSetStatus envid status =>
      simp only [Kern.syscall, sysEnvSetStatus, Option.some.injEq] at hrun
      split at hrun
      · cases hrun
        exact h.unshared
      · split at hrun
        · cases hrun
          exact h.unshared
        · cases hrun
          exact h.unshared.of_pte (target_setEnv rfl).2
  | envSetTrapframe envid tf => exact hc.elim
  | envSetPgfaultUpcall envid func =>
      simp only [Kern.syscall, sysEnvSetPgfaultUpcall, Option.some.injEq] at hrun
      split at hrun
      · cases hrun
        exact h.unshared
      · cases hrun
        exact h.unshared.of_pte (target_setEnv rfl).2
  | yield =>
      cases hrun
      exact h.unshared
  | ipcTrySend envid value srcva perm => exact hc.elim
  | ipcRecv dstva =>
      simp only [Kern.syscall, sysIpcRecv, Option.some.injEq] at hrun
      split at hrun
      · cases hrun
        exact h.unshared
      · cases hrun
        exact h.unshared.of_pte (target_setEnv rfl).2
  | invalid =>
      cases hrun
      exact h.unshared

/-! ## Loading a program -/

/-- What is known while the environment `e` is loaded: it may write the pages in `P`. -/
structure Filling (R : Nat → Prop) (e : EnvIx) (d : Nat) (P : Nat → Prop) (s : Kernel) : Prop
    extends Single R s where
  dir : (s.envs e).envPgdir = some d
  writable : ∀ n < lowPages, P n → PageWritable s e n

variable {P : Nat → Prop} {va len : BitVec 32} {img : Mem}

theorem Filling.mono {P' : Nat → Prop} (h : Filling R e d P s) (hP : ∀ n, P' n → P n) :
    Filling R e d P' s :=
  ⟨h.toSingle, h.dir, fun n hn hp => h.writable n hn (hP n hp)⟩

/-- A round of `region_alloc`. The page may replace another one. -/
theorem Filling.regionPage (h : Filling R e d P s) (hn : n < lowPages)
    (hrun : regionPage s d (pageVa n) = some s') : Filling R e d (fun m => P m ∨ m = n) s' := by
  have hva := pageVa_lt_utop hn
  have hslot := slotOf_pageVa (e := e) hn hva
  unfold Kern.regionPage at hrun
  rcases h.inv.pages.pageAlloc false with ⟨_, hal⟩ | ⟨pg, s1, hal, htk⟩
  · rw [hal] at hrun
    cases hrun
  have hd1 : (s1.envs e).envPgdir = some d := by rw [htk.envs, h.dir]
  have hdrop : DropOk s1 (placeOf (slotOf e (pageVa n) hva)) := by
    intro q _
    rw [htk.same.target_eq]
    exact h.bounded q
  simp only [hal, Option.bind_eq_bind, Option.bind_some] at hrun
  rcases htk.inv.pageInsert (pteW ||| pteU) (Or.inr ⟨rfl, by simp⟩) hd1 rfl rfl (by decide)
      (i := ⟨pdx (pageVa n), pdx_lt_of_lt_utop hva⟩) (j := ⟨ptx (pageVa n), ptx_lt _⟩) hdrop with
    ⟨_, hins⟩ | ⟨s2, hins, h2⟩
  · rw [hins] at hrun
    cases hrun
  rw [hins] at hrun
  cases hrun
  obtain ⟨hop, hfresh, hpte, -⟩ := htk.pageOp h2 h.inv
  rw [show (e, ⟨pdx (pageVa n), _⟩, ⟨ptx (pageVa n), _⟩) = pageSlot e n from hslot] at hpte
  refine ⟨⟨hop.inv, h.unshared.insert hpte h2.target_eq hfresh⟩, by rw [hop.envs, h.dir], ?_⟩
  intro m hm hpm
  unfold PageWritable
  rw [hpte]
  by_cases hmn : m = n
  · rw [hmn, Function.update_self, BitVec.or_assoc, entry_and (by decide)]
    decide
  · rw [Function.update_of_ne fun heq => hmn (pageSlot_inj hm hn heq)]
    exact h.writable m hm (hpm.resolve_right hmn)

/-- `region_alloc` below `UTOP`: the environment may write the pages of the region. -/
theorem Filling.regionAlloc (h : Filling R e d P s) (hlow : va.toNat + len.toNat ≤ 4096 * lowPages)
    (hrun : regionAlloc s d va len = some s') :
    Filling R e d (fun n => va.toNat / 4096 ≤ n ∧ n < (va.toNat + len.toNat + 4095) / 4096) s' := by
  have hlow' := hlow
  simp only [lowPages] at hlow'
  have hsum : (va + len).toNat = va.toNat + len.toNat := by
    rw [BitVec.toNat_add]
    omega
  have hcount : ((roundUp (va + len)).toNat - (roundDown va).toNat) / 4096 =
      (va.toNat + len.toNat + 4095) / 4096 - va.toNat / 4096 := by
    rw [roundUp_toNat, roundDown_toNat, hsum]
    omega
  unfold Kern.regionAlloc at hrun
  simp only [hcount] at hrun
  -- the invariant: the first `i` pages of the region are mapped
  have hend := foldlM_range_of_some
    (fun i s' => Filling R e d (fun n => va.toNat / 4096 ≤ n ∧ n < va.toNat / 4096 + i) s') hrun
    (h.mono fun n hn => absurd hn.2 (by omega)) (by
      intro i hi s1 s2 hstep h1
      have hpage : roundDown va + BitVec.ofNat 32 (4096 * i) = pageVa (va.toNat / 4096 + i) := by
        apply BitVec.eq_of_toNat_eq
        rw [BitVec.toNat_add, roundDown_toNat, BitVec.toNat_ofNat, pageVa_toNat (by omega)]
        omega
      rw [hpage] at hstep
      refine (h1.regionPage (by simp only [lowPages]; omega) hstep).mono fun n hn => ?_
      omega)
  exact hend.mono fun n hn => by omega

/-- A copy to pages that the environment may write. -/
theorem Filling.kernCopy {src : Nat → BitVec 8} (h : Filling R e d P s)
    (hlow : va.toNat + n ≤ 4096 * lowPages) (hP : ∀ i < n, P ((va.toNat + i) / 4096))
    (hrun : kernCopy d s va src n = some s') : Filling R e d P s' := by
  simp only [lowPages] at hlow
  refine foldlM_range_of_some (fun _ s' => Filling R e d P s') hrun h ?_
  intro i hi s1 s2 hstep h1
  have hnat : (va + BitVec.ofNat 32 i).toNat = va.toNat + i := by
    rw [BitVec.toNat_add, BitVec.toNat_ofNat]
    omega
  have hpage : (va.toNat + i) / 4096 < lowPages := by
    simp only [lowPages]
    omega
  obtain ⟨-, s3, hrun3, hst⟩ := storeByte_stored (b := src i) h1.inv h1.dir hnat hpage
    (h1.writable _ hpage (hP i hi))
  simp only [hrun3] at hstep
  cases hstep
  refine ⟨⟨hst.inv, h1.unshared.of_pte hst.maps.2⟩, by rw [hst.envs, h1.dir], ?_⟩
  intro m hm hpm
  exact hst.maps.writable.mpr (h1.writable m hm hpm)

/-- `load_icode` on one segment. -/
theorem Filling.loadSegment {ph : Proghdr} (h : Filling R e d (fun _ => False) s)
    (hph : ph.pType = elfProgLoad → ph.pFilesz.toNat ≤ ph.pMemsz.toNat ∧
      ph.pVa.toNat + ph.pMemsz.toNat ≤ 4096 * lowPages)
    (hrun : loadSegment d img s ph = some s') : Filling R e d (fun _ => False) s' := by
  unfold Kern.loadSegment at hrun
  split at hrun
  · rename_i hty
    obtain ⟨hsize, hlow⟩ := hph hty
    obtain ⟨s1, h1, hrun⟩ := Option.bind_eq_some_iff.mp hrun
    obtain ⟨s2, h2, h3⟩ := Option.bind_eq_some_iff.mp hrun
    have hlow' := hlow
    simp only [lowPages] at hlow'
    have hdst : (ph.pVa + ph.pFilesz).toNat = ph.pVa.toNat + ph.pFilesz.toNat := by
      rw [BitVec.toNat_add]
      omega
    have hrest : (ph.pMemsz - ph.pFilesz).toNat = ph.pMemsz.toNat - ph.pFilesz.toNat :=
      BitVec.toNat_sub_of_le hsize
    have hregion := h.regionAlloc hlow h1
    have hcopy := hregion.kernCopy (by omega) (fun i hi => ⟨by omega, by omega⟩) h2
    refine (hcopy.kernCopy ?_ ?_ h3).mono fun n hn => hn.elim
    · rw [hdst, hrest]
      omega
    · intro i hi
      rw [hrest] at hi
      rw [hdst]
      exact ⟨by omega, by omega⟩
  · cases hrun
    exact h

/-- The loop over the program headers. -/
theorem Filling.segments {l : List Proghdr} (h : Filling R e d (fun _ => False) s)
    (hl : ∀ ph ∈ loadable l, ph.pFilesz.toNat ≤ ph.pMemsz.toNat ∧
      ph.pVa.toNat + ph.pMemsz.toNat ≤ 4096 * lowPages)
    (hrun : l.foldlM (Kern.loadSegment d img) s = some s') : Filling R e d (fun _ => False) s' := by
  induction l generalizing s with
  | nil =>
      cases hrun
      exact h
  | cons ph l ih =>
      rw [List.foldlM_cons] at hrun
      obtain ⟨s1, h1, hrest⟩ := Option.bind_eq_some_iff.mp hrun
      have hfirst : Filling R e d (fun _ => False) s1 := by
        refine h.loadSegment (fun hty => hl ph ?_) h1
        rw [loadable_cons_of_pos l hty]
        exact List.mem_cons_self ..
      refine ih hfirst (fun ph' hmem => hl ph' ?_) hrest
      by_cases hty : ph.pType = elfProgLoad
      · rw [loadable_cons_of_pos l hty]
        exact List.mem_cons_of_mem _ hmem
      · rw [loadable_cons_of_neg l hty]
        exact hmem

theorem Single.loadIcode (h : Single R s) (hlow : SegmentsLow img)
    (hrun : loadIcode s e img = some s') : Single R s' := by
  unfold Kern.loadIcode at hrun
  split at hrun
  · cases hrun
  obtain ⟨d, hd, hrun⟩ := Option.bind_eq_some_iff.mp hrun
  obtain ⟨s1, hloop, hstack⟩ := Option.bind_eq_some_iff.mp hrun
  have h0 : Filling R e d (fun _ => False) s := ⟨h, hd, fun _ _ hp => hp.elim⟩
  have h1 := h0.segments hlow hloop
  -- setting the entry point changes no page
  have h2 : Filling R e d (fun _ => False) (s1.setEnv e fun env =>
      { env with envTf := { env.envTf with tfEip := eEntry img } }) := by
    refine ⟨h1.setEnv rfl rfl Iff.rfl (h1.inv.envs.dstva_ok e), ?_, fun _ _ hp => hp.elim⟩
    rw [setEnv_self, h1.dir]
  exact (h2.regionAlloc (by decide) hstack).toSingle

/-- `env_create` -/
theorem Single.envCreate {type : EnvType} (h : Single R s) (hlow : SegmentsLow img)
    (hrun : envCreate s img type = some s') : Single R s' := by
  obtain ⟨⟨s1, r⟩, halloc, hrun⟩ := Option.bind_eq_some_iff.mp hrun
  have h1 := h.envAlloc halloc
  cases r with
  | error n => cases hrun
  | ok e =>
      obtain ⟨s2, hload, hrun⟩ := Option.bind_eq_some_iff.mp hrun
      have h2 := h1.loadIcode hlow hload
      have h3 : Single R (s2.setEnv e fun env => { env with envType := type, envParentId := 0#32 }) :=
        h2.setEnv rfl rfl Iff.rfl (h2.inv.envs.dstva_ok e)
      simp only at hrun
      split at hrun
      · cases hrun
        exact h3.setEnv rfl rfl Iff.rfl (h3.inv.envs.dstva_ok e)
      · cases hrun
        exact h3

end

end Jos.Kern
