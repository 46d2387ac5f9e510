import Jos.Kern.Unshared

/-!
# The free environments

`env_init` on the state that `mem_init` leaves, and the runs from there in which no page is shared:
environments are created, fork, make other calls and are destroyed, by `sys_env_destroy`, by a fault or
by `user_mem_assert`. In every state of such a run `env_free_list` holds exactly the free slots, and
every other slot has a page directory of its own.

Main result:
* `env_free_list_exact`: the list and the free slots in every state from `env_init` on.
-/

namespace Jos.Kern

open Jos.Lib Kernel

/-- `env_init`; the CPU's segment registers that `env_init_percpu` loads are not part of the state. -/
def envInit (s : Kernel) : Kernel :=
  let s := (List.range (nenv - 1)).foldl (fun s i => s.setEnv (slot i) fun env =>
    { env with envLink := some (slot (i + 1)), envId := 0#32 }) s
  let s := s.setEnv (slot (nenv - 1)) fun env => { env with envId := 0#32 }
  { s with envFreeList := some (slot 0) }

/-- An element of `envs` after the `memset` of `mem_init`. -/
def zeroEnv : Env where
  envTf := Trapframe.zero
  envLink := none
  envId := 0#32
  envParentId := 0#32
  envType := .user
  envStatus := .free
  envRuns := 0#32
  envCpunum := 0
  envPgdir := none
  envPgfaultUpcall := 0#32
  envIpcRecving := false
  envIpcDstva := 0#32
  envIpcValue := 0#32
  envIpcFrom := 0#32
  envIpcPerm := 0#32

/-- The state at the end of `mem_init`. The frames in `R` are in use. -/
structure MemInit (R : Nat → Prop) (s : Kernel) : Prop where
  kern : KernShape R s
  free : ∃ free, Linked s.ppLink s.pageFreeList free ∧ free.Nodup ∧
    ∀ p, p ∈ free ↔ p < s.npages ∧ ¬ R p
  unref : ∀ p, ¬ R p → s.ppRef p = 0#16
  envs : ∀ e, s.envs e = zeroEnv

/-- A step of a run in which no page is shared. -/
inductive EnvStep : Kernel → Kernel → Prop
  | create {s s' : Kernel} {binary : Mem} {type : EnvType} (low : SegmentsLow binary)
      (run : envCreate s binary type = some s') : EnvStep s s'
  /-- Among them `sys_exofork` and `sys_env_destroy`. -/
  | call {s s' : Kernel} {cur : EnvIx} {c : Call} {o : Outcome}
      (live : (s.envs cur).envStatus ≠ .free) (keeps : c.Keeps)
      (run : syscall s cur c = some (s', o)) : EnvStep s s'
  /-- A fault, or a zombie that is collected. -/
  | destroy {s s' : Kernel} {cur e : EnvIx} {f : Bool} (live : (s.envs e).envStatus ≠ .free)
      (run : envDestroy s cur e = some (s', f)) : EnvStep s s'
  /-- User code stores a byte. -/
  | store {s : Kernel} {e : EnvIx} {d : Nat} {va : BitVec 32} (c : BitVec 8)
      (dir : (s.envs e).envPgdir = some d) (grants : x86Grants s d va userWrite) :
      EnvStep s { s with mem := Function.update s.mem (physAddr s d va) c }
  /-- Traps and the scheduler set the saved context and the status. -/
  | context {s : Kernel} {e : EnvIx} (live : (s.envs e).envStatus ≠ .free) (tf : Trapframe)
      (st : EnvStatus) (hst : st ≠ .free) (ty : EnvType) (runs : BitVec 32) (cpu : Nat) :
      EnvStep s (s.setEnv e fun env => { env with
        envTf := tf, envStatus := st, envType := ty, envRuns := runs, envCpunum := cpu })

inductive EnvRun (R : Nat → Prop) : Kernel → Prop
  | init {s : Kernel} (h : MemInit R s) : EnvRun R (envInit s)
  | step {s s' : Kernel} (h : EnvRun R s) (hstep : EnvStep s s') : EnvRun R s'

/-- The free list holds exactly the free slots, the others have page directories of their own, and
`env_alloc` says that there is no free slot only when there is none. -/
structure EnvListExact (s : Kernel) : Prop where
  list : ∃ l, Linked (fun e => (s.envs e).envLink) s.envFreeList l ∧ l.Nodup ∧
    ∀ e, e ∈ l ↔ (s.envs e).envStatus = .free
  dirs : ∀ e, (s.envs e).envStatus ≠ .free → ∃ d, (s.envs e).envPgdir = some d ∧
    (∀ e', (s.envs e').envPgdir = some d → e' = e) ∧ ¬ OnFreeList s d
  full : ∀ parentId s', envAlloc s parentId = some (s', .error (-eNoFreeEnv)) →
    ∀ e, (s.envs e).envStatus ≠ .free

section

variable {R : Nat → Prop} {s s' : Kernel} {e : EnvIx} {n : Nat}

/-! ## `env_init` -/

/-- The first `n` rounds of the loop. -/
theorem envInit_loop (s : Kernel) (hn : n < nenv) :
    (List.range n).foldl (fun s i => s.setEnv (slot i) fun env =>
      { env with envLink := some (slot (i + 1)), envId := 0#32 }) s =
    { s with envs := fun e => if e.val < n then
        { s.envs e with envLink := some (slot (e.val + 1)), envId := 0#32 } else s.envs e } := by
  induction n with
  | zero => simp
  | succ n ih =>
      rw [List.range_succ, List.foldl_append, ih (by omega)]
      simp only [List.foldl_cons, List.foldl_nil, Kernel.setEnv, Kernel.mk.injEq, true_and, and_true]
      funext e
      have hslot : (slot n).val = n := Nat.mod_eq_of_lt (by omega)
      by_cases heq : e = slot n
      · subst heq
        rw [Function.update_self, hslot, if_neg (by omega), if_pos (by omega)]
      · rw [Function.update_of_ne heq]
        have hne : e.val ≠ n := fun h => heq (Fin.ext (h.trans hslot.symm))
        by_cases hlt : e.val < n
        · rw [if_pos hlt, if_pos (by omega)]
        · rw [if_neg hlt, if_neg (by omega)]

theorem envInit_eq (s : Kernel) : envInit s = { s with
    envs := fun e => { s.envs e with
      envLink := if e.val + 1 < nenv then some (slot (e.val + 1)) else (s.envs e).envLink
      envId := 0#32 }
    envFreeList := some (slot 0) } := by
  have hlast : (slot (nenv - 1)).val = nenv - 1 := Nat.mod_eq_of_lt (by decide)
  unfold envInit
  rw [envInit_loop s (by decide)]
  simp only [Kernel.setEnv, Kernel.mk.injEq, true_and, and_true]
  funext e
  have hlt := e.isLt
  by_cases heq : e = slot (nenv - 1)
  · subst heq
    rw [Function.update_self, if_neg (by omega), if_neg (by omega)]
  · rw [Function.update_of_ne heq]
    have hne : e.val ≠ nenv - 1 := fun h => heq (Fin.ext (h.trans hlast.symm))
    rw [if_pos (by omega), if_pos (by omega)]

/-- `env_init` leaves what the kernel starts from. -/
theorem MemInit.booted (h : MemInit R s) : Booted R (envInit s) := by
  rw [envInit_eq]
  refine ⟨h.kern.congr rfl rfl fun _ _ _ _ => rfl, h.free, h.unref, ?_, rfl⟩
  intro e
  simp only [h.envs e]
  refine ⟨rfl, rfl, rfl, rfl, ?_⟩
  by_cases hlt : e.val + 1 < nenv
  · rw [if_pos hlt, dif_pos hlt]
    exact congrArg some (Fin.ext (Nat.mod_eq_of_lt hlt))
  · rw [if_neg hlt, dif_neg hlt]
    rfl

/-! ## Runs -/

theorem Booted.single (h : Booted R s) : Single R s := by
  refine ⟨h.inv, fun k k' p hk => ?_⟩
  rw [← target_placeOf, target_of_booted h] at hk
  cases hk

theorem Single.step (h : Single R s) (hstep : EnvStep s s') : Single R s' := by
  cases hstep with
  | create low run => exact h.envCreate low run
  | call live keeps run => exact h.syscall live keeps run
  | destroy live run => exact h.envDestroy live run
  | store c dir grants =>
      rename_i e d va
      have hw : Writing R e d va 1 s := by
        refine ⟨h.inv, dir, fun i hi => ?_⟩
        obtain rfl : i = 0 := by omega
        simpa using grants
      have hst : storeByte s d (va + BitVec.ofNat 32 0) c =
          some { s with mem := Function.update s.mem (physAddr s d va) c } := by
        simp [storeByte, grants.mono (m := pteP ||| pteW) (by decide)]
      obtain ⟨hw', -, -, hpte⟩ := hw.storeByte (by omega) hst
      exact ⟨hw'.inv, h.unshared.of_pte hpte⟩
  | context live tf st hst ty runs cpu =>
      exact h.setEnv rfl rfl (by simp [hst, live]) (h.inv.envs.dstva_ok _)

theorem EnvRun.single (h : EnvRun R s) : Single R s := by
  induction h with
  | init h => exact h.booted.single
  | step _ hstep ih => exact ih.step hstep

/-! ## The free list -/

/-- An error of `env_alloc` other than for want of memory. -/
theorem envAlloc_full {parentId : BitVec 32} (h : Inv R s)
    (hrun : envAlloc s parentId = some (s', .error (-eNoFreeEnv))) : s.envFreeList = none := by
  cases hfl : s.envFreeList with
  | none => rfl
  | some e =>
      obtain ⟨l, hl, -, hmem⟩ := h.envs.free_list
      rw [hfl] at hl
      obtain ⟨l', rfl, -⟩ := hl.exists_cons
      have hnone := (h.envs.pgdir_iff e).mpr ((hmem e).mp (List.mem_cons_self ..))
      rcases h.pages.envSetupVm hnone with ⟨-, hvm⟩ | ⟨p, s1, hvm, -⟩
      · simp only [envAlloc, hfl, hvm, Option.bind_eq_bind, Option.bind_some,
          if_pos (by decide : -eNoMem < 0), Option.some.injEq, Prod.mk.injEq] at hrun
        exact absurd (Except.error.inj hrun.2) (by decide)
      · simp only [envAlloc, hfl, hvm, Option.bind_eq_bind, Option.bind_some,
          if_neg (by decide : ¬ (0 : Int) < 0), Option.some.injEq, Prod.mk.injEq] at hrun
        cases hrun.2

theorem Single.listExact (h : Single R s) : EnvListExact s where
  list := h.inv.envs.free_list
  dirs e he := by
    obtain ⟨d, hd⟩ := h.inv.envs.exists_pgdir he
    refine ⟨d, hd, fun e' he' => ?_, ?_⟩
    · have heq : (Place.pgdir e') = .pgdir e := h.target_inj (s := s) (p := d) he' hd
      exact Place.pgdir.inj heq
    · rintro ⟨l, hl, hmem⟩
      obtain ⟨free, hfree, hledger, -⟩ := h.inv.pages.accounts.pages
      rw [hl.unique hfree] at hmem
      exact hledger.free_unref d hmem (.pgdir e) hd
  full parentId s' hrun e he := by
    obtain ⟨l, hl, -, hmem⟩ := h.inv.envs.free_list
    rw [envAlloc_full h.inv hrun] at hl
    cases l with
    | nil => exact absurd ((hmem e).mpr he) (List.not_mem_nil)
    | cons a l => exact absurd hl.1 (by simp)

/-- In every state of a run from `env_init` in which no page is shared, `env_free_list` holds exactly the
free slots, without repetition, every other slot has a page directory of its own, which is not on
`page_free_list`, and `env_alloc` returns `-E_NO_FREE_ENV` only when all slots are in use. -/
theorem env_free_list_exact (R : Nat → Prop) (s : Kernel) (h : EnvRun R s) : EnvListExact s :=
  h.single.listExact

/-! ## The small machine -/

end

/-- The small machine before `env_init`. -/
def smallMem : Kernel := { small with envs := fun _ => zeroEnv, envFreeList := none }

theorem smallMem_init : MemInit smallReserved smallMem where
  kern := small_booted.kern.congr rfl rfl fun _ _ _ _ => rfl
  free := small_booted.free
  unref := small_booted.unref
  envs _ := rfl

theorem envInit_smallMem : envInit smallMem = small := by
  rw [envInit_eq]
  simp only [smallMem, small, Kernel.mk.injEq, true_and]
  refine ⟨?_, rfl⟩
  funext e
  unfold initEnv
  by_cases hlt : e.val + 1 < nenv
  · have hslot : slot (e.val + 1) = ⟨e.val + 1, hlt⟩ := Fin.ext (Nat.mod_eq_of_lt hlt)
    rw [if_pos hlt, dif_pos hlt, hslot]
    rfl
  · rw [if_neg hlt, dif_neg hlt]
    rfl

/-- The first environment is created. -/
theorem env_free_list_exact_small :
    ∃ s, (s.envs env0).envStatus ≠ .free ∧ EnvListExact s := by
  have hcreate : (envCreate small emptyElf .user).map (fun s => (s.envs env0).envStatus) =
      some .runnable := by decide +kernel
  obtain ⟨s, hrun, hst⟩ := Option.map_eq_some_iff.mp hcreate
  have hlow : SegmentsLow emptyElf := by
    have hnone : loadable (proghdrs emptyElf) = [] := rfl
    intro ph hph
    rw [hnone] at hph
    exact absurd hph (List.not_mem_nil)
  have hinit : EnvRun smallReserved small := by
    rw [← envInit_smallMem]
    exact .init smallMem_init
  refine ⟨s, ?_, env_free_list_exact smallReserved s (.step hinit (.create hlow hrun))⟩
  rw [hst]
  decide

end Jos.Kern
