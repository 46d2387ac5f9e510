import Jos.Kern.UserMemSpec
import Mathlib.Logic.Relation

/-!
# Runs of the kernel

A step is a system call of some environment in use, or one of the other things that change
the state between system calls: the kernel creates or frees an environment, maps a page of
a program it loads, writes the saved context of an environment, or user code stores a byte
that the processor lets it store. `Reachable R s` says that `s` is reached from the end of
`mem_init` by such steps with no more than 65535 references to a frame in any state.

`sys_env_set_trapframe` writes through a pointer that it checks in another address space
than the one in force. A step is required to keep that write inside memory that the caller
may write; what the check gives by itself is the subject of `Jos.Kern.Trapframe`.
-/

namespace Jos.Kern

open Jos.Lib Kernel

/-- The whole range `[va, va + n)` is user-writable in the address space of `e`. -/
def UserMayWrite (s : Kernel) (e : EnvIx) (va : BitVec 32) (n : Nat) : Prop :=
  ∃ d, (s.envs e).envPgdir = some d ∧ ∀ i < n, x86Grants s d (va + BitVec.ofNat 32 i) userWrite

/-- A call that writes only to memory that the caller may write. -/
def SafeCall (s : Kernel) (cur : EnvIx) : Call → Prop
  | .envSetTrapframe envid tf => ∀ s1 e, trapframeCheck s cur envid tf = some (s1, .inr e) →
      UserMayWrite s1 cur tf 68
  | _ => True

inductive Event
  | call (cur : EnvIx) (c : Call) (o : Outcome)
  | internal

inductive Step : Kernel → Event → Kernel → Prop
  | call {s s' : Kernel} {cur : EnvIx} {c : Call} {o : Outcome}
      (live : (s.envs cur).envStatus ≠ .free) (safe : SafeCall s cur c)
      (run : syscall s cur c = some (s', o)) : Step s (.call cur c o) s'
  /-- `env_alloc` in `env_create`. -/
  | create {s s' : Kernel} {r : Except Int EnvIx} (run : envAlloc s 0#32 = some (s', r)) :
      Step s .internal s'
  /-- One round of `region_alloc`. -/
  | region {s s1 s' : Kernel} {e : EnvIx} {d pg : Nat} {va : BitVec 32}
      (dir : (s.envs e).envPgdir = some d) (low : va < utop)
      (alloc : pageAlloc s false = some (s1, some pg))
      (insert : pageInsert s1 d pg va (pteW ||| pteU) = some (s', 0)) : Step s .internal s'
  /-- `env_free`, when a zombie is collected or an environment is destroyed. -/
  | free {s s' : Kernel} {e : EnvIx} (live : (s.envs e).envStatus ≠ .free)
      (run : envFree s e = some s') : Step s .internal s'
  /-- User code, or the kernel on behalf of it, stores a byte. -/
  | store {s : Kernel} {e : EnvIx} {d : Nat} {va : BitVec 32} (c : BitVec 8)
      (dir : (s.envs e).envPgdir = some d) (grants : x86Grants s d va userWrite) :
      Step s .internal { s with mem := Function.update s.mem (physAddr s d va) c }
  /-- Traps and the scheduler set the saved context and the status. -/
  | context {s : Kernel} {e : EnvIx} (live : (s.envs e).envStatus ≠ .free) (tf : Trapframe)
      (st : EnvStatus) (hst : st ≠ .free) (ty : EnvType) (runs : BitVec 32) (cpu : Nat) :
      Step s .internal (s.setEnv e fun env => { env with
        envTf := tf, envStatus := st, envType := ty, envRuns := runs, envCpunum := cpu })

/-- The state at the end of `mem_init`, with the environments as `env_init` leaves them. The
frames in `R` are in use: everything that is not on the free list. -/
structure Booted (R : Nat → Prop) (s : Kernel) : Prop where
  kern : KernShape R s
  free : ∃ free, Linked s.ppLink s.pageFreeList free ∧ free.Nodup ∧
    ∀ p, p ∈ free ↔ p < s.npages ∧ ¬ R p
  unref : ∀ p, ¬ R p → s.ppRef p = 0#16
  envs : ∀ e, (s.envs e).envStatus = .free ∧ (s.envs e).envPgdir = none ∧
    (s.envs e).envIpcDstva = 0#32 ∧ (s.envs e).envIpcRecving = false ∧
    (s.envs e).envLink = if h : e.val + 1 < nenv then some ⟨e.val + 1, h⟩ else none
  envFree : s.envFreeList = some ⟨0, by decide⟩

/-- States reached without any counter wrapping around. -/
inductive Reachable (R : Nat → Prop) : Kernel → Prop
  | boot {s : Kernel} (h : Booted R s) : Reachable R s
  | step {s s' : Kernel} {ev : Event} (h : Reachable R s) (hstep : Step s ev s')
      (hb : Bounded s') : Reachable R s'

section

variable {R : Nat → Prop} {s s' : Kernel} {cur e : EnvIx} {d p : Nat} {o : Outcome} {c : Call}

/-! ## Boot -/

/-- The environments from slot `n` on, in order. -/
theorem linked_envs (h : Booted R s) (n : Nat) (hn : n ≤ nenv) :
    ∃ l, Linked (fun e => (s.envs e).envLink) (if h : nenv - n < nenv then some ⟨nenv - n, h⟩ else none) l ∧
      l.Nodup ∧ ∀ e : EnvIx, e ∈ l ↔ nenv - n ≤ e := by
  induction n with
  | zero =>
      refine ⟨[], ?_, List.nodup_nil, fun e => ?_⟩
      · simp
      · simp
  | succ n ih =>
      obtain ⟨l, hl, hnd, hmem⟩ := ih (by omega)
      have hlt : nenv - (n + 1) < nenv := by
        have : 0 < nenv := by decide
        omega
      have hsucc : nenv - (n + 1) + 1 = nenv - n := by omega
      refine ⟨⟨nenv - (n + 1), hlt⟩ :: l, ?_, ?_, fun e => ?_⟩
      · rw [dif_pos hlt]
        refine ⟨rfl, ?_⟩
        have hlink := (h.envs ⟨nenv - (n + 1), hlt⟩).2.2.2.2
        simp only [hsucc] at hlink
        simp only [hlink]
        exact hl
      · refine List.nodup_cons.mpr ⟨fun hmem' => ?_, hnd⟩
        have := (hmem _).mp hmem'
        simp only at this
        omega
      · rw [List.mem_cons, hmem]
        constructor
        · rintro (rfl | h)
          · exact Nat.le_refl _
          · omega
        · intro h
          by_cases heq : e.val = nenv - (n + 1)
          · exact Or.inl (Fin.ext heq)
          · right
            omega

theorem target_of_booted (h : Booted R s) (k : Place) : target s k = none := by
  cases k with
  | pgdir e => exact (h.envs e).2.1
  | pde e i => simp [target, (h.envs e).2.1]
  | pte e i j => simp [target, (h.envs e).2.1]

theorem Booted.bounded (h : Booted R s) : Bounded s := by
  intro p
  have hz : refCount (target s) p = 0 := refCount_eq_zero.mpr fun k => by
    rw [target_of_booted h k]
    simp
  omega

theorem Booted.inv (h : Booted R s) : Inv R s := by
  refine ⟨⟨⟨h.kern, ?_, ?_, ?_⟩, ⟨?_, by simp⟩⟩, ⟨?_, ?_, ?_⟩⟩
  · intro e d i hd
    rw [(h.envs e).2.1] at hd
    cases hd
  · intro e d i hd
    rw [(h.envs e).2.1] at hd
    cases hd
  · intro k k' p _ hk
    rw [target_of_booted h k] at hk
    cases hk
  · obtain ⟨free, hl, hnd, hmem⟩ := h.free
    refine ⟨free, hl, ⟨hnd, ?_, ?_, ?_, ?_, ?_⟩, ?_⟩
    · intro p hp
      obtain ⟨h1, h2⟩ := (hmem p).mp hp
      exact ⟨h1, h2, by simp⟩
    · intro p _ k
      rw [target_of_booted h k]
      simp
    · intro p hp
      have hz : refCount (target s) p = 0 := refCount_eq_zero.mpr fun k => by
        rw [target_of_booted h k]
        simp
      rw [h.unref p hp.2.1, hz]
    · intro p hp hpf
      exact absurd ((hmem p).mpr ⟨hp.1, hp.2.1⟩) hpf
    · intro k p hk
      rw [target_of_booted h k] at hk
      cases hk
    · intro p hp hR hpf
      exact absurd ((hmem p).mpr ⟨hp, hR⟩) hpf
  · intro e
    simp [(h.envs e).1, (h.envs e).2.1]
  · obtain ⟨l, hl, hnd, hmem⟩ := linked_envs h nenv (Nat.le_refl _)
    refine ⟨l, ?_, hnd, fun e => ?_⟩
    · rw [h.envFree]
      simpa [nenv] using hl
    · rw [hmem]
      simp [(h.envs e).1]
  · intro e
    rw [(h.envs e).2.2.1]
    decide

/-! ## One step -/

/-- A step keeps the invariant and adds at most two references to a frame. -/
structure Kept (R : Nat → Prop) (s s' : Kernel) : Prop where
  inv : Inv R s'
  count_le : ∀ p, refCount (target s') p ≤ refCount (target s) p + 2

theorem Kept.refl (h : Inv R s) : Kept R s s := ⟨h, fun _ => Nat.le_add_right _ _⟩

theorem PageOp.kept (h : PageOp R s s') : Kept R s s' := ⟨h.inv, h.count_le⟩

/-- The tables, and with them the counts, stay the same. -/
theorem Kept.of_target (h : Inv R s') (htar : target s' = target s) : Kept R s s' :=
  ⟨h, fun _ => htar ▸ Nat.le_add_right _ _⟩

theorem Kept.setEnv (h : Inv R s) {g : Env → Env}
    (hdir : (g (s.envs e)).envPgdir = (s.envs e).envPgdir)
    (hlink : (g (s.envs e)).envLink = (s.envs e).envLink)
    (hfree : (g (s.envs e)).envStatus = .free ↔ (s.envs e).envStatus = .free)
    (hdst : (g (s.envs e)).envIpcDstva < utop ∧ pgoff (g (s.envs e)).envIpcDstva = 0) :
    Kept R s (s.setEnv e g) :=
  Kept.of_target (h.setEnv hdir hlink hfree hdst) (target_setEnv hdir).1

theorem statusOf_ne_free {status : BitVec 32} {st : EnvStatus} (h : statusOf status = some st) :
    st ≠ .free := by
  rintro rfl
  simp only [statusOf] at h
  split at h
  · cases h
  · split at h <;> cases h

theorem userMemAssert_cases {va len perm : BitVec 32} {f : Bool}
    (h : userMemAssert s cur e va len perm = some (s', f)) :
    (s' = s ∧ f = false ∧ userMemCheck s e va len (perm ||| pteU) = some (.ok ())) ∨
      (∃ x, userMemCheck s e va len (perm ||| pteU) = some (.error x)) ∧
        envDestroy s cur e = some (s', f) := by
  simp only [userMemAssert, Option.bind_eq_bind, Option.bind_eq_some_iff] at h
  obtain ⟨r, hr, h⟩ := h
  cases r with
  | ok =>
      cases h
      exact Or.inl ⟨rfl, rfl, hr⟩
  | error x => exact Or.inr ⟨⟨x, hr⟩, h⟩

theorem Inv.envDestroy_kept {f : Bool} (h : Inv R s) (hb : Bounded s)
    (he : (s.envs e).envStatus ≠ .free) (hrun : Kern.envDestroy s cur e = some (s', f)) :
    Kept R s s' := by
  rcases h.envDestroy cur he hb with ⟨_, _, hrun', hinv⟩ | ⟨_, s1, hrun', hinv, hfreed⟩
  · rw [hrun'] at hrun
    cases hrun
    exact Kept.of_target hinv (target_setEnv (e := e) rfl).1
  · rw [hrun'] at hrun
    cases hrun
    exact ⟨hinv, fun p => Nat.le_add_right_of_le (hfreed.count_le p)⟩

theorem Inv.userMemAssert_kept {va len perm : BitVec 32} {f : Bool} (h : Inv R s) (hb : Bounded s)
    (he : (s.envs e).envStatus ≠ .free)
    (hrun : userMemAssert s cur e va len perm = some (s', f)) : Kept R s s' := by
  rcases userMemAssert_cases hrun with ⟨rfl, _⟩ | ⟨_, hdes⟩
  · exact Kept.refl h
  · exact h.envDestroy_kept hb he hdes

theorem Inv.envAlloc_cases {parentId : BitVec 32} {r : Except Int EnvIx} (h : Inv R s)
    (hrun : Kern.envAlloc s parentId = some (s', r)) :
    (s' = s ∧ ∃ n, r = .error n) ∨ ∃ e, r = .ok e ∧ EnvAllocated R s parentId e s' := by
  rcases h.envAlloc parentId with ⟨n, _, hrun'⟩ | ⟨s1, e, hrun', h1⟩
  · rw [hrun'] at hrun
    cases hrun
    exact Or.inl ⟨rfl, n, rfl⟩
  · rw [hrun'] at hrun
    cases hrun
    exact Or.inr ⟨e, rfl, h1⟩

theorem EnvAllocated.kept {parentId : BitVec 32} (h : EnvAllocated R s parentId e s') :
    Kept R s s' := ⟨h.inv, fun p => Nat.le_succ_of_le (h.count_le p)⟩

theorem EnvAllocated.status {parentId : BitVec 32} (h : EnvAllocated R s parentId e s') :
    (s'.envs e).envStatus = .runnable := by
  obtain ⟨p, hp⟩ := h.envs
  rw [hp, setEnv_self]
  rfl

/-! ### One call at a time -/

theorem Inv.sysCputs_kept {va len : BitVec 32} (h : Inv R s) (hb : Bounded s)
    (hcur : (s.envs cur).envStatus ≠ .free) (hrun : sysCputs s cur va len = some (s', o)) :
    Kept R s s' := by
  simp only [sysCputs, Option.bind_eq_bind, Option.bind_eq_some_iff] at hrun
  obtain ⟨⟨s1, f⟩, h1, h2⟩ := hrun
  cases h2
  exact h.userMemAssert_kept hb hcur h1

theorem Inv.sysEnvDestroy_kept {envid : BitVec 32} (h : Inv R s) (hb : Bounded s)
    (hcur : (s.envs cur).envStatus ≠ .free) (hrun : sysEnvDestroy s cur envid = some (s', o)) :
    Kept R s s' := by
  simp only [sysEnvDestroy] at hrun
  split at hrun
  · cases hrun
    exact Kept.refl h
  · rename_i e he
    simp only [Option.bind_eq_bind, Option.bind_eq_some_iff] at hrun
    obtain ⟨⟨s1, f⟩, h1, h2⟩ := hrun
    cases h2
    exact h.envDestroy_kept hb (envid2env_live hcur he) h1

theorem Inv.sysPageAlloc_kept {envid va perm : BitVec 32} (h : Inv R s) (hb : Bounded s)
    (hcur : (s.envs cur).envStatus ≠ .free) (hrun : Kern.sysPageAlloc s cur envid va perm = some (s', o)) :
    Kept R s s' := by
  rcases h.sysPageAlloc hcur envid va perm fun _ _ _ => hb.dropOk _ with
    ⟨s1, r, _, hrun', hop, _⟩ | ⟨s1, e, pg, hrun', hop, _⟩
  all_goals
    rw [hrun'] at hrun
    cases hrun
    exact hop.kept

theorem Inv.sysPageMap_kept {srcenvid srcva dstenvid dstva perm : BitVec 32} (h : Inv R s)
    (hb : Bounded s) (hcur : (s.envs cur).envStatus ≠ .free)
    (hrun : Kern.sysPageMap s cur srcenvid srcva dstenvid dstva perm = some (s', o)) : Kept R s s' := by
  rcases h.sysPageMap hcur srcenvid srcva dstenvid dstva perm fun _ _ _ => hb.dropOk _ with
    ⟨r, _, hrun'⟩ | ⟨s1, _, _, _, hrun', hop, _⟩
  · rw [hrun'] at hrun
    cases hrun
    exact Kept.refl h
  · rw [hrun'] at hrun
    cases hrun
    exact hop.kept

theorem Inv.sysPageUnmap_kept {envid va : BitVec 32} (h : Inv R s) (hb : Bounded s)
    (hcur : (s.envs cur).envStatus ≠ .free) (hrun : Kern.sysPageUnmap s cur envid va = some (s', o)) :
    Kept R s s' := by
  rcases h.sysPageUnmap hcur envid va fun _ _ _ => hb.dropOk _ with
    ⟨r, _, hrun'⟩ | ⟨s1, _, hrun', hop, _⟩
  · rw [hrun'] at hrun
    cases hrun
    exact Kept.refl h
  · rw [hrun'] at hrun
    cases hrun
    exact hop.kept

theorem Inv.sysExofork_kept (h : Inv R s) (hrun : sysExofork s cur = some (s', o)) :
    Kept R s s' := by
  simp only [sysExofork, Option.bind_eq_bind, Option.bind_eq_some_iff] at hrun
  obtain ⟨⟨s1, r⟩, h1, h2⟩ := hrun
  rcases h.envAlloc_cases h1 with ⟨rfl, n, rfl⟩ | ⟨e, rfl, hal⟩
  · cases h2
    exact Kept.refl h
  · cases h2
    have hk : Kept R s1 (s1.setEnv e (exoforkEnv (s1.envs cur))) :=
      Kept.setEnv hal.inv rfl rfl (by simp [exoforkEnv, hal.status]) (hal.inv.envs.dstva_ok e)
    refine ⟨hk.inv, fun p => ?_⟩
    rw [(target_setEnv rfl).1]
    exact hal.kept.count_le p

theorem Inv.sysEnvSetStatus_kept {envid status : BitVec 32} (h : Inv R s)
    (hcur : (s.envs cur).envStatus ≠ .free) (hrun : sysEnvSetStatus s cur envid status = (s', o)) :
    Kept R s s' := by
  simp only [sysEnvSetStatus] at hrun
  split at hrun
  · cases hrun
    exact Kept.refl h
  rename_i e he
  split at hrun
  · cases hrun
    exact Kept.refl h
  · rename_i st hst
    cases hrun
    refine Kept.setEnv h rfl rfl ?_ (h.envs.dstva_ok e)
    simp [statusOf_ne_free hst, envid2env_live hcur he]

theorem Inv.sysEnvSetPgfaultUpcall_kept {envid func : BitVec 32} (h : Inv R s)
    (hrun : sysEnvSetPgfaultUpcall s cur envid func = (s', o)) : Kept R s s' := by
  simp only [sysEnvSetPgfaultUpcall] at hrun
  split at hrun
  · cases hrun
    exact Kept.refl h
  · rename_i e he
    cases hrun
    exact Kept.setEnv h rfl rfl Iff.rfl (h.envs.dstva_ok e)

/-- The check may destroy the target. -/
theorem Inv.trapframeCheck_kept {envid tf : BitVec 32} {x : Outcome ⊕ EnvIx} (h : Inv R s)
    (hb : Bounded s) (hcur : (s.envs cur).envStatus ≠ .free)
    (hrun : trapframeCheck s cur envid tf = some (s', x)) : Kept R s s' := by
  simp only [trapframeCheck] at hrun
  split at hrun
  · cases hrun
    exact Kept.refl h
  · rename_i e he
    simp only [Option.bind_eq_bind, Option.bind_eq_some_iff] at hrun
    obtain ⟨⟨s2, f⟩, h1, h2⟩ := hrun
    cases h2
    exact h.userMemAssert_kept hb (envid2env_live hcur he) h1

theorem Inv.sysEnvSetTrapframe_kept {envid tf : BitVec 32} (h : Inv R s) (hb : Bounded s)
    (hcur : (s.envs cur).envStatus ≠ .free) (hsafe : SafeCall s cur (.envSetTrapframe envid tf))
    (hrun : sysEnvSetTrapframe s cur envid tf = some (s', o)) : Kept R s s' := by
  simp only [sysEnvSetTrapframe, Option.bind_eq_bind, Option.bind_eq_some_iff] at hrun
  obtain ⟨⟨s1, x⟩, h1, h2⟩ := hrun
  have hk := h.trapframeCheck_kept hb hcur h1
  cases x with
  | inl o =>
      cases h2
      exact hk
  | inr e =>
      obtain ⟨d, hd, hgrants⟩ := hsafe s1 e h1
      simp only [Option.bind_eq_some_iff] at h2
      obtain ⟨s2, h3, h4⟩ := h2
      cases h4
      obtain ⟨hinv, htar, _⟩ := Writing.trapframeStore ⟨hk.inv, hd, hgrants⟩ h3
      refine ⟨hinv, fun p => ?_⟩
      rw [htar]
      exact hk.count_le p

theorem Inv.sysIpcTrySend_kept {envid value srcva perm : BitVec 32} (h : Inv R s) (hb : Bounded s)
    (hcur : (s.envs cur).envStatus ≠ .free)
    (hrun : Kern.sysIpcTrySend s cur envid value srcva perm = some (s', o)) : Kept R s s' := by
  rcases h.sysIpcTrySend hcur envid value srcva perm fun _ _ _ => hb.dropOk _ with
    ⟨r, _, hrun'⟩ | ⟨e, hrun', _, he, _⟩ | ⟨s1, e, pg, hrun', hop, he, _⟩
  · rw [hrun'] at hrun
    cases hrun
    exact Kept.refl h
  · rw [hrun'] at hrun
    cases hrun
    exact Kept.of_target (h.ipcDeliver (envid2env_live hcur he) value) (target_setEnv rfl).1
  · rw [hrun'] at hrun
    cases hrun
    have he1 : (s1.envs e).envStatus ≠ .free := by
      rw [hop.envs]
      exact envid2env_live hcur he
    refine ⟨hop.inv.ipcDeliver he1 value, fun p => ?_⟩
    rw [Kern.ipcDeliver, (target_setEnv rfl).1]
    exact hop.count_le p

theorem Inv.sysIpcRecv_kept {dstva : BitVec 32} (h : Inv R s)
    (hcur : (s.envs cur).envStatus ≠ .free) (hrun : sysIpcRecv s cur dstva = (s', o)) :
    Kept R s s' := by
  simp only [sysIpcRecv] at hrun
  split at hrun
  · cases hrun
    exact Kept.refl h
  · rename_i hbad
    cases hrun
    refine Kept.setEnv h rfl rfl (by simp [hcur]) ?_
    by_cases hlt : dstva < utop
    · have hoff : pgoff dstva = 0 := by
        by_contra hoff
        exact hbad ⟨hlt, hoff⟩
      simp [hlt, hoff]
    · simp only [hlt, if_false]
      exact h.envs.dstva_ok cur

/-- A system call keeps the invariant. -/
theorem Inv.syscall (h : Inv R s) (hb : Bounded s) (hcur : (s.envs cur).envStatus ≠ .free)
    (hsafe : SafeCall s cur c) (hrun : Kern.syscall s cur c = some (s', o)) : Kept R s s' := by
  cases c with
  | cputs va len => exact h.sysCputs_kept hb hcur hrun
  | envDestroy envid => exact h.sysEnvDestroy_kept hb hcur hrun
  | pageAlloc envid va perm => exact h.sysPageAlloc_kept hb hcur hrun
  | pageMap srcenvid srcva dstenvid dstva perm => exact h.sysPageMap_kept hb hcur hrun
  | pageUnmap envid va => exact h.sysPageUnmap_kept hb hcur hrun
  | exofork => exact h.sysExofork_kept hrun
  | envSetStatus envid status => exact h.sysEnvSetStatus_kept hcur (Option.some.inj hrun)
  | envSetTrapframe envid tf => exact h.sysEnvSetTrapframe_kept hb hcur hsafe hrun
  | envSetPgfaultUpcall envid func => exact h.sysEnvSetPgfaultUpcall_kept (Option.some.inj hrun)
  | ipcTrySend envid value srcva perm => exact h.sysIpcTrySend_kept hb hcur hrun
  | ipcRecv dstva => exact h.sysIpcRecv_kept hcur (Option.some.inj hrun)
  | cgetc _ | getenvid | yield | invalid =>
      cases hrun
      exact Kept.refl h

/-- Every step keeps the invariant, as long as no counter has wrapped around. -/
theorem Inv.step {ev : Event} (h : Inv R s) (hb : Bounded s) (hstep : Step s ev s') :
    Kept R s s' := by
  cases hstep with
  | call live safe run => exact h.syscall hb live safe run
  | create run =>
      rcases h.envAlloc_cases run with ⟨rfl, _⟩ | ⟨e, _, hal⟩
      · exact Kept.refl h
      · exact hal.kept
  | region dir low alloc insert =>
      rename_i s1 e d pg va
      rcases h.pages.pageAlloc false with ⟨_, hal⟩ | ⟨p, s2, hal, htk⟩
      · rw [hal] at alloc
        cases alloc
      · rw [hal] at alloc
        cases alloc
        have hd1 : (s1.envs e).envPgdir = some d := by rw [htk.envs, dir]
        have hb1 : DropOk s1 (placeOf (slotOf e va low)) := by
          intro q _
          rw [htk.same.target_eq]
          exact hb q
        rcases htk.inv.pageInsert (pteW ||| pteU) (Or.inr ⟨rfl, by simp⟩) hd1 rfl rfl
          (by decide) hb1 with ⟨_, hins⟩ | ⟨s2, hins, h2⟩
        · rw [hins] at insert
          cases insert
        · rw [hins] at insert
          cases insert
          refine ⟨⟨h2.inv, h.envs.congr (h2.tables.envs.trans htk.envs)
            (h2.tables.envFree.trans htk.envFree)⟩, fun p => ?_⟩
          rw [← htk.same.target_eq]
          exact h2.count_le p
  | free live run =>
      obtain ⟨s1, hrun, hinv, hfreed⟩ := h.envFree live hb
      rw [hrun] at run
      cases run
      exact ⟨hinv, fun p => Nat.le_add_right_of_le (hfreed.count_le p)⟩
  | store c dir grants =>
      rename_i e d va
      have hw : Writing R e d va 1 s := by
        refine ⟨h, dir, fun i hi => ?_⟩
        obtain rfl : i = 0 := by omega
        simpa using grants
      have hst : storeByte s d (va + BitVec.ofNat 32 0) c =
          some { s with mem := Function.update s.mem (physAddr s d va) c } := by
        simp [storeByte, grants.mono (m := pteP ||| pteW) (by decide)]
      obtain ⟨hw', _, htar, _⟩ := hw.storeByte (by omega) hst
      exact Kept.of_target hw'.inv htar
  | context live tf st hst ty runs cpu =>
      exact Kept.setEnv h rfl rfl (by simp [hst, live]) (h.envs.dstva_ok _)

/-! ## Runs -/

theorem Reachable.inv (h : Reachable R s) : Inv R s ∧ Bounded s := by
  induction h with
  | boot h => exact ⟨h.inv, h.bounded⟩
  | step _ hstep hb ih => exact ⟨(ih.1.step ih.2 hstep).inv, hb⟩

/-- A state reached from boot in at most `n` steps. -/
inductive ReachedIn (R : Nat → Prop) : Nat → Kernel → Prop
  | boot {s : Kernel} (h : Booted R s) : ReachedIn R 0 s
  | step {n : Nat} {s s' : Kernel} {ev : Event} (h : ReachedIn R n s) (hstep : Step s ev s') :
      ReachedIn R (n + 1) s'

/-- Short runs cannot make a counter wrap around. -/
theorem ReachedIn.reachable {n : Nat} (h : ReachedIn R n s) (hn : n < 2 ^ 15) :
    Reachable R s ∧ ∀ p, refCount (target s) p ≤ 2 * n := by
  induction h with
  | boot h =>
      refine ⟨.boot h, fun p => ?_⟩
      rw [refCount_eq_zero.mpr fun k => by rw [target_of_booted h k]; simp]
  | step _ hstep ih =>
      obtain ⟨hr, hcount⟩ := ih (by omega)
      have hkept := hr.inv.1.step hr.inv.2 hstep
      have hcount' : ∀ p, _ := fun p => Nat.le_trans (hkept.count_le p)
        (Nat.add_le_add_right (hcount p) 2)
      exact ⟨.step hr hstep fun p => by have := hcount' p; omega, fun p => by
        have := hcount' p
        omega⟩

/-- A system call, or the creation of an environment by the kernel, as a command. -/
inductive Cmd
  | create
  | call (cur : EnvIx) (c : Call)

def Call.isSetTrapframe : Call → Bool
  | .envSetTrapframe _ _ => true
  | _ => false

/-- Execute a command; `none` also when the caller is not in use, and for
`sys_env_set_trapframe`. -/
def execEvent (s : Kernel) : Cmd → Option (Event × Kernel)
  | .create => (envAlloc s 0#32).map fun x => (.internal, x.1)
  | .call cur c =>
      if (s.envs cur).envStatus = .free ∨ c.isSetTrapframe then none
      else (syscall s cur c).map fun x => (.call cur c x.2, x.1)

def exec (s : Kernel) (m : Cmd) : Option Kernel := (execEvent s m).map (·.2)

theorem exec_call (hlive : (s.envs cur).envStatus ≠ .free) (hc : c.isSetTrapframe = false)
    (hrun : syscall s cur c = some (s', o)) : exec s (.call cur c) = some s' := by
  simp [exec, execEvent, hlive, hc, hrun]

theorem safeCall_of_not (h : c.isSetTrapframe = false) : SafeCall s cur c := by
  cases c with
  | envSetTrapframe envid tf => cases h
  | _ => trivial

theorem step_of_exec {m : Cmd} {ev : Event} (h : execEvent s m = some (ev, s')) :
    Step s ev s' := by
  cases m with
  | create =>
      obtain ⟨⟨s1, r⟩, hs, heq⟩ := Option.map_eq_some_iff.mp h
      cases heq
      exact .create hs
  | call cur c =>
      simp only [execEvent] at h
      split at h
      · cases h
      · rename_i hok
        rw [not_or, Bool.not_eq_true] at hok
        obtain ⟨⟨s1, o⟩, hs, heq⟩ := Option.map_eq_some_iff.mp h
        cases heq
        exact .call hok.1 (safeCall_of_not hok.2) hs

theorem ReachedIn.execAll {n : Nat} {l : List Cmd} (h : ReachedIn R n s)
    (hrun : l.foldlM exec s = some s') : ReachedIn R (n + l.length) s' := by
  induction l generalizing n s with
  | nil =>
      cases hrun
      exact h
  | cons m l ih =>
      simp only [List.foldlM_cons, Option.bind_eq_bind, Option.bind_eq_some_iff] at hrun
      obtain ⟨s1, hs1, hrest⟩ := hrun
      obtain ⟨⟨ev, s2⟩, hev, rfl⟩ := Option.map_eq_some_iff.mp hs1
      have := ih (.step h (step_of_exec hev)) hrest
      rwa [Nat.add_assoc, Nat.add_comm 1] at this

end

/-! ## Evaluating `env_free`

An entry whose lowest byte is even is not present. A run is evaluated faster when the two loops of
`env_free` look at that byte before they read the entry. -/

theorem isPresent_of_even {m : Mem} {a : Nat} (h : m a &&& 1#8 = 0#8) :
    isPresent (m.read32 a) = false := by
  have hbit : (m a)[0] = false := by
    have h0 := congrArg (fun v : BitVec 8 => v[0]) h
    simpa using h0
  have hand : m.read32 a &&& pteP = 0#32 := by
    ext i hi
    simp only [Mem.read32, pteP, BitVec.getElem_and, BitVec.getElem_append, BitVec.getElem_zero]
    by_cases h0 : i = 0
    · subst h0
      simp [hbit]
    · have hone : (1#32)[i] = false := by simp [BitVec.getElem_one, h0]
      simp [hone]
  rw [isPresent, hand]
  rfl

def freePteByte (pgdir pt pdeno : Nat) (s : Kernel) (pteno : Nat) : Option Kernel :=
  if s.mem (pt + 4 * pteno) &&& 1#8 = 0#8 then some s else freePte pgdir pt pdeno s pteno

theorem freePte_eq_byte : freePte = freePteByte := by
  funext pgdir pt pdeno s pteno
  unfold freePteByte
  split
  · rename_i heven
    rw [freePte, isPresent_of_even heven]
    rfl
  · rfl

def freePdeByte (pgdir : Nat) (s : Kernel) (pdeno : Nat) : Option Kernel :=
  if s.mem (entryAddr pgdir pdeno) &&& 1#8 = 0#8 then some s
  else
    let pde := s.entry pgdir pdeno
    if isPresent pde then do
      let pt ← s.kaddr (pteAddr pde)
      let s ← (List.range nptentries).foldlM (freePteByte pgdir pt pdeno) s
      let s := s.writePte (entryAddr pgdir pdeno) 0#32
      let page ← s.pa2page (pteAddr pde)
      pageDecref s page
    else some s

theorem freePde_eq_byte : freePde = freePdeByte := by
  funext pgdir s pdeno
  unfold freePdeByte
  split
  · rename_i heven
    rw [freePde, entry, isPresent_of_even heven]
    rfl
  · rw [freePde, freePte_eq_byte]

def envFreeByte (s : Kernel) (e : EnvIx) : Option Kernel := do
  let pgdir ← (s.envs e).envPgdir
  let s ← (List.range pdxUtop).foldlM (freePdeByte pgdir) s
  let s := s.setEnv e fun env => { env with envPgdir := none }
  let page ← s.pa2page (page2pa pgdir)
  let s ← pageDecref s page
  let s := s.setEnv e fun env => { env with envStatus := .free, envLink := s.envFreeList }
  some { s with envFreeList := some e }

theorem envFree_eq_byte : envFree = envFreeByte := by
  funext s e
  rw [envFree, envFreeByte, freePde_eq_byte]

/-! ## A small machine

Sixteen frames: frame 0 is in use, frame 1 is `kern_pgdir`, the others are free. Nothing is
mapped above `UTOP` except the self-map. -/

/-- An element of `envs` after `env_init`. -/
def initEnv (e : EnvIx) : Env where
  envTf := Trapframe.zero
  envLink := if h : e.val + 1 < nenv then some ⟨e.val + 1, h⟩ else none
  envId := 0#32
  envParentId := 0#32
  envType := .user
  envStatus := .free
  envRuns := 0#32
  envCpunum := 0
  envPgdir := none
  envPgfaultUpcall := 0#32
  envIpcRecving := false
  envIpcDstva := 0#32
  envIpcValue := 0#32
  envIpcFrom := 0#32
  envIpcPerm := 0#32

def small : Kernel where
  npages := 16
  ppRef p := if p < 2 then 1#16 else 0#16
  ppLink p := if 2 ≤ p ∧ p < 15 then some (p + 1) else none
  pageFreeList := some 2
  mem := Mem.write32 (fun _ => 0#8) (entryAddr 1 pdxUvpt) (page2pa 1 ||| pteU ||| pteP)
  kernPgdir := 1
  envs := initEnv
  envFreeList := some env0

def smallReserved (p : Nat) : Prop := p < 2

theorem small_entry {i : Nat} (hne : i ≠ pdxUvpt) : small.entry 1 i = 0#32 := by
  have hread : Mem.read32 (fun _ => 0#8) (entryAddr 1 i) = 0#32 := by simp only [Mem.read32]; rfl
  rw [← hread]
  refine Mem.read32_write32_of_disjoint _ _ ?_
  simp only [entryAddr]
  omega

theorem small_linked : Linked small.ppLink small.pageFreeList [2, 3, 4, 5, 6, 7, 8, 9, 10, 11, 12, 13, 14, 15] := by
  simp [small]

theorem small_booted : Booted smallReserved small where
  kern := by
    refine ⟨by decide, Nat.one_lt_two, by decide, fun i hi => ?_, fun i hi hi' hne => ?_⟩
    · refine small_entry ?_
      have : pdxUtop < pdxUvpt := by decide
      omega
    · exact Or.inl (small_entry hne)
  free := by
    refine ⟨_, small_linked, by decide, fun p => ?_⟩
    simp only [List.mem_cons, List.not_mem_nil, or_false, small, smallReserved]
    omega
  unref p hp := if_neg hp
  envs e := ⟨rfl, rfl, rfl, rfl, rfl⟩
  envFree := rfl

/-- The state of the small machine after some commands. -/
def smallAfter (l : List Cmd) : Kernel := (l.foldlM exec small).getD small

theorem smallAfter_reachable {l : List Cmd} (h : (l.foldlM exec small).isSome)
    (hl : l.length < 2 ^ 15) : Reachable smallReserved (smallAfter l) := by
  obtain ⟨s, hs⟩ := Option.isSome_iff_exists.mp h
  have hrun := (ReachedIn.boot small_booted).execAll hs
  rw [smallAfter, hs]
  exact (hrun.reachable (by omega)).1

/-- An environment with one empty page at 0x1000, in frame 3. -/
def onePageRun : List Cmd := [.create, .call env0 (.pageAlloc 0#32 0x1000#32 7#32)]

/-- One more call after the commands. -/
theorem smallAfter_call {l : List Cmd} {cur : EnvIx} {c : Call} {o : Outcome} {s' : Kernel}
    (h : (l.foldlM exec small).isSome) (hl : l.length + 1 < 2 ^ 15)
    (hlive : ((smallAfter l).envs cur).envStatus ≠ .free) (hc : c.isSetTrapframe = false)
    (hrun : syscall (smallAfter l) cur c = some (s', o)) :
    Step (smallAfter l) (.call cur c o) s' ∧ Reachable smallReserved s' := by
  obtain ⟨s, hs⟩ := Option.isSome_iff_exists.mp h
  have hin := (ReachedIn.boot small_booted).execAll hs
  have hstep : Step (smallAfter l) (.call cur c o) s' := .call hlive (safeCall_of_not hc) hrun
  have hafter : smallAfter l = s := by rw [smallAfter, hs, Option.getD_some]
  rw [← hafter] at hin
  exact ⟨hstep, ((ReachedIn.step hin hstep).reachable (by omega)).1⟩

end Jos.Kern
