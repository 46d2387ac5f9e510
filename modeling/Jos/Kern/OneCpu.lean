import Jos.Kern.SmpPages

/-!
# An environment runs on one CPU

`sched_yield` takes an environment that is `ENV_RUNNABLE` for one that no CPU runs. That is
so as long as the status of an environment in user mode stays `ENV_RUNNING` or `ENV_DYING`
until it traps. Three system calls can overwrite the status of an environment on another CPU:
`sys_env_set_status`, `sys_ipc_try_send` to an environment that its parent has set running in
the middle of a receive, and a second `env_destroy`, which frees a zombie that still runs. A fourth,
`sys_env_set_trapframe`, can store into the array of environments itself when its pointer is one of the
kernel's. In runs without these the status is right.

* `ExclInv.step`: what an entry of one CPU keeps for the scheduler.
* `one_cpu_per_env`: in every state of a run in which every event is `Lawful`.
* `SmpRun.inv`: such a run keeps the page invariants as well, so that user code and
  `sys_env_set_trapframe` do not reach the frames of the kernel (`Writing.unreserved`).
* `child_on_two_cpus`: a run in which a child is on two CPUs.
-/

namespace Jos.Kern

open Jos.Lib Kernel

variable {n : Nat}

/-- Some other CPU than `k` runs `e`. -/
def OnOther (m : Smp n) (k : Fin n) (e : EnvIx) : Prop := ∃ k' ≠ k, m.cpus k' = .running e

/-- The call of `cur` on CPU `k`, in the state `s` with its frame saved, overwrites the status
of an environment that another CPU runs. -/
def Clobbers (m : Smp n) (k : Fin n) (s : Kernel) (cur : EnvIx) : Call → Prop
  | .envSetStatus envid status =>
      ∃ e, envid2env s cur envid true = some e ∧ OnOther m k e ∧ (statusOf status).isSome
  | .ipcTrySend envid _ _ _ =>
      ∃ e, envid2env s cur envid false = some e ∧ OnOther m k e ∧ (s.envs e).envIpcRecving
  | .envDestroy envid =>
      ∃ e, envid2env s cur envid true = some e ∧ OnOther m k e ∧ (s.envs e).envStatus = .dying
  | .envSetTrapframe envid tf =>
      ∃ e, envid2env s cur envid true = some e ∧ OnOther m k e ∧ (s.envs e).envStatus = .dying ∧
        ∃ x, userMemCheck s e tf trapframeSize (pteW ||| pteP ||| pteU) = some (.error x)
  | _ => False

/-- The event is no system call that overwrites the status of an environment on another CPU. -/
def Careful (m : Smp n) : SmpEvent n → Prop
  | .trap k tf faultVa console => ∀ cur c, m.cpus k = .running cur →
      (m.kern.envs cur).envStatus ≠ .dying → Trap.ofFrame tf faultVa console = .syscall c →
        ¬ Clobbers m k (saveFrame m.kern cur tf) cur c
  | _ => True

/-- The event overwrites neither the status of an environment on another CPU nor memory that no
environment may write. -/
def Lawful (m : Smp n) (ev : SmpEvent n) : Prop := Careful m ev ∧ Contained m ev

/-- No environment runs on two CPUs, and those that run are marked so. -/
structure Exclusive (m : Smp n) : Prop where
  one : ∀ k k' e, m.cpus k = .running e → m.cpus k' = .running e → k = k'
  status : ∀ k e, m.cpus k = .running e →
    (m.kern.envs e).envStatus = .running ∨ (m.kern.envs e).envStatus = .dying

/-- What the runs keep: the free list is needed since `env_alloc` overwrites the status of its
first slot. -/
structure ExclInv (m : Smp n) : Prop where
  excl : Exclusive m
  free : FreeEnvs m.kern

/-- The status of an environment in user mode. -/
def Busy (s : Kernel) (e : EnvIx) : Prop :=
  (s.envs e).envStatus = .running ∨ (s.envs e).envStatus = .dying

section

variable {s s' : Kernel} {cpunum : Nat} {curenv : Option EnvIx} {cur e x : EnvIx} {cpu : Cpu}
  {next : Next} {t : Trap} {tf : Trapframe} {m m' : Smp n} {k : Fin n} {R : Nat → Prop}
  {forced : Prop}

theorem Busy.ne_free (h : Busy s e) : (s.envs e).envStatus ≠ .free := by
  rcases h with h | h <;> simp [h]

theorem Busy.of_update {env : Env} (h : Busy s x) (hx : x ≠ e)
    (henvs : s'.envs = Function.update s.envs e env) : Busy s' x := by
  rw [Busy, status_update henvs hx]
  exact h

/-! ## The scheduler -/

/-- The scheduler does not touch a busy environment other than the current one. -/
theorem Switched.busy (h : Switched s cpunum curenv forced s' cpu) (hx : Busy s x)
    (hcur : curenv ≠ some x) : Busy s' x ∧ cpu ≠ .running x := by
  cases h with
  | @run e _ ready envs free =>
      have hne : x ≠ e := by
        rintro rfl
        rcases ready with hrun | hrun
        · rcases hx with hx | hx <;> rw [hrun] at hx <;> cases hx
        · exact hcur hrun.1
      refine ⟨?_, fun heq => hne ?_⟩
      · rw [Busy, envs, switchEnv, if_neg hne, if_neg fun h => hcur h.1]
        exact hx
      · simp only [Cpu.running, Cpu.mk.injEq, Option.some.injEq, and_true] at heq
        exact heq.symm
  | halt => exact ⟨hx, by simp [Cpu.halted, Cpu.running]⟩

theorem Switched.status (h : Switched s cpunum curenv forced s' cpu) (hcpu : cpu = .running e) :
    (s'.envs e).envStatus = .running := by
  cases h with
  | run ready envs free =>
      simp only [Cpu.running, Cpu.mk.injEq, Option.some.injEq, and_true] at hcpu
      subst hcpu
      rw [envs, switchEnv, if_pos rfl]
  | halt => simp [Cpu.halted, Cpu.running] at hcpu

theorem Switched.free_iff (h : Switched s cpunum curenv forced s' cpu)
    (hlive : ∀ e, curenv = some e → (s.envs e).envStatus ≠ .free) (x : EnvIx) :
    (s'.envs x).envStatus = .free ↔ (s.envs x).envStatus = .free := by
  cases h with
  | @run e _ ready envs free =>
      have he : (s.envs e).envStatus ≠ .free := by
        rcases ready with hrun | hrun
        · rw [hrun]
          decide
        · exact hlive e hrun.1
      rw [envs, switchEnv]
      split
      · rename_i hx
        simp [hx, he]
      · split
        · rename_i hx
          simp [hx.2]
        · rfl
  | halt => rfl

theorem FreeEnvs.switched (h : FreeEnvs s) (hsw : Switched s cpunum curenv forced s' cpu)
    (hlive : ∀ e, curenv = some e → (s.envs e).envStatus ≠ .free) : FreeEnvs s' := by
  have hiff := hsw.free_iff hlive
  cases hsw with
  | run ready envs free =>
      refine h.congr (fun x => ?_) hiff free
      rw [envs, switchEnv]
      split
      · rfl
      · split <;> rfl
  | halt => exact h

/-! ## System calls and other traps -/

/-- Only a second destruction ends a busy environment on another CPU. -/
theorem Destroyed.busy {f : Bool} (h : Destroyed s cur e s' f) (hx : Busy s x) (hne : x ≠ cur)
    (hdying : x = e → (s.envs x).envStatus ≠ .dying) : Busy s' x := by
  cases h with
  | mark _ _ envs =>
      by_cases heq : x = e
      · subst heq
        right
        rw [envs, Function.update_self]
      · exact hx.of_update heq envs
  | free now envs =>
      by_cases heq : x = e
      · subst heq
        exact absurd ⟨hx.resolve_right (hdying rfl), hne.symm⟩ now
      · exact hx.of_update heq envs

theorem EnvChange.busy {c : Call} {o : Outcome} (h : EnvChange s cur c o s') (hfree : FreeEnvs s)
    (hx : Busy s x) (hne : x ≠ cur) (hother : OnOther m k x) (hsafe : ¬ Clobbers m k s cur c) :
    Busy s' x := by
  cases h with
  | same hsame =>
      rw [Busy, hsame.1]
      exact hx
  | yield => exact hx
  | fault hdes => exact hdes.busy hx hne fun heq => absurd heq hne
  | @destroy envid e f _ target hdes =>
      refine hdes.busy hx hne ?_
      rintro rfl hdying
      exact hsafe ⟨x, target, hother, hdying⟩
  | @trapframe envid tf e s1 _ envTf target hs envs =>
      have h1 : Busy s1 x := by
        rcases hs with hsame | ⟨hcheck, hdes⟩
        · rw [Busy, hsame.1]
          exact hx
        · refine hdes.busy hx hne ?_
          rintro rfl hdying
          exact hsafe ⟨x, target, hother, hdying, hcheck⟩
      rw [Busy, envs, Function.update_apply]
      split
      · rename_i heq
        subst heq
        exact h1
      · exact h1
  | @exofork e _ _ s1 _ head alloc envs =>
      have hxe : x ≠ e := by
        rintro rfl
        exact hx.ne_free (hfree.head head)
      exact Busy.of_update (hx.of_update hxe alloc) hxe envs
  | @status envid status st e _ target hst envs =>
      have hxe : x ≠ e := by
        rintro rfl
        exact hsafe ⟨x, target, hother, by rw [hst]; rfl⟩
      exact hx.of_update hxe envs
  | @upcall envid func e _ target envs =>
      rw [Busy, envs, Function.update_apply]
      split
      · rename_i heq
        subst heq
        exact hx
      · exact hx
  | @deliver envid value srcva perm q e _ target recving envs =>
      have hxe : x ≠ e := by
        rintro rfl
        exact hsafe ⟨x, target, hother, recving⟩
      exact hx.of_update hxe envs
  | recv envs => exact hx.of_update hne envs

/-- What a dispatch on CPU `k` keeps for the scheduler. -/
structure DispatchKept (m : Smp n) (k : Fin n) (s : Kernel) (cur : EnvIx) (next : Next)
    (s' : Kernel) : Prop where
  free : FreeEnvs s'
  cur_live : ∀ e, next.curenv cur = some e → (s'.envs e).envStatus ≠ .free
  busy : ∀ x, x ≠ cur → OnOther m k x → Busy s x → Busy s' x

theorem Dispatched.kept (h : Dispatched s cur t next s') (hfree : FreeEnvs s)
    (hcur : (s.envs cur).envStatus ≠ .free)
    (hsafe : ∀ c, t = .syscall c → ¬ Clobbers m k s cur c) : DispatchKept m k s cur next s' := by
  have hlive := h.cur_live hcur
  cases h with
  | context _ tf _ envs free =>
      exact ⟨hfree.update envs rfl Iff.rfl free, hlive, fun x hx _ hb => hb.of_update hx envs⟩
  | fault _ hdes =>
      exact ⟨hfree.destroyed hcur hdes, hlive, fun x hx _ hb =>
        hdes.busy hb hx fun heq => absurd heq hx⟩
  | @ret c r s1 _ tf run envs free =>
      have hch := syscall_envs run
      exact ⟨(hfree.envChange hcur hch).update envs rfl Iff.rfl free, hlive, fun x hx hother hb =>
        (hch.busy hfree hb hx hother (hsafe c rfl)).of_update hx envs⟩
  | @yield c _ run =>
      have hch := syscall_envs run
      exact ⟨hfree.envChange hcur hch, hlive, fun x hx hother hb =>
        hch.busy hfree hb hx hother (hsafe c rfl)⟩
  | @gone c _ run =>
      have hch := syscall_envs run
      exact ⟨hfree.envChange hcur hch, hlive, fun x hx hother hb =>
        hch.busy hfree hb hx hother (hsafe c rfl)⟩

/-! ## Steps and runs -/

theorem Cpu.running_inj (h : Cpu.running e = Cpu.running x) : e = x := by
  simpa [Cpu.running] using h

/-- The invariant after an entry of CPU `k` that leaves the other CPUs' environments busy. -/
theorem ExclInv.after (h : ExclInv m) (hfree : FreeEnvs s')
    (hother : ∀ x, OnOther m k x → Busy s' x ∧ cpu ≠ .running x)
    (hrun : ∀ e, cpu = .running e → (s'.envs e).envStatus = .running) :
    ExclInv (m.after k (s', cpu)) := by
  have hk : (m.after k (s', cpu)).cpus k = cpu := Function.update_self ..
  have hne : ∀ k', k' ≠ k → (m.after k (s', cpu)).cpus k' = m.cpus k' := fun k' hk' =>
    Function.update_of_ne hk' ..
  refine ⟨⟨fun k1 k2 e h1 h2 => ?_, fun k1 e h1 => ?_⟩, hfree⟩
  · by_cases hk1 : k1 = k
    · by_cases hk2 : k2 = k
      · rw [hk1, hk2]
      · subst hk1
        rw [hk] at h1
        rw [hne k2 hk2] at h2
        exact absurd h1 (hother e ⟨k2, hk2, h2⟩).2
    · by_cases hk2 : k2 = k
      · subst hk2
        rw [hk] at h2
        rw [hne k1 hk1] at h1
        exact absurd h2 (hother e ⟨k1, hk1, h1⟩).2
      · rw [hne k1 hk1] at h1
        rw [hne k2 hk2] at h2
        exact h.excl.one k1 k2 e h1 h2
  · by_cases hk1 : k1 = k
    · subst hk1
      rw [hk] at h1
      exact Or.inl (hrun e h1)
    · rw [hne k1 hk1] at h1
      exact (hother e ⟨k1, hk1, h1⟩).1

/-- The environments that other CPUs run are busy. -/
theorem ExclInv.busy_other (h : ExclInv m) (hx : OnOther m k x) : Busy m.kern x := by
  obtain ⟨k', _, hk'⟩ := hx
  exact h.excl.status k' x hk'

theorem ExclInv.ne_cur (h : ExclInv m) (hk : m.cpus k = .running cur) (hx : OnOther m k x) :
    x ≠ cur := by
  rintro rfl
  obtain ⟨k', hne, hk'⟩ := hx
  exact hne (h.excl.one k' k x hk' hk)

theorem saveFrame_envs : (saveFrame s cur tf).envs =
    Function.update s.envs cur { s.envs cur with envTf := tf } := rfl

/-- The internal steps leave the CPUs alone; while an environment is created they are halted. -/
theorem ExclInv.idle (hfree : FreeEnvs s) (hidle : ∀ k, m.cpus k = .halted) :
    ExclInv { m with kern := s } := by
  have hno : ∀ k e, m.cpus k ≠ .running e := fun k e hk => by
    rw [hidle k] at hk
    cases hk
  exact ⟨⟨fun k k' e hk => absurd hk (hno k e), fun k e hk => absurd hk (hno k e)⟩, hfree⟩

theorem ExclInv.step {ev : SmpEvent n} (h : ExclInv m) (hstep : SmpStep m ev m')
    (hok : Careful m ev) : ExclInv m' := by
  cases hstep with
  | @trap k cur tf faultVa console r cpu run =>
      obtain ⟨s', c⟩ := r
      have hbusy : Busy m.kern cur := h.excl.status k cur cpu
      cases entered_trap run with
      | @zombie s1 _ _ dying envs free hswitch =>
          have hfree1 : FreeEnvs s1 := h.free.put hbusy.ne_free envs free
          refine h.after (hfree1.switched hswitch (by simp)) (fun x hx => ?_) fun e he =>
            hswitch.status he
          exact hswitch.busy ((h.busy_other hx).of_update (h.ne_cur cpu hx) envs) (by simp)
      | @dispatch s1 _ _ next alive hdispatch hswitch =>
          have hfree0 : FreeEnvs (saveFrame m.kern cur tf) :=
            h.free.update saveFrame_envs rfl Iff.rfl rfl
          have hcur0 : ((saveFrame m.kern cur tf).envs cur).envStatus ≠ .free := by
            rw [saveFrame_envs, Function.update_self]
            exact hbusy.ne_free
          have hk : DispatchKept m k (saveFrame m.kern cur tf) cur next s1 :=
            hdispatch.kept hfree0 hcur0 fun c hc => hok cur c cpu alive hc
          refine h.after (hk.free.switched hswitch hk.cur_live) (fun x hx => ?_) fun e he =>
            hswitch.status he
          have hne := h.ne_cur cpu hx
          refine hswitch.busy (hk.busy x hne hx ((h.busy_other hx).of_update hne saveFrame_envs)) ?_
          intro heq
          exact hne (Next.eq_of_curenv heq).1
  | @wake k t r cpu run =>
      obtain ⟨s', c⟩ := r
      have hswitch := switched_trapHalted run
      exact h.after (h.free.switched hswitch (by simp)) (fun x hx =>
        hswitch.busy (h.busy_other hx) (by simp)) fun e he => hswitch.status he
  | store c cpu dir grants => exact ⟨⟨h.excl.one, h.excl.status⟩, h.free.same ⟨rfl, rfl⟩⟩
  | create idle run =>
      refine ExclInv.idle ?_ idle
      rcases envAlloc_envs run with ⟨hsame, _⟩ | ⟨e, p, _, hhead, henvs, hfree⟩
      · exact h.free.same hsame
      · exact h.free.take _ hhead henvs rfl (by simp [newEnv]) hfree
  | region idle dir low alloc insert =>
      exact ExclInv.idle (h.free.same ((sameEnvs_pageAlloc alloc).trans (sameEnvs_pageInsert insert)))
        idle
  | load c idle dir grants => exact ExclInv.idle (h.free.same ⟨rfl, rfl⟩) idle
  | setup idle tf ty => exact ExclInv.idle (h.free.update rfl rfl Iff.rfl rfl) idle

theorem SmpBooted.exclInv (h : SmpBooted R m) : ExclInv m :=
  ExclInv.idle (s := m.kern) h.kern.inv.envs.free_list h.cpus

theorem SmpRun.exclInv (h : SmpRun R Careful m) : ExclInv m := by
  induction h with
  | boot h => exact h.exclInv
  | step _ hstep hok ih => exact ih.step hstep hok

/-- In a run in which no system call overwrites the status of an environment that another CPU
runs, and every write for an environment goes to memory that it may write, no environment ever runs on
two CPUs, and every environment in user mode is `ENV_RUNNING` or `ENV_DYING`. -/
theorem one_cpu_per_env {n : Nat} {R : Nat → Prop} {m : Smp n} (h : SmpRun R Lawful m) :
    Exclusive m := (h.mono fun _ _ hok => hok.1).exclInv.excl

/-- Such a run keeps the page invariants. -/
theorem SmpRun.inv (h : SmpRun R Lawful m) : ExclInv m ∧ Inv R m.kern := by
  induction h with
  | boot h => exact ⟨h.exclInv, h.kern.inv⟩
  | step _ hstep hok ih =>
      obtain ⟨hexcl, hinv⟩ := ih
      exact ⟨hexcl.step hstep hok.1, (hstep.kept hinv hok.2 fun k e hk =>
        Busy.ne_free (hexcl.excl.status k e hk)).inv⟩

/-! ## Short runs -/

/-- Reached from boot in `j` steps. -/
structure SmpReached (R : Nat → Prop) (j : Nat) (m : Smp n) : Prop where
  run : SmpRun R Lawful m
  count_le : ∀ p, refCount (target m.kern) p ≤ 2 * j

theorem SmpBooted.reached (h : SmpBooted R m) : SmpReached R 0 m := by
  refine ⟨.boot h, fun p => ?_⟩
  rw [refCount_eq_zero.mpr fun k => by rw [target_of_booted h.kern k]; simp]

/-- Few steps cannot make a counter wrap around. -/
theorem SmpReached.bounded {j : Nat} (h : SmpReached R j m) (hj : j < 2 ^ 15) : Bounded m.kern := by
  intro p
  have := h.count_le p
  omega

theorem SmpReached.step {j : Nat} {ev : SmpEvent n} (h : SmpReached R j m) (hj : j < 2 ^ 15)
    (hstep : SmpStep m ev m') (hok : Careful m ev) (hsafe : SafeCalls m ev) :
    SmpReached R (j + 1) m' := by
  have hcontained : Contained m ev := ⟨h.bounded hj, hsafe⟩
  refine ⟨.step h.run hstep ⟨hok, hcontained⟩, fun p => ?_⟩
  obtain ⟨hexcl, hinv⟩ := h.run.inv
  have hkept := hstep.kept hinv hcontained fun k e hk => Busy.ne_free (hexcl.excl.status k e hk)
  have := hkept.count_le p
  have := h.count_le p
  omega

/-- Commands that pass a test. -/
theorem SmpReached.execAll {test : Smp n → SmpCmd n → Bool} {l : List (SmpCmd n)} {j : Nat}
    (htest : ∀ m c, test m c → Careful m c.event ∧ SafeCalls m c.event) (h : SmpReached R j m)
    (hj : j + l.length < 2 ^ 15) (hrun : l.foldlM (smpExecIf test) m = some m') :
    SmpReached R (j + l.length) m' := by
  induction l generalizing m j with
  | nil =>
      cases hrun
      exact h
  | cons c l ih =>
      simp only [List.foldlM_cons, Option.bind_eq_bind, Option.bind_eq_some_iff] at hrun
      obtain ⟨m1, hm1, hrest⟩ := hrun
      rw [List.length_cons] at hj
      simp only [smpExecIf] at hm1
      split at hm1
      · rename_i hc
        obtain ⟨hok, hsafe⟩ := htest m c hc
        have hend := ih (h.step (by omega) (smpStep_of_exec hm1) hok hsafe) (by omega) hrest
        rw [List.length_cons, show j + (l.length + 1) = j + 1 + l.length by omega]
        exact hend
      · cases hm1

end

/-- With the other CPUs halted nothing can go wrong. -/
def lone (m : Smp n) : SmpCmd n → Bool
  | .trap k _ => decide (∀ k', k' ≠ k → m.cpus k' = .halted)
  | _ => true

/-- A call harms no other CPU when no other CPU runs an environment. -/
theorem not_clobbers {m : Smp n} {k : Fin n} (hno : ∀ e, ¬ OnOther m k e) (s : Kernel) (cur : EnvIx)
    (c : Call) : ¬ Clobbers m k s cur c := by
  intro hcl
  cases c with
  | envSetStatus envid status =>
      obtain ⟨e, _, he, _⟩ := hcl
      exact hno e he
  | ipcTrySend envid value srcva perm =>
      obtain ⟨e, _, he, _⟩ := hcl
      exact hno e he
  | envDestroy envid =>
      obtain ⟨e, _, he, _⟩ := hcl
      exact hno e he
  | envSetTrapframe envid tf =>
      obtain ⟨e, _, he, _⟩ := hcl
      exact hno e he
  | _ => exact hcl

theorem careful_of_lone {m : Smp n} {c : SmpCmd n} (h : lone m c) : Careful m c.event := by
  cases c with
  | trap k tf =>
      have hno : ∀ e, ¬ OnOther m k e := by
        rintro e ⟨k', hk', hrun⟩
        rw [of_decide_eq_true h k' hk'] at hrun
        cases hrun
      intro cur c _ _ _
      exact not_clobbers hno _ cur c
  | create => trivial
  | wake k => trivial

/-- The command is no `sys_env_set_trapframe`. -/
def SmpCmd.plain : SmpCmd n → Bool
  | .trap _ tf => match Trap.ofFrame tf 0#32 0 with
      | .syscall c => !c.isSetTrapframe
      | _ => true
  | _ => true

theorem safeCalls_of_plain {m : Smp n} {c : SmpCmd n} (h : c.plain) : SafeCalls m c.event := by
  cases c with
  | trap k tf =>
      intro cur c _ _ ht
      simp only [SmpCmd.plain, ht] at h
      exact safeCall_of_not (by simpa using h)
  | create => trivial
  | wake k => trivial

/-- The other CPUs are halted and no trap frame is set. -/
def loneTest (m : Smp n) (c : SmpCmd n) : Bool := lone m c && c.plain

theorem careful_of_loneTest {m : Smp n} {c : SmpCmd n} (h : loneTest m c) :
    Careful m c.event ∧ SafeCalls m c.event := by
  rw [loneTest, Bool.and_eq_true] at h
  exact ⟨careful_of_lone h.1, safeCalls_of_plain h.2⟩

/-- One evaluation shows that a short run of the small machine exists and what is seen at its end. -/
theorem smallSmpAfter_reached {α : Type} {test : Smp 2 → SmpCmd 2 → Bool} {l : List (SmpCmd 2)}
    {f : Smp 2 → α} {a : α} (h : (l.foldlM (smpExecIf test) smallSmp).map f = some a)
    (hl : l.length < 2 ^ 15) (htest : ∀ m c, test m c → Careful m c.event ∧ SafeCalls m c.event) :
    SmpReached smallReserved l.length (smallSmpAfter test l) ∧ f (smallSmpAfter test l) = a := by
  obtain ⟨m, hm, ha⟩ := Option.map_eq_some_iff.mp h
  rw [smallSmpAfter, hm]
  have hend := SmpReached.execAll htest smallSmp_booted.reached (by omega) hm
  rw [Nat.zero_add] at hend
  exact ⟨hend, ha⟩

/-- The first environment makes a child and sets it running; the second CPU picks it up. -/
def startChild : List (SmpCmd 2) :=
  [.create, .wake cpu0, .trap cpu0 (callFrame 7 0 0 0 0 0),
    .trap cpu0 (callFrame 8 0x1001 2 0 0 0), .wake cpu1]

theorem one_cpu_per_env_child :
    (smallSmpAfter loneTest startChild).cpus 1 = .running ⟨1, by decide⟩ ∧
      Exclusive (smallSmpAfter loneTest startChild) := by
  have hview : (startChild.foldlM (smpExecIf loneTest) smallSmp).map (fun m => m.cpus 1) =
      some (.running ⟨1, by decide⟩) := by decide +kernel
  obtain ⟨hrun, hcpu⟩ := smallSmpAfter_reached hview (by decide) fun _ _ => careful_of_loneTest
  exact ⟨hcpu, one_cpu_per_env hrun.run⟩

/-- The parent sets the child running once more while CPU 1 runs it, and yields. -/
def startChildTwice : List (SmpCmd 2) :=
  startChild ++ [.trap cpu0 (callFrame 8 0x1001 2 0 0 0), .trap cpu0 (callFrame 11 0 0 0 0 0)]

theorem child_on_two_cpus :
    ∃ m : Smp 2, SmpRun smallReserved (fun _ _ => True) m ∧ ¬ Exclusive m := by
  have hview : (startChildTwice.foldlM (smpExecIf fun _ _ => true) smallSmp).map
      (fun m => (m.cpus 0, m.cpus 1)) =
      some (.running ⟨1, by decide⟩, .running ⟨1, by decide⟩) := by decide +kernel
  obtain ⟨hrun, hview⟩ := @smallSmpAfter_run _ (fun _ _ => True) _ _ _ _ hview fun _ _ _ => trivial
  obtain ⟨h0, h1⟩ := Prod.mk.inj hview
  refine ⟨smallSmpAfter (fun _ _ => true) startChildTwice, hrun, fun h => ?_⟩
  have := h.one 0 1 ⟨1, by decide⟩ h0 h1
  cases this

end Jos.Kern
