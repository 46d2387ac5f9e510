import Jos.Kern.IpcOnce
import Jos.Kern.Zombie

/-!
# A blocked receiver is blocked

`sys_ipc_recv` sets `env_ipc_recving` and makes its caller `ENV_NOT_RUNNABLE`. The two fields say
the same as long as nobody makes the environment runnable but the sender that completes the
receive. `sys_env_set_status` by the parent of a receiver does: the child goes on in user mode
with the result 0 and without a message, and a later message overwrites its status.

Main results:
* `RecvInv.step`: a step of any CPU keeps receivers blocked;
* `receivers_blocked`: the three parts, in every state of a run;
* `receiver_runs`: a receiver that runs.
-/

namespace Jos.Kern

open Jos.Lib Kernel

variable {n : Nat}

/-- An environment in the middle of a receive does not run and cannot be chosen. -/
def BlockedEnv (env : Env) : Prop :=
  env.envStatus ≠ .free → env.envIpcRecving = true → env.envStatus = .notRunnable

/-- The event makes no environment runnable, by `sys_env_set_status`, that is in the middle of a
receive or runs on another CPU. -/
def NoWake (m : Smp n) : SmpEvent n → Prop
  | .trap k tf faultVa console => ∀ s cur envid status e,
      callOf m (.trap k tf faultVa console) = some (s, cur, .envSetStatus envid status) →
        envid2env s cur envid true = some e → statusOf status = some .runnable →
          (s.envs e).envIpcRecving = false ∧ ¬ OnOther m k e
  | _ => True

/-- Runs from `m` on in which slot `e` keeps its id and nothing is delivered to it. -/
inductive Undelivered (ok : Smp n → SmpEvent n → Prop) (e : EnvIx) (m : Smp n) : Smp n → Prop
  | refl : Undelivered ok e m m
  | step {m1 m' : Smp n} {ev : SmpEvent n} (h : Undelivered ok e m m1) (hstep : SmpStep m1 ev m')
      (hok : ok m1 ev) (same : (m'.kern.envs e).envId = (m1.kern.envs e).envId)
      (none : ∀ sender value, ipcEventOf m1 ev e ≠ some (.sent sender value)) :
      Undelivered ok e m m'

/-- Receivers are blocked: the two fields agree; an environment that has called `sys_ipc_recv` with
a proper address is in user mode again only after a message; and `sys_ipc_try_send` does not touch
an environment on a CPU. -/
structure ReceiversBlocked (ok : Smp n → SmpEvent n → Prop) (m : Smp n) : Prop where
  blocked : ∀ e, BlockedEnv (m.kern.envs e)
  returns : ∀ k e tf faultVa console dstva m1 m', m.cpus k = .running e →
    (m.kern.envs e).envStatus ≠ .dying →
    Trap.ofFrame tf faultVa console = .syscall (.ipcRecv dstva) →
    ¬ (dstva < utop ∧ pgoff dstva ≠ 0) → SmpStep m (.trap k tf faultVa console) m1 →
    ok m (.trap k tf faultVa console) → Undelivered ok e m1 m' → ∀ k', m'.cpus k' ≠ .running e
  send : ∀ k cur tf faultVa console envid value srcva perm s' o k' e, m.cpus k = .running cur →
    (m.kern.envs cur).envStatus ≠ .dying →
    Trap.ofFrame tf faultVa console = .syscall (.ipcTrySend envid value srcva perm) →
    syscall (saveFrame m.kern cur tf) cur (.ipcTrySend envid value srcva perm) = some (s', o) →
    m.cpus k' = .running e → s'.envs e = (saveFrame m.kern cur tf).envs e

section

variable {s s' : Kernel} {cpunum : Nat} {curenv : Option EnvIx} {cur e x : EnvIx} {cpu : Cpu}
  {next : Next} {t : Trap} {tf : Trapframe} {m m' : Smp n} {k : Fin n} {R : Nat → Prop}
  {forced : Prop} {c : Call} {o : Outcome} {env env' : Env}

/-! ## The two fields -/

theorem blockedEnv_of_not_recving (h : env.envIpcRecving = false) : BlockedEnv env := by
  intro _ hrec
  rw [h] at hrec
  cases hrec

theorem BlockedEnv.not_recving (h : BlockedEnv env) (hlive : env.envStatus ≠ .free)
    (hst : env.envStatus ≠ .notRunnable) : env.envIpcRecving = false := by
  by_contra hrec
  exact hst (h hlive (by simpa using hrec))

theorem BlockedEnv.congr (h : BlockedEnv env) (hst : env'.envStatus = env.envStatus)
    (hrec : env'.envIpcRecving = env.envIpcRecving) : BlockedEnv env' := by
  unfold BlockedEnv
  rw [hst, hrec]
  exact h

theorem blocked_update (h : ∀ e, BlockedEnv (s.envs e))
    (henvs : s'.envs = Function.update s.envs e env) (henv : BlockedEnv env) :
    ∀ x, BlockedEnv (s'.envs x) := by
  intro x
  rw [henvs, Function.update_apply]
  split
  · exact henv
  · exact h x

theorem Destroyed.blocked {f : Bool} (hd : Destroyed s cur e s' f)
    (h : ∀ x, BlockedEnv (s.envs x)) : ∀ x, BlockedEnv (s'.envs x) := by
  cases hd with
  | mark running _ envs _ =>
      refine blocked_update h envs (blockedEnv_of_not_recving ?_)
      exact (h e).not_recving (by simp [running]) (by simp [running])
  | free _ envs _ => exact blocked_update h envs fun hlive => absurd rfl hlive

theorem statusOf_cases {status : BitVec 32} {st : EnvStatus} (h : statusOf status = some st) :
    st = .runnable ∨ st = .notRunnable := by
  simp only [statusOf] at h
  split at h
  · cases h
    exact Or.inl rfl
  · split at h
    · cases h
      exact Or.inr rfl
    · cases h

theorem EnvChange.blocked (hc : EnvChange s cur c o s') (h : ∀ x, BlockedEnv (s.envs x))
    (hwake : ∀ envid status e, c = .envSetStatus envid status → envid2env s cur envid true = some e →
      statusOf status = some .runnable → (s.envs e).envIpcRecving = false) :
    ∀ x, BlockedEnv (s'.envs x) := by
  cases hc with
  | same hsame =>
      rw [hsame.1]
      exact h
  | yield => exact h
  | fault hdes => exact hdes.blocked h
  | destroy _ hdes => exact hdes.blocked h
  | @trapframe _ _ e s1 _ _ _ hs envs _ =>
      have h1 : ∀ x, BlockedEnv (s1.envs x) := by
        rcases hs with hsame | ⟨_, hdes⟩
        · rw [hsame.1]
          exact h
        · exact hdes.blocked h
      exact blocked_update h1 envs ((h1 e).congr rfl rfl)
  | @exofork e _ _ s1 _ _ alloc envs _ =>
      have h1 : ∀ x, BlockedEnv (s1.envs x) :=
        blocked_update h alloc (blockedEnv_of_not_recving rfl)
      exact blocked_update h1 envs fun _ _ => rfl
  | @status envid status st e _ target hst envs _ =>
      refine blocked_update h envs ?_
      rcases statusOf_cases hst with rfl | rfl
      · exact blockedEnv_of_not_recving (hwake envid status e rfl target hst)
      · exact fun _ _ => rfl
  | @upcall _ _ e _ _ envs _ => exact blocked_update h envs ((h e).congr rfl rfl)
  | deliver _ _ envs _ => exact blocked_update h envs (blockedEnv_of_not_recving rfl)
  | recv envs _ => exact blocked_update h envs fun _ _ => rfl

/-- The scheduler takes a runnable environment or goes back to the current one. -/
theorem Switched.blocked (hsw : Switched s cpunum curenv forced s' cpu)
    (h : ∀ x, BlockedEnv (s.envs x))
    (hforced : forced → ∀ e, curenv = some e → (s.envs e).envIpcRecving = false) :
    ∀ x, BlockedEnv (s'.envs x) := by
  cases hsw with
  | @run e _ ready envs _ =>
      have hrec : (s.envs e).envIpcRecving = false := by
        rcases ready with hrun | ⟨hcur, hf | hrun⟩
        · exact (h e).not_recving (by simp [hrun]) (by simp [hrun])
        · exact hforced hf e hcur
        · exact (h e).not_recving (by simp [hrun]) (by simp [hrun])
      intro x
      rw [envs, switchEnv]
      split
      · rename_i hx
        rw [hx]
        exact blockedEnv_of_not_recving hrec
      · split
        · rename_i hx
          refine blockedEnv_of_not_recving ?_
          exact (h x).not_recving (by simp [hx.2]) (by simp [hx.2])
        · exact h x
  | halt => exact h

theorem Dispatched.blocked (hd : Dispatched s cur t next s') (h : ∀ x, BlockedEnv (s.envs x))
    (hwake : ∀ envid status e, t = .syscall (.envSetStatus envid status) →
      envid2env s cur envid true = some e → statusOf status = some .runnable →
        (s.envs e).envIpcRecving = false) : ∀ x, BlockedEnv (s'.envs x) := by
  have hcall : ∀ {c o s1}, t = .syscall c → syscall s cur c = some (s1, o) →
      ∀ x, BlockedEnv (s1.envs x) := by
    intro c o s1 ht hrun
    exact (syscall_envs hrun).blocked h fun envid status e hc => hwake envid status e (by rw [ht, hc])
  cases hd with
  | context _ tf _ envs _ => exact blocked_update h envs ((h cur).congr rfl rfl)
  | fault _ hdes => exact hdes.blocked h
  | ret tf run envs _ =>
      have h1 := hcall rfl run
      exact blocked_update h1 envs ((h1 cur).congr rfl rfl)
  | yield run => exact hcall rfl run
  | gone run => exact hcall rfl run

theorem blocked_saveFrame (h : ∀ x, BlockedEnv (s.envs x)) (tf : Trapframe) :
    ∀ x, BlockedEnv ((saveFrame s cur tf).envs x) :=
  blocked_update h saveFrame_envs ((h cur).congr rfl rfl)

/-! ## An environment on another CPU -/

/-- What is known of an environment in user mode: the scheduler does not take it and no message goes
to it. -/
def OnCpuEnv (env : Env) : Prop := env.envIpcRecving = false ∧ env.envStatus ≠ .runnable

theorem onCpuEnv_update (h : OnCpuEnv (s.envs x)) (henvs : s'.envs = Function.update s.envs e env)
    (henv : x = e → OnCpuEnv env) : OnCpuEnv (s'.envs x) := by
  rw [henvs, Function.update_apply]
  split
  · rename_i hx
    exact henv hx
  · exact h

theorem Destroyed.onCpuEnv {f : Bool} (hd : Destroyed s cur e s' f) (h : OnCpuEnv (s.envs x)) :
    OnCpuEnv (s'.envs x) := by
  cases hd with
  | mark _ _ envs _ => exact onCpuEnv_update h envs (by rintro rfl; exact ⟨h.1, by simp⟩)
  | free _ envs _ => exact onCpuEnv_update h envs (by rintro rfl; exact ⟨h.1, by simp [freedEnv]⟩)

theorem EnvChange.onCpuEnv (hc : EnvChange s cur c o s') (hne : x ≠ cur) (h : OnCpuEnv (s.envs x))
    (hwake : ∀ envid status e, c = .envSetStatus envid status → envid2env s cur envid true = some e →
      statusOf status = some .runnable → x ≠ e) : OnCpuEnv (s'.envs x) := by
  cases hc with
  | same hsame =>
      rw [hsame.1]
      exact h
  | yield => exact h
  | fault hdes => exact hdes.onCpuEnv h
  | destroy _ hdes => exact hdes.onCpuEnv h
  | @trapframe _ _ e s1 _ _ _ hs envs _ =>
      have h1 : OnCpuEnv (s1.envs x) := by
        rcases hs with hsame | ⟨_, hdes⟩
        · rw [hsame.1]
          exact h
        · exact hdes.onCpuEnv h
      exact onCpuEnv_update h1 envs (by rintro rfl; exact h1)
  | exofork _ alloc envs _ =>
      rw [alloc, Function.update_idem] at envs
      refine onCpuEnv_update h envs fun _ => ?_
      rw [Function.update_self]
      exact ⟨rfl, by simp [exoforkEnv]⟩
  | @status envid status st e _ target hst envs _ =>
      refine onCpuEnv_update h envs ?_
      rintro rfl
      rcases statusOf_cases hst with rfl | rfl
      · exact absurd rfl (hwake envid status x rfl target hst)
      · exact ⟨h.1, by simp⟩
  | upcall _ envs _ => exact onCpuEnv_update h envs (by rintro rfl; exact h)
  | deliver _ recving envs _ =>
      refine onCpuEnv_update h envs ?_
      rintro rfl
      rw [h.1] at recving
      cases recving
  | recv envs _ => exact onCpuEnv_update h envs fun hx => absurd hx hne

theorem Dispatched.onCpuEnv (hd : Dispatched s cur t next s') (hne : x ≠ cur)
    (h : OnCpuEnv (s.envs x))
    (hwake : ∀ envid status e, t = .syscall (.envSetStatus envid status) →
      envid2env s cur envid true = some e → statusOf status = some .runnable → x ≠ e) :
    OnCpuEnv (s'.envs x) := by
  have hcall : ∀ {c o s1}, t = .syscall c → syscall s cur c = some (s1, o) →
      OnCpuEnv (s1.envs x) := fun ht hrun =>
    (syscall_envs hrun).onCpuEnv hne h fun envid status e hc => hwake envid status e (by rw [ht, hc])
  cases hd with
  | context _ tf _ envs _ => exact onCpuEnv_update h envs fun hx => absurd hx hne
  | fault _ hdes => exact hdes.onCpuEnv h
  | ret tf run envs _ => exact onCpuEnv_update (hcall rfl run) envs fun hx => absurd hx hne
  | yield run => exact hcall rfl run
  | gone run => exact hcall rfl run

/-! ## Steps and runs -/

/-- What the runs keep: receivers are blocked, and those on a CPU are on one CPU and no
receivers. -/
structure RecvInv (m : Smp n) : Prop where
  blocked : ∀ e, BlockedEnv (m.kern.envs e)
  one : ∀ k k' e, m.cpus k = .running e → m.cpus k' = .running e → k = k'
  onCpu : ∀ k e, m.cpus k = .running e → OnCpuEnv (m.kern.envs e)

/-- After an entry of CPU `k` that leaves the environments of the others alone. -/
theorem RecvInv.after (h : RecvInv m) (hblocked : ∀ x, BlockedEnv (s'.envs x))
    (hother : ∀ x, OnOther m k x → OnCpuEnv (s'.envs x) ∧ cpu ≠ .running x)
    (hrun : ∀ e, cpu = .running e → (s'.envs e).envStatus = .running) :
    RecvInv (m.after k (s', cpu)) := by
  have hk : (m.after k (s', cpu)).cpus k = cpu := Function.update_self ..
  have hne : ∀ k', k' ≠ k → (m.after k (s', cpu)).cpus k' = m.cpus k' := fun k' hk' =>
    Function.update_of_ne hk' ..
  refine ⟨hblocked, fun k1 k2 e h1 h2 => ?_, fun k1 e h1 => ?_⟩
  · by_cases hk1 : k1 = k
    · by_cases hk2 : k2 = k
      · rw [hk1, hk2]
      · rw [hk1, hk] at h1
        rw [hne k2 hk2] at h2
        exact absurd h1 (hother e ⟨k2, hk2, h2⟩).2
    · rw [hne k1 hk1] at h1
      by_cases hk2 : k2 = k
      · rw [hk2, hk] at h2
        exact absurd h2 (hother e ⟨k1, hk1, h1⟩).2
      · rw [hne k2 hk2] at h2
        exact h.one k1 k2 e h1 h2
  · by_cases hk1 : k1 = k
    · rw [hk1, hk] at h1
      have hst := hrun e h1
      have hrec := (hblocked e).not_recving (by simp [hst]) (by simp [hst])
      have hne : (s'.envs e).envStatus ≠ .runnable := by simp [hst]
      exact ⟨hrec, hne⟩
    · rw [hne k1 hk1] at h1
      exact (hother e ⟨k1, hk1, h1⟩).1

theorem RecvInv.ne_cur (h : RecvInv m) (hk : m.cpus k = .running cur) (hx : OnOther m k x) :
    x ≠ cur := by
  rintro rfl
  obtain ⟨k', hne, hk'⟩ := hx
  exact hne (h.one k' k x hk' hk)

theorem RecvInv.idle (h : ∀ e, BlockedEnv (s.envs e)) (hidle : ∀ k, m.cpus k = .halted) :
    RecvInv { m with kern := s } := by
  have hno : ∀ k e, m.cpus k ≠ .running e := fun k e hk => by
    rw [hidle k] at hk
    cases hk
  exact ⟨h, fun k k' e hk => absurd hk (hno k e), fun k e hk => absurd hk (hno k e)⟩

theorem RecvInv.step {ev : SmpEvent n} (h : RecvInv m) (hstep : SmpStep m ev m') (hok : NoWake m ev) :
    RecvInv m' := by
  cases hstep with
  | @trap k cur tf faultVa console r cpu run =>
      obtain ⟨s', c⟩ := r
      have hon : ∀ x, OnOther m k x → OnCpuEnv (m.kern.envs x) := fun x ⟨k', _, hk'⟩ => h.onCpu k' x hk'
      cases entered_trap run with
      | @zombie s1 _ _ dying envs _ hswitch =>
          have h1 : ∀ x, BlockedEnv (s1.envs x) :=
            blocked_update h.blocked envs fun hlive => absurd rfl hlive
          refine h.after (hswitch.blocked h1 fun hf => hf.elim) (fun x hx => ?_) fun e he =>
            hswitch.status he
          have hx1 : OnCpuEnv (s1.envs x) :=
            onCpuEnv_update (hon x hx) envs fun heq => absurd heq (h.ne_cur cpu hx)
          obtain ⟨heq, hcpu⟩ := hswitch.other hx1.2 (by simp)
          exact ⟨by rw [heq]; exact hx1, hcpu⟩
      | @dispatch s1 _ _ next alive hdispatch hswitch =>
          have hcall : ∀ envid status e, Trap.ofFrame tf faultVa console =
              .syscall (.envSetStatus envid status) →
                envid2env (saveFrame m.kern cur tf) cur envid true = some e →
                  statusOf status = some .runnable → _ := fun envid status e ht =>
            hok _ _ envid status e (callOf_trap cpu alive ht)
          have h1 : ∀ x, BlockedEnv (s1.envs x) :=
            hdispatch.blocked (blocked_saveFrame h.blocked tf) fun envid status e ht he hst =>
              (hcall envid status e ht he hst).1
          refine h.after (hswitch.blocked h1 ?_) (fun x hx => ?_) fun e he => hswitch.status he
          · -- `env_run` without a look at the status follows a page fault
            rintro rfl e he
            obtain ⟨rfl, _⟩ := Next.eq_of_curenv he
            generalize Trap.ofFrame tf faultVa console = t at hdispatch
            cases hdispatch with
            | context _ _ _ envs _ =>
                rw [envs, Function.update_self, saveFrame_envs, Function.update_self]
                exact (h.onCpu k e cpu).1
          · have hne := h.ne_cur cpu hx
            have hx0 : OnCpuEnv ((saveFrame m.kern cur tf).envs x) :=
              onCpuEnv_update (hon x hx) saveFrame_envs fun heq => absurd heq hne
            have hx1 : OnCpuEnv (s1.envs x) := hdispatch.onCpuEnv hne hx0 <| by
              rintro envid status e ht he hst rfl
              exact (hcall envid status x ht he hst).2 hx
            obtain ⟨heq, hcpu⟩ := hswitch.other hx1.2 fun hcur => hne (Next.eq_of_curenv hcur).1
            exact ⟨by rw [heq]; exact hx1, hcpu⟩
  | @wake k t r cpu run =>
      obtain ⟨s', c⟩ := r
      have hswitch := switched_trapHalted run
      refine h.after (hswitch.blocked h.blocked fun hf => hf.elim) ?_ fun e he => hswitch.status he
      rintro x ⟨k', _, hk'⟩
      obtain ⟨heq, hcpu⟩ := hswitch.other (h.onCpu k' x hk').2 (by simp)
      exact ⟨by rw [heq]; exact h.onCpu k' x hk', hcpu⟩
  | store c cpu dir grants => exact ⟨h.blocked, h.one, h.onCpu⟩
  | create idle run =>
      refine RecvInv.idle ?_ idle
      rcases envAlloc_envs run with ⟨hsame, _⟩ | ⟨e, p, _, _, henvs, _⟩
      · rw [hsame.1]
        exact h.blocked
      · exact blocked_update h.blocked henvs (blockedEnv_of_not_recving rfl)
  | region idle dir low alloc insert =>
      refine RecvInv.idle ?_ idle
      rw [((sameEnvs_pageAlloc alloc).trans (sameEnvs_pageInsert insert)).1]
      exact h.blocked
  | load c idle dir grants => exact RecvInv.idle h.blocked idle
  | @setup e idle tf ty =>
      exact RecvInv.idle (blocked_update h.blocked rfl ((h.blocked e).congr rfl rfl)) idle

theorem SmpRun.recvInv (h : SmpRun R NoWake m) : RecvInv m := by
  induction h with
  | boot h =>
      exact RecvInv.idle (fun e hlive => absurd (h.kern.envs e).1 hlive) h.cpus
  | step _ hstep hok ih => exact ih.step hstep hok

/-! ## A receive until the message -/

/-- The environment is still in its receive, or another one is in its slot. -/
def StillReceives (env env' : Env) : Prop :=
  env.envIpcRecving = true → env'.envIpcRecving = true ∨ env'.envId ≠ env.envId

theorem stillReceives_of_eq (hrec : env'.envIpcRecving = env.envIpcRecving) :
    StillReceives env env' := fun h => Or.inl (hrec.trans h)

theorem stillReceives_update (henvs : s'.envs = Function.update s.envs e env)
    (henv : StillReceives (s.envs e) env) (x : EnvIx) : StillReceives (s.envs x) (s'.envs x) := by
  rw [henvs, Function.update_apply]
  split
  · rename_i hx
    rw [hx]
    exact henv
  · exact stillReceives_of_eq rfl

theorem envIpcRecving_update (henvs : s'.envs = Function.update s.envs e env)
    (henv : env.envIpcRecving = (s.envs e).envIpcRecving) (x : EnvIx) :
    (s'.envs x).envIpcRecving = (s.envs x).envIpcRecving := by
  rw [henvs, Function.update_apply]
  split
  · rename_i hx
    rw [hx]
    exact henv
  · rfl

theorem Destroyed.envIpcRecving {f : Bool} (hd : Destroyed s cur e s' f) (x : EnvIx) :
    (s'.envs x).envIpcRecving = (s.envs x).envIpcRecving := by
  cases hd with
  | mark _ _ envs _ => exact envIpcRecving_update envs rfl x
  | free _ envs _ => exact envIpcRecving_update envs rfl x

theorem EnvChange.stillReceives (hc : EnvChange s cur c o s') (x : EnvIx)
    (hnone : ∀ sender value, ipcEvent s cur c o x ≠ some (.sent sender value)) :
    StillReceives (s.envs x) (s'.envs x) := by
  cases hc with
  | same hsame => exact stillReceives_of_eq (by rw [hsame.1])
  | yield => exact stillReceives_of_eq rfl
  | fault hdes => exact stillReceives_of_eq (hdes.envIpcRecving x)
  | destroy _ hdes => exact stillReceives_of_eq (hdes.envIpcRecving x)
  | @trapframe _ _ e s1 _ _ _ hs envs _ =>
      have h1 : (s1.envs x).envIpcRecving = (s.envs x).envIpcRecving := by
        rcases hs with hsame | ⟨_, hdes⟩
        · rw [hsame.1]
        · exact hdes.envIpcRecving x
      exact stillReceives_of_eq ((envIpcRecving_update envs rfl x).trans h1)
  | @exofork e _ _ s1 _ _ alloc envs _ =>
      rw [alloc, Function.update_idem] at envs
      refine stillReceives_update envs (fun _ => Or.inr ?_) x
      rw [Function.update_self]
      exact nextEnvId_ne e _
  | status _ _ envs _ => exact stillReceives_update envs (stillReceives_of_eq rfl) x
  | upcall _ envs _ => exact stillReceives_update envs (stillReceives_of_eq rfl) x
  | @deliver envid value srcva perm q e _ target _ envs _ =>
      have hx : x ≠ e := by
        rintro rfl
        refine hnone (s.envs cur).envId value ?_
        simp [ipcEvent, target]
      exact stillReceives_of_eq (by rw [status_update envs hx])
  | recv envs _ => exact stillReceives_update envs (fun _ => Or.inl rfl) x

theorem Switched.envIpcRecving (hsw : Switched s cpunum curenv forced s' cpu) (x : EnvIx) :
    (s'.envs x).envIpcRecving = (s.envs x).envIpcRecving := by
  cases hsw with
  | run _ envs _ =>
      rw [envs, switchEnv]
      split
      · rfl
      · split <;> rfl
  | halt => rfl

theorem saveFrame_env (x : EnvIx) :
    ((saveFrame s cur tf).envs x).envIpcRecving = (s.envs x).envIpcRecving ∧
      ((saveFrame s cur tf).envs x).envId = (s.envs x).envId := by
  rw [saveFrame_envs, Function.update_apply]
  split
  · rename_i hx
    rw [hx]
    exact ⟨rfl, rfl⟩
  · exact ⟨rfl, rfl⟩

/-- A dispatch that delivers nothing to `x`. -/
theorem Dispatched.stillReceives (hd : Dispatched s cur t next s') (x : EnvIx)
    (hnone : ∀ c o s1, t = .syscall c → syscall s cur c = some (s1, o) →
      ∀ sender value, ipcEvent s cur c o x ≠ some (.sent sender value)) :
    StillReceives (s.envs x) (s'.envs x) := by
  cases hd with
  | context _ tf _ envs _ => exact stillReceives_update envs (stillReceives_of_eq rfl) x
  | fault _ hdes => exact stillReceives_of_eq (hdes.envIpcRecving x)
  | @ret c r s1 _ tf run envs _ =>
      have h1 := (syscall_envs run).stillReceives x (hnone c _ s1 rfl run)
      rw [envs, Function.update_apply]
      split
      · rename_i hx
        subst hx
        exact h1
      · exact h1
  | yield run => exact (syscall_envs run).stillReceives x (hnone _ _ _ rfl run)
  | gone run => exact (syscall_envs run).stillReceives x (hnone _ _ _ rfl run)

theorem SmpStep.stillReceives {ev : SmpEvent n} (hstep : SmpStep m ev m')
    (hnone : ∀ sender value, ipcEventOf m ev e ≠ some (.sent sender value)) :
    StillReceives (m.kern.envs e) (m'.kern.envs e) := by
  cases hstep with
  | @trap k cur tf faultVa console r cpu run =>
      obtain ⟨s', c⟩ := r
      have hkern : (m.after k (s', c)).kern = s' := rfl
      rw [hkern]
      cases entered_trap run with
      | @zombie s1 _ _ dying envs _ hswitch =>
          exact stillReceives_of_eq ((hswitch.envIpcRecving e).trans (envIpcRecving_update envs rfl e))
      | @dispatch s1 _ _ next alive hdispatch hswitch =>
          obtain ⟨hrec0, hid0⟩ := @saveFrame_env m.kern cur tf e
          have h1 : StillReceives ((saveFrame m.kern cur tf).envs e) (s1.envs e) := by
            refine hdispatch.stillReceives e fun c o s2 ht hrun => ?_
            rw [← ipcEventOf_call (callOf_trap cpu alive ht) hrun]
            exact hnone
          intro hrec
          rw [hswitch.envIpcRecving e, hswitch.envId e, ← hid0]
          exact h1 (hrec0.trans hrec)
  | @wake k t r cpu run =>
      obtain ⟨s', c⟩ := r
      exact stillReceives_of_eq ((switched_trapHalted run).envIpcRecving e)
  | store c cpu dir grants => exact stillReceives_of_eq rfl
  | create idle run =>
      rcases envAlloc_envs run with ⟨hsame, _⟩ | ⟨e', p, _, _, henvs, _⟩
      · exact stillReceives_of_eq (by rw [hsame.1])
      · exact stillReceives_update henvs (fun _ => Or.inr (nextEnvId_ne e' _)) e
  | region idle dir low alloc insert =>
      exact stillReceives_of_eq
        (by rw [((sameEnvs_pageAlloc alloc).trans (sameEnvs_pageInsert insert)).1])
  | load c idle dir grants => exact stillReceives_of_eq rfl
  | @setup e' idle tf ty =>
      have henvs : (m.kern.setEnv e' fun env => { env with envTf := tf, envType := ty }).envs =
          Function.update m.kern.envs e' { m.kern.envs e' with envTf := tf, envType := ty } := rfl
      exact stillReceives_of_eq (envIpcRecving_update henvs rfl e)

theorem Undelivered.recving {ok : Smp n → SmpEvent n → Prop} (h : Undelivered ok e m m')
    (hrec : (m.kern.envs e).envIpcRecving = true) : (m'.kern.envs e).envIpcRecving = true := by
  induction h with
  | refl => exact hrec
  | step _ hstep _ same hnone ih => exact (hstep.stillReceives hnone ih).resolve_right fun h => h same

theorem Undelivered.run {ok : Smp n → SmpEvent n → Prop} (h : Undelivered ok e m m')
    (hrun : SmpRun R ok m) : SmpRun R ok m' := by
  induction h with
  | refl => exact hrun
  | step _ hstep hok _ _ ih => exact .step ih hstep hok

/-- A `sys_ipc_recv` with a proper address. -/
theorem SmpStep.recving {faultVa : BitVec 32} {console : Int} {dstva : BitVec 32}
    (hstep : SmpStep m (.trap k tf faultVa console) m') (hcpu : m.cpus k = .running e)
    (halive : (m.kern.envs e).envStatus ≠ .dying)
    (ht : Trap.ofFrame tf faultVa console = .syscall (.ipcRecv dstva))
    (hva : ¬ (dstva < utop ∧ pgoff dstva ≠ 0)) : (m'.kern.envs e).envIpcRecving = true := by
  cases hstep with
  | @trap _ cur _ _ _ r cpu run =>
      obtain rfl : e = cur := Cpu.running_inj (hcpu.symm.trans cpu)
      obtain ⟨s', c⟩ := r
      cases entered_trap run with
      | zombie dying => exact absurd dying halive
      | @dispatch s1 _ _ next alive hdispatch hswitch =>
          rw [ht] at hdispatch
          have hcall : ∀ s2 o, syscall (saveFrame m.kern e tf) e (.ipcRecv dstva) = some (s2, o) →
              o = .yield ∧ (s2.envs e).envIpcRecving = true := by
            intro s2 o hrun
            simp only [syscall, sysIpcRecv, if_neg hva, Option.some.injEq, Prod.mk.injEq] at hrun
            obtain ⟨rfl, rfl⟩ := hrun
            exact ⟨rfl, by rw [Kernel.setEnv_self]⟩
          have hkern : (m.after k (s', c)).kern = s' := rfl
          rw [hkern, hswitch.envIpcRecving e]
          cases hdispatch with
          | context _ _ nocall => exact absurd rfl (nocall _)
          | fault nocall => exact absurd rfl (nocall _)
          | ret tf run => cases (hcall _ _ run).1
          | yield run => exact (hcall _ _ run).2
          | gone run => cases (hcall _ _ run).1

theorem sysIpcTrySend_ret {envid value srcva perm : BitVec 32}
    (h : sysIpcTrySend s cur envid value srcva perm = some (s', o)) : ∃ r, o = .ret r := by
  unfold sysIpcTrySend at h
  split at h
  · cases h
    exact ⟨_, rfl⟩
  split at h
  · cases h
    exact ⟨_, rfl⟩
  split at h
  swap
  · cases h
    exact ⟨_, rfl⟩
  split at h
  · cases h
    exact ⟨_, rfl⟩
  simp only [Option.bind_eq_bind, Option.bind_eq_some_iff] at h
  obtain ⟨d, _, q, _, h⟩ := h
  cases q with
  | none =>
      cases h
      exact ⟨_, rfl⟩
  | some q =>
      simp only at h
      split at h
      · cases h
        exact ⟨_, rfl⟩
      split at h
      · cases h
        exact ⟨_, rfl⟩
      simp only [Option.bind_eq_some_iff] at h
      obtain ⟨d', _, q2, _, h⟩ := h
      split at h <;> cases h <;> exact ⟨_, rfl⟩

/-- A message touches no environment but a receiver. -/
theorem sysIpcTrySend_other {envid value srcva perm : BitVec 32}
    (h : sysIpcTrySend s cur envid value srcva perm = some (s', o))
    (hx : (s.envs x).envIpcRecving = false) : s'.envs x = s.envs x := by
  obtain ⟨r, rfl⟩ := sysIpcTrySend_ret h
  cases sysIpcTrySend_envs h with
  | same hsame => rw [hsame.1]
  | deliver target recving envs =>
      refine status_update envs ?_
      rintro rfl
      rw [recving] at hx
      cases hx

/-- In a run in which `sys_env_set_status` makes no environment runnable that is in the middle of a
receive or on another CPU, receivers are blocked. -/
theorem receivers_blocked {n : Nat} {R : Nat → Prop} {m : Smp n} (h : SmpRun R NoWake m) :
    ReceiversBlocked NoWake m where
  blocked := h.recvInv.blocked
  returns k e tf faultVa console dstva m1 m' hcpu halive ht hva hstep hok hund k' hk' := by
    have hrec := hund.recving (hstep.recving hcpu halive ht hva)
    have hinv := (hund.run (h.step hstep hok)).recvInv
    rw [(hinv.onCpu k' e hk').1] at hrec
    cases hrec
  send k cur tf faultVa console envid value srcva perm s' o k' e _ _ _ hrun hk' :=
    sysIpcTrySend_other hrun ((saveFrame_env e).1.trans ((h.recvInv.onCpu k' e hk').1))

end

/-! ## Two runs of the small machine -/

/-- The condition as a test on the commands. -/
def noWakeTest (m : Smp n) (c : SmpCmd n) : Bool :=
  match callOf m c.event with
  | some (s, cur, .envSetStatus envid status) =>
      statusOf status ≠ some .runnable ||
        match envid2env s cur envid true with
        | some e => !(s.envs e).envIpcRecving && decide (∀ k, m.cpus k ≠ .running e)
        | none => true
  | _ => true

theorem noWake_of_test {m : Smp n} {c : SmpCmd n} (h : noWakeTest m c) : NoWake m c.event := by
  cases c with
  | trap k tf =>
      intro s cur envid status e hcall he hst
      have hcall' : callOf m (SmpCmd.trap k tf).event = some (s, cur, .envSetStatus envid status) := hcall
      simp only [noWakeTest, hcall', he, hst, ne_eq, not_true_eq_false, decide_false, Bool.false_or,
        Bool.and_eq_true, Bool.not_eq_true', decide_eq_true_eq] at h
      exact ⟨h.1, fun ⟨k', _, hk'⟩ => h.2 k' hk'⟩
  | create => trivial
  | wake k => trivial

/-- The child begins a receive on the second CPU. -/
def childReceives : List (SmpCmd 2) := startChild ++ [.trap cpu1 (callFrame 13 utop 0 0 0 0)]

theorem receivers_blocked_child :
    ((smallSmpAfter noWakeTest childReceives).kern.envs env1).envIpcRecving = true ∧
      BlockedEnv ((smallSmpAfter noWakeTest childReceives).kern.envs env1) := by
  have hview : (childReceives.foldlM (smpExecIf noWakeTest) smallSmp).map
      (fun m => (m.kern.envs env1).envIpcRecving) = some true := by decide +kernel
  obtain ⟨hrun, hrec⟩ := smallSmpAfter_run hview fun _ _ => noWake_of_test
  exact ⟨hrec, (receivers_blocked hrun).blocked env1⟩

/-- The parent sets the child running in the middle of the receive. -/
def childWoken : List (SmpCmd 2) :=
  childReceives ++ [.trap cpu0 (callFrame 8 0x1001 2 0 0 0), .wake cpu1]

theorem receiver_runs : ∃ m : Smp 2, SmpRun smallReserved (fun _ _ => True) m ∧
    m.cpus 1 = .running env1 ∧ (m.kern.envs env1).envIpcRecving = true ∧
      ¬ ReceiversBlocked (fun _ _ => True) m := by
  have hview : (childWoken.foldlM (smpExecIf fun _ _ => true) smallSmp).map
      (fun m => (m.cpus 1, (m.kern.envs env1).envIpcRecving, (m.kern.envs env1).envStatus)) =
      some (.running env1, true, .running) := by decide +kernel
  obtain ⟨hrun, hview⟩ := @smallSmpAfter_run _ (fun _ _ => True) _ _ _ _ hview fun _ _ _ => trivial
  generalize smallSmpAfter (fun _ _ => true) childWoken = m at *
  simp only [Prod.mk.injEq] at hview
  obtain ⟨hcpu, hrec, hst⟩ := hview
  refine ⟨m, hrun, hcpu, hrec, fun hall => ?_⟩
  have hblocked := hall.blocked env1 (by simp [hst]) hrec
  rw [hst] at hblocked
  cases hblocked

end Jos.Kern
