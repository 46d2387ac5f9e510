import Jos.Kern.OneCpu

/-!
# A destroyed environment stays destroyed

`env_destroy` frees an environment at once, or marks it `ENV_DYING` when it runs on another
CPU, which then frees it at its next trap. That works as long as nobody else changes the status
of an environment on a CPU: `sys_env_set_status` revives a zombie, and a second `env_destroy`
finds it no longer `ENV_RUNNING` and frees it under the CPU that runs it. In runs without these
calls a slot stays dying or free until `env_alloc` gives it a new id.

Main results:
* `ZombieInv.step`: a step of any CPU keeps what has been destroyed;
* `destroyed_stays_destroyed`: zombies stay zombies until their CPU frees them;
* `destroyed_child_revived`: one that comes back.
-/

namespace Jos.Kern

open Jos.Lib Kernel

variable {n : Nat}

/-- The environment has been destroyed. -/
def Gone (s : Kernel) (e : EnvIx) : Prop :=
  (s.envs e).envStatus = .dying ∨ (s.envs e).envStatus = .free

/-- Runs from `m` on in which slot `e` keeps its id. -/
inductive Life (ok : Smp n → SmpEvent n → Prop) (e : EnvIx) (m : Smp n) : Smp n → Prop
  | refl : Life ok e m m
  | step {m1 m' : Smp n} {ev : SmpEvent n} (h : Life ok e m m1) (hstep : SmpStep m1 ev m')
      (hok : ok m1 ev) (same : (m'.kern.envs e).envId = (m1.kern.envs e).envId) : Life ok e m m'

/-- From the state `m` on: `sys_env_destroy` leaves its target dying or free; that stays so as long
as the slot keeps its id; a destroyed environment that has trapped runs nowhere; and no CPU frees
what another one runs. -/
structure StaysDestroyed (ok : Smp n → SmpEvent n → Prop) (m : Smp n) : Prop where
  destroyed : ∀ k cur tf faultVa console envid e m', m.cpus k = .running cur →
    (m.kern.envs cur).envStatus ≠ .dying →
    Trap.ofFrame tf faultVa console = .syscall (.envDestroy envid) →
    envid2env (saveFrame m.kern cur tf) cur envid true = some e →
    SmpStep m (.trap k tf faultVa console) m' → ok m (.trap k tf faultVa console) → Gone m'.kern e
  status : ∀ e m', Gone m.kern e → Life ok e m m' → Gone m'.kern e
  no_user : ∀ e k tf faultVa console m1 m2 m', Gone m.kern e → Life ok e m m1 →
    m1.cpus k = .running e → SmpStep m1 (.trap k tf faultVa console) m2 →
    ok m1 (.trap k tf faultVa console) → Life ok e m2 m' → ∀ k', m'.cpus k' ≠ .running e
  own_cpu : ∀ e ev m' k, (m.kern.envs e).envStatus ≠ .free → SmpStep m ev m' → ok m ev →
    (m'.kern.envs e).envStatus = .free → m.cpus k = .running e →
    ∃ tf faultVa console, ev = .trap k tf faultVa console

/-- Every environment that is `ENV_RUNNING` or `ENV_DYING` is on a CPU, beside what is known of
those on a CPU. -/
structure ZombieInv (m : Smp n) : Prop where
  excl : ExclInv m
  on_cpu : ∀ e, Busy m.kern e → ∃ k, m.cpus k = .running e

/-- The bits above the slot. -/
theorem toNat_generation (a : BitVec 32) : ((a &&& ~~~(1023#32)) >>> 10).toNat = a.toNat / 1024 := by
  have hmask : (~~~(1023#32)) >>> 10 = BitVec.ofNat 32 (2 ^ 22 - 1) := by decide
  have hlt := a.isLt
  rw [BitVec.ushiftRight_and_distrib, hmask, toNat_and_low _ (by decide), BitVec.toNat_ushiftRight,
    Nat.shiftRight_eq_div_pow]
  omega

/-- A new environment has another id than the last one in its slot. -/
theorem nextEnvId_ne (e : EnvIx) (envId : BitVec 32) : nextEnvId e envId ≠ envId := by
  have hslot : (BitVec.ofNat 32 e.val) >>> 10 = 0#32 := by
    apply BitVec.eq_of_toNat_eq
    have : e.val < 1024 := e.isLt
    simp only [BitVec.toNat_ushiftRight, BitVec.toNat_ofNat, Nat.shiftRight_eq_div_pow]
    omega
  intro heq
  have hshift : (nextEnvId e envId >>> 10).toNat = envId.toNat / 1024 := by
    rw [heq, BitVec.toNat_ushiftRight, Nat.shiftRight_eq_div_pow]
  have hgen := toNat_generation (envId + (1#32 <<< 12))
  have hadd : (envId + (1#32 <<< 12)).toNat = (envId.toNat + 4096) % 4294967296 := by
    rw [BitVec.toNat_add]
    rfl
  have hlt := envId.isLt
  simp only [nextEnvId, BitVec.ushiftRight_or_distrib, hslot, BitVec.or_zero] at hshift
  split at hshift
  · rename_i hle
    -- The generation begins again at one, so the next one is two.
    have hone : ((1#32 <<< 12) >>> 10 : BitVec 32).toNat = 4 := by decide
    have hsmall : (envId + (1#32 <<< 12) &&& ~~~(1023#32)).toNat < 2147483648 := by
      rw [BitVec.toNat_and]
      exact Nat.lt_of_le_of_lt Nat.and_le_left (by omega)
    rw [BitVec.toNat_ushiftRight, Nat.shiftRight_eq_div_pow] at hgen
    rw [BitVec.toInt_eq_toNat_of_lt (by omega)] at hle
    omega
  · omega

section

variable {s s' : Kernel} {cpunum : Nat} {curenv : Option EnvIx} {cur e x : EnvIx} {cpu : Cpu}
  {next : Next} {t : Trap} {tf : Trapframe} {m m' : Smp n} {k : Fin n} {R : Nat → Prop}
  {forced : Prop}

/-! ## Parts of an entry -/

/-- The scheduler touches the current environment and a runnable one. -/
theorem Switched.other (h : Switched s cpunum curenv forced s' cpu)
    (hx : (s.envs x).envStatus ≠ .runnable) (hcur : curenv ≠ some x) :
    s'.envs x = s.envs x ∧ cpu ≠ .running x := by
  cases h with
  | @run e _ ready envs free =>
      have hne : x ≠ e := by
        rintro rfl
        rcases ready with hrun | hrun
        · exact hx hrun
        · exact hcur hrun.1
      refine ⟨?_, fun heq => hne (Cpu.running_inj heq).symm⟩
      rw [envs, switchEnv, if_neg hne, if_neg fun h => hcur h.1]
  | halt => exact ⟨rfl, by simp [Cpu.halted, Cpu.running]⟩

/-- Only the environment that is chosen becomes busy. -/
theorem Switched.busy_of (h : Switched s cpunum curenv forced s' cpu) (hx : Busy s' x) :
    Busy s x ∨ cpu = .running x := by
  cases h with
  | @run e _ ready envs free =>
      by_cases hne : x = e
      · exact Or.inr (by rw [hne])
      · rw [Busy, envs, switchEnv, if_neg hne] at hx
        split at hx
        · simp at hx
        · exact Or.inl hx
  | halt => exact Or.inl hx

theorem Switched.envId (h : Switched s cpunum curenv forced s' cpu) (x : EnvIx) :
    (s'.envs x).envId = (s.envs x).envId := by
  cases h with
  | run ready envs free =>
      rw [envs, switchEnv]
      split
      · rfl
      · split <;> rfl
  | halt => rfl

theorem Destroyed.other {f : Bool} (h : Destroyed s cur e s' f) (hx : x ≠ e) :
    s'.envs x = s.envs x := by
  cases h with
  | mark _ _ envs => exact status_update envs hx
  | free _ envs => exact status_update envs hx

theorem Destroyed.gone {f : Bool} (h : Destroyed s cur e s' f) : Gone s' e := by
  cases h with
  | mark _ _ envs =>
      left
      rw [envs, Function.update_self]
  | free _ envs =>
      right
      rw [envs, Function.update_self, freedEnv]

theorem Destroyed.cur_free (h : Destroyed s cur cur s' true) : (s'.envs cur).envStatus = .free := by
  generalize hf : true = f at h
  cases h with
  | mark => cases hf
  | free _ envs => rw [envs, Function.update_self, freedEnv]

theorem Gone.congr (h : Gone s x) (heq : s'.envs x = s.envs x) : Gone s' x := by
  rw [Gone, heq]
  exact h

theorem Gone.ne_runnable (h : Gone s x) : (s.envs x).envStatus ≠ .runnable := by
  rcases h with h | h <;> simp [h]

/-- What stays of a destroyed environment: a free slot stays free. -/
def Remains (s s' : Kernel) (x : EnvIx) : Prop :=
  (Gone s x → Gone s' x) ∧ ((s.envs x).envStatus = .free → (s'.envs x).envStatus = .free)

theorem Remains.of_eq (heq : s'.envs x = s.envs x) : Remains s s' x :=
  ⟨fun h => h.congr heq, fun h => by rw [heq, h]⟩

theorem Remains.of_status (heq : (s'.envs x).envStatus = (s.envs x).envStatus) : Remains s s' x := by
  refine ⟨fun h => ?_, fun h => by rw [heq, h]⟩
  rw [Gone, heq]
  exact h

theorem Remains.trans {s1 : Kernel} (h : Remains s s1 x) (h' : Remains s1 s' x) : Remains s s' x :=
  ⟨fun hg => h'.1 (h.1 hg), fun hf => h'.2 (h.2 hf)⟩

theorem Destroyed.remains {f : Bool} (h : Destroyed s cur e s' f)
    (hlive : (s.envs e).envStatus ≠ .free) : Remains s s' x := by
  by_cases hx : x = e
  · subst hx
    exact ⟨fun _ => h.gone, fun hf => absurd hf hlive⟩
  · exact Remains.of_eq (h.other hx)

/-! ## System calls and other traps -/

/-- A slot that `env_alloc` has taken has another id. -/
def Renewed (s s' : Kernel) (x : EnvIx) : Prop := (s'.envs x).envId ≠ (s.envs x).envId

theorem EnvChange.remains {c : Call} {o : Outcome} (h : EnvChange s cur c o s')
    (hcur : (s.envs cur).envStatus ≠ .free) (hne : x ≠ cur)
    (hother : (s.envs x).envStatus = .dying → OnOther m k x) (hsafe : ¬ Clobbers m k s cur c) :
    Remains s s' x ∨ Renewed s s' x := by
  cases h with
  | same hsame => exact Or.inl (.of_eq (by rw [hsame.1]))
  | yield => exact Or.inl (.of_eq rfl)
  | fault hdes => exact Or.inl (hdes.remains hcur)
  | destroy target hdes => exact Or.inl (hdes.remains (envid2env_live hcur target))
  | @trapframe envid tf e s1 _ envTf target hs envs =>
      have h1 : Remains s s1 x := by
        rcases hs with hsame | ⟨_, hdes⟩
        · exact .of_eq (by rw [hsame.1])
        · exact hdes.remains (envid2env_live hcur target)
      refine Or.inl (h1.trans (.of_status ?_))
      rw [envs, Function.update_apply]
      split
      · rename_i heq
        rw [heq]
      · rfl
  | @exofork e p _ s1 _ head alloc envs =>
      by_cases hx : x = e
      · subst hx
        right
        rw [Renewed, envs, Function.update_self, exoforkEnv, alloc, Function.update_self]
        exact nextEnvId_ne x _
      · exact Or.inl (.of_eq (by rw [status_update envs hx, status_update alloc hx]))
  | @status envid status st e _ target hst envs =>
      by_cases hx : x = e
      · subst hx
        refine Or.inl ⟨fun hg => ?_, fun hf => absurd hf (envid2env_live hcur target)⟩
        have hdying := hg.resolve_right (envid2env_live hcur target)
        exact absurd ⟨x, target, hother hdying, by rw [hst]; rfl⟩ hsafe
      · exact Or.inl (.of_eq (status_update envs hx))
  | @upcall envid func e _ target envs =>
      refine Or.inl (.of_status ?_)
      rw [envs, Function.update_apply]
      split
      · rename_i heq
        rw [heq]
      · rfl
  | @deliver envid value srcva perm q e _ target recving envs =>
      by_cases hx : x = e
      · subst hx
        refine Or.inl ⟨fun hg => ?_, fun hf => absurd hf (envid2env_live hcur target)⟩
        have hdying := hg.resolve_right (envid2env_live hcur target)
        exact absurd ⟨x, target, hother hdying, recving⟩ hsafe
      · exact Or.inl (.of_eq (status_update envs hx))
  | recv envs => exact Or.inl (.of_eq (status_update envs hne))

theorem Dispatched.remains (h : Dispatched s cur t next s')
    (hcur : (s.envs cur).envStatus ≠ .free) (hne : x ≠ cur)
    (hother : (s.envs x).envStatus = .dying → OnOther m k x)
    (hsafe : ∀ c, t = .syscall c → ¬ Clobbers m k s cur c) :
    Remains s s' x ∨ Renewed s s' x := by
  cases h with
  | context _ tf _ envs => exact Or.inl (.of_eq (status_update envs hne))
  | fault _ hdes => exact Or.inl (hdes.remains hcur)
  | @ret c r s1 _ tf run envs free =>
      rcases (syscall_envs run).remains hcur hne hother (hsafe c rfl) with h1 | h1
      · exact Or.inl (h1.trans (.of_eq (status_update envs hne)))
      · right
        rw [Renewed, status_update envs hne]
        exact h1
  | @yield c _ run => exact (syscall_envs run).remains hcur hne hother (hsafe c rfl)
  | @gone c _ run => exact (syscall_envs run).remains hcur hne hother (hsafe c rfl)

/-- A system call makes no environment busy. -/
theorem Destroyed.busy_of {f : Bool} (h : Destroyed s cur e s' f) (hx : Busy s' x) : Busy s x := by
  by_cases hxe : x = e
  · subst hxe
    cases h with
    | mark running => exact Or.inl running
    | free _ envs =>
        rw [Busy, envs, Function.update_self, freedEnv] at hx
        simp at hx
  · rw [Busy, h.other hxe] at hx
    exact hx

theorem busy_of_update {env : Env} (henvs : s'.envs = Function.update s.envs e env) (hx : Busy s' x)
    (henv : env.envStatus = (s.envs e).envStatus ∨
      env.envStatus ≠ .running ∧ env.envStatus ≠ .dying) : Busy s x := by
  by_cases hxe : x = e
  · subst hxe
    rw [Busy, henvs, Function.update_self] at hx
    rcases henv with heq | hnot
    · rw [heq] at hx
      exact hx
    · rcases hx with hx | hx
      · exact absurd hx hnot.1
      · exact absurd hx hnot.2
  · rw [Busy, status_update henvs hxe] at hx
    exact hx

/-- `sys_env_set_status` sets no status of an environment on a CPU. -/
theorem statusOf_not_busy {status : BitVec 32} {st : EnvStatus} (h : statusOf status = some st) :
    st ≠ .running ∧ st ≠ .dying := by
  simp only [statusOf] at h
  split at h
  · cases h
    simp
  · split at h
    · cases h
      simp
    · cases h

theorem EnvChange.busy_of {c : Call} {o : Outcome} (h : EnvChange s cur c o s') (hx : Busy s' x) :
    Busy s x := by
  cases h with
  | same hsame =>
      rw [Busy, hsame.1] at hx
      exact hx
  | yield => exact hx
  | fault hdes => exact hdes.busy_of hx
  | destroy target hdes => exact hdes.busy_of hx
  | @trapframe envid tf e s1 _ envTf target hs envs =>
      have h1 : Busy s1 x := busy_of_update envs hx (Or.inl rfl)
      rcases hs with hsame | ⟨_, hdes⟩
      · rw [Busy, hsame.1] at h1
        exact h1
      · exact hdes.busy_of h1
  | exofork head alloc envs =>
      have h1 := busy_of_update envs hx (Or.inr (by simp [exoforkEnv]))
      exact busy_of_update alloc h1 (Or.inr (by simp [newEnv]))
  | status target hst envs => exact busy_of_update envs hx (Or.inr (statusOf_not_busy hst))
  | upcall target envs => exact busy_of_update envs hx (Or.inl rfl)
  | deliver target recving envs => exact busy_of_update envs hx (Or.inr (by simp))
  | recv envs => exact busy_of_update envs hx (Or.inr (by simp))

theorem Dispatched.busy_of (h : Dispatched s cur t next s') (hx : Busy s' x) : Busy s x := by
  cases h with
  | context _ tf _ envs => exact busy_of_update envs hx (Or.inl rfl)
  | fault _ hdes => exact hdes.busy_of hx
  | ret tf run envs => exact (syscall_envs run).busy_of (busy_of_update envs hx (Or.inl rfl))
  | yield run => exact (syscall_envs run).busy_of hx
  | gone run => exact (syscall_envs run).busy_of hx

/-! ## The way out of the kernel -/

theorem Destroyed.cur_not_dying {f : Bool} (h : Destroyed s cur e s' f)
    (hcur : (s.envs cur).envStatus ≠ .dying) : (s'.envs cur).envStatus ≠ .dying := by
  by_cases heq : cur = e
  · subst heq
    rw [h.self.cur_free]
    decide
  · rw [h.other heq]
    exact hcur

theorem not_dying_update {env : Env} (henvs : s'.envs = Function.update s.envs e env)
    (hx : (s.envs x).envStatus ≠ .dying) (henv : env.envStatus ≠ .dying) :
    (s'.envs x).envStatus ≠ .dying := by
  rw [henvs, Function.update_apply]
  split
  · exact henv
  · exact hx

theorem EnvChange.cur_not_dying {c : Call} {o : Outcome} (h : EnvChange s cur c o s')
    (hcur : (s.envs cur).envStatus ≠ .dying) : (s'.envs cur).envStatus ≠ .dying := by
  cases h with
  | same hsame =>
      rw [hsame.1]
      exact hcur
  | yield => exact hcur
  | fault hdes => exact hdes.cur_not_dying hcur
  | destroy target hdes => exact hdes.cur_not_dying hcur
  | @trapframe envid tf e s1 _ envTf target hs envs =>
      have h1 : (s1.envs cur).envStatus ≠ .dying := by
        rcases hs with hsame | ⟨_, hdes⟩
        · rw [hsame.1]
          exact hcur
        · exact hdes.cur_not_dying hcur
      rw [envs, Function.update_apply]
      split
      · rename_i heq
        rw [← heq]
        exact h1
      · exact h1
  | exofork head alloc envs =>
      exact not_dying_update envs (not_dying_update alloc hcur (by simp [newEnv]))
        (by simp [exoforkEnv])
  | status target hst envs => exact not_dying_update envs hcur (statusOf_not_busy hst).2
  | @upcall envid func e _ target envs =>
      rw [envs, Function.update_apply]
      split
      · rename_i heq
        rw [← heq]
        exact hcur
      · exact hcur
  | deliver _ _ envs => exact not_dying_update envs hcur (by simp)
  | recv envs => exact not_dying_update envs hcur (by simp)

/-- A dispatch does not make the current environment a zombie, and ends it when it says so. -/
theorem Dispatched.cur_status (h : Dispatched s cur t next s')
    (hcur : (s.envs cur).envStatus ≠ .dying) :
    (s'.envs cur).envStatus ≠ .dying ∧ (next = .gone → (s'.envs cur).envStatus = .free) := by
  cases h with
  | context hnext tf _ envs =>
      refine ⟨?_, fun hg => absurd hg hnext⟩
      rw [envs, Function.update_self]
      exact hcur
  | fault _ hdes =>
      have hfree := hdes.cur_free
      exact ⟨by simp [hfree], fun _ => hfree⟩
  | @ret c r s1 _ tf run envs free =>
      refine ⟨?_, fun hg => by cases hg⟩
      rw [envs, Function.update_self]
      exact (syscall_envs run).cur_not_dying hcur
  | @yield c _ run => exact ⟨(syscall_envs run).cur_not_dying hcur, fun hg => by cases hg⟩
  | @gone c _ run =>
      refine ⟨(syscall_envs run).cur_not_dying hcur, fun _ => ?_⟩
      have hch := syscall_envs run
      generalize ho : Outcome.gone = o at hch
      cases hch with
      | fault hdes => exact hdes.cur_free
      | @destroy envid e f _ target hdes =>
          cases f with
          | true =>
              obtain rfl := hdes.eq_cur
              exact hdes.cur_free
          | false => cases ho
      | _ => cases ho

theorem envRun_cpu (h : envRun s cpunum curenv e = some (s', cpu)) :
    cpu = .running e ∧ s'.envs = switchEnv s.envs cpunum curenv e := by
  simp only [envRun, Option.bind_eq_bind, Option.bind_eq_some_iff] at h
  obtain ⟨_, _, h⟩ := h
  cases h
  exact ⟨rfl, rfl⟩

/-- When the scheduler has chosen another environment, the current one is not busy any more. -/
theorem schedYield_busy (h : schedYield s cpunum (some cur) = some (s', cpu))
    (hcur : (s.envs cur).envStatus ≠ .dying) (hb : Busy s' cur) : cpu = .running cur := by
  have hrun : ∀ e, envRun s cpunum (some cur) e = some (s', cpu) → cpu = .running cur := by
    intro e he
    obtain ⟨rfl, henvs⟩ := envRun_cpu he
    by_cases heq : cur = e
    · rw [heq]
    · rw [Busy, henvs, switchEnv, if_neg heq] at hb
      split at hb
      · simp at hb
      · rename_i hnot
        rcases hb with hb | hb
        · exact absurd ⟨rfl, hb⟩ hnot
        · exact absurd hb hcur
  unfold schedYield at h
  cases hpick : schedPick s (schedStart s (some cur)) with
  | some e =>
      rw [hpick] at h
      exact hrun e h
  | none =>
      rw [hpick] at h
      simp only at h
      split at h
      · exact hrun cur h
      · rename_i hnot
        rw [schedHalt] at h
        split at h
        · obtain ⟨rfl, rfl⟩ := Prod.mk.inj (Option.some.inj h)
          rcases hb with hb | hb
          · exact absurd hb hnot
          · exact absurd hb hcur
        · cases h

theorem leave_busy (h : leave s cpunum cur next = some (s', cpu))
    (hcur : (s.envs cur).envStatus ≠ .dying)
    (hgone : next = .gone → (s.envs cur).envStatus = .free) (hb : Busy s' cur) :
    cpu = .running cur := by
  cases next with
  | back =>
      rw [leave] at h
      split at h
      · exact (envRun_cpu h).1
      · exact schedYield_busy h hcur hb
  | run => exact (envRun_cpu h).1
  | yield =>
      rw [leave] at h
      exact schedYield_busy h hcur hb
  | gone =>
      have hfree := hgone rfl
      rcases (switched_leave h).busy_of hb with hb' | hcpu
      · exact absurd hfree hb'.ne_free
      · exact hcpu

/-- The parts of an entry of an environment that is no zombie. -/
theorem trap_parts (h : trap s cpunum cur tf t = some (s', cpu))
    (halive : (s.envs cur).envStatus ≠ .dying) :
    ∃ s1 next, Dispatched (saveFrame s cur tf) cur t next s1 ∧
      leave s1 cpunum cur next = some (s', cpu) := by
  rw [trap, if_neg halive] at h
  simp only [Option.bind_eq_bind, Option.bind_eq_some_iff] at h
  obtain ⟨⟨s1, next⟩, h1, h2⟩ := h
  exact ⟨s1, next, dispatched_trapDispatch h1, h2⟩

/-! ## Steps -/

/-- A CPU other than the one that enters the kernel. -/
theorem ZombieInv.onOther (h : ZombieInv m) (hk : m.cpus k = .running cur) (hx : Busy m.kern x)
    (hne : x ≠ cur) : OnOther m k x := by
  obtain ⟨k', hk'⟩ := h.on_cpu x hx
  refine ⟨k', ?_, hk'⟩
  rintro rfl
  rw [hk] at hk'
  exact hne (Cpu.running_inj hk').symm

theorem OnOther.after (h : OnOther m k x) (r : Kernel × Cpu) :
    ∃ k', (m.after k r).cpus k' = .running x := by
  obtain ⟨k', hne, hk'⟩ := h
  exact ⟨k', by rw [← hk']; exact Function.update_of_ne hne ..⟩

/-- Who is busy after an entry of CPU `k`: an environment on another CPU, or the one on `k`. -/
theorem ZombieInv.after (h : ExclInv (m.after k (s', cpu)))
    (hb : ∀ x, Busy s' x → OnOther m k x ∨ cpu = .running x) : ZombieInv (m.after k (s', cpu)) := by
  refine ⟨h, fun x hx => ?_⟩
  rcases hb x hx with hother | rfl
  · exact hother.after _
  · exact ⟨k, Function.update_self ..⟩

theorem saveFrame_status : ((saveFrame s cur tf).envs x).envStatus = (s.envs x).envStatus := by
  rw [saveFrame_envs, Function.update_apply]
  split
  · rename_i heq
    rw [heq]
  · rfl

theorem saveFrame_envId : ((saveFrame s cur tf).envs x).envId = (s.envs x).envId := by
  rw [saveFrame_envs, Function.update_apply]
  split
  · rename_i heq
    rw [heq]
  · rfl

/-- While no CPU runs anything, nothing is busy. -/
theorem ZombieInv.idle (h : ZombieInv m) (hidle : ∀ k, m.cpus k = .halted) : ¬ Busy m.kern x := by
  intro hx
  obtain ⟨k, hk⟩ := h.on_cpu x hx
  rw [hidle k] at hk
  cases hk

theorem ZombieInv.step {ev : SmpEvent n} (h : ZombieInv m) (hstep : SmpStep m ev m')
    (hok : Careful m ev) : ZombieInv m' := by
  have hexcl := h.excl.step hstep hok
  cases hstep with
  | @trap k cur tf faultVa console r cpu run =>
      obtain ⟨s', c⟩ := r
      refine ZombieInv.after hexcl fun x hx => ?_
      by_cases hdying : (m.kern.envs cur).envStatus = .dying
      · cases entered_trap run with
        | @zombie s1 _ _ _ envs free hswitch =>
            rcases hswitch.busy_of hx with hx1 | hcpu
            · have hx0 := busy_of_update envs hx1 (Or.inr (by simp [freedEnv]))
              refine Or.inl (h.onOther cpu hx0 ?_)
              rintro rfl
              rw [Busy, envs, Function.update_self, freedEnv] at hx1
              simp at hx1
            · exact Or.inr hcpu
        | dispatch alive => exact absurd hdying alive
      · obtain ⟨s1, next, hdispatch, hleave⟩ := trap_parts run hdying
        have hcur := hdispatch.cur_status (by rw [saveFrame_status]; exact hdying)
        by_cases hxc : x = cur
        · subst hxc
          exact Or.inr (leave_busy hleave hcur.1 hcur.2 hx)
        · rcases (switched_leave hleave).busy_of hx with hx1 | hcpu
          · have hx0 := hdispatch.busy_of hx1
            rw [Busy, saveFrame_status] at hx0
            exact Or.inl (h.onOther cpu hx0 hxc)
          · exact Or.inr hcpu
  | @wake k t r cpu run =>
      obtain ⟨s', c⟩ := r
      refine ZombieInv.after hexcl fun x hx => ?_
      rcases (switched_trapHalted run).busy_of hx with hx0 | hcpu
      · obtain ⟨k', hk'⟩ := h.on_cpu x hx0
        refine Or.inl ⟨k', ?_, hk'⟩
        rintro rfl
        rw [cpu] at hk'
        cases hk'
      · exact Or.inr hcpu
  | store c cpu dir grants => exact ⟨hexcl, h.on_cpu⟩
  | create idle run =>
      refine ⟨hexcl, fun x hx => absurd ?_ (h.idle (x := x) idle)⟩
      rcases envAlloc_envs run with ⟨hsame, _⟩ | ⟨e, p, _, _, henvs, _⟩
      · rw [Busy, hsame.1] at hx
        exact hx
      · exact busy_of_update henvs hx (Or.inr (by simp [newEnv]))
  | region idle dir low alloc insert =>
      refine ⟨hexcl, fun x hx => absurd ?_ (h.idle (x := x) idle)⟩
      rw [Busy, ((sameEnvs_pageAlloc alloc).trans (sameEnvs_pageInsert insert)).1] at hx
      exact hx
  | load c idle dir grants => exact ⟨hexcl, h.on_cpu⟩
  | @setup e idle tf ty =>
      refine ⟨hexcl, fun x hx => absurd ?_ (h.idle (x := x) idle)⟩
      have henvs : (m.kern.setEnv e fun env => { env with envTf := tf, envType := ty }).envs =
          Function.update m.kern.envs e { m.kern.envs e with envTf := tf, envType := ty } := rfl
      exact busy_of_update henvs hx (Or.inl rfl)

/-- A destroyed environment stays so in a step, unless its slot is taken again. -/
theorem ZombieInv.remains {ev : SmpEvent n} (h : ZombieInv m) (hstep : SmpStep m ev m')
    (hok : Careful m ev) (hg : Gone m.kern x) :
    Remains m.kern m'.kern x ∨ Renewed m.kern m'.kern x := by
  cases hstep with
  | @trap k cur tf faultVa console r cpu run =>
      obtain ⟨s', c⟩ := r
      cases entered_trap run with
      | @zombie s1 _ _ dying envs free hswitch =>
          left
          have h1 : Remains m.kern s1 x := by
            by_cases hxc : x = cur
            · subst hxc
              have hfree : (s1.envs x).envStatus = .free := by
                rw [envs, Function.update_self, freedEnv]
              exact ⟨fun _ => Or.inr hfree, fun _ => hfree⟩
            · exact .of_eq (status_update envs hxc)
          exact h1.trans (.of_eq (hswitch.other (h1.1 hg).ne_runnable (by simp)).1)
      | @dispatch s1 _ _ next alive hdispatch hswitch =>
          have hbusy : Busy m.kern cur := h.excl.excl.status k cur cpu
          have hxc : x ≠ cur := by
            rintro rfl
            rcases hg with hg | hg
            · exact alive hg
            · exact hbusy.ne_free hg
          have h0 : Remains m.kern (saveFrame m.kern cur tf) x := .of_status saveFrame_status
          have hd : Remains (saveFrame m.kern cur tf) s1 x ∨
              Renewed (saveFrame m.kern cur tf) s1 x := by
            refine hdispatch.remains (m := m) (k := k) ?_ hxc (fun hdying => ?_) fun c hc =>
              hok cur c cpu alive hc
            · rw [saveFrame_status]
              exact hbusy.ne_free
            · rw [saveFrame_status] at hdying
              exact h.onOther cpu (Or.inr hdying) hxc
          have hcur : next.curenv cur ≠ some x := fun heq => hxc (Next.eq_of_curenv heq).1
          rcases hd with hd | hd
          · have h1 := h0.trans hd
            exact Or.inl (h1.trans (.of_eq (hswitch.other (h1.1 hg).ne_runnable hcur).1))
          · right
            simp only [Renewed, Smp.after] at hd ⊢
            rw [saveFrame_envId] at hd
            rw [hswitch.envId]
            exact hd
  | @wake k t r cpu run =>
      obtain ⟨s', c⟩ := r
      exact Or.inl (.of_eq ((switched_trapHalted run).other hg.ne_runnable (by simp)).1)
  | store c cpu dir grants => exact Or.inl (.of_eq rfl)
  | create idle run =>
      rcases envAlloc_envs run with ⟨hsame, _⟩ | ⟨e, p, _, _, henvs, _⟩
      · exact Or.inl (.of_eq (by rw [hsame.1]))
      · by_cases hx : x = e
        · subst hx
          right
          simp only [Renewed]
          rw [henvs, Function.update_self]
          exact nextEnvId_ne x _
        · exact Or.inl (.of_eq (status_update henvs hx))
  | region idle dir low alloc insert =>
      exact Or.inl (.of_eq (by rw [((sameEnvs_pageAlloc alloc).trans (sameEnvs_pageInsert insert)).1]))
  | load c idle dir grants => exact Or.inl (.of_eq rfl)
  | @setup e idle tf ty =>
      refine Or.inl (.of_status ?_)
      simp only [Kernel.setEnv, Function.update_apply]
      split
      · rename_i heq
        rw [heq]
      · rfl

/-! ## Runs -/

theorem SmpBooted.zombieInv (h : SmpBooted R m) : ZombieInv m := by
  exact ⟨h.exclInv, fun e he => absurd (h.kern.envs e).1 he.ne_free⟩

theorem SmpRun.zombieInv (h : SmpRun R Careful m) : ZombieInv m := by
  induction h with
  | boot h => exact h.zombieInv
  | step _ hstep hok ih => exact ih.step hstep hok

theorem Life.zombieInv (h : Life Lawful e m m') (hinv : ZombieInv m) : ZombieInv m' := by
  induction h with
  | refl => exact hinv
  | step _ hstep hok _ ih => exact ih.step hstep hok.1

theorem Life.remains (h : Life Lawful e m m') (hinv : ZombieInv m) (hg : Gone m.kern e) :
    Remains m.kern m'.kern e := by
  induction h with
  | refl => exact .of_eq rfl
  | step hlife hstep hok same ih =>
      rcases (hlife.zombieInv hinv).remains hstep hok.1 (ih.1 hg) with hr | hnew
      · exact ih.trans hr
      · exact absurd same hnew

/-- A zombie that traps is freed. -/
theorem ZombieInv.trap_free {tf : Trapframe} {faultVa : BitVec 32} {console : Int}
    (hg : Gone m.kern e) (hinv : ZombieInv m) (hk : m.cpus k = .running e)
    (hstep : SmpStep m (.trap k tf faultVa console) m') : (m'.kern.envs e).envStatus = .free := by
  have hdying := hg.resolve_right (Busy.ne_free (hinv.excl.excl.status k e hk))
  cases hstep with
  | @trap _ cur _ _ _ r cpu run =>
      obtain ⟨s', c⟩ := r
      rw [hk] at cpu
      obtain rfl := Cpu.running_inj cpu
      cases entered_trap run with
      | @zombie s1 _ _ _ envs free hswitch =>
          have hfree : (s1.envs e).envStatus = .free := by
            rw [envs, Function.update_self, freedEnv]
          simp only [Smp.after]
          rw [(hswitch.other (by simp [hfree]) (by simp)).1, hfree]
      | dispatch alive => exact absurd hdying alive

theorem sysEnvDestroy_gone {envid : BitVec 32} {o : Outcome}
    (htarget : envid2env s cur envid true = some e)
    (h : syscall s cur (.envDestroy envid) = some (s', o)) : Gone s' e ∧ (o = .gone ∨ cur ≠ e) := by
  simp only [syscall, sysEnvDestroy, htarget, Option.bind_eq_bind, Option.bind_eq_some_iff] at h
  obtain ⟨⟨s1, f⟩, hdes, h⟩ := h
  cases h
  have hdes := envDestroy_envs hdes
  refine ⟨hdes.gone, ?_⟩
  cases hdes with
  | mark _ other => exact Or.inr other
  | free _ _ _ =>
      by_cases heq : cur = e
      · exact Or.inl (by simp [Outcome.ofDestroy, heq])
      · exact Or.inr heq

theorem Dispatched.destroy_gone {envid : BitVec 32}
    (h : Dispatched s cur (.syscall (.envDestroy envid)) next s')
    (htarget : envid2env s cur envid true = some e) : Gone s' e ∧ (next = .gone ∨ cur ≠ e) := by
  cases h with
  | context _ _ nocall => exact absurd rfl (nocall _)
  | fault nocall => exact absurd rfl (nocall _)
  | @ret _ r s1 _ tf run envs free =>
      obtain ⟨hg, hne⟩ := sysEnvDestroy_gone htarget run
      have hne : cur ≠ e := hne.resolve_left (by simp)
      exact ⟨hg.congr (status_update envs hne.symm), Or.inr hne⟩
  | yield run =>
      obtain ⟨hg, hne⟩ := sysEnvDestroy_gone htarget run
      exact ⟨hg, Or.inr (hne.resolve_left (by simp))⟩
  | gone run => exact ⟨(sysEnvDestroy_gone htarget run).1, Or.inl rfl⟩

/-- `sys_env_destroy` leaves its target dying or free. -/
theorem ZombieInv.destroy_gone {tf : Trapframe} {faultVa : BitVec 32} {console : Int}
    {envid : BitVec 32} (hk : m.cpus k = .running cur)
    (halive : (m.kern.envs cur).envStatus ≠ .dying)
    (ht : Trap.ofFrame tf faultVa console = .syscall (.envDestroy envid))
    (htarget : envid2env (saveFrame m.kern cur tf) cur envid true = some e)
    (hstep : SmpStep m (.trap k tf faultVa console) m') : Gone m'.kern e := by
  cases hstep with
  | @trap _ cur' _ _ _ r cpu run =>
      obtain ⟨s', c⟩ := r
      rw [hk] at cpu
      obtain rfl := Cpu.running_inj cpu
      cases entered_trap run with
      | zombie dying => exact absurd dying halive
      | @dispatch s1 _ _ next alive hdispatch hswitch =>
          rw [ht] at hdispatch
          have h1 : Gone s1 e ∧ (next = .gone ∨ cur ≠ e) := hdispatch.destroy_gone htarget
          have hcur : next.curenv cur ≠ some e := by
            intro heq
            obtain ⟨heq, hnext⟩ := Next.eq_of_curenv heq
            rcases h1.2 with hg | hne
            · exact hnext hg
            · exact hne heq.symm
          exact h1.1.congr (hswitch.other h1.1.ne_runnable hcur).1

/-- In a run in which no system call overwrites the status of an environment that another CPU
runs, and every write for an environment goes to memory that it may write, what has been destroyed stays
so, runs no more after its next trap, and is freed by no other CPU. -/
theorem destroyed_stays_destroyed {n : Nat} {R : Nat → Prop} {m : Smp n}
    (h : SmpRun R Lawful m) : StaysDestroyed Lawful m := by
  have hinv := (h.mono fun _ _ hok => hok.1).zombieInv
  refine ⟨fun k cur tf faultVa console envid e m' hk halive ht htarget hstep _ =>
      ZombieInv.destroy_gone hk halive ht htarget hstep,
    fun e m' hg hlife => (hlife.remains hinv hg).1 hg,
    fun e k tf faultVa console m1 m2 m' hg hlife hk hstep hok hlife' k' hk' => ?_,
    fun e ev m' k hlive hstep hok hfree hk => ?_⟩
  · have hinv1 := hlife.zombieInv hinv
    have hinv2 := hinv1.step hstep hok.1
    have hfree := ZombieInv.trap_free ((hlife.remains hinv hg).1 hg) hinv1 hk hstep
    have hfree' := (hlife'.remains hinv2 (Or.inr hfree)).2 hfree
    exact Busy.ne_free ((hlife'.zombieInv hinv2).excl.excl.status k' e hk') hfree'
  · -- The CPU would still run the slot after the step.
    by_contra hno
    have hk' : m'.cpus k = .running e := by
      cases hstep with
      | @trap k2 cur tf faultVa console r cpu run =>
          have hne : k ≠ k2 := by
            rintro rfl
            exact hno ⟨tf, faultVa, console, rfl⟩
          rw [← hk]
          exact Function.update_of_ne hne ..
      | @wake k2 t r cpu run =>
          have hne : k ≠ k2 := by
            rintro rfl
            rw [hk] at cpu
            cases cpu
          rw [← hk]
          exact Function.update_of_ne hne ..
      | _ => exact hk
    exact Busy.ne_free ((hinv.step hstep hok.1).excl.excl.status k e hk') hfree

end

/-! ## A child that is destroyed while it runs -/

/-- The command is `sys_env_destroy` of an environment that is no zombie. -/
def firstDestroy (m : Smp n) : SmpCmd n → Bool
  | .trap k tf =>
      match m.cpus k, Trap.ofFrame tf 0#32 0 with
      | ⟨some cur, true⟩, .syscall (.envDestroy envid) =>
          match envid2env (saveFrame m.kern cur tf) cur envid true with
          | some e => ((saveFrame m.kern cur tf).envs e).envStatus ≠ .dying
          | none => true
      | _, _ => false
  | _ => false

theorem careful_of_firstDestroy {m : Smp n} {c : SmpCmd n} (h : firstDestroy m c) :
    Careful m c.event := by
  cases c with
  | trap k tf =>
      intro cur c hk _ ht hcl
      simp only [firstDestroy, hk, Cpu.running, ht] at h
      cases c with
      | envDestroy envid =>
          obtain ⟨e, htarget, _, hdying⟩ := hcl
          simp [htarget, hdying] at h
      | _ => cases h
  | create => trivial
  | wake k => trivial

def carefulTest (m : Smp n) (c : SmpCmd n) : Bool := (lone m c || firstDestroy m c) && c.plain

theorem careful_of_test {m : Smp n} {c : SmpCmd n} (h : carefulTest m c) :
    Careful m c.event ∧ SafeCalls m c.event := by
  rw [carefulTest, Bool.and_eq_true, Bool.or_eq_true] at h
  obtain ⟨h | h, hplain⟩ := h
  · exact ⟨careful_of_lone h, safeCalls_of_plain hplain⟩
  · exact ⟨careful_of_firstDestroy h, safeCalls_of_plain hplain⟩

/-- The parent destroys the child that CPU 1 runs. -/
def destroyChild : List (SmpCmd 2) := startChild ++ [.trap cpu0 (callFrame 3 0x1001 0 0 0 0)]

theorem destroyed_child_stays :
    (smallSmpAfter carefulTest destroyChild).cpus 1 = .running env1 ∧
      ((smallSmpAfter carefulTest destroyChild).kern.envs env1).envStatus = .dying ∧
      StaysDestroyed Lawful (smallSmpAfter carefulTest destroyChild) := by
  have hview : (destroyChild.foldlM (smpExecIf carefulTest) smallSmp).map
      (fun m => (m.cpus 1, (m.kern.envs env1).envStatus)) = some (.running env1, .dying) := by
    decide +kernel
  obtain ⟨hrun, hview⟩ := smallSmpAfter_reached hview (by decide) fun _ _ => careful_of_test
  obtain ⟨hcpu, hdying⟩ := Prod.mk.inj hview
  exact ⟨hcpu, hdying, destroyed_stays_destroyed hrun.run⟩

/-- The parent sets the zombie running again, or destroys it once more. -/
def reviveChild : SmpCmd 2 := .trap cpu0 (callFrame 8 0x1001 2 0 0 0)
def destroyAgain : SmpCmd 2 := .trap cpu0 (callFrame 3 0x1001 0 0 0 0)

theorem destroyed_child_revived :
    ∃ m m1 m2 : Smp 2, SmpRun smallReserved (fun _ _ => True) m ∧
      (m.kern.envs env1).envStatus = .dying ∧ m.cpus 1 = .running env1 ∧
      Life (fun _ _ => True) env1 m m1 ∧ (m1.kern.envs env1).envStatus = .runnable ∧
      SmpStep m destroyAgain.event m2 ∧ (m2.kern.envs env1).envStatus = .free ∧
      ¬ StaysDestroyed (fun _ _ => True) m := by
  have hall : (do
      let m ← destroyChild.foldlM (smpExecIf fun _ _ => true) smallSmp
      let m1 ← smpExec m reviveChild
      let m2 ← smpExec m destroyAgain
      some ((m.kern.envs env1).envStatus, m.cpus 1, (m1.kern.envs env1).envStatus,
        (m1.kern.envs env1).envId, (m.kern.envs env1).envId, (m2.kern.envs env1).envStatus)) =
      some (.dying, .running env1, .runnable, 0x1001#32, 0x1001#32, .free) := by
    unfold smpExecIf smpExec trap trapDispatch syscall sysEnvDestroy envDestroy
    rw [envFree_eq_byte]
    decide +kernel
  simp only [Option.bind_eq_bind, Option.bind_eq_some_iff, Option.some.injEq, Prod.mk.injEq] at hall
  obtain ⟨m, hm, m1, hm1, m2, hm2, hdying, hcpu, hrunnable, hid1, hid, hfree⟩ := hall
  have hrun : SmpRun smallReserved (fun _ _ => True) m :=
    SmpRun.execAll (fun _ _ _ => trivial) (.boot smallSmp_booted) hm
  have hlife : Life (fun _ _ => True) env1 m m1 :=
    .step .refl (smpStep_of_exec hm1) trivial (hid1.trans hid.symm)
  refine ⟨m, m1, m2, hrun, hdying, hcpu, hlife, hrunnable, smpStep_of_exec hm2, hfree, fun h => ?_⟩
  rcases h.status env1 m1 (Or.inl hdying) hlife with h1 | h1 <;> rw [hrunnable] at h1 <;> cases h1

end Jos.Kern
