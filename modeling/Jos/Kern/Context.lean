import Jos.Kern.Family
import Jos.Kern.OneCpu

/-!
# Saved contexts

An interrupt saves the registers of the environment it interrupts in `env_tf`, and `env_run` loads
them from there. In between, other environments run, on this and on the other CPUs. None of them
reaches the context of an environment that is not in its care: a message wakes the environment up and
leaves its registers alone, and the scheduler changes its status only.

Main result:
* `interrupt_keeps_context`: the context that is loaded is the one that was interrupted.
-/

namespace Jos.Kern

open Jos.Lib Kernel

/-- The environment goes on as it is: what changes is its status and its message. -/
structure Resumable (env env' : Env) : Prop where
  tf : env'.envTf = env.envTf
  id : env'.envId = env.envId
  parent : env'.envParentId = env.envParentId
  pgdir : env'.envPgdir = env.envPgdir
  upcall : env'.envPgfaultUpcall = env.envPgfaultUpcall
  live : env.envStatus ≠ .free → env'.envStatus ≠ .free

/-- The event is no call of an environment that is in charge of `x`, and the boot code is over. -/
def Uninvolved (x : EnvIx) {n : Nat} (m : Smp n) : SmpEvent n → Prop
  | .trap k _ _ _ => ∀ cur, m.cpus k = .running cur → ¬ InFamily m.kern cur x
  | .wake _ _ => True
  | .internal => ∃ k, m.cpus k ≠ .halted

/-- The trap is an interrupt of a device. -/
def Trap.IsIrq (t : Trap) : Prop := t = .timer ∨ t = .spurious ∨ t = .kbd ∨ t = .serial

/-- A step that leaves `x` alone. -/
def StepAside {n : Nat} (x : EnvIx) (m m' : Smp n) : Prop :=
  ∃ ev, SmpStep m ev m' ∧ Lawful m ev ∧ Uninvolved x m ev

section

variable {n : Nat} {R : Nat → Prop} {s s' : Kernel} {m m' : Smp n} {k : Fin n} {cpunum : Nat}
  {curenv : Option EnvIx} {cur e x : EnvIx} {cpu : Cpu} {c : Call} {o : Outcome} {t : Trap}
  {tf : Trapframe} {next : Next} {forced : Prop} {env env' env'' : Env}

theorem Resumable.refl (env : Env) : Resumable env env := ⟨rfl, rfl, rfl, rfl, rfl, fun h => h⟩

theorem Resumable.trans (h : Resumable env env') (h' : Resumable env' env'') :
    Resumable env env'' where
  tf := h'.tf.trans h.tf
  id := h'.id.trans h.id
  parent := h'.parent.trans h.parent
  pgdir := h'.pgdir.trans h.pgdir
  upcall := h'.upcall.trans h.upcall
  live hlive := h'.live (h.live hlive)

theorem Resumable.of_eq (h : env' = env) : Resumable env env' := h ▸ .refl env

theorem Resumable.of_update (henvs : s'.envs = Function.update s.envs e env) (hx : x ≠ e) :
    Resumable (s.envs x) (s'.envs x) := .of_eq (status_update henvs hx)

/-! ## One entry -/

theorem Destroyed.resumable {f : Bool} (h : Destroyed s cur e s' f) (hx : x ≠ e) :
    Resumable (s.envs x) (s'.envs x) := by
  cases h with
  | mark _ _ envs _ => exact .of_update envs hx
  | free _ envs _ => exact .of_update envs hx

/-- A system call, for those who are not in the care of the caller. -/
theorem EnvChange.resumable (h : EnvChange s cur c o s') (hfree : FreeEnvs s)
    (hlive : (s.envs x).envStatus ≠ .free) (hfam : ¬ InFamily s cur x) :
    Resumable (s.envs x) (s'.envs x) := by
  have hcur : x ≠ cur := fun heq => hfam (Or.inl heq)
  have htarget : ∀ {envid e}, envid2env s cur envid true = some e → x ≠ e := by
    rintro envid e he rfl
    exact hfam (envid2env_family he)
  cases h with
  | same h => exact .of_eq (by rw [h.1])
  | yield => exact .refl _
  | fault h => exact h.resumable hcur
  | destroy target h => exact h.resumable (htarget target)
  | trapframe target h envs _ =>
      refine Resumable.trans ?_ (.of_update envs (htarget target))
      rcases h with hsame | ⟨_, hdes⟩
      · exact .of_eq (by rw [hsame.1])
      · exact hdes.resumable (htarget target)
  | exofork head alloc envs _ =>
      have hne : x ≠ _ := fun heq => hlive (heq ▸ hfree.head head)
      exact (Resumable.of_update alloc hne).trans (.of_update envs hne)
  | status target _ envs _ => exact .of_update envs (htarget target)
  | upcall target envs _ => exact .of_update envs (htarget target)
  | @deliver _ _ _ _ _ e _ target _ envs _ =>
      by_cases hxe : x = e
      · subst hxe
        rw [envs, Function.update_self]
        exact ⟨rfl, rfl, rfl, rfl, rfl, by simp⟩
      · exact .of_update envs hxe
  | recv envs _ => exact .of_update envs hcur

/-- The scheduler changes the status of an environment, and the count of its runs. -/
theorem Switched.resumable (h : Switched s cpunum curenv forced s' cpu) :
    Resumable (s.envs x) (s'.envs x) := by
  cases h with
  | halt => exact .refl _
  | run _ envs _ =>
      rw [envs, switchEnv]
      split
      · exact ⟨rfl, rfl, rfl, rfl, rfl, by simp⟩
      split
      · exact ⟨rfl, rfl, rfl, rfl, rfl, by simp⟩
      · exact .refl _

theorem Dispatched.resumable (h : Dispatched s cur t next s') (hfree : FreeEnvs s)
    (hlive : (s.envs x).envStatus ≠ .free) (hfam : ¬ InFamily s cur x) :
    Resumable (s.envs x) (s'.envs x) := by
  have hcur : x ≠ cur := fun heq => hfam (Or.inl heq)
  cases h with
  | context _ _ _ envs _ => exact .of_update envs hcur
  | fault _ h => exact h.resumable hcur
  | ret tf run envs _ =>
      exact ((syscall_envs run).resumable hfree hlive hfam).trans (.of_update envs hcur)
  | yield run => exact (syscall_envs run).resumable hfree hlive hfam
  | gone run => exact (syscall_envs run).resumable hfree hlive hfam

/-- One step of the machine. -/
theorem SmpStep.resumable {ev : SmpEvent n} (h : SmpStep m ev m') (hinv : ExclInv m)
    (hlive : (m.kern.envs x).envStatus ≠ .free) (hev : Uninvolved x m ev) :
    Resumable (m.kern.envs x) (m'.kern.envs x) := by
  cases h with
  | @trap k cur tf faultVa console r cpu run =>
      obtain ⟨s', c⟩ := r
      have hfam := hev cur cpu
      have hcur : x ≠ cur := fun heq => hfam (Or.inl heq)
      cases entered_trap run with
      | zombie _ envs _ hswitch => exact (Resumable.of_update envs hcur).trans hswitch.resumable
      | dispatch _ hdispatch hswitch =>
          have hfree : FreeEnvs (saveFrame m.kern cur tf) :=
            hinv.free.update saveFrame_envs rfl Iff.rfl rfl
          have hsave : (saveFrame m.kern cur tf).envs x = m.kern.envs x :=
            status_update saveFrame_envs hcur
          have hfam' : ¬ InFamily (saveFrame m.kern cur tf) cur x := by
            rintro (heq | hparent)
            · exact hcur heq
            · rw [hsave, saveFrame_envs, Function.update_self] at hparent
              exact hfam (Or.inr hparent)
          rw [← hsave] at hlive ⊢
          exact (hdispatch.resumable hfree hlive hfam').trans hswitch.resumable
  | wake cpu run => exact (switched_trapHalted run).resumable
  | store c cpu dir grants => exact .refl _
  | create idle run =>
      obtain ⟨k, hk⟩ := hev
      exact absurd (idle k) hk
  | region idle dir low alloc insert =>
      obtain ⟨k, hk⟩ := hev
      exact absurd (idle k) hk
  | load c idle dir grants => exact .refl _
  | setup idle tf ty =>
      obtain ⟨k, hk⟩ := hev
      exact absurd (idle k) hk

/-! ## Runs -/

theorem resumable_of_steps (hinv : ExclInv m) (hlive : (m.kern.envs x).envStatus ≠ .free)
    (hrun : Relation.ReflTransGen (StepAside x) m m') :
    ExclInv m' ∧ Resumable (m.kern.envs x) (m'.kern.envs x) := by
  induction hrun with
  | refl => exact ⟨hinv, .refl _⟩
  | tail _ hstep ih =>
      obtain ⟨hinv', hres⟩ := ih
      obtain ⟨ev, hev, hlawful, hleaves⟩ := hstep
      exact ⟨hinv'.step hev hlawful.1, hres.trans (hev.resumable hinv' (hres.live hlive) hleaves)⟩

/-- What an interrupt leaves of the environment it interrupts. -/
theorem trap_irq (ht : t.IsIrq) (halive : (s.envs x).envStatus ≠ .dying)
    (h : trap s cpunum x tf t = some (s', cpu)) : Resumable ((saveFrame s x tf).envs x) (s'.envs x) := by
  rw [trap, if_neg halive] at h
  rcases ht with rfl | rfl | rfl | rfl
  all_goals
    simp only [trapDispatch, Option.bind_eq_bind, Option.bind_some] at h
    exact (switched_leave h).resumable

/-- An interrupt is not seen by the code it interrupts: from then on, whatever the CPUs do in any
order in a lawful run, up to a call by the environment itself or by its parent, its context is the
one that was interrupted, and it stays what it is. -/
theorem interrupt_keeps_context {m₁ m₂ : Smp n} {faultVa : BitVec 32} {console : Int}
    (h : SmpRun R Lawful m) (hcpu : m.cpus k = .running x)
    (halive : (m.kern.envs x).envStatus ≠ .dying) (ht : (Trap.ofFrame tf faultVa console).IsIrq)
    (hstep : SmpStep m (.trap k tf faultVa console) m₁)
    (hrun : Relation.ReflTransGen (StepAside x) m₁ m₂) :
    Resumable { m.kern.envs x with envTf := tf } (m₂.kern.envs x) ∧
      (m₂.kern.envs x).envStatus ≠ .free := by
  have hinv := h.inv.1
  have hlive : (m.kern.envs x).envStatus ≠ .free := by
    rcases hinv.excl.status k x hcpu with hst | hst <;> simp [hst]
  have hcareful : Careful m (.trap k tf faultVa console) := by
    intro cur c _ _ hcall
    rcases ht with ht | ht | ht | ht <;> rw [ht] at hcall <;> cases hcall
  have hinv₁ := hinv.step hstep hcareful
  have hfirst : Resumable { m.kern.envs x with envTf := tf } (m₁.kern.envs x) := by
    cases hstep with
    | @trap _ cur _ _ _ r cpu run =>
        have heq : cur = x := by
          rw [hcpu] at cpu
          cases cpu
          rfl
        subst heq
        have hres := trap_irq ht halive run
        rwa [saveFrame_envs, Function.update_self] at hres
  obtain ⟨_, hrest⟩ := resumable_of_steps hinv₁ (hfirst.live hlive) hrun
  exact ⟨hfirst.trans hrest, hrest.live (hfirst.live hlive)⟩

end

/-- Two environments, the first one on a CPU. -/
def oneRuns : List (SmpCmd 2) := [.create, .create, .wake cpu0]

/-- The timer interrupts a program at 0x800020. -/
def irqFrame : Trapframe := { initTf with tfTrapno := 32#32, tfEip := 0x800020#32 }

/-- The second environment takes over, and the first one goes on on the other CPU. -/
theorem interrupt_keeps_context_moved : ∃ m₁ m₂ : Smp 2,
    SmpStep (smallSmpAfter loneTest oneRuns) (.trap cpu0 irqFrame 0 0) m₁ ∧ StepAside env0 m₁ m₂ ∧
      m₂.cpus cpu1 = .running env0 ∧ (m₂.kern.envs env0).envTf = irqFrame := by
  have hview : (oneRuns.foldlM (smpExecIf loneTest) smallSmp).map
      (fun m => (m.cpus cpu0, (m.kern.envs env0).envStatus, loneTest m (.trap cpu0 irqFrame),
        (smpExec m (.trap cpu0 irqFrame)).bind fun m => (smpExec m (.wake cpu1)).map (·.cpus cpu1))) =
      some (.running env0, .running, true, some (.running env0)) := by decide +kernel
  obtain ⟨hrun, hview⟩ := smallSmpAfter_reached hview (by decide) fun _ _ => careful_of_loneTest
  simp only [Prod.mk.injEq, Option.bind_eq_some_iff, Option.map_eq_some_iff] at hview
  obtain ⟨hcpu, hst, htest, m₁, h₁, m₂, h₂, hcpu'⟩ := hview
  obtain ⟨hcareful, hsafe⟩ := careful_of_loneTest htest
  have hrun₁ := hrun.step (by decide) (smpStep_of_exec h₁) hcareful hsafe
  have haside : StepAside env0 m₁ m₂ :=
    ⟨_, smpStep_of_exec h₂, ⟨trivial, hrun₁.bounded (by decide), trivial⟩, trivial⟩
  have hkeep := interrupt_keeps_context hrun.run hcpu (by rw [hst]; decide) (Or.inl rfl)
    (smpStep_of_exec h₁) (.single haside)
  exact ⟨m₁, m₂, smpStep_of_exec h₁, haside, hcpu', hkeep.1.tf⟩

end Jos.Kern
