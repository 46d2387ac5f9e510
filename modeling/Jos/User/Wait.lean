import Jos.Kern.Zombie

/-!
# Waiting for an environment

`wait` of `lib/wait.c` reads `env_id` and `env_status` of the slot of the environment in the page that
the kernel shares with everybody. They are two loads, and between them, as between the rounds of the
loop, any CPU may enter the kernel. A slot that is in use keeps its id, so `wait` does not return while the
environment exists.

Main result:
* `wait_returns_after_exit`: when `wait` returns, the slot has been free.
-/

namespace Jos.User

open Jos.Lib Jos.Kern Kernel

/-- Where `wait` is: before the load of `env_id`, before that of `env_status`, or back at its caller. -/
inductive WaitPc
  | id
  | status
  | done

/-- A step of the machine, or of `wait`. Its `sys_yield` is a step of the machine. -/
inductive WaitStep {n : Nat} (envid : BitVec 32) : Smp n × WaitPc → Smp n × WaitPc → Prop
  | kernel {m m' : Smp n} {ev : SmpEvent n} {pc : WaitPc} (step : SmpStep m ev m') (lawful : Lawful m ev) :
      WaitStep envid (m, pc) (m', pc)
  | sameId {m : Smp n} (h : (m.kern.envs (envx envid)).envId = envid) : WaitStep envid (m, .id) (m, .status)
  | otherId {m : Smp n} (h : (m.kern.envs (envx envid)).envId ≠ envid) : WaitStep envid (m, .id) (m, .done)
  | inUse {m : Smp n} (h : (m.kern.envs (envx envid)).envStatus ≠ .free) : WaitStep envid (m, .status) (m, .id)
  | free {m : Smp n} (h : (m.kern.envs (envx envid)).envStatus = .free) : WaitStep envid (m, .status) (m, .done)

section

variable {n : Nat} {R : Nat → Prop} {s s' : Kernel} {m m' : Smp n} {cur e x : EnvIx} {c : Call} {o : Kern.Outcome}
  {t : Trap} {next : Next} {envid : BitVec 32} {p p' : Smp n × WaitPc}

/-! ## A slot in use keeps its id -/

theorem envId_update {env : Env} (henvs : s'.envs = Function.update s.envs e env)
    (hid : env.envId = (s.envs e).envId) (x : EnvIx) : (s'.envs x).envId = (s.envs x).envId := by
  by_cases hx : x = e
  · rw [henvs, hx, Function.update_self, hid]
  · rw [status_update henvs hx]

theorem destroyed_envId {f : Bool} (h : Destroyed s cur e s' f) (x : EnvIx) :
    (s'.envs x).envId = (s.envs x).envId := by
  cases h with
  | mark _ _ envs _ => exact envId_update envs rfl x
  | free _ envs _ => exact envId_update envs rfl x

theorem envChange_envId (h : EnvChange s cur c o s') (hfree : FreeEnvs s) (hlive : (s.envs x).envStatus ≠ .free) :
    (s'.envs x).envId = (s.envs x).envId := by
  cases h with
  | same h => rw [h.1]
  | yield => rfl
  | fault h => exact destroyed_envId h x
  | destroy target h => exact destroyed_envId h x
  | trapframe target h envs _ =>
      refine (envId_update envs rfl x).trans ?_
      rcases h with hsame | ⟨_, hdes⟩
      · rw [hsame.1]
      · exact destroyed_envId hdes x
  | exofork head alloc envs _ =>
      have hne : x ≠ _ := fun heq => hlive (heq ▸ hfree.head head)
      rw [status_update envs hne, status_update alloc hne]
  | status target _ envs _ => exact envId_update envs rfl x
  | upcall target envs _ => exact envId_update envs rfl x
  | deliver target _ envs _ => exact envId_update envs rfl x
  | recv envs _ => exact envId_update envs rfl x

theorem dispatched_envId (h : Dispatched s cur t next s') (hfree : FreeEnvs s)
    (hlive : (s.envs x).envStatus ≠ .free) : (s'.envs x).envId = (s.envs x).envId := by
  cases h with
  | context _ _ _ envs _ => exact envId_update envs rfl x
  | fault _ h => exact destroyed_envId h x
  | ret tf run envs _ => exact (envId_update envs rfl x).trans (envChange_envId (syscall_envs run) hfree hlive)
  | yield run => exact envChange_envId (syscall_envs run) hfree hlive
  | gone run => exact envChange_envId (syscall_envs run) hfree hlive

/-- Only `env_alloc` changes the id of a slot, and it takes a free one. -/
theorem smpStep_envId {ev : SmpEvent n} (h : SmpStep m ev m') (hfree : FreeEnvs m.kern)
    (hlive : (m.kern.envs x).envStatus ≠ .free) : (m'.kern.envs x).envId = (m.kern.envs x).envId := by
  cases h with
  | @trap k cur tf faultVa console r cpu run =>
      obtain ⟨s', c⟩ := r
      cases entered_trap run with
      | zombie _ envs _ hswitch => exact (hswitch.envId x).trans (envId_update envs rfl x)
      | dispatch _ hdispatch hswitch =>
          have hfree' : FreeEnvs (saveFrame m.kern cur tf) := hfree.update saveFrame_envs rfl Iff.rfl rfl
          have hlive' : ((saveFrame m.kern cur tf).envs x).envStatus ≠ .free := by
            rw [saveFrame_status]
            exact hlive
          exact ((hswitch.envId x).trans (dispatched_envId hdispatch hfree' hlive')).trans saveFrame_envId
  | wake cpu run => exact (switched_trapHalted run).envId x
  | store c cpu dir grants => rfl
  | create idle run =>
      rcases envAlloc_envs run with ⟨hsame, _⟩ | ⟨e, p, _, head, henvs, _⟩
      · rw [hsame.1]
      · have hne : x ≠ e := fun heq => hlive (heq ▸ hfree.head head)
        rw [status_update henvs hne]
  | region idle dir low alloc insert => rw [((sameEnvs_pageAlloc alloc).trans (sameEnvs_pageInsert insert)).1]
  | load c idle dir grants => rfl
  | @setup e idle tf ty =>
      have henvs : (m.kern.setEnv e fun env => { env with envTf := tf, envType := ty }).envs =
          Function.update m.kern.envs e { m.kern.envs e with envTf := tf, envType := ty } := rfl
      exact envId_update henvs rfl x

/-! ## Runs -/

/-- The environment has existed all the time, so that `wait` goes on. -/
structure GoesOn (envid : BitVec 32) (p : Smp n × WaitPc) : Prop where
  id : (p.1.kern.envs (envx envid)).envId = envid
  inUse : (p.1.kern.envs (envx envid)).envStatus ≠ .free
  pc : p.2 ≠ .done

theorem WaitStep.exclInv (h : WaitStep envid p p') (hinv : ExclInv p.1) : ExclInv p'.1 := by
  cases h with
  | kernel step lawful => exact hinv.step step lawful.1
  | sameId _ => exact hinv
  | otherId _ => exact hinv
  | inUse _ => exact hinv
  | free _ => exact hinv

/-- As long as the slot is in use, `wait` goes on. -/
theorem WaitStep.goesOn (h : WaitStep envid p p') (hinv : ExclInv p.1) (hw : GoesOn envid p) :
    GoesOn envid p' ∨ (p'.1.kern.envs (envx envid)).envStatus = .free := by
  obtain ⟨hid, hlive, hpc⟩ := hw
  cases h with
  | @kernel m m' ev pc step lawful =>
      by_cases hfree : (m'.kern.envs (envx envid)).envStatus = .free
      · exact Or.inr hfree
      · exact Or.inl ⟨(smpStep_envId step hinv.free hlive).trans hid, hfree, hpc⟩
  | sameId _ => exact Or.inl ⟨hid, hlive, by simp⟩
  | otherId h => exact absurd hid h
  | inUse _ => exact Or.inl ⟨hid, hlive, by simp⟩
  | free h => exact absurd h hlive

/-- `wait` does not return before the environment is gone: in any order of the steps of all CPUs in a
lawful run, when it returns, the slot of the environment has been free at some time since the call. -/
theorem wait_returns_after_exit (h : SmpRun R Lawful m) (hid : (m.kern.envs (envx envid)).envId = envid)
    (hlive : (m.kern.envs (envx envid)).envStatus ≠ .free)
    (hrun : Relation.ReflTransGen (WaitStep envid) (m, .id) (m', .done)) :
    ∃ p : Smp n × WaitPc, Relation.ReflTransGen (WaitStep envid) (m, .id) p ∧
      Relation.ReflTransGen (WaitStep envid) p (m', .done) ∧
      (p.1.kern.envs (envx envid)).envStatus = .free := by
  -- in each state of the run, `wait` goes on or the slot has been free
  have hall : ∀ q, Relation.ReflTransGen (WaitStep envid) (m, WaitPc.id) q → ExclInv q.1 ∧ (GoesOn envid q ∨
      ∃ p : Smp n × WaitPc, Relation.ReflTransGen (WaitStep envid) (m, .id) p ∧
        Relation.ReflTransGen (WaitStep envid) p q ∧ (p.1.kern.envs (envx envid)).envStatus = .free) := by
    intro q hq
    induction hq with
    | refl => exact ⟨h.inv.1, Or.inl ⟨hid, hlive, by simp⟩⟩
    | @tail p q hp hstep ih =>
        obtain ⟨hinv, hwait | ⟨p', h₁, h₂, hfree⟩⟩ := ih
        · refine ⟨hstep.exclInv hinv, ?_⟩
          rcases hstep.goesOn hinv hwait with hw | hfree
          · exact Or.inl hw
          · exact Or.inr ⟨q, hp.tail hstep, .refl, hfree⟩
        · exact ⟨hstep.exclInv hinv, Or.inr ⟨p', h₁, h₂.tail hstep, hfree⟩⟩
  rcases (hall _ hrun).2 with hwait | hgone
  · exact absurd rfl hwait.pc
  · exact hgone

end

/-- A parent has a child. -/
def haveChild : List (SmpCmd 2) := [.create, .wake cpu0, .trap cpu0 (callFrame 7 0 0 0 0 0)]

/-- The parent destroys the child. -/
def endChild : SmpCmd 2 := .trap cpu0 (callFrame 3 0x1001 0 0 0 0)

theorem wait_returns_after_exit_child : ∃ m' : Smp 2, ∃ p : Smp 2 × WaitPc,
    Relation.ReflTransGen (WaitStep 0x1001#32) (smallSmpAfter loneTest haveChild, .id) p ∧
      Relation.ReflTransGen (WaitStep 0x1001#32) p (m', .done) ∧ (p.1.kern.envs (envx 0x1001#32)).envStatus = .free := by
  have hview : (haveChild.foldlM (smpExecIf loneTest) smallSmp).map
      (fun m => ((m.kern.envs (envx 0x1001#32)).envId, (m.kern.envs (envx 0x1001#32)).envStatus, loneTest m endChild,
        (smpExec m endChild).map fun m => ((m.kern.envs (envx 0x1001#32)).envId,
          (m.kern.envs (envx 0x1001#32)).envStatus))) =
      some (0x1001#32, .notRunnable, true, some (0x1001#32, .free)) := by
    unfold smpExecIf smpExec trap trapDispatch syscall sysEnvDestroy envDestroy
    rw [envFree_eq_byte]
    decide +kernel
  obtain ⟨hrun, hview⟩ := smallSmpAfter_reached hview (by decide) fun _ _ => careful_of_loneTest
  simp only [Prod.mk.injEq, Option.map_eq_some_iff] at hview
  obtain ⟨hid, hst, hlone, m', hexec, hid', hfree⟩ := hview
  obtain ⟨hcareful, hsafe⟩ := careful_of_loneTest hlone
  have hlawful : Lawful (smallSmpAfter loneTest haveChild) endChild.event :=
    ⟨hcareful, hrun.bounded (by decide), hsafe⟩
  have hsteps : Relation.ReflTransGen (WaitStep 0x1001#32) (smallSmpAfter loneTest haveChild, .id) (m', .done) :=
    .tail (.tail (.single (.kernel (smpStep_of_exec hexec) hlawful)) (.sameId hid')) (.free hfree)
  exact ⟨m', wait_returns_after_exit hrun.run hid (by rw [hst]; decide) hsteps⟩

end Jos.User
