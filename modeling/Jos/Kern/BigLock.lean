import Jos.Kern.Machine
import Jos.Kern.Trap

/-!
# The big kernel lock

`trap`, `sched_yield`, `sched_halt`, `env_run` and the start of the CPUs once more, now with
`lock_kernel` and `unlock_kernel` of `kern/spinlock.c` where the code has them, and with the word
`cpu_status` that tells `trap` whether the CPU was halted. The code that a CPU has still to run is a
tree: work on the shared state goes on with code that depends on the state. Any CPU may make the next
step; interrupts are off in the kernel, so that a CPU is interrupted in user mode and while it is
halted only.

For each CPU there is a flag that its last attempt to take the lock was successful and that it has not
released it since; the kernel has no such flag, only `locked` and the CPU that is recorded in the
lock.

Main results:
* `BklInv.run`: one step of the code of a CPU keeps the invariant of the lock;
* `big_lock_discipline`: mutual exclusion, and no failing check of the lock, in every run.
-/

namespace Jos.Kern

open Jos.Lib Kernel

inductive CpuStatus
  | unused | started | halted
  deriving DecidableEq

/-! ## The code -/

/-- Code of the kernel, up to the point where the CPU leaves it. -/
inductive Code
  /-- `xchg(&thiscpu->cpu_status, CPU_STARTED)` -/
  | started (k : CpuStatus → Code)
  /-- `xchg(&thiscpu->cpu_status, CPU_HALTED)` -/
  | halting (k : Code)
  /-- `if (holding(lk)) panic(..)` in `spin_lock` -/
  | lockCheck (k : Code)
  /-- `while (xchg(&lk->locked, 1) != 0)` -/
  | lockSpin (k : Code)
  /-- `lk->cpu = thiscpu` -/
  | lockRecord (k : Code)
  /-- `if (!holding(lk))` in `spin_unlock` -/
  | unlockCheck (k : Code)
  /-- `lk->cpu = 0` -/
  | unlockClear (k : Code)
  /-- `xchg(&lk->locked, 0)` -/
  | unlockRelease (k : Code)
  /-- Work on the shared state. -/
  | work (run : Kernel → Kernel) (k : Kernel → Code)
  /-- `env_pop_tf` -/
  | popTf (e : EnvIx)
  /-- `sti` and `hlt` in `sched_halt` -/
  | hlt
  /-- The monitor of `sched_halt`, which does not end. -/
  | monitor
  | panic

def lockKernel (k : Code) : Code := .lockCheck (.lockSpin (.lockRecord k))

def unlockKernel (k : Code) : Code := .unlockCheck (.unlockClear (.unlockRelease k))

/-- Work that may panic, with its result. -/
def Code.perform {α : Type} (f : Kernel → Option (Kernel × α)) (k : α → Code) : Code :=
  .work (fun s => match f s with
    | some (s', _) => s'
    | none => s) fun s => match f s with
    | some (_, x) => k x
    | none => .panic

/-- A test of the shared state. -/
def Code.look (k : Kernel → Code) : Code := .work id k

/-- The `envs` array after `env_run(e)`, before `env_pop_tf`. -/
def switchEnvs (envs : EnvIx → Env) (curenv : Option EnvIx) (e x : EnvIx) : Env :=
  { switchEnv envs 0 curenv e x with envCpunum := (envs x).envCpunum }

/-- `env_run` -/
def envRunCode (curenv : Option EnvIx) (e : EnvIx) : Code :=
  .perform (fun s => do
    let _ ← (s.envs e).envPgdir
    some ({ s with envs := switchEnvs s.envs curenv e }, ())) fun _ => unlockKernel (.popTf e)

/-- `sched_halt` -/
def schedHaltCode : Code :=
  .look fun s =>
    if (List.finRange nenv).any fun e =>
      (s.envs e).envStatus = .runnable || (s.envs e).envStatus = .running ||
        (s.envs e).envStatus = .dying
    then .halting (unlockKernel .hlt)
    else .monitor

/-- `sched_yield` -/
def schedYieldCode (curenv : Option EnvIx) : Code :=
  .look fun s =>
    match schedPick s (schedStart s curenv) with
    | some e => envRunCode curenv e
    | none =>
        match curenv with
        | none => schedHaltCode
        | some cur =>
            if (s.envs cur).envStatus = .running then envRunCode curenv cur else schedHaltCode

/-- The end of `trap`, after `trap_dispatch` has returned. -/
def trapEndCode (curenv : Option EnvIx) : Code :=
  .look fun s =>
    match curenv with
    | none => schedYieldCode none
    | some cur =>
        if (s.envs cur).envStatus = .running then envRunCode curenv cur else schedYieldCode curenv

/-- How `trap_dispatch` ends: it returns, `page_fault_handler` calls `env_run`, or `sched_yield` is
called, by the timer, by a system call or by `env_destroy`. -/
def nextCode (cur : EnvIx) : Next → Code
  | .back => trapEndCode (some cur)
  | .run => envRunCode (some cur) cur
  | .yield => schedYieldCode (some cur)
  | .gone => schedYieldCode none

/-- `trap` for a trap from user mode, with the lock held. -/
def userTrapCode (cur : EnvIx) (tf : Trapframe) (t : Trap) : Code :=
  .look fun s =>
    if (s.envs cur).envStatus = .dying then
      .perform (fun s => (envFree s cur).map fun s' => (s', ())) fun _ => schedYieldCode none
    else .perform (fun s => trapDispatch (saveFrame s cur tf) cur tf t) (nextCode cur)

/-- `trap_dispatch` and the end of `trap` for a trap in kernel mode. -/
def kernelTrapCode (curenv : Option EnvIx) : Trap → Code
  | .timer => schedYieldCode curenv
  | .spurious | .kbd | .serial => trapEndCode curenv
  | _ => .panic

/-- `trap` after the first test. -/
def trapBody (curenv : Option EnvIx) (tf : Trapframe) (t : Trap) : Code :=
  if tf.tfCs &&& 3#16 = 3#16 then
    lockKernel (match curenv with
      | none => .panic
      | some cur => userTrapCode cur tf t)
  else kernelTrapCode curenv t

/-- `trap` -/
def trapCode (curenv : Option EnvIx) (tf : Trapframe) (t : Trap) : Code :=
  .started fun old =>
    if old = .halted then lockKernel (trapBody curenv tf t) else trapBody curenv tf t

/-- `mp_main` -/
def mpMain : Code := .started fun _ => lockKernel (schedYieldCode none)

/-- `i386_init` from `lock_kernel` on; `init` is what it does to the shared state. -/
def i386Init (init : Kernel → Kernel) : Code :=
  lockKernel (.work init fun _ => schedYieldCode none)

/-! ## The machine -/

/-- Where a CPU is. -/
inductive CpuMode
  | off
  | user (e : EnvIx)
  | halted
  | code (c : Code)

/-- The CPUs, with the lock: `locked`, the CPU recorded in it, and the CPUs that hold it. -/
structure Bkl (n : Nat) where
  kern : Kernel
  locked : Bool
  lockCpu : Option (Fin n)
  mode : Fin n → CpuMode
  status : Fin n → CpuStatus
  holds : Fin n → Bool

section

variable {n : Nat}

namespace Bkl

/-- `holding` -/
def holding (m : Bkl n) (k : Fin n) : Prop := m.locked = true ∧ m.lockCpu = some k

instance (m : Bkl n) (k : Fin n) : Decidable (m.holding k) := inferInstanceAs (Decidable (_ ∧ _))

def goto (m : Bkl n) (k : Fin n) (x : CpuMode) : Bkl n :=
  { m with mode := Function.update m.mode k x }

/-- CPU `k` makes the first step of `c`. -/
def run (m : Bkl n) (k : Fin n) : Code → Bkl n
  | .started c =>
      { m.goto k (.code (c (m.status k))) with status := Function.update m.status k .started }
  | .halting c => { m.goto k (.code c) with status := Function.update m.status k .halted }
  | .lockCheck c => m.goto k (.code (if m.holding k then .panic else c))
  | .lockSpin c =>
      if m.locked then m
      else { m.goto k (.code c) with locked := true, holds := Function.update m.holds k true }
  | .lockRecord c => { m.goto k (.code c) with lockCpu := some k }
  | .unlockCheck c => m.goto k (.code (if m.holding k then c else .panic))
  | .unlockClear c => { m.goto k (.code c) with lockCpu := none }
  | .unlockRelease c =>
      { m.goto k (.code c) with locked := false, holds := Function.update m.holds k false }
  | .work f c => { m.goto k (.code (c m.kern)) with kern := f m.kern }
  | .popTf e =>
      { m.goto k (.user e) with
        kern := m.kern.setEnv e fun env => { env with envCpunum := k } }
  | .hlt => m.goto k .halted
  | .monitor => m
  | .panic => m

end Bkl

/-- The selector of the kernel's code segment. -/
def gdKt : BitVec 16 := 0x08#16

inductive BklStep : Bkl n → Bkl n → Prop
  /-- A CPU runs kernel code. -/
  | code {m : Bkl n} {k : Fin n} {c : Code} (h : m.mode k = .code c) : BklStep m (m.run k c)
  /-- Any trap from user mode. -/
  | trap {m : Bkl n} {k : Fin n} {e : EnvIx} (h : m.mode k = .user e) (tf : Trapframe)
      (hcs : tf.tfCs &&& 3#16 = 3#16) (faultVa : BitVec 32) (console : Int) :
      BklStep m (m.goto k (.code (trapCode (some e) tf (.ofFrame tf faultVa console))))
  /-- An interrupt of a halted CPU. -/
  | interrupt {m : Bkl n} {k : Fin n} (h : m.mode k = .halted) (tf : Trapframe)
      (hcs : tf.tfCs = gdKt) (t : Trap) : BklStep m (m.goto k (.code (trapCode none tf t)))
  /-- A CPU other than the first starts. -/
  | start {m : Bkl n} {k : Fin n} (h : m.mode k = .off) : BklStep m (m.goto k (.code mpMain))
  /-- User code changes its memory. -/
  | user {m : Bkl n} {k : Fin n} {e : EnvIx} (h : m.mode k = .user e) (mem : Mem) :
      BklStep m { m with kern := { m.kern with mem := mem } }

/-- The first CPU is about to take the lock, the other ones have not started. -/
structure BklBoot (bsp : Fin n) (m : Bkl n) : Prop where
  locked : m.locked = false
  lockCpu : m.lockCpu = none
  holds : ∀ k, m.holds k = false
  status : m.status bsp = .started
  first : ∃ init, m.mode bsp = .code (i386Init init)
  aps : ∀ k ≠ bsp, m.mode k = .off

inductive BklRun (bsp : Fin n) : Bkl n → Prop
  | boot {m : Bkl n} (h : BklBoot bsp m) : BklRun bsp m
  | step {m m' : Bkl n} (h : BklRun bsp m) (hstep : BklStep m m') : BklRun bsp m'

end

/-! ## The discipline -/

/-- Where code stands with respect to the lock. -/
inductive Held
  /-- The CPU has not taken the lock, or has released it. -/
  | out
  /-- It has taken the lock, and not recorded it. -/
  | taken
  | held
  /-- It is about to release the lock. -/
  | cleared
  deriving DecidableEq

def Code.place : Code → Held
  | .started _ | .lockCheck _ | .lockSpin _ | .popTf _ | .hlt => .out
  | .lockRecord _ => .taken
  | .halting _ | .unlockCheck _ | .unlockClear _ | .work _ _ | .monitor | .panic => .held
  | .unlockRelease _ => .cleared

/-- From `lock_kernel` on until the CPU leaves. -/
def CpuMode.inside : CpuMode → Bool
  | .code c => decide (c.place ≠ .out)
  | _ => false

/-- Code that takes and releases the lock in turn, for a CPU with status `st`, and that leaves with
the right status. -/
def Code.Tidy : CpuStatus → Code → Prop
  | st, .started k => (k st).place = .out ∧ (k st).Tidy .started
  | _, .halting k => k.place = .held ∧ k.Tidy .halted
  | st, .lockCheck k => k.place = .out ∧ k.Tidy st
  | st, .lockSpin k => k.place = .taken ∧ k.Tidy st
  | st, .lockRecord k => k.place = .held ∧ k.Tidy st
  | st, .unlockCheck k => k.place = .held ∧ k.Tidy st
  | st, .unlockClear k => k.place = .cleared ∧ k.Tidy st
  | st, .unlockRelease k => k.place = .out ∧ k.Tidy st
  | st, .work _ k => ∀ s, (k s).place = .held ∧ (k s).Tidy st
  | st, .popTf _ => st = .started
  | st, .hlt => st = .halted
  | _, .monitor => True
  | _, .panic => True

/-- Code for a CPU that holds the lock. -/
def Code.Locked (c : Code) : Prop := c.place = .held ∧ c.Tidy .started

section

variable {st : CpuStatus} {c : Code} {curenv : Option EnvIx} {cur e : EnvIx} {tf : Trapframe}
  {t : Trap}

@[simp] theorem place_lockKernel : (lockKernel c).place = .out := rfl

@[simp] theorem place_unlockKernel : (unlockKernel c).place = .held := rfl

theorem tidy_lockKernel : (lockKernel c).Tidy st ↔ c.place = .held ∧ c.Tidy st := by
  simp [lockKernel, Code.Tidy, Code.place]

theorem tidy_unlockKernel : (unlockKernel c).Tidy st ↔ c.place = .out ∧ c.Tidy st := by
  simp [unlockKernel, Code.Tidy, Code.place]

theorem locked_panic : Code.panic.Locked := ⟨rfl, trivial⟩

theorem locked_look {k : Kernel → Code} (h : ∀ s, (k s).Locked) : (Code.look k).Locked :=
  ⟨rfl, h⟩

theorem locked_perform {α : Type} {f : Kernel → Option (Kernel × α)} {k : α → Code}
    (h : ∀ x, (k x).Locked) : (Code.perform f k).Locked := by
  refine ⟨rfl, fun s => ?_⟩
  simp only
  split
  · exact h _
  · exact locked_panic

theorem locked_envRunCode : (envRunCode curenv e).Locked := by
  refine locked_perform fun _ => ⟨rfl, ?_⟩
  rw [tidy_unlockKernel]
  exact ⟨rfl, rfl⟩

theorem locked_schedHaltCode : schedHaltCode.Locked := by
  refine locked_look fun s => ?_
  split
  · refine ⟨rfl, rfl, ?_⟩
    rw [tidy_unlockKernel]
    exact ⟨rfl, rfl⟩
  · exact ⟨rfl, trivial⟩

theorem locked_schedYieldCode : (schedYieldCode curenv).Locked := by
  refine locked_look fun s => ?_
  split
  · exact locked_envRunCode
  · split
    · exact locked_schedHaltCode
    · split
      · exact locked_envRunCode
      · exact locked_schedHaltCode

theorem locked_trapEndCode : (trapEndCode curenv).Locked := by
  refine locked_look fun s => ?_
  split
  · exact locked_schedYieldCode
  · split
    · exact locked_envRunCode
    · exact locked_schedYieldCode

theorem locked_nextCode (next : Next) : (nextCode cur next).Locked := by
  unfold nextCode
  split
  · exact locked_trapEndCode
  · exact locked_envRunCode
  · exact locked_schedYieldCode
  · exact locked_schedYieldCode

theorem locked_userTrapCode : (userTrapCode cur tf t).Locked := by
  refine locked_look fun s => ?_
  split
  · exact locked_perform fun _ => locked_schedYieldCode
  · exact locked_perform locked_nextCode

theorem locked_kernelTrapCode : (kernelTrapCode curenv t).Locked := by
  unfold kernelTrapCode
  split
  · exact locked_schedYieldCode
  · exact locked_trapEndCode
  · exact locked_trapEndCode
  · exact locked_trapEndCode
  · exact locked_panic

/-- `trap` from user mode takes the lock once, because the CPU was not halted. -/
theorem tidy_trapCode_user (hcs : tf.tfCs &&& 3#16 = 3#16) : (trapCode (some e) tf t).Tidy .started := by
  have hbody : trapBody (some e) tf t = lockKernel (userTrapCode e tf t) := by
    rw [trapBody, if_pos hcs]
  simp only [trapCode, Code.Tidy, reduceCtorEq, if_false]
  rw [hbody, tidy_lockKernel]
  exact ⟨rfl, locked_userTrapCode⟩

/-- `trap` on a halted CPU takes the lock once, because the saved code segment is the kernel's. -/
theorem tidy_trapCode_halted (hcs : tf.tfCs = gdKt) : (trapCode none tf t).Tidy .halted := by
  have hbody : trapBody none tf t = kernelTrapCode none t := by
    rw [trapBody, hcs, if_neg (by decide)]
  simp only [trapCode, Code.Tidy, if_true]
  refine ⟨rfl, ?_⟩
  rw [hbody, tidy_lockKernel]
  exact locked_kernelTrapCode

theorem tidy_mpMain (st : CpuStatus) : mpMain.Tidy st := by
  refine ⟨rfl, ?_⟩
  rw [tidy_lockKernel]
  exact locked_schedYieldCode

theorem tidy_i386Init {init : Kernel → Kernel} (hst : st = .started) : (i386Init init).Tidy st := by
  subst hst
  rw [i386Init, tidy_lockKernel]
  exact ⟨rfl, fun _ => locked_schedYieldCode⟩

end

/-! ## The invariant -/

/-- What is known of a CPU by its mode. -/
def CpuMode.Ok (st : CpuStatus) : CpuMode → Prop
  | .off => True
  | .user _ => st = .started
  | .halted => st = .halted
  | .code c => c.Tidy st

/-- The place of the CPU in the lock. -/
def CpuMode.place : CpuMode → Held
  | .code c => c.place
  | _ => .out

section

variable {n : Nat}

/-- The invariant of the lock. -/
structure BklInv (m : Bkl n) : Prop where
  ok : ∀ k, (m.mode k).Ok (m.status k)
  holds : ∀ k, m.holds k = true ↔ (m.mode k).place ≠ .out
  locked : m.locked = true ↔ ∃ k, m.holds k = true
  unique : ∀ k k', m.holds k = true → m.holds k' = true → k = k'
  recorded : ∀ k, m.lockCpu = some k ↔ (m.mode k).place = .held

variable {m m' : Bkl n} {k : Fin n} {c : Code} {bsp : Fin n}

/-- CPU `k` goes on with the same rights. -/
theorem BklInv.move (h : BklInv m) {x : CpuMode} {st : CpuStatus}
    (hplace : x.place = (m.mode k).place) (hok : x.Ok st) (hmode : m'.mode = Function.update m.mode k x)
    (hstatus : m'.status = Function.update m.status k st) (hlocked : m'.locked = m.locked)
    (hcpu : m'.lockCpu = m.lockCpu) (hholds : m'.holds = m.holds) : BklInv m' := by
  have hpl : ∀ j, (m'.mode j).place = (m.mode j).place := by
    intro j
    rw [hmode]
    by_cases hj : j = k
    · subst hj
      rw [Function.update_self, hplace]
    · rw [Function.update_of_ne hj]
  refine ⟨fun j => ?_, fun j => ?_, ?_, ?_, fun j => ?_⟩
  · rw [hmode, hstatus]
    by_cases hj : j = k
    · subst hj
      rw [Function.update_self, Function.update_self]
      exact hok
    · rw [Function.update_of_ne hj, Function.update_of_ne hj]
      exact h.ok j
  · rw [hholds, hpl]
    exact h.holds j
  · rw [hlocked, hholds]
    exact h.locked
  · rw [hholds]
    exact h.unique
  · rw [hcpu, hpl]
    exact h.recorded j

/-- A step that leaves the status alone. -/
theorem BklInv.goto (h : BklInv m) {x : CpuMode} (hplace : x.place = (m.mode k).place)
    (hok : x.Ok (m.status k)) : BklInv (m.goto k x) :=
  h.move hplace hok rfl (Function.update_eq_self _ _).symm rfl rfl rfl

/-- A CPU whose place in the lock changes. -/
theorem BklInv.change (h : BklInv m) {x : CpuMode} (hok : x.Ok (m.status k))
    (hmode : m'.mode = Function.update m.mode k x) (hstatus : m'.status = m.status)
    (hholds : ∀ j, m'.holds j = true ↔ (m'.mode j).place ≠ .out)
    (hlocked : m'.locked = true ↔ ∃ j, m'.holds j = true)
    (hunique : ∀ j j', m'.holds j = true → m'.holds j' = true → j = j')
    (hcpu : ∀ j, m'.lockCpu = some j ↔ (m'.mode j).place = .held) : BklInv m' := by
  refine ⟨fun j => ?_, hholds, hlocked, hunique, hcpu⟩
  rw [hmode, hstatus]
  by_cases hj : j = k
  · subst hj
    rw [Function.update_self]
    exact hok
  · rw [Function.update_of_ne hj]
    exact h.ok j

/-- With the lock taken by `k`, every other CPU is outside. -/
theorem BklInv.other_out (h : BklInv m) {j : Fin n} (hk : m.holds k = true) (hj : j ≠ k) :
    (m.mode j).place = .out := by
  by_contra hne
  exact hj (h.unique j k ((h.holds j).mpr hne) hk)

/-- `xchg` in `spin_lock`: with the lock free no CPU is inside, and afterwards only `k` is. -/
theorem BklInv.lockSpin {c : Code} (h : BklInv m) (hplace : c.place = .taken)
    (hok : (CpuMode.code c).Ok (m.status k)) (hfree : ¬ m.locked = true) :
    BklInv { m.goto k (.code c) with locked := true, holds := Function.update m.holds k true } := by
  have hnone : ∀ j, m.holds j ≠ true := fun j hj => hfree (h.locked.mpr ⟨j, hj⟩)
  have hout : ∀ j, (m.mode j).place = .out := fun j => by
    by_contra hne
    exact hnone j ((h.holds j).mpr hne)
  refine h.change (x := .code c) hok rfl rfl (fun j => ?_) ?_ (fun j j' hj hj' => ?_) fun j => ?_
  · by_cases hj : j = k
    · subst hj
      simp [Bkl.goto, CpuMode.place, hplace]
    · simp only [Bkl.goto]
      rw [Function.update_of_ne hj, Function.update_of_ne hj]
      exact h.holds j
  · exact iff_of_true rfl ⟨k, Function.update_self ..⟩
  · have hall : ∀ i, Function.update m.holds k true i = true → i = k := by
      intro i hi
      by_contra hne
      rw [Function.update_of_ne hne] at hi
      exact hnone i hi
    rw [hall j hj, hall j' hj']
  · have hnot : m.lockCpu ≠ some j := by
      rw [Ne, h.recorded, hout]
      decide
    refine iff_of_false hnot ?_
    simp only [Bkl.goto]
    by_cases hj : j = k
    · subst hj
      rw [Function.update_self]
      simp [CpuMode.place, hplace]
    · rw [Function.update_of_ne hj, hout]
      decide

/-- The CPU with the lock moves inside, and `lockCpu` follows it. -/
theorem BklInv.inside {c : Code} (h : BklInv m) (hk : m.holds k = true)
    (hin : c.place ≠ .out) (hok : (CpuMode.code c).Ok (m.status k)) {cpu : Option (Fin n)}
    (hself : cpu = some k ↔ c.place = .held) (hother : ∀ j ≠ k, cpu ≠ some j) :
    BklInv { m.goto k (.code c) with lockCpu := cpu } := by
  refine h.change (x := .code c) hok rfl rfl (fun j => ?_) h.locked h.unique fun j => ?_
  · by_cases hj : j = k
    · subst hj
      simp [Bkl.goto, CpuMode.place, hin, hk]
    · simp only [Bkl.goto]
      rw [Function.update_of_ne hj]
      exact h.holds j
  · simp only [Bkl.goto]
    by_cases hj : j = k
    · subst hj
      rw [Function.update_self]
      exact hself
    · rw [Function.update_of_ne hj, h.other_out hk hj]
      exact iff_of_false (hother j hj) (by decide)

/-- `xchg` in `spin_unlock`: `k` was the only CPU inside. -/
theorem BklInv.unlockRelease {c : Code} (h : BklInv m) (hk : m.holds k = true)
    (hcpu : m.lockCpu ≠ some k) (hplace : c.place = .out) (hok : (CpuMode.code c).Ok (m.status k)) :
    BklInv { m.goto k (.code c) with locked := false, holds := Function.update m.holds k false } := by
  have hnone : ∀ j, Function.update m.holds k false j ≠ true := by
    intro j hj
    by_cases hjk : j = k
    · subst hjk
      rw [Function.update_self] at hj
      cases hj
    · rw [Function.update_of_ne hjk] at hj
      exact hjk (h.unique j k hj hk)
  have hout : ∀ j, (Function.update m.mode k (.code c) j).place = .out := by
    intro j
    by_cases hj : j = k
    · subst hj
      rw [Function.update_self]
      exact hplace
    · rw [Function.update_of_ne hj, h.other_out hk hj]
  refine h.change (x := .code c) hok rfl rfl (fun j => ?_) ?_ (fun j _ hj => absurd hj (hnone j))
    fun j => ?_
  · exact iff_of_false (hnone j) fun hne => hne (hout j)
  · exact iff_of_false (by simp) fun ⟨j, hj⟩ => hnone j hj
  · refine iff_of_false ?_ ?_
    · show m.lockCpu ≠ some j
      by_cases hj : j = k
      · subst hj
        exact hcpu
      · rw [Ne, h.recorded, h.other_out hk hj]
        decide
    · show (Function.update m.mode k (.code c) j).place ≠ .held
      rw [hout j]
      decide

theorem BklInv.run (h : BklInv m) (hc : m.mode k = .code c) : BklInv (m.run k c) := by
  have hok := h.ok k
  rw [hc] at hok
  have hplace : (m.mode k).place = c.place := by rw [hc]; rfl
  have hholds : c.place ≠ .out → m.holds k = true := fun hin => (h.holds k).mpr (hplace ▸ hin)
  cases c with
  | started c =>
      exact h.move (x := .code (c (m.status k))) (hok.1.trans hplace.symm) hok.2 rfl rfl rfl rfl rfl
  | halting c =>
      exact h.move (x := .code c) (hok.1.trans hplace.symm) hok.2 rfl rfl rfl rfl rfl
  | lockCheck c =>
      have hnot : ¬ m.holding k := by
        rintro ⟨_, hcpu⟩
        rw [h.recorded, hplace] at hcpu
        cases hcpu
      simp only [Bkl.run, hnot, if_false]
      exact h.goto (hok.1.trans hplace.symm) hok.2
  | lockSpin c =>
      simp only [Bkl.run]
      split
      · exact h
      · rename_i hfree
        exact h.lockSpin hok.1 hok.2 hfree
  | lockRecord c =>
      exact h.inside (hholds (by simp [Code.place])) (by simp [hok.1]) hok.2 (by simp [hok.1])
        fun j hj heq => hj (Option.some.inj heq).symm
  | unlockCheck c =>
      have hholding : m.holding k := by
        refine ⟨h.locked.mpr ⟨k, hholds (by simp [Code.place])⟩, ?_⟩
        rw [h.recorded, hplace]
        rfl
      simp only [Bkl.run, hholding, if_true]
      exact h.goto (hok.1.trans hplace.symm) hok.2
  | unlockClear c =>
      exact h.inside (hholds (by simp [Code.place])) (by simp [hok.1]) hok.2 (by simp [hok.1])
        fun j _ heq => by cases heq
  | unlockRelease c =>
      refine h.unlockRelease (hholds (by simp [Code.place])) ?_ hok.1 hok.2
      rw [Ne, h.recorded, hplace]
      simp [Code.place]
  | work f c =>
      exact h.move (x := .code (c m.kern)) ((hok m.kern).1.trans hplace.symm) (hok m.kern).2 rfl
        (Function.update_eq_self _ _).symm rfl rfl rfl
  | popTf e =>
      exact h.move (x := .user e) hplace.symm hok rfl (Function.update_eq_self _ _).symm rfl rfl rfl
  | hlt => exact h.goto hplace.symm hok
  | monitor => exact h
  | panic => exact h

theorem BklStep.inv (hstep : BklStep m m') (h : BklInv m) : BklInv m' := by
  cases hstep with
  | code hc => exact h.run hc
  | @trap k e hk tf hcs faultVa console =>
      have hok := h.ok k
      rw [hk] at hok
      refine h.goto (by rw [hk]; rfl) ?_
      rw [show m.status k = .started from hok]
      exact tidy_trapCode_user hcs
  | @interrupt k hk tf hcs t =>
      have hok := h.ok k
      rw [hk] at hok
      refine h.goto (by rw [hk]; rfl) ?_
      rw [show m.status k = .halted from hok]
      exact tidy_trapCode_halted hcs
  | @start k hk => exact h.goto (by rw [hk]; rfl) (tidy_mpMain (m.status k))
  | user hk mem => exact ⟨h.ok, h.holds, h.locked, h.unique, h.recorded⟩

theorem BklBoot.inv (h : BklBoot bsp m) : BklInv m := by
  have hplace : ∀ k, (m.mode k).place = .out := by
    intro k
    by_cases hk : k = bsp
    · subst hk
      obtain ⟨init, hinit⟩ := h.first
      rw [hinit]
      rfl
    · rw [h.aps k hk]
      rfl
  refine ⟨fun k => ?_, fun k => ?_, ?_, fun k _ hk => ?_, fun k => ?_⟩
  · by_cases hk : k = bsp
    · subst hk
      obtain ⟨init, hinit⟩ := h.first
      rw [hinit]
      exact tidy_i386Init h.status
    · rw [h.aps k hk]
      trivial
  · rw [h.holds, hplace]
    decide
  · rw [h.locked]
    refine iff_of_false (by decide) fun ⟨k, hk⟩ => ?_
    rw [h.holds] at hk
    cases hk
  · rw [h.holds] at hk
    cases hk
  · rw [h.lockCpu, hplace]
    exact iff_of_false (by simp) (by decide)

theorem BklRun.inv (h : BklRun bsp m) : BklInv m := by
  induction h with
  | boot h => exact h.inv
  | step _ hstep ih => exact hstep.inv ih

theorem inside_eq (x : CpuMode) : x.inside = decide (x.place ≠ .out) := by
  cases x <;> rfl

/-- In every state of every run at most one CPU holds the lock; a CPU that is about to take it does not
hold it, a CPU that is about to release it does, so that neither check of the lock fails; and a CPU
holds it exactly from `lock_kernel` until it leaves through `env_run` or `sched_halt`: in particular
whenever it works on the shared state, and neither in user mode nor while it is halted. -/
theorem big_lock_discipline (h : BklRun bsp m) :
    (∀ k k', m.holds k = true → m.holds k' = true → k = k') ∧
    (∀ k c, (m.mode k = .code (.lockCheck c) ∨ m.mode k = .code (.lockSpin c)) →
      m.holds k = false ∧ ¬ m.holding k) ∧
    (∀ k c, m.mode k = .code (.unlockCheck c) → m.holds k = true ∧ m.holding k) ∧
    (∀ k c, (m.mode k = .code (.unlockClear c) ∨ m.mode k = .code (.unlockRelease c)) →
      m.holds k = true) ∧
    ∀ k, m.holds k = (m.mode k).inside := by
  have hinv := h.inv
  have hinside : ∀ k, m.holds k = (m.mode k).inside := by
    intro k
    rw [inside_eq, Bool.eq_iff_iff, hinv.holds k, decide_eq_true_iff]
  refine ⟨hinv.unique, fun k c hc => ?_, fun k c hc => ?_, fun k c hc => ?_, hinside⟩
  · have hplace : (m.mode k).place = .out := by
      rcases hc with hc | hc <;> rw [hc] <;> rfl
    refine ⟨?_, fun hhold => ?_⟩
    · rw [hinside, inside_eq, hplace]
      rfl
    · have := (hinv.recorded k).mp hhold.2
      rw [hplace] at this
      cases this
  · have hplace : (m.mode k).place = .held := by rw [hc]; rfl
    have hholds : m.holds k = true := (hinv.holds k).mpr (by rw [hplace]; decide)
    exact ⟨hholds, hinv.locked.mpr ⟨k, hholds⟩, (hinv.recorded k).mpr hplace⟩
  · refine (hinv.holds k).mpr ?_
    rcases hc with hc | hc <;> rw [hc] <;> simp [CpuMode.place, Code.place]

end

/-- Two CPUs at the start. -/
def twoCpus : Bkl 2 where
  kern := small
  locked := false
  lockCpu := none
  mode k := if k = 0 then .code (i386Init id) else .off
  status k := if k = 0 then .started else .unused
  holds _ := false

/-- The first CPU has taken the lock, and the second one comes to take it. -/
theorem big_lock_discipline_two : ∃ m : Bkl 2, BklRun 0 m ∧ m.holds 0 = true ∧
    (m.mode 0).inside = true ∧ m.mode 1 = .code (lockKernel (schedYieldCode none)) ∧
    m.holds 1 = false := by
  have hboot : BklRun 0 twoCpus := by
    refine .boot ⟨rfl, rfl, fun _ => rfl, rfl, ⟨id, rfl⟩, fun k hk => ?_⟩
    simp only [twoCpus, if_neg hk]
  have h1 := hboot.step (.code (k := 0) rfl)
  have h2 := h1.step (.code (k := 0) rfl)
  have h3 := h2.step (.start (k := 1) rfl)
  have h4 := h3.step (.code (k := 1) rfl)
  have hlock := big_lock_discipline h4
  refine ⟨_, h4, rfl, ?_, rfl, ?_⟩
  · rw [← hlock.2.2.2.2 0]
    rfl
  · exact (hlock.2.1 1 _ (Or.inl rfl)).1

end Jos.Kern
