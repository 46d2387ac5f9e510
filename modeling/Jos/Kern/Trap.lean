import Jos.Kern.Syscall

/-!
# Traps and the scheduler

`trap`, `trap_dispatch` and `page_fault_handler` of `kern/trap.c`, `sched_yield` and
`sched_halt` of `kern/sched.c` and `env_run` of `kern/env.c`. A trap into the kernel is one
function: the big kernel lock is taken on entry and released when the CPU goes back to user
mode or halts. The result is the new state with the `cpu_env` of the CPU, or `none` when the
kernel panics or stays in the monitor.
-/

namespace Jos.Kern

open Jos.Lib Kernel

/-- What the scheduler keeps of a CPU. A CPU outside the kernel runs user code or is halted. -/
structure Cpu where
  cpuEnv : Option EnvIx
  user : Bool
deriving DecidableEq

/-- The environment on a CPU in user mode. -/
def Cpu.running (e : EnvIx) : Cpu := ⟨some e, true⟩

def Cpu.halted : Cpu := ⟨none, false⟩

/-! ## The scheduler -/

/-- The `envs` array after `env_run(e)` on CPU `cpunum` with the current environment `curenv`. -/
def switchEnv (envs : EnvIx → Env) (cpunum : Nat) (curenv : Option EnvIx) (e x : EnvIx) : Env :=
  if x = e then
    { envs x with
      envStatus := .running
      envRuns := (envs x).envRuns + 1#32
      envCpunum := cpunum }
  else if curenv = some x ∧ (envs x).envStatus = .running then
    { envs x with envStatus := .runnable }
  else envs x

section

variable (s : Kernel) (cpunum : Nat)

/-- `env_run`; `PADDR` panics on a null `env_pgdir`. -/
def envRun (curenv : Option EnvIx) (e : EnvIx) : Option (Kernel × Cpu) := do
  let _ ← (s.envs e).envPgdir
  some ({ s with envs := switchEnv s.envs cpunum curenv e }, .running e)

/-- `sched_halt`; without any environment to wait for it stays in the monitor. -/
def schedHalt : Option (Kernel × Cpu) :=
  if (List.finRange nenv).any fun e =>
    (s.envs e).envStatus = .runnable || (s.envs e).envStatus = .running ||
      (s.envs e).envStatus = .dying
  then some (s, .halted)
  else none

/-- The slot of index `i`, counted around the `envs` array. -/
def slot (i : Nat) : EnvIx := ⟨i % nenv, Nat.mod_lt _ (by decide)⟩

/-- The slot at which `sched_yield` starts. -/
def schedStart : Option EnvIx → Nat
  | none => 0
  | some cur => (envx (s.envs cur).envId).val

/-- The loop of `sched_yield`: the first runnable environment from slot `start` on. -/
def schedPick (start : Nat) : Option EnvIx :=
  ((List.range nenv).map fun i => slot (start + i)).find? fun e => (s.envs e).envStatus = .runnable

/-- `sched_yield` -/
def schedYield (curenv : Option EnvIx) : Option (Kernel × Cpu) :=
  match schedPick s (schedStart s curenv) with
  | some e => envRun s cpunum curenv e
  | none =>
      match curenv with
      | none => schedHalt s
      | some cur =>
          if (s.envs cur).envStatus = .running then envRun s cpunum curenv cur else schedHalt s

end

/-! ## Traps -/

/-- The causes that `trap_dispatch` tells apart. -/
inductive Trap
  | brkpt
  | pgflt (faultVa : BitVec 32)
  | syscall (c : Call)
  | spurious
  | timer
  | kbd
  | serial
  | other

/-- The system call in the registers: the number in `eax`, the arguments in `edx`, `ecx`,
`ebx`, `edi` and `esi`. -/
def Call.ofRegs (regs : PushRegs) (console : Int) : Call :=
  let a1 := regs.regEdx
  let a2 := regs.regEcx
  let a3 := regs.regEbx
  let a4 := regs.regEdi
  let a5 := regs.regEsi
  match regs.regEax.toNat with
  | 0 => .cputs a1 a2
  | 1 => .cgetc console
  | 2 => .getenvid
  | 3 => .envDestroy a1
  | 4 => .pageAlloc a1 a2 a3
  | 5 => .pageMap a1 a2 a3 a4 a5
  | 6 => .pageUnmap a1 a2
  | 7 => .exofork
  | 8 => .envSetStatus a1 a2
  | 9 => .envSetTrapframe a1 a2
  | 10 => .envSetPgfaultUpcall a1 a2
  | 11 => .yield
  | 12 => .ipcTrySend a1 a2 a3 a4
  | 13 => .ipcRecv a1
  | _ => .invalid

/-- The cause of a trap by `tf_trapno`. `faultVa` is the register CR2 and `console` the next
character of the console. -/
def Trap.ofFrame (tf : Trapframe) (faultVa : BitVec 32) (console : Int) : Trap :=
  match tf.tfTrapno.toNat with
  | 3 => .brkpt
  | 14 => .pgflt faultVa
  | 32 => .timer
  | 33 => .kbd
  | 36 => .serial
  | 39 => .spurious
  | 48 => .syscall (.ofRegs tf.tfRegs console)
  | _ => .other

/-- How `trap_dispatch` ends. -/
inductive Next
  /-- It returns to `trap`. -/
  | back
  /-- `env_run(curenv)` -/
  | run
  /-- `sched_yield` is called with `curenv` still current. -/
  | yield
  /-- `sched_yield` is called after `env_destroy` has freed `curenv`. -/
  | gone
deriving DecidableEq

/-- `*va = w` for consecutive words. -/
def storeWords (s : Kernel) (pgdir : Nat) : BitVec 32 → List (BitVec 32) → Option Kernel
  | _, [] => some s
  | va, w :: ws => do
      let s ← store32 s pgdir va w
      storeWords s pgdir (va + 4#32) ws

/-- The words of the `struct UTrapframe` for a fault at `faultVa`. -/
def utrapframe (tf : Trapframe) (faultVa : BitVec 32) : List (BitVec 32) :=
  [faultVa, tf.tfErr, tf.tfRegs.regEdi, tf.tfRegs.regEsi, tf.tfRegs.regEbp, tf.tfRegs.regOesp,
    tf.tfRegs.regEbx, tf.tfRegs.regEdx, tf.tfRegs.regEcx, tf.tfRegs.regEax, tf.tfEip, tf.tfEflags,
    tf.tfEsp]

/-- `sizeof(struct UTrapframe)` -/
def utrapframeSize : BitVec 32 := 52#32

/-- The place of the frame on the exception stack; a fault in the fault handler leaves a word
for `lib/pfentry.S`. -/
def utrapframeVa (tf : Trapframe) : BitVec 32 :=
  if uxstacktop - 4096#32 ≤ tf.tfEsp ∧ tf.tfEsp < uxstacktop then tf.tfEsp - utrapframeSize - 4#32
  else uxstacktop - utrapframeSize

section

variable (s : Kernel) (cpunum : Nat) (cur : EnvIx)

/-- `page_fault_handler` for a fault in user mode; `tf` is `env_tf` of `cur`. -/
def pageFaultHandler (tf : Trapframe) (faultVa : BitVec 32) : Option (Kernel × Next) :=
  if (s.envs cur).envPgfaultUpcall ≠ 0#32 then do
    let u := utrapframeVa tf
    let (s, destroyed) ← userMemAssert s cur cur u utrapframeSize (pteP ||| pteW)
    if destroyed then some (s, .gone)
    else
      let pgdir ← (s.envs cur).envPgdir
      let s ← storeWords s pgdir u (utrapframe tf faultVa)
      some (s.setEnv cur fun env => { env with
        envTf := { env.envTf with tfEip := env.envPgfaultUpcall, tfEsp := u } }, .run)
  else do
    let (s, _) ← envDestroy s cur cur
    some (s, .gone)

/-- `trap_dispatch` for a trap from user mode. -/
def trapDispatch (tf : Trapframe) : Trap → Option (Kernel × Next)
  | .pgflt faultVa => pageFaultHandler s cur tf faultVa
  | .syscall c => do
      match ← syscall s cur c with
      | (s, .ret r) =>
          some (s.setEnv cur fun env => { env with
            envTf := { env.envTf with tfRegs := { env.envTf.tfRegs with regEax := BitVec.ofInt 32 r } } },
            .back)
      | (s, .yield) => some (s, .yield)
      | (s, .gone) => some (s, .gone)
  | .timer => some (s, .yield)
  | .other => do
      let (s, _) ← envDestroy s cur cur
      some (s, .gone)
  | .brkpt | .spurious | .kbd | .serial => some (s, .back)

/-- The way out of the kernel. -/
def leave : Next → Option (Kernel × Cpu)
  | .back =>
      if (s.envs cur).envStatus = .running then envRun s cpunum (some cur) cur
      else schedYield s cpunum (some cur)
  | .run => envRun s cpunum (some cur) cur
  | .yield => schedYield s cpunum (some cur)
  | .gone => schedYield s cpunum none

/-- `curenv->env_tf = *tf` -/
def saveFrame (tf : Trapframe) : Kernel := s.setEnv cur fun env => { env with envTf := tf }

/-- `trap` from user mode; `tf` is the frame on the kernel stack. -/
def trap (tf : Trapframe) (t : Trap) : Option (Kernel × Cpu) :=
  if (s.envs cur).envStatus = .dying then do
    let s ← envFree s cur
    schedYield s cpunum none
  else do
    let s := saveFrame s cur tf
    let (s, next) ← trapDispatch s cur tf t
    leave s cpunum cur next

/-- `trap` on a halted CPU, and the first `sched_yield` of a CPU: there is no current
environment. -/
def trapHalted (t : Trap) : Option (Kernel × Cpu) :=
  match t with
  | .spurious | .timer | .kbd | .serial => schedYield s cpunum none
  | _ => none

end

end Jos.Kern
