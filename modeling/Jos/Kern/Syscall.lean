import Jos.Kern.UserMem

/-!
# System calls

The functions of `kern/syscall.c`. `curenv` is the environment that makes the call. A call
returns a value, gives up the CPU (`sys_yield`, `sys_ipc_recv`), or ends with the current
environment destroyed; in the last two cases `sched_yield` takes over.
-/

namespace Jos.Kern

open Jos.Lib Kernel

/-- How a system call ends. -/
inductive Outcome
  | ret (r : Int)
  /-- `sched_yield` is called with `curenv` still current. -/
  | yield
  /-- `env_destroy` has freed `curenv`; `sched_yield` is called without one. -/
  | gone
deriving DecidableEq, Repr

/-- The result of `env_destroy` in a system call that then returns `r`. -/
def Outcome.ofDestroy (destroyed : Bool) (r : Int) : Outcome := if destroyed then .gone else .ret r

section

variable (s : Kernel) (curenv : EnvIx)

/-- The string is printed after the check; `Jos.Kern.Cputs` has what the printing reads. -/
def sysCputs (va len : BitVec 32) : Option (Kernel × Outcome) := do
  let (s, destroyed) ← userMemAssert s curenv curenv va len pteU
  some (s, .ofDestroy destroyed 0)

def sysGetenvid : Int := (s.envs curenv).envId.toInt

def sysEnvDestroy (envid : BitVec 32) : Option (Kernel × Outcome) :=
  match envid2env s curenv envid true with
  | none => some (s, .ret (-eBadEnv))
  | some e => do
      let (s, destroyed) ← envDestroy s curenv e
      some (s, .ofDestroy destroyed 0)

/-- The tweaks of `sys_exofork` to the environment that `env_alloc` has made. -/
def exoforkEnv (cur env : Env) : Env :=
  { env with
    envTf := { cur.envTf with tfRegs := { cur.envTf.tfRegs with regEax := 0#32 } }
    envStatus := .notRunnable }

def sysExofork : Option (Kernel × Outcome) := do
  match ← envAlloc s (s.envs curenv).envId with
  | (s, .error r) => some (s, .ret r)
  | (s, .ok e) =>
      let s := s.setEnv e (exoforkEnv (s.envs curenv))
      some (s, .ret (s.envs e).envId.toInt)

/-- The value of `ENV_RUNNABLE` and `ENV_NOT_RUNNABLE` in `enum` order. -/
def statusOf (status : BitVec 32) : Option EnvStatus :=
  if status = 2#32 then some .runnable else if status = 4#32 then some .notRunnable else none

def sysEnvSetStatus (envid status : BitVec 32) : Kernel × Outcome :=
  match envid2env s curenv envid true with
  | none => (s, .ret (-eBadEnv))
  | some e =>
      match statusOf status with
      | none => (s, .ret (-eInval))
      | some st => (s.setEnv e fun env => { env with envStatus := st }, .ret 0)

/-- `sys_env_set_trapframe` up to the first access through `tf`: the environment whose
frame is to be set, or the end of the call. -/
def trapframeCheck (envid tf : BitVec 32) : Option (Kernel × (Outcome ⊕ EnvIx)) :=
  match envid2env s curenv envid true with
  | none => some (s, .inl (.ret (-eInval)))
  | some e => do
      let (s, destroyed) ← userMemAssert s curenv e tf trapframeSize (pteW ||| pteP)
      some (s, if destroyed then .inl .gone else .inr e)

/-- The accesses of `sys_env_set_trapframe` through `tf`, in the address space of the
current environment. -/
def trapframeStore (e : EnvIx) (tf : BitVec 32) : Option Kernel := do
  let pgdir ← (s.envs curenv).envPgdir
  let s ← store16 s pgdir (tf + 36#32) (gdUd ||| 3#16)
  let s ← store16 s pgdir (tf + 32#32) (gdUd ||| 3#16)
  let s ← store16 s pgdir (tf + 64#32) (gdUd ||| 3#16)
  let s ← store16 s pgdir (tf + 52#32) (gdUt ||| 3#16)
  let s ← store32 s pgdir (tf + 56#32) flIf
  let eflags ← load32 s pgdir (tf + 56#32)
  let s ← store32 s pgdir (tf + 56#32) (eflags &&& ~~~flIoplMask)
  let envTf ← loadTrapframe s pgdir tf
  some (s.setEnv e fun env => { env with envTf })

/-- After a failing check of another environment's pointer the call goes on to store. A pointer of the
kernel's then reaches what is in `mem`; the environments are a field of their own, and `SafeCall` keeps
such stores out where they matter. -/
def sysEnvSetTrapframe (envid tf : BitVec 32) : Option (Kernel × Outcome) := do
  match ← trapframeCheck s curenv envid tf with
  | (s, .inl o) => some (s, o)
  | (s, .inr e) =>
      let s ← trapframeStore s curenv e tf
      some (s, .ret 0)

def sysEnvSetPgfaultUpcall (envid func : BitVec 32) : Kernel × Outcome :=
  match envid2env s curenv envid true with
  | none => (s, .ret (-eBadEnv))
  | some e => (s.setEnv e fun env => { env with envPgfaultUpcall := func }, .ret 0)

/-- The test `va >= UTOP || PGOFF(va) != 0` of the page system calls. -/
def badVa (va : BitVec 32) : Bool := utop ≤ va || pgoff va != 0

/-- The test `perm & ~PTE_SYSCALL`. -/
def badPerm (perm : BitVec 32) : Bool := perm &&& ~~~pteSyscall != 0#32

/-- The test `(perm & PTE_W) && !(*pte & PTE_W)`. -/
def grantsWrite (perm pte : BitVec 32) : Bool := perm &&& pteW != 0#32 && pte &&& pteW == 0#32

def sysPageAlloc (envid va perm : BitVec 32) : Option (Kernel × Outcome) :=
  match envid2env s curenv envid true with
  | none => some (s, .ret (-eBadEnv))
  | some e =>
      if badVa va then some (s, .ret (-eInval))
      else if badPerm perm then some (s, .ret (-eInval))
      else do
        match ← pageAlloc s true with
        | (s, none) => some (s, .ret (-eNoMem))
        | (s, some pg) =>
            let pgdir ← (s.envs e).envPgdir
            let (s, r) ← pageInsert s pgdir pg va perm
            if r < 0 then
              let s ← pageFree s pg
              some (s, .ret (-eNoMem))
            else some (s, .ret 0)

def sysPageMap (srcenvid srcva dstenvid dstva perm : BitVec 32) : Option (Kernel × Outcome) :=
  match envid2env s curenv srcenvid true, envid2env s curenv dstenvid true with
  | some srcE, some dstE =>
      if badVa srcva || badVa dstva then some (s, .ret (-eInval))
      else do
        let srcdir ← (s.envs srcE).envPgdir
        match ← pageLookup s srcdir srcva with
        | none => some (s, .ret (-eInval))
        | some (pg, pte) =>
            if badPerm perm then some (s, .ret (-eInval))
            else if grantsWrite perm (s.mem.read32 pte) then some (s, .ret (-eInval))
            else
              let dstdir ← (s.envs dstE).envPgdir
              let (s, r) ← pageInsert s dstdir pg dstva perm
              if r < 0 then some (s, .ret (-eNoMem)) else some (s, .ret 0)
  | _, _ => some (s, .ret (-eBadEnv))

def sysPageUnmap (envid va : BitVec 32) : Option (Kernel × Outcome) :=
  match envid2env s curenv envid true with
  | none => some (s, .ret (-eBadEnv))
  | some e =>
      if badVa va then some (s, .ret (-eInval))
      else do
        let pgdir ← (s.envs e).envPgdir
        let s ← pageRemove s pgdir va
        some (s, .ret 0)

/-- The end of a successful `sys_ipc_try_send` to `e`. -/
def ipcDeliver (e : EnvIx) (value perm : BitVec 32) : Kernel :=
  s.setEnv e fun env => { env with
    envIpcPerm := perm
    envIpcRecving := false
    envIpcFrom := (s.envs curenv).envId
    envIpcValue := value
    envStatus := .runnable }

def sysIpcTrySend (envid value srcva perm : BitVec 32) : Option (Kernel × Outcome) :=
  match envid2env s curenv envid false with
  | none => some (s, .ret (-eBadEnv))
  | some e =>
      if !(s.envs e).envIpcRecving then some (s, .ret (-eIpcNotRecv))
      else if srcva < utop ∧ (s.envs e).envIpcDstva < utop then
        if pgoff srcva ≠ 0 then some (s, .ret (-eInval))
        else do
          let srcdir ← (s.envs curenv).envPgdir
          match ← pageLookup s srcdir srcva with
          | none => some (s, .ret (-eInval))
          | some (pg, pte) =>
              if badPerm perm then some (s, .ret (-eInval))
              else if grantsWrite perm (s.mem.read32 pte) then some (s, .ret (-eInval))
              else
                let dstdir ← (s.envs e).envPgdir
                let (s, r) ← pageInsert s dstdir pg (s.envs e).envIpcDstva perm
                if r < 0 then some (s, .ret (-eNoMem))
                else some (ipcDeliver s curenv e value perm, .ret 0)
      else some (ipcDeliver s curenv e value 0#32, .ret 0)

/-- A `dstva` at or above `UTOP` leaves `env_ipc_dstva` as it was. -/
def sysIpcRecv (dstva : BitVec 32) : Kernel × Outcome :=
  if dstva < utop ∧ pgoff dstva ≠ 0 then (s, .ret (-eInval))
  else
    (s.setEnv curenv fun env => { env with
      envIpcDstva := if dstva < utop then dstva else env.envIpcDstva
      envIpcRecving := true
      envStatus := .notRunnable
      envTf := { env.envTf with tfRegs := { env.envTf.tfRegs with regEax := 0#32 } } }, .yield)

end

/-- A system call with its arguments. -/
inductive Call
  | cputs (va len : BitVec 32)
  /-- The character comes from the console. -/
  | cgetc (c : Int)
  | getenvid
  | envDestroy (envid : BitVec 32)
  | pageAlloc (envid va perm : BitVec 32)
  | pageMap (srcenvid srcva dstenvid dstva perm : BitVec 32)
  | pageUnmap (envid va : BitVec 32)
  | exofork
  | envSetStatus (envid status : BitVec 32)
  | envSetTrapframe (envid tf : BitVec 32)
  | envSetPgfaultUpcall (envid func : BitVec 32)
  | yield
  | ipcTrySend (envid value srcva perm : BitVec 32)
  | ipcRecv (dstva : BitVec 32)
  /-- Any other system call number. -/
  | invalid

/-- `syscall` -/
def syscall (s : Kernel) (curenv : EnvIx) : Call → Option (Kernel × Outcome)
  | .cputs va len => sysCputs s curenv va len
  | .cgetc c => some (s, .ret c)
  | .getenvid => some (s, .ret (sysGetenvid s curenv))
  | .envDestroy envid => sysEnvDestroy s curenv envid
  | .pageAlloc envid va perm => sysPageAlloc s curenv envid va perm
  | .pageMap srcenvid srcva dstenvid dstva perm =>
      sysPageMap s curenv srcenvid srcva dstenvid dstva perm
  | .pageUnmap envid va => sysPageUnmap s curenv envid va
  | .exofork => sysExofork s curenv
  | .envSetStatus envid status => some (sysEnvSetStatus s curenv envid status)
  | .envSetTrapframe envid tf => sysEnvSetTrapframe s curenv envid tf
  | .envSetPgfaultUpcall envid func => some (sysEnvSetPgfaultUpcall s curenv envid func)
  | .yield => some (s, .yield)
  | .ipcTrySend envid value srcva perm => sysIpcTrySend s curenv envid value srcva perm
  | .ipcRecv dstva => some (sysIpcRecv s curenv dstva)
  | .invalid => some (s, .ret (-eInval))

end Jos.Kern
