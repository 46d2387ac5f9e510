import Jos.Kern.Pmap

/-!
# Environments

The functions of `kern/env.c` on the `envs` array. The current environment of the CPU
that executes them is a parameter.
-/

namespace Jos.Kern

open Jos.Lib Kernel

/-- `ENVX`: the slot of an environment id. -/
def envx (envid : BitVec 32) : EnvIx :=
  ⟨(envid &&& 1023#32).toNat, by
    rw [BitVec.toNat_and]
    exact Nat.lt_of_le_of_lt Nat.and_le_right (by decide)⟩

/-- `envid2env`; `none` is the result `-E_BAD_ENV`. -/
def envid2env (s : Kernel) (curenv : EnvIx) (envid : BitVec 32) (checkperm : Bool) :
    Option EnvIx :=
  if envid = 0#32 then some curenv
  else
    let e := envx envid
    if (s.envs e).envStatus = .free ∨ (s.envs e).envId ≠ envid then none
    else if checkperm ∧ e ≠ curenv ∧ (s.envs e).envParentId ≠ (s.envs curenv).envId then none
    else some e

/-- `env_setup_vm`: a page directory that copies `kern_pgdir` and maps itself at `UVPT`. -/
def envSetupVm (s : Kernel) (e : EnvIx) : Option (Kernel × Int) := do
  match ← pageAlloc s true with
  | (s, none) => some (s, -eNoMem)
  | (s, some p) =>
      let kva ← s.kaddr (page2pa p)
      let s := s.setEnv e fun env => { env with envPgdir := some p }
      let s := { s with mem := s.mem.move kva (4096 * s.kernPgdir) pgsize }
      let s := s.incRef p
      some (s.writePte (entryAddr p pdxUvpt) (page2pa p ||| pteP ||| pteU), 0)

def gdUd : BitVec 16 := 0x20#16
def gdUt : BitVec 16 := 0x18#16
def flIf : BitVec 32 := 0x200#32
def flIoplMask : BitVec 32 := 0x3000#32
def flIopl3 : BitVec 32 := 0x3000#32

/-- The trapframe of a new environment. -/
def initTf : Trapframe :=
  { Trapframe.zero with
    tfDs := gdUd ||| 3#16
    tfEs := gdUd ||| 3#16
    tfSs := gdUd ||| 3#16
    tfEsp := ustacktop
    tfCs := gdUt ||| 3#16
    tfEflags := 0#32 ||| flIf }

/-- The id of the next environment in slot `e` (`ENVGENSHIFT` is 12). -/
def nextEnvId (e : EnvIx) (envId : BitVec 32) : BitVec 32 :=
  let generation := (envId + (1#32 <<< 12)) &&& ~~~(1023#32)
  let generation := if generation.toInt ≤ 0 then 1#32 <<< 12 else generation
  generation ||| BitVec.ofNat 32 e.val

/-- `env_alloc`: the new environment, or an error code. -/
def envAlloc (s : Kernel) (parentId : BitVec 32) : Option (Kernel × Except Int EnvIx) :=
  match s.envFreeList with
  | none => some (s, .error (-eNoFreeEnv))
  | some e => do
      let (s, r) ← envSetupVm s e
      if r < 0 then some (s, .error r)
      else
        let s := s.setEnv e fun env => { env with
          envId := nextEnvId e env.envId
          envParentId := parentId
          envType := .user
          envStatus := .runnable
          envRuns := 0#32
          envTf := initTf
          envPgfaultUpcall := 0#32
          envIpcRecving := false }
        some ({ s with envFreeList := (s.envs e).envLink }, .ok e)

/-- The body of the inner loop of `env_free`. -/
def freePte (pgdir pt pdeno : Nat) (s : Kernel) (pteno : Nat) : Option Kernel :=
  if isPresent (s.mem.read32 (pt + 4 * pteno)) then pageRemove s pgdir (pgaddr pdeno pteno)
  else some s

/-- The body of the outer loop of `env_free`. -/
def freePde (pgdir : Nat) (s : Kernel) (pdeno : Nat) : Option Kernel :=
  let pde := s.entry pgdir pdeno
  if isPresent pde then do
    let pt ← s.kaddr (pteAddr pde)
    let s ← (List.range nptentries).foldlM (freePte pgdir pt pdeno) s
    let s := s.writePte (entryAddr pgdir pdeno) 0#32
    let page ← s.pa2page (pteAddr pde)
    pageDecref s page
  else some s

/-- `env_free` -/
def envFree (s : Kernel) (e : EnvIx) : Option Kernel := do
  let pgdir ← (s.envs e).envPgdir
  let s ← (List.range pdxUtop).foldlM (freePde pgdir) s
  let s := s.setEnv e fun env => { env with envPgdir := none }
  let page ← s.pa2page (page2pa pgdir)
  let s ← pageDecref s page
  let s := s.setEnv e fun env => { env with envStatus := .free, envLink := s.envFreeList }
  some { s with envFreeList := some e }

/-- `env_destroy` up to the call of `sched_yield`: the flag says that `e` was the current
environment, so that the CPU now has none and the call does not return. -/
def envDestroy (s : Kernel) (curenv e : EnvIx) : Option (Kernel × Bool) :=
  if (s.envs e).envStatus = .running ∧ curenv ≠ e then
    some (s.setEnv e fun env => { env with envStatus := .dying }, false)
  else do
    let s ← envFree s e
    some (s, decide (curenv = e))

end Jos.Kern
