import Jos.Kern.Syscall

/-!
# Copy-on-write fork

`fork` and `duppage` of `lib/fork.c` and `set_pgfault_handler` of `lib/pgfault.c`, as sequences of
system calls of the environment `cur`. The library reads the page tables of its own environment
through `uvpd` and `uvpt`. A function returns `none` when the environment panics.

What the parent stores meanwhile is not part of these functions. Two stores matter for its page
tables. `set_pgfault_handler` ends with one to `_pgfault_handler`: the state that `fork` starts from
has it behind it, with the fault that it takes in a second `fork`. And from the `duppage` of its
stack on the parent has the stack copy-on-write: the next push faults and `pgfault` puts a new page
there, by way of `PFTEMP`. Both pages are the `ownPages`, of which nothing is said for the parent.
-/

namespace Jos.User

open Jos.Lib Jos.Kern Kernel

def pteShare : BitVec 32 := 0x400#32
def pteCow : BitVec 32 := 0x800#32

/-- `UXSTACKTOP - PGSIZE`, the page of the exception stack. -/
def uxstack : BitVec 32 := uxstacktop - 4096#32

/-- `PFTEMP` -/
def pftemp : BitVec 32 := 0x7FF000#32

/-- The pages of the parent that `pgfault` changes before `fork` returns: its stack, and `PFTEMP`. -/
def ownPages : List (BitVec 32) := [ustacktop - 4096#32, pftemp]

/-- `uvpd[i]`, for the environment with the page directory in frame `d`. -/
def uvpdEntry (s : Kernel) (d i : Nat) : BitVec 32 := s.entry d i

/-- `uvpt[pn]`, where `uvpd` has a page table for it. -/
def uvptEntry (s : Kernel) (d pn : Nat) : BitVec 32 :=
  s.entry (pteFrame (s.entry d (pn / 1024))) (pn % 1024)

/-- The state after a system call, or a panic when the result is `bad`. -/
def orPanic (bad : Int → Bool) : Option (Kernel × Outcome) → Option Kernel
  | some (s, .ret r) => if bad r then none else some s
  | _ => none

/-- `set_pgfault_handler`; `installed` says that `_pgfault_handler` is not null, and `upcall` is
the address of `_pgfault_upcall`. -/
def setPgfaultHandler (installed : Bool) (upcall : BitVec 32) (s : Kernel) (cur : EnvIx) :
    Option Kernel :=
  if installed then some s
  else do
    let s ← orPanic (· < 0) (sysPageAlloc s cur (s.envs cur).envId uxstack (pteP ||| pteW ||| pteU))
    some (sysEnvSetPgfaultUpcall s cur (s.envs cur).envId upcall).1

section

variable (cur : EnvIx) (envid : BitVec 32)

/-- The permissions that `duppage` gives to the child. -/
def dupPerm (pte : BitVec 32) : BitVec 32 :=
  let perm := pte &&& pteSyscall &&& ~~~pteW
  if pte &&& pteShare ≠ 0#32 then perm ||| pteW
  else if pte &&& pteW ≠ 0#32 then perm ||| pteCow
  else perm

def duppage (s : Kernel) (pn : Nat) : Option Kernel := do
  let d ← (s.envs cur).envPgdir
  let address := BitVec.ofNat 32 (pn * 4096)
  let perm := dupPerm (uvptEntry s d pn)
  let s ← orPanic (· < 0) (sysPageMap s cur 0#32 address envid address perm)
  if perm &&& pteCow ≠ 0#32 then
    orPanic (· < 0) (sysPageMap s cur 0#32 address 0#32 address perm)
  else some s

/-- The body of the inner loop of `fork`. -/
def forkPage (d : Nat) (s : Kernel) (t : Nat) : Option Kernel :=
  if pgaddr d t = uxstack then
    orPanic (· ≠ 0) (sysPageAlloc s cur envid (pgaddr d t) (pteP ||| pteU ||| pteW))
  else do
    let pgdir ← (s.envs cur).envPgdir
    if uvptEntry s pgdir (pgnum (pgaddr d t)) &&& pteP = 0#32 then some s
    else duppage cur envid s (pgnum (pgaddr d t))

/-- The part of the outer loop of `fork` for a directory index. -/
def forkTable (s : Kernel) (d : Nat) : Option Kernel := do
  let pgdir ← (s.envs cur).envPgdir
  if uvpdEntry s pgdir d &&& pteP = 0#32 then some s
  else (List.range nptentries).foldlM (forkPage cur envid d) s

/-- The outer loop of `fork` over the page numbers in the list, with `pdx_ant` and
`es_primer_pdx`. -/
def forkLoop : List Nat → Nat → Bool → Kernel → Option Kernel
  | [], _, _, s => some s
  | pn :: l, pdxAnt, first, s =>
      if pdx (BitVec.ofNat 32 (4096 * pn)) = pdxAnt ∧ first = false then forkLoop l pdxAnt first s
      else do
        let s ← forkTable cur envid s (pdx (BitVec.ofNat 32 (4096 * pn)))
        forkLoop l (pdx (BitVec.ofNat 32 (4096 * pn))) false s

end

/-- The pages below `UTOP`. -/
def userPages : Nat := utop.toNat / 4096

/-- The end of `fork`: the handler of the child, and its status. -/
def forkEnd (s : Kernel) (cur : EnvIx) (envid : BitVec 32) : Option (Kernel × BitVec 32) := do
  let s ← orPanic (· ≠ 0)
    (some (sysEnvSetPgfaultUpcall s cur envid (s.envs cur).envPgfaultUpcall))
  let s ← orPanic (· ≠ 0) (some (sysEnvSetStatus s cur envid 2#32))
  some (s, envid)

/-- `fork`, as the parent runs it: the id of the child. -/
def fork (installed : Bool) (upcall : BitVec 32) (s : Kernel) (cur : EnvIx) :
    Option (Kernel × BitVec 32) := do
  let s ← setPgfaultHandler installed upcall s cur
  match ← sysExofork s cur with
  | (s, .ret r) =>
      if r < 0 then none
      else do
        let envid := BitVec.ofInt 32 r
        let s ← forkLoop cur envid (List.range userPages) 0 true s
        forkEnd s cur envid
  | _ => none

end Jos.User
