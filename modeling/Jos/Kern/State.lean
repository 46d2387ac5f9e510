import Jos.Kern.Mmu
import Mathlib.Logic.Function.Basic

/-!
# The state of the kernel

The records of `inc/env.h`, `inc/trap.h` and `inc/memlayout.h` and the globals of
`kern/pmap.c` and `kern/env.c`. Physical memory is a byte memory indexed by physical
address; the kernel reaches it through `KADDR`, so a pointer to a page table entry is a
physical address. The arrays `pages` and `envs` are fields of the state.

An operation of the kernel is a function on states that returns `none` when the kernel
panics.
-/

namespace Jos.Kern

open Jos.Lib

/-- The registers pushed by `pusha`. -/
structure PushRegs where
  regEdi : BitVec 32
  regEsi : BitVec 32
  regEbp : BitVec 32
  regOesp : BitVec 32
  regEbx : BitVec 32
  regEdx : BitVec 32
  regEcx : BitVec 32
  regEax : BitVec 32
deriving DecidableEq, Repr

structure Trapframe where
  tfRegs : PushRegs
  tfEs : BitVec 16
  tfPadding1 : BitVec 16
  tfDs : BitVec 16
  tfPadding2 : BitVec 16
  tfTrapno : BitVec 32
  tfErr : BitVec 32
  tfEip : BitVec 32
  tfCs : BitVec 16
  tfPadding3 : BitVec 16
  tfEflags : BitVec 32
  tfEsp : BitVec 32
  tfSs : BitVec 16
  tfPadding4 : BitVec 16
deriving DecidableEq, Repr

/-- `memset(&tf, 0, sizeof tf)`. -/
def Trapframe.zero : Trapframe :=
  ⟨⟨0, 0, 0, 0, 0, 0, 0, 0⟩, 0, 0, 0, 0, 0, 0, 0, 0, 0, 0, 0, 0, 0⟩

/-- The values of `env_status`. -/
inductive EnvStatus
  | free
  | dying
  | runnable
  | running
  | notRunnable
deriving DecidableEq, Repr

inductive EnvType
  | user
  | fs
deriving DecidableEq, Repr

def nenv : Nat := 1024

/-- An index into `envs`; it stands for a `struct Env *`. -/
abbrev EnvIx := Fin nenv

/-- The first two slots, which the examples of runs use. -/
def env0 : EnvIx := ⟨0, by decide⟩
def env1 : EnvIx := ⟨1, by decide⟩

structure Env where
  envTf : Trapframe
  envLink : Option EnvIx
  envId : BitVec 32
  envParentId : BitVec 32
  envType : EnvType
  envStatus : EnvStatus
  envRuns : BitVec 32
  envCpunum : Nat
  /-- The frame of the page directory; `none` is the null pointer. -/
  envPgdir : Option Nat
  envPgfaultUpcall : BitVec 32
  envIpcRecving : Bool
  envIpcDstva : BitVec 32
  envIpcValue : BitVec 32
  envIpcFrom : BitVec 32
  envIpcPerm : BitVec 32

structure Kernel where
  npages : Nat
  ppRef : Nat → BitVec 16
  ppLink : Nat → Option Nat
  pageFreeList : Option Nat
  /-- Physical memory. -/
  mem : Mem
  /-- The frame of `kern_pgdir`. -/
  kernPgdir : Nat
  envs : EnvIx → Env
  envFreeList : Option EnvIx

/-! ## Error codes -/

def eBadEnv : Int := 2
def eInval : Int := 3
def eNoMem : Int := 4
def eNoFreeEnv : Int := 5
def eFault : Int := 6
def eIpcNotRecv : Int := 7

/-! ## Access to the records -/

/-- The physical address of entry `i` of the table in frame `f`. -/
def entryAddr (f i : Nat) : Nat := 4096 * f + 4 * i

namespace Kernel

/-- Entry `i` of the page table or page directory in frame `f`. -/
def entry (s : Kernel) (f i : Nat) : BitVec 32 := s.mem.read32 (entryAddr f i)

/-- Change one environment. -/
def setEnv (s : Kernel) (e : EnvIx) (f : Env → Env) : Kernel :=
  { s with envs := Function.update s.envs e (f (s.envs e)) }

/-- `KADDR`: reach a physical address; panics beyond the end of memory. -/
def kaddr (s : Kernel) (pa : BitVec 32) : Option Nat :=
  if pgnum pa < s.npages then some pa.toNat else none

/-- `pa2page`: the frame of a physical address; panics beyond the end of memory. -/
def pa2page (s : Kernel) (pa : BitVec 32) : Option Nat :=
  if pgnum pa < s.npages then some (pgnum pa) else none

/-- `*pte = v` -/
def writePte (s : Kernel) (pte : Nat) (v : BitVec 32) : Kernel :=
  { s with mem := s.mem.write32 pte v }

/-- `pp->pp_ref++` -/
def incRef (s : Kernel) (pp : Nat) : Kernel :=
  { s with ppRef := Function.update s.ppRef pp (s.ppRef pp + 1#16) }

@[simp] theorem setEnv_self (s : Kernel) (e : EnvIx) (f : Env → Env) :
    (s.setEnv e f).envs e = f (s.envs e) := Function.update_self ..

theorem setEnv_of_ne (s : Kernel) {e e' : EnvIx} (f : Env → Env) (h : e' ≠ e) :
    (s.setEnv e f).envs e' = s.envs e' := Function.update_of_ne h ..

end Kernel

end Jos.Kern
