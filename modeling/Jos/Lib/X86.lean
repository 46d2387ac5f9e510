import Jos.Lib.ByteMem
import Mathlib.Logic.Function.Basic

/-!
# A few x86 instructions

The instructions of 32-bit user code that work on the stack. The instruction pointer is followed at
calls and returns only. What an arithmetic instruction leaves in the status flags is a parameter;
neither it nor `popfl` changes the flags that belong to the system.
-/

namespace Jos.Lib.X86

inductive Reg
  | edi | esi | ebp | esp | ebx | edx | ecx | eax
  deriving DecidableEq, Repr

/-- The registers and the memory. -/
structure Core where
  regs : Reg → BitVec 32
  eip : BitVec 32
  eflags : BitVec 32
  mem : Mem

inductive Instr
  /-- `pushl %r` -/
  | pushl (r : Reg)
  /-- `popl %r` -/
  | popl (r : Reg)
  | popal
  | popfl
  /-- `movl off(%b), %r` -/
  | load (off : BitVec 32) (b r : Reg)
  /-- `movl a, %r` -/
  | loadAbs (a : BitVec 32) (r : Reg)
  /-- `movl %r, off(%b)` -/
  | store (r : Reg) (off : BitVec 32) (b : Reg)
  /-- `addl $n, %r` -/
  | addl (n : BitVec 32) (r : Reg)
  /-- `subl $n, %r` -/
  | subl (n : BitVec 32) (r : Reg)
  /-- `call *%r`; the next instruction is at `next`. -/
  | call (r : Reg) (next : BitVec 32)
  | ret

/-- The flags that user code may change: all but IF, IOPL, RF, VM and the reserved bits. -/
def userFlags : BitVec 32 := 0x244DD5#32

/-- The flags with those of user code taken from `v`. -/
def mixFlags (old v : BitVec 32) : BitVec 32 := old &&& ~~~userFlags ||| v &&& userFlags

namespace Core

def set (c : Core) (r : Reg) (v : BitVec 32) : Core := { c with regs := Function.update c.regs r v }

/-- The word `off` bytes above the top of the stack. -/
def word (c : Core) (off : BitVec 32) : BitVec 32 := c.mem.read32 (c.regs .esp + off).toNat

def store (c : Core) (a v : BitVec 32) : Core := { c with mem := c.mem.write32 a.toNat v }

def push (c : Core) (v : BitVec 32) : Core :=
  (c.set .esp (c.regs .esp - 4#32)).store (c.regs .esp - 4#32) v

/-- The general registers from the eight words on the stack; the word for `esp` is skipped. -/
def popal (c : Core) : Core :=
  { c with
    regs := fun
      | .edi => c.word 0#32
      | .esi => c.word 4#32
      | .ebp => c.word 8#32
      | .esp => c.regs .esp + 32#32
      | .ebx => c.word 16#32
      | .edx => c.word 20#32
      | .ecx => c.word 24#32
      | .eax => c.word 28#32 }

end Core

section

variable (status : BitVec 32 → BitVec 32)

/-- Execute an instruction; `status` gives the flags for the result of an addition or
subtraction. -/
def exec (c : Core) : Instr → Core
  | .pushl r => c.push (c.regs r)
  | .popl r => (c.set .esp (c.regs .esp + 4#32)).set r (c.word 0#32)
  | .popal => c.popal
  | .popfl =>
      { c.set .esp (c.regs .esp + 4#32) with eflags := mixFlags c.eflags (c.word 0#32) }
  | .load off b r => c.set r (c.mem.read32 (c.regs b + off).toNat)
  | .loadAbs a r => c.set r (c.mem.read32 a.toNat)
  | .store r off b => c.store (c.regs b + off) (c.regs r)
  | .addl n r => { c.set r (c.regs r + n) with eflags := mixFlags c.eflags (status (c.regs r + n)) }
  | .subl n r => { c.set r (c.regs r - n) with eflags := mixFlags c.eflags (status (c.regs r - n)) }
  | .call r next => { c.push next with eip := c.regs r }
  | .ret => { c.set .esp (c.regs .esp + 4#32) with eip := c.word 0#32 }

def execBlock (l : List Instr) (c : Core) : Core := l.foldl (exec status) c

end

theorem mixFlags_mixFlags (old v w : BitVec 32) : mixFlags (mixFlags old v) w = mixFlags old w := by
  simp only [mixFlags]
  ext i hi
  simp only [BitVec.getElem_or, BitVec.getElem_and, BitVec.getElem_not]
  cases userFlags[i] <;> simp

/-- The system flags are kept. -/
theorem mixFlags_eq {old v : BitVec 32} (h : old &&& ~~~userFlags = v &&& ~~~userFlags) :
    mixFlags old v = v := by
  rw [mixFlags, h]
  ext i hi
  simp only [BitVec.getElem_or, BitVec.getElem_and, BitVec.getElem_not]
  cases userFlags[i] <;> simp

theorem mixFlags_system (old v : BitVec 32) : mixFlags old v &&& ~~~userFlags = old &&& ~~~userFlags := by
  simp only [mixFlags]
  ext i hi
  simp only [BitVec.getElem_or, BitVec.getElem_and, BitVec.getElem_not]
  cases userFlags[i] <;> simp

end Jos.Lib.X86
