import Jos.Kern.Env

/-!
# User memory

`user_mem_check` and `user_mem_assert` of `kern/pmap.c`, the two-level translation that
the processor makes of a linear address, and accesses of the kernel through a user pointer.
The kernel runs with `CR0_WP` set, so its own writes need the write bit as well; an access
that the translation does not allow is a page fault in kernel mode, which panics.
-/

namespace Jos.Kern

open Jos.Lib Kernel

/-- `user_mem_check_addr`: the first erroneous address, for the page at `vaStart`. -/
def faultAddr (va vaStart : BitVec 32) : BitVec 32 := if vaStart < va then va else vaStart

/-- The loop of `user_mem_check`, for at most `fuel` pages. -/
def userMemLoop (s : Kernel) (pgdir : Nat) (va perm vaEnd : BitVec 32) :
    Nat → BitVec 32 → Option (Except (BitVec 32) Unit)
  | 0, _ => none
  | fuel + 1, vaStart =>
      if vaStart < vaEnd then do
        match ← pgdirWalk s pgdir vaStart false with
        | (_, none) => some (.error (faultAddr va vaStart))
        | (s, some pte) =>
            if s.mem.read32 pte &&& perm ≠ perm then some (.error (faultAddr va vaStart))
            else userMemLoop s pgdir va perm vaEnd fuel (vaStart + 4096#32)
      else some (.ok ())

/-- `user_mem_check`: success, or the first erroneous address. The ends of the range are
rounded to pages, of which there are at most `2 ^ 20`. -/
def userMemCheck (s : Kernel) (e : EnvIx) (va len perm : BitVec 32) :
    Option (Except (BitVec 32) Unit) :=
  if ulim < va then some (.error va)
  else do
    let pgdir ← (s.envs e).envPgdir
    userMemLoop s pgdir va (perm ||| pteP) (roundUp (va + len)) (2 ^ 20 + 1) (roundDown va)

/-- `user_mem_assert`; the flag is that of `env_destroy`. The function returns after
destroying an environment that is not the current one. -/
def userMemAssert (s : Kernel) (curenv e : EnvIx) (va len perm : BitVec 32) :
    Option (Kernel × Bool) := do
  match ← userMemCheck s e va len (perm ||| pteU) with
  | .ok () => some (s, false)
  | .error _ => envDestroy s curenv e

/-! ## The translation of the processor -/

section

variable (s : Kernel) (pgdir : Nat) (va : BitVec 32)

/-- The directory entry for a linear address. -/
def mmuPde : BitVec 32 := s.entry pgdir (pdx va)

/-- The page table entry for a linear address, when the directory entry is present. -/
def mmuPte : BitVec 32 := s.entry (pteFrame (mmuPde s pgdir va)) (ptx va)

/-- The physical address of a linear address, when both entries are present. -/
def physAddr : Nat := 4096 * pteFrame (mmuPte s pgdir va) + pgoff va

/-- The bits that the processor combines from both levels. -/
def accessBits : BitVec 32 := pteP ||| pteW ||| pteU

/-- The translation grants `perm` at `va`: present, write and user bits in both entries,
the other bits in the page table entry. -/
def x86Grants (perm : BitVec 32) : Prop :=
  mmuPde s pgdir va &&& (perm &&& accessBits) = perm &&& accessBits ∧
    mmuPte s pgdir va &&& perm = perm

instance (perm : BitVec 32) : Decidable (x86Grants s pgdir va perm) :=
  inferInstanceAs (Decidable (_ ∧ _))

/-! ## Accesses of the kernel -/

def loadByte : Option (BitVec 8) :=
  if x86Grants s pgdir va pteP then some (s.mem (physAddr s pgdir va)) else none

def load16 : Option (BitVec 16) := do
  let b0 ← loadByte s pgdir va
  let b1 ← loadByte s pgdir (va + 1#32)
  some (b1 ++ b0)

def load32 : Option (BitVec 32) := do
  let h0 ← load16 s pgdir va
  let h1 ← load16 s pgdir (va + 2#32)
  some (h1 ++ h0)

def storeByte (b : BitVec 8) : Option Kernel :=
  if x86Grants s pgdir va (pteP ||| pteW) then
    some { s with mem := Function.update s.mem (physAddr s pgdir va) b }
  else none

def store16 (v : BitVec 16) : Option Kernel := do
  let s ← storeByte s pgdir va (v.extractLsb' 0 8)
  storeByte s pgdir (va + 1#32) (v.extractLsb' 8 8)

def store32 (v : BitVec 32) : Option Kernel := do
  let s ← store16 s pgdir va (v.extractLsb' 0 16)
  store16 s pgdir (va + 2#32) (v.extractLsb' 16 16)

/-- `*tf`, for a `struct Trapframe` at `va`. -/
def loadTrapframe : Option Trapframe := do
  let regEdi ← load32 s pgdir va
  let regEsi ← load32 s pgdir (va + 4#32)
  let regEbp ← load32 s pgdir (va + 8#32)
  let regOesp ← load32 s pgdir (va + 12#32)
  let regEbx ← load32 s pgdir (va + 16#32)
  let regEdx ← load32 s pgdir (va + 20#32)
  let regEcx ← load32 s pgdir (va + 24#32)
  let regEax ← load32 s pgdir (va + 28#32)
  let tfEs ← load16 s pgdir (va + 32#32)
  let tfPadding1 ← load16 s pgdir (va + 34#32)
  let tfDs ← load16 s pgdir (va + 36#32)
  let tfPadding2 ← load16 s pgdir (va + 38#32)
  let tfTrapno ← load32 s pgdir (va + 40#32)
  let tfErr ← load32 s pgdir (va + 44#32)
  let tfEip ← load32 s pgdir (va + 48#32)
  let tfCs ← load16 s pgdir (va + 52#32)
  let tfPadding3 ← load16 s pgdir (va + 54#32)
  let tfEflags ← load32 s pgdir (va + 56#32)
  let tfEsp ← load32 s pgdir (va + 60#32)
  let tfSs ← load16 s pgdir (va + 64#32)
  let tfPadding4 ← load16 s pgdir (va + 66#32)
  some {
    tfRegs := ⟨regEdi, regEsi, regEbp, regOesp, regEbx, regEdx, regEcx, regEax⟩
    tfEs, tfPadding1, tfDs, tfPadding2, tfTrapno, tfErr, tfEip, tfCs, tfPadding3, tfEflags, tfEsp
    tfSs, tfPadding4 }

end

/-- `sizeof(struct Trapframe)` -/
def trapframeSize : BitVec 32 := 68#32

end Jos.Kern
