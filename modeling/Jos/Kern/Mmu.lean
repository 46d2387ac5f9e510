import Jos.Lib.ByteMem
import Mathlib.Algebra.Group.Nat.Defs

/-!
# The x86 memory management unit

Constants and macros of `inc/mmu.h`, `inc/memlayout.h` and `inc/types.h`: the parts of a
linear address, the flags of page table and page directory entries, and the layout of the
virtual address space. Addresses and entries are 32-bit words; indices are natural
numbers. The lemmas translate the bit operations on entries to arithmetic on page numbers
and flags.
-/

namespace Jos.Kern

open Jos.Lib

/-! ## Linear addresses -/

def pgsize : Nat := 4096

def nptentries : Nat := 1024

/-- `PGNUM`: the page number field of an address. -/
def pgnum (la : BitVec 32) : Nat := (la >>> 12).toNat

/-- `PDX`: the page directory index of an address. -/
def pdx (la : BitVec 32) : Nat := ((la >>> 22) &&& 0x3FF#32).toNat

/-- `PTX`: the page table index of an address. -/
def ptx (la : BitVec 32) : Nat := ((la >>> 12) &&& 0x3FF#32).toNat

/-- `PGOFF`: the offset of an address in its page. -/
def pgoff (la : BitVec 32) : Nat := (la &&& 0xFFF#32).toNat

/-- `PGADDR(d, t, 0)`: the address of a page from its two indices. -/
def pgaddr (d t : Nat) : BitVec 32 := BitVec.ofNat 32 (4194304 * d + 4096 * t)

/-- `ROUNDDOWN(a, PGSIZE)` on 32-bit values. -/
def roundDown (a : BitVec 32) : BitVec 32 := a - a % 4096#32

/-- `ROUNDUP(a, PGSIZE)` on 32-bit values; it wraps around near the top. -/
def roundUp (a : BitVec 32) : BitVec 32 := roundDown (a + 4096#32 - 1#32)

/-! ## Page table entries -/

def pteP : BitVec 32 := 0x001#32
def pteW : BitVec 32 := 0x002#32
def pteU : BitVec 32 := 0x004#32
def ptePwt : BitVec 32 := 0x008#32
def ptePcd : BitVec 32 := 0x010#32

/-- The flags that system calls may pass (`PTE_AVAIL | PTE_P | PTE_W | PTE_U`). -/
def pteSyscall : BitVec 32 := 0xE07#32

/-- `PTE_ADDR`: the physical address in an entry. -/
def pteAddr (pte : BitVec 32) : BitVec 32 := pte &&& ~~~0xFFF#32

/-- Does the entry have the present bit? -/
def isPresent (pte : BitVec 32) : Bool := pte &&& pteP != 0#32

/-- `PGNUM(PTE_ADDR(pte))`: the frame an entry refers to. -/
def pteFrame (pte : BitVec 32) : Nat := pgnum (pteAddr pte)

/-- `page2pa`: the physical address of frame `pp`. -/
def page2pa (pp : Nat) : BitVec 32 := BitVec.ofNat 32 pp <<< 12

/-! ## Memory layout -/

def kernbase : BitVec 32 := 0xF0000000#32
def kstacktop : BitVec 32 := kernbase
def mmiolim : BitVec 32 := 0xEFC00000#32
def mmiobase : BitVec 32 := 0xEF800000#32
def ulim : BitVec 32 := 0xEF800000#32
def uvpt : BitVec 32 := 0xEF400000#32
def upages : BitVec 32 := 0xEF000000#32
def uenvs : BitVec 32 := 0xEEC00000#32
def utop : BitVec 32 := 0xEEC00000#32
def uxstacktop : BitVec 32 := 0xEEC00000#32
def ustacktop : BitVec 32 := 0xEEBFE000#32

/-- `PDX(UTOP)`: the number of page directory entries below `UTOP`. -/
def pdxUtop : Nat := 955

/-- `PDX(UVPT)`: the directory entry through which a directory maps itself. -/
def pdxUvpt : Nat := 957

example : pdx utop = pdxUtop ∧ pdx uvpt = pdxUvpt := by decide

/-! ## Indices as arithmetic -/

theorem toNat_and_low (a : BitVec 32) {m : Nat} (hmask : 2 ^ m - 1 < 2 ^ 32) :
    (a &&& BitVec.ofNat 32 (2 ^ m - 1)).toNat = a.toNat % 2 ^ m := by
  rw [BitVec.toNat_and, BitVec.toNat_ofNat, Nat.mod_eq_of_lt hmask, Nat.and_two_pow_sub_one_eq_mod]

theorem pgnum_eq (la : BitVec 32) : pgnum la = la.toNat / 4096 := by
  simp [pgnum, Nat.shiftRight_eq_div_pow]

theorem pdx_eq (la : BitVec 32) : pdx la = la.toNat / 2 ^ 22 := by
  have h := toNat_and_low (la >>> 22) (m := 10) (by omega)
  have hlt := la.isLt
  rw [pdx, show (0x3FF#32) = BitVec.ofNat 32 (2 ^ 10 - 1) from rfl, h, BitVec.toNat_ushiftRight,
    Nat.shiftRight_eq_div_pow]
  exact Nat.mod_eq_of_lt (by omega)

theorem ptx_eq (la : BitVec 32) : ptx la = la.toNat / 4096 % 1024 := by
  have h := toNat_and_low (la >>> 12) (m := 10) (by omega)
  rw [BitVec.toNat_ushiftRight, Nat.shiftRight_eq_div_pow] at h
  exact h

theorem pgoff_eq (la : BitVec 32) : pgoff la = la.toNat % 4096 :=
  toNat_and_low la (m := 12) (by omega)

theorem ptx_lt (la : BitVec 32) : ptx la < 1024 := by
  rw [ptx_eq]
  exact Nat.mod_lt _ (by omega)

theorem pdx_lt (la : BitVec 32) : pdx la < 1024 := by
  rw [pdx_eq]
  have := la.isLt
  omega

theorem pdx_lt_of_lt_utop {la : BitVec 32} (h : la < utop) : pdx la < pdxUtop := by
  rw [pdx_eq]
  have : la.toNat < 0xEEC00000 := h
  simp only [pdxUtop]
  omega

theorem pgaddr_toNat {d t : Nat} (hd : d < 1024) (ht : t < 1024) :
    (pgaddr d t).toNat = 4194304 * d + 4096 * t := by
  rw [pgaddr, BitVec.toNat_ofNat]
  exact Nat.mod_eq_of_lt (by omega)

theorem pdx_pgaddr {d t : Nat} (hd : d < 1024) (ht : t < 1024) : pdx (pgaddr d t) = d := by
  rw [pdx_eq, pgaddr_toNat hd ht]
  omega

theorem ptx_pgaddr {d t : Nat} (hd : d < 1024) (ht : t < 1024) : ptx (pgaddr d t) = t := by
  rw [ptx_eq, pgaddr_toNat hd ht]
  omega

/-- The two indices of a page-aligned address determine it. -/
theorem eq_pgaddr {la : BitVec 32} (h : pgoff la = 0) : la = pgaddr (pdx la) (ptx la) := by
  rw [pgoff_eq] at h
  have hd := pdx_lt la
  have ht := ptx_lt la
  apply BitVec.eq_of_toNat_eq
  rw [pgaddr_toNat hd ht, pdx_eq, ptx_eq]
  omega

theorem roundDown_toNat (a : BitVec 32) : (roundDown a).toNat = a.toNat / 4096 * 4096 := by
  have h1 : (a % 4096#32).toNat = a.toNat % 4096 := by simp
  have hle : a % 4096#32 ≤ a := by
    rw [BitVec.le_def, h1]
    exact Nat.mod_le _ _
  rw [roundDown, BitVec.toNat_sub_of_le hle, h1]
  omega

theorem roundUp_toNat (a : BitVec 32) :
    (roundUp a).toNat = (a.toNat + 4095) % 2 ^ 32 / 4096 * 4096 := by
  have hadd : a + 4096#32 - 1#32 = a + 4095#32 := by bv_omega
  rw [roundUp, roundDown_toNat, hadd, BitVec.toNat_add]
  rfl

/-! ## Entries as frame and flags -/

theorem pteAddr_toNat (w : BitVec 32) : (pteAddr w).toNat = w.toNat / 4096 * 4096 := by
  have hsplit : w &&& ~~~0xFFF#32 = w - (w &&& 0xFFF#32) := by
    have hdisj : (w &&& ~~~0xFFF#32) &&& (w &&& 0xFFF#32) = 0#32 := by
      ext i hi
      simp only [BitVec.getElem_and, BitVec.getElem_not, BitVec.getElem_zero]
      cases (0xFFF#32)[i] <;> simp
    have hor : (w &&& ~~~0xFFF#32) ||| (w &&& 0xFFF#32) = w := by
      ext i hi
      simp only [BitVec.getElem_or, BitVec.getElem_and, BitVec.getElem_not]
      cases (0xFFF#32)[i] <;> simp
    have hadd := BitVec.add_eq_or_of_and_eq_zero _ _ hdisj
    rw [hor] at hadd
    rw [BitVec.eq_sub_iff_add_eq, hadd]
  have hoff : (w &&& 0xFFF#32).toNat = w.toNat % 4096 := pgoff_eq w
  have hle : w &&& 0xFFF#32 ≤ w := by
    rw [BitVec.le_def, hoff]
    exact Nat.mod_le _ _
  rw [pteAddr, hsplit, BitVec.toNat_sub_of_le hle, hoff]
  omega

theorem pteFrame_eq (w : BitVec 32) : pteFrame w = w.toNat / 4096 := by
  rw [pteFrame, pgnum_eq, pteAddr_toNat]
  omega

theorem page2pa_toNat {pp : Nat} (h : pp < 2 ^ 20) : (page2pa pp).toNat = 4096 * pp := by
  rw [page2pa, BitVec.toNat_shiftLeft, BitVec.toNat_ofNat, Nat.shiftLeft_eq]
  omega

/-- An entry is its frame number times the page size, plus its flags. -/
theorem entry_toNat {pp : Nat} {flags : BitVec 32} (h : pp < 2 ^ 20) (hf : flags.toNat < 4096) :
    (page2pa pp ||| flags).toNat = 4096 * pp + flags.toNat := by
  rw [BitVec.toNat_or, page2pa_toNat h, show 4096 * pp = pp <<< 12 by rw [Nat.shiftLeft_eq, Nat.mul_comm]]
  exact (Nat.shiftLeft_add_eq_or_of_lt (by omega) pp).symm

theorem pteFrame_entry {pp : Nat} {flags : BitVec 32} (h : pp < 2 ^ 20)
    (hf : flags.toNat < 4096) : pteFrame (page2pa pp ||| flags) = pp := by
  rw [pteFrame_eq, entry_toNat h hf]
  omega

/-- Testing flags of an entry does not see its frame. -/
theorem entry_and {pp : Nat} {flags m : BitVec 32} (hm : m.toNat < 4096) :
    (page2pa pp ||| flags) &&& m = flags &&& m := by
  ext i hi
  simp only [BitVec.getElem_and, BitVec.getElem_or]
  by_cases h12 : i < 12
  · simp [page2pa, h12]
  · have : m[i] = false := by
      rw [← BitVec.getLsbD_eq_getElem hi, BitVec.getLsbD]
      have hpow : 2 ^ 12 ≤ 2 ^ i := Nat.pow_le_pow_right (by omega) (by omega)
      exact Nat.testBit_lt_two_pow (Nat.lt_of_lt_of_le hm hpow)
    simp [this]

theorem or_toNat_lt {a b : BitVec 32} (ha : a.toNat < 4096) (hb : b.toNat < 4096) :
    (a ||| b).toNat < 4096 := by
  rw [BitVec.toNat_or]
  exact Nat.or_lt_two_pow (n := 12) ha hb

/-- The flags a system call accepts fit below the frame number. -/
theorem toNat_lt_of_syscall {perm : BitVec 32} (h : perm &&& ~~~pteSyscall = 0#32) :
    perm.toNat < 4096 := by
  have hsub : perm = perm &&& pteSyscall := by
    ext i hi
    have hbit : (perm &&& ~~~pteSyscall)[i] = false := by simp [h]
    simp only [BitVec.getElem_and, BitVec.getElem_not] at hbit ⊢
    cases hp : perm[i] <;> simp_all
  rw [hsub, BitVec.toNat_and]
  exact Nat.lt_of_le_of_lt Nat.and_le_right (by decide)

theorem isPresent_or_pteP (w : BitVec 32) : isPresent (w ||| pteP) = true := by
  have h : (w ||| pteP) &&& pteP = pteP := by
    ext i hi
    simp only [BitVec.getElem_and, BitVec.getElem_or]
    cases pteP[i] <;> simp
  rw [isPresent, h]
  rfl

@[simp] theorem isPresent_zero : isPresent 0#32 = false := rfl

end Jos.Kern
