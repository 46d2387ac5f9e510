import Jos.Lib.ByteMem
import Mathlib.Algebra.Group.Nat.Defs
import Mathlib.Logic.Function.Basic

/-!
# The string instructions `movsb` and `movsl`

A string instruction copies one unit from `esi` to `edi` and moves both registers by its size, upwards if the
direction flag is clear and downwards if it is set; `rep` repeats it `ecx` times. Each unit is read as a whole
before it is written. Upwards, this copies the source as it was before, unless the target begins within the
source; downwards, unless the source begins within the target.
-/

namespace Jos.Lib

namespace Mem

variable {m : Mem} {dst src n k : Nat}

/-- A byte read and written. -/
theorem update_eq_move (m : Mem) (dst src : Nat) : Function.update m dst (m src) = m.move dst src 1 := by
  ext x : 1
  simp only [move]
  by_cases hx : x = dst
  · rw [if_pos (by omega), hx, Function.update_self, Nat.sub_self, Nat.add_zero]
  · rw [if_neg (by omega), Function.update_of_ne hx]

/-- A word read and written. -/
theorem write32_eq_move (m : Mem) (dst src : Nat) : m.write32 dst (m.read32 src) = m.move dst src 4 := by
  ext x : 1
  by_cases hx : dst ≤ x ∧ x < dst + 4
  · obtain ⟨c, rfl⟩ := Nat.exists_eq_add_of_le hx.1
    have hc : c < 4 := by omega
    rw [byte_eq_extract (m.write32 dst (m.read32 src)) dst hc, read32_write32_self, ← byte_eq_extract m src hc,
      move_of_mem m (by omega) (by omega), Nat.add_sub_cancel_left]
  · rw [write32_of_disjoint m _ (by omega), move_of_disjoint m (by omega)]

theorem move_zero (m : Mem) (dst src : Nat) : m.move dst src 0 = m := by
  ext x : 1
  exact move_of_disjoint m (by omega)

/-- Going on upwards. -/
theorem move_up (m : Mem) (h : dst ≤ src ∨ src + (n + k) ≤ dst) :
    (m.move dst src n).move (dst + n) (src + n) k = m.move dst src (n + k) := by
  ext x : 1
  by_cases hhigh : dst + n ≤ x ∧ x < dst + n + k
  · rw [move_of_mem _ hhigh.1 hhigh.2, move_of_disjoint m (by omega), move_of_mem m (by omega) (by omega)]
    congr 1
    omega
  · rw [move_of_disjoint _ (by omega)]
    by_cases hlow : dst ≤ x ∧ x < dst + n
    · rw [move_of_mem m hlow.1 hlow.2, move_of_mem m hlow.1 (by omega)]
    · rw [move_of_disjoint m (by omega), move_of_disjoint m (by omega)]

/-- Going on downwards. -/
theorem move_down (m : Mem) (h : src ≤ dst) :
    (m.move (dst + k) (src + k) n).move dst src k = m.move dst src (k + n) := by
  ext x : 1
  by_cases hlow : dst ≤ x ∧ x < dst + k
  · rw [move_of_mem _ hlow.1 hlow.2, move_of_disjoint m (by omega), move_of_mem m hlow.1 (by omega)]
  · rw [move_of_disjoint _ (by omega)]
    by_cases hhigh : dst + k ≤ x ∧ x < dst + k + n
    · rw [move_of_mem m hhigh.1 hhigh.2, move_of_mem m (by omega) (by omega)]
      congr 1
      omega
    · rw [move_of_disjoint m (by omega), move_of_disjoint m (by omega)]

end Mem

namespace X86

/-- The unit of `movsb` or `movsl`. -/
inductive StrUnit
  | byte
  | long
  deriving DecidableEq

def StrUnit.size : StrUnit → Nat
  | .byte => 1
  | .long => 4

/-- The copy that one string instruction makes. -/
def movs : StrUnit → Mem → BitVec 32 → BitVec 32 → Mem
  | .byte, m, edi, esi => Function.update m edi.toNat (m esi.toNat)
  | .long, m, edi, esi => m.write32 edi.toNat (m.read32 esi.toNat)

/-- A pointer register after one string instruction. -/
def stepPtr (u : StrUnit) (df : Bool) (p : BitVec 32) : BitVec 32 :=
  if df then p - BitVec.ofNat 32 u.size else p + BitVec.ofNat 32 u.size

/-- `rep movs`, with the direction flag `df` and the count `ecx`. -/
def repMovs (u : StrUnit) (df : Bool) : Nat → Mem → BitVec 32 → BitVec 32 → Mem
  | 0, m, _, _ => m
  | ecx + 1, m, edi, esi => repMovs u df ecx (movs u m edi esi) (stepPtr u df edi) (stepPtr u df esi)

variable {u : StrUnit} {m : Mem} {edi esi : BitVec 32} {dst src k : Nat}

theorem movs_eq (u : StrUnit) (m : Mem) (edi esi : BitVec 32) :
    movs u m edi esi = m.move edi.toNat esi.toNat u.size := by
  cases u with
  | byte => exact Mem.update_eq_move m _ _
  | long => exact Mem.write32_eq_move m _ _

theorem stepPtr_up {p : BitVec 32} (h : p.toNat + u.size < 2 ^ 32) :
    (stepPtr u false p).toNat = p.toNat + u.size := by
  show (p + BitVec.ofNat 32 u.size).toNat = _
  rw [BitVec.toNat_add, BitVec.toNat_ofNat]
  omega

/-- Upwards. The registers may end at the top of the address space. -/
theorem repMovs_up (hdst : edi.toNat + k * u.size ≤ 2 ^ 32) (hsrc : esi.toNat + k * u.size ≤ 2 ^ 32)
    (h : edi.toNat ≤ esi.toNat ∨ esi.toNat + k * u.size ≤ edi.toNat) :
    repMovs u false k m edi esi = m.move edi.toNat esi.toNat (k * u.size) := by
  induction k generalizing m edi esi with
  | zero =>
      rw [Nat.zero_mul, Mem.move_zero]
      rfl
  | succ k ih =>
      have hsplit : (k + 1) * u.size = u.size + k * u.size := by rw [Nat.succ_mul, Nat.add_comm]
      rw [hsplit] at hdst hsrc h ⊢
      unfold repMovs
      rw [movs_eq]
      cases k with
      | zero =>
          rw [Nat.zero_mul, Nat.add_zero]
          rfl
      | succ k =>
          have hpos : 0 < u.size := by
            cases u
            · exact Nat.one_pos
            · exact Nat.succ_pos 3
          have hmore : 0 < (k + 1) * u.size := Nat.mul_pos (Nat.succ_pos k) hpos
          have hd := @stepPtr_up u edi (by omega)
          have hs := @stepPtr_up u esi (by omega)
          rw [ih (by omega) (by omega) (by omega), hd, hs]
          exact Mem.move_up m h

/-- Downwards, beginning with the last unit of the two ranges. -/
theorem repMovs_down (hdst : dst + k * u.size ≤ 2 ^ 32) (hsrc : src + k * u.size ≤ 2 ^ 32) (h : src ≤ dst) :
    repMovs u true k m (BitVec.ofNat 32 (dst + k * u.size) - BitVec.ofNat 32 u.size)
      (BitVec.ofNat 32 (src + k * u.size) - BitVec.ofNat 32 u.size) = m.move dst src (k * u.size) := by
  induction k generalizing m with
  | zero =>
      rw [Nat.zero_mul, Mem.move_zero]
      rfl
  | succ k ih =>
      have hsplit : (k + 1) * u.size = k * u.size + u.size := Nat.succ_mul k u.size
      have hpos : 0 < u.size := by
        cases u
        · exact Nat.one_pos
        · exact Nat.succ_pos 3
      have hback : ∀ a : Nat, BitVec.ofNat 32 (a + (k + 1) * u.size) - BitVec.ofNat 32 u.size =
          BitVec.ofNat 32 (a + k * u.size) := by
        intro a
        rw [hsplit, ← Nat.add_assoc, BitVec.ofNat_add, BitVec.add_sub_cancel]
      have haddr : ∀ a, a + (k + 1) * u.size ≤ 2 ^ 32 →
          (BitVec.ofNat 32 (a + k * u.size)).toNat = a + k * u.size := by
        intro a ha
        rw [BitVec.toNat_ofNat]
        omega
      unfold repMovs
      rw [hback, hback, movs_eq, haddr dst hdst, haddr src hsrc]
      show repMovs u true k _ (BitVec.ofNat 32 (dst + k * u.size) - BitVec.ofNat 32 u.size)
        (BitVec.ofNat 32 (src + k * u.size) - BitVec.ofNat 32 u.size) = _
      rw [ih (by omega) (by omega), hsplit]
      exact Mem.move_down m h

end X86

end Jos.Lib
