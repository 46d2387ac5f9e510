import Jos.Lib.RepMovs

/-!
# Copying memory

The two variants of `memmove` of `lib/string.c`. A source that begins below the target and reaches into it is
copied from the end, everything else from the beginning; the variant with assembly copies by words where both
pointers and the length are multiples of four.

Main result:
* `memmove_copies`: both variants copy the source as it was.
-/

namespace Jos.User

open Jos.Lib Jos.Lib.X86

/-- `(int)p%4 == 0` -/
def wordAligned (p : BitVec 32) : Prop := p.toInt.tmod 4 = 0

instance (p : BitVec 32) : Decidable (wordAligned p) := inferInstanceAs (Decidable (_ = _))

/-- `memmove`, when `ASM` is set. -/
def memmove (m : Mem) (dst src n : BitVec 32) : Mem × BitVec 32 :=
  let s := src
  let d := dst
  if s < d ∧ d < s + n then
    let s := s + n
    let d := d + n
    -- `std; rep movsl` or `std; rep movsb`
    if wordAligned s ∧ wordAligned d ∧ n % 4#32 = 0#32 then
      (repMovs .long true (n / 4#32).toNat m (d - 4#32) (s - 4#32), dst)
    else (repMovs .byte true n.toNat m (d - 1#32) (s - 1#32), dst)
  else
    -- `cld; rep movsl` or `cld; rep movsb`
    if wordAligned s ∧ wordAligned d ∧ n % 4#32 = 0#32 then
      (repMovs .long false (n / 4#32).toNat m d s, dst)
    else (repMovs .byte false n.toNat m d s, dst)

/-- `while (n-- > 0) *--d = *--s;` -/
def copyDown : Nat → Mem → BitVec 32 → BitVec 32 → Mem
  | 0, m, _, _ => m
  | n + 1, m, d, s =>
      let d := d - 1#32
      let s := s - 1#32
      copyDown n (Function.update m d.toNat (m s.toNat)) d s

/-- `while (n-- > 0) *d++ = *s++;` -/
def copyUp : Nat → Mem → BitVec 32 → BitVec 32 → Mem
  | 0, m, _, _ => m
  | n + 1, m, d, s => copyUp n (Function.update m d.toNat (m s.toNat)) (d + 1#32) (s + 1#32)

/-- `memmove`, when `ASM` is not set. -/
def memmoveC (m : Mem) (dst src n : BitVec 32) : Mem × BitVec 32 :=
  let s := src
  let d := dst
  if s < d ∧ d < s + n then (copyDown n.toNat m (d + n) (s + n), dst)
  else (copyUp n.toNat m d s, dst)

/-- `memcpy` -/
def memcpy (m : Mem) (dst src n : BitVec 32) : Mem × BitVec 32 := memmove m dst src n

section

variable {m : Mem} {dst src n d s : BitVec 32} {k : Nat}

/-! ## The loops of the C variant -/

/-- The loops in C copy as the string instructions for bytes do. -/
theorem copyUp_eq (k : Nat) (m : Mem) (d s : BitVec 32) : copyUp k m d s = repMovs .byte false k m d s := by
  induction k generalizing m d s with
  | zero => rfl
  | succ k ih => exact ih _ _ _

theorem copyDown_eq (k : Nat) (m : Mem) (d s : BitVec 32) :
    copyDown k m d s = repMovs .byte true k m (d - 1#32) (s - 1#32) := by
  induction k generalizing m d s with
  | zero => rfl
  | succ k ih => exact ih _ _ _

/-! ## The four copies -/

/-- Where the test for overlap fails the target does not begin within the source. -/
theorem not_within (hdst : dst.toNat + n.toNat ≤ 2 ^ 32) (h : ¬ (src < dst ∧ dst < src + n)) :
    dst.toNat ≤ src.toNat ∨ src.toNat + n.toNat ≤ dst.toNat := by
  rw [BitVec.lt_def, BitVec.lt_def, BitVec.toNat_add] at h
  omega

theorem units_mul (h : n % 4#32 = 0#32) : (n / 4#32).toNat * 4 = n.toNat := by
  have hmod : n.toNat % 4 = 0 := by
    have := congrArg BitVec.toNat h
    rw [BitVec.toNat_umod] at this
    exact this
  rw [BitVec.toNat_udiv]
  exact Nat.div_mul_cancel (Nat.dvd_of_mod_eq_zero hmod)

theorem end_eq (p n : BitVec 32) : p + n = BitVec.ofNat 32 (p.toNat + n.toNat) := by
  rw [BitVec.ofNat_add, BitVec.ofNat_toNat, BitVec.ofNat_toNat, BitVec.setWidth_eq, BitVec.setWidth_eq]

/-- Copying `k` units that make up `n` bytes, from the beginning. -/
theorem copy_up {u : StrUnit} (hk : k * u.size = n.toNat) (hsrc : src.toNat + n.toNat ≤ 2 ^ 32)
    (hdst : dst.toNat + n.toNat ≤ 2 ^ 32) (h : ¬ (src < dst ∧ dst < src + n)) :
    repMovs u false k m dst src = m.move dst.toNat src.toNat n.toNat := by
  rw [← hk] at hsrc hdst ⊢
  apply repMovs_up hdst hsrc
  rw [hk] at hdst ⊢
  exact not_within hdst h

/-- Copying `k` units that make up `n` bytes, from the end. -/
theorem copy_down {u : StrUnit} (hk : k * u.size = n.toNat) (hsrc : src.toNat + n.toNat ≤ 2 ^ 32)
    (hdst : dst.toNat + n.toNat ≤ 2 ^ 32) (h : src < dst) :
    repMovs u true k m (dst + n - BitVec.ofNat 32 u.size) (src + n - BitVec.ofNat 32 u.size) =
      m.move dst.toNat src.toNat n.toNat := by
  rw [end_eq, end_eq]
  rw [← hk] at hsrc hdst ⊢
  exact repMovs_down hdst hsrc (Nat.le_of_lt (BitVec.lt_def.mp h))

theorem memmove_eq (m : Mem) (hsrc : src.toNat + n.toNat ≤ 2 ^ 32) (hdst : dst.toNat + n.toNat ≤ 2 ^ 32) :
    memmove m dst src n = (m.move dst.toNat src.toNat n.toNat, dst) := by
  have hbytes : n.toNat * StrUnit.byte.size = n.toNat := Nat.mul_one _
  unfold memmove
  dsimp only
  split
  · rename_i hover
    split
    · rename_i hwords
      have hlongs : (n / 4#32).toNat * StrUnit.long.size = n.toNat := units_mul hwords.2.2
      exact congrArg (·, dst) (copy_down hlongs hsrc hdst hover.1)
    · exact congrArg (·, dst) (copy_down hbytes hsrc hdst hover.1)
  · rename_i hover
    split
    · rename_i hwords
      have hlongs : (n / 4#32).toNat * StrUnit.long.size = n.toNat := units_mul hwords.2.2
      exact congrArg (·, dst) (copy_up hlongs hsrc hdst hover)
    · exact congrArg (·, dst) (copy_up hbytes hsrc hdst hover)

theorem memmoveC_eq (m : Mem) (hsrc : src.toNat + n.toNat ≤ 2 ^ 32) (hdst : dst.toNat + n.toNat ≤ 2 ^ 32) :
    memmoveC m dst src n = (m.move dst.toNat src.toNat n.toNat, dst) := by
  have hbytes : n.toNat * StrUnit.byte.size = n.toNat := Nat.mul_one _
  unfold memmoveC
  dsimp only
  split
  · rename_i hover
    rw [copyDown_eq]
    exact congrArg (·, dst) (copy_down hbytes hsrc hdst hover.1)
  · rename_i hover
    rw [copyUp_eq]
    exact congrArg (·, dst) (copy_up hbytes hsrc hdst hover)

/-- Both variants copy the source as it was before the call, change nothing else, and agree. -/
theorem memmove_copies (m : Mem) (dst src n : BitVec 32) (hsrc : src.toNat + n.toNat ≤ 2 ^ 32)
    (hdst : dst.toNat + n.toNat ≤ 2 ^ 32) :
    ((∀ i < n.toNat, (memmove m dst src n).1 (dst.toNat + i) = m (src.toNat + i)) ∧
      (∀ x, x < dst.toNat ∨ dst.toNat + n.toNat ≤ x → (memmove m dst src n).1 x = m x) ∧
      (memmove m dst src n).2 = dst) ∧
    memmoveC m dst src n = memmove m dst src n ∧ memcpy m dst src n = memmove m dst src n := by
  rw [memmoveC_eq m hsrc hdst, show memcpy m dst src n = memmove m dst src n from rfl, memmove_eq m hsrc hdst]
  refine ⟨⟨?_, ?_, rfl⟩, rfl, rfl⟩
  · intro i hi
    dsimp only
    rw [Mem.move_of_mem m (Nat.le_add_right _ _) (Nat.add_lt_add_left hi _), Nat.add_sub_cancel_left]
  · intro x hx
    exact Mem.move_of_disjoint m hx

/-- Twelve bytes, four bytes up: the words are copied from the end. -/
theorem memmove_copies_overlap : let m : Mem := fun x => BitVec.ofNat 8 x
    ((∀ i < 12, (memmove m 0x1004#32 0x1000#32 12#32).1 (0x1004 + i) = m (0x1000 + i)) ∧
      (∀ x, x < 0x1004 ∨ 0x1004 + 12 ≤ x → (memmove m 0x1004#32 0x1000#32 12#32).1 x = m x) ∧
      (memmove m 0x1004#32 0x1000#32 12#32).2 = 0x1004#32) ∧
    memmoveC m 0x1004#32 0x1000#32 12#32 = memmove m 0x1004#32 0x1000#32 12#32 ∧
      memcpy m 0x1004#32 0x1000#32 12#32 = memmove m 0x1004#32 0x1000#32 12#32 :=
  memmove_copies (fun x => BitVec.ofNat 8 x) 0x1004#32 0x1000#32 12#32 (by decide) (by decide)

end

end Jos.User
