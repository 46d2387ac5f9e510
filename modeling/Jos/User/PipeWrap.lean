import Jos.User.Pipe

/-!
# Positions of a pipe that wrap

`p_rpos` and `p_wpos` are of type `off_t`. After `r` bytes have been taken and `k` more are stored
they are `r` and `r + k` in 32 bits. The index expressions use them as signed numbers, and the test
for a full pipe as unsigned numbers.

Main results:
* `pipe_positions_iff`: the positions that are handled right;
* `position_wraps`: one that is not.
-/

namespace Jos.User

/-- The code reads the positions as the numbers of bytes taken and stored. -/
structure PositionsOk (r k : Nat) (s : PipeState) : Prop where
  readIndex : pipeIndex s.pipe.pRpos = ((r % pipebufsiz : Nat) : Int)
  writeIndex : pipeIndex s.pipe.pWpos = (((r + k) % pipebufsiz : Nat) : Int)
  full : ∀ closed c, c.pc = .test →
    ((devpipeWrite closed s c).1.writer.map (·.pc) = some .closed ↔ k = pipebufsiz)
  empty : ∀ closed c, c.pc = .test →
    ((devpipeRead closed s c).1.reader.map (·.pc) = some .copy ↔ k ≠ 0)

/-- As an `off_t` the position is not negative, or it is a multiple of the size of the buffer. -/
def PositionFits (n : Nat) : Prop := n % 2 ^ 32 < 2 ^ 31 ∨ n % pipebufsiz = 0

/-- `p_rpos + sizeof(p_buf)` does not wrap, or `p_wpos` wraps too. -/
def RoomFits (r k : Nat) : Prop :=
  r % 2 ^ 32 + pipebufsiz < 2 ^ 32 ∨ 2 ^ 32 ≤ r % 2 ^ 32 + k

instance (n : Nat) : Decidable (PositionFits n) := inferInstanceAs (Decidable (_ ∨ _))
instance (r k : Nat) : Decidable (RoomFits r k) := inferInstanceAs (Decidable (_ ∨ _))

section

variable {s : PipeState} {r k n : Nat}

theorem toInt_neg_position (h : 2 ^ 31 ≤ n % 2 ^ 32) :
    (BitVec.ofNat 32 n).toInt = -((2 ^ 32 - n % 2 ^ 32 : Nat) : Int) := by
  rw [BitVec.toInt_eq_toNat_cond, BitVec.toNat_ofNat, if_neg (by omega)]
  omega

/-- The index is the number of bytes modulo the size exactly when the position fits. -/
theorem pipeIndex_iff (n : Nat) :
    pipeIndex (BitVec.ofNat 32 n) = ((n % pipebufsiz : Nat) : Int) ↔ PositionFits n := by
  by_cases hlt : n % 2 ^ 32 < 2 ^ 31
  · refine iff_of_true ?_ (Or.inl hlt)
    rw [pipeIndex_eq (by rw [BitVec.toNat_ofNat]; exact hlt), BitVec.toNat_ofNat]
    simp only [pipebufsiz]
    omega
  · have hsize : (32#32).toInt = ((32 : Nat) : Int) := rfl
    rw [PositionFits, or_iff_right hlt, pipeIndex, BitVec.toInt_srem, hsize,
      toInt_neg_position (by omega), Int.neg_tmod, ← Int.ofNat_tmod]
    simp only [pipebufsiz]
    omega

/-- The test for a full pipe is right exactly when there is room for its sum. -/
theorem full_iff (hr : s.pipe.pRpos = BitVec.ofNat 32 r) (hw : s.pipe.pWpos = BitVec.ofNat 32 (r + k))
    (hk : k ≤ pipebufsiz) :
    (s.pipe.pRpos + 32#32 ≤ s.pipe.pWpos ↔ k = pipebufsiz) ↔ RoomFits r k := by
  have hmod := Nat.mod_lt r (show 0 < 2 ^ 32 by decide)
  have hsum : (s.pipe.pRpos + 32#32).toNat = (r % 2 ^ 32 + 32) % 2 ^ 32 := by
    rw [hr, BitVec.toNat_add, BitVec.toNat_ofNat]
    rfl
  have hpos : s.pipe.pWpos.toNat = (r % 2 ^ 32 + k) % 2 ^ 32 := by
    rw [hw, BitVec.toNat_ofNat, Nat.mod_add_mod]
  rw [BitVec.le_def, hsum, hpos, RoomFits]
  simp only [pipebufsiz] at hk ⊢
  omega

theorem empty_iff (hr : s.pipe.pRpos = BitVec.ofNat 32 r) (hw : s.pipe.pWpos = BitVec.ofNat 32 (r + k))
    (hk : k ≤ pipebufsiz) : s.pipe.pRpos = s.pipe.pWpos ↔ k = 0 := by
  simp only [pipebufsiz] at hk
  rw [hr, hw]
  constructor
  · intro heq
    have hnat := congrArg BitVec.toNat heq
    rw [BitVec.toNat_ofNat, BitVec.toNat_ofNat] at hnat
    omega
  · rintro rfl
    rfl

/-! ## The tests of the two loops -/

theorem devpipeWrite_test {closed : Bool} {c : PipeCall} (hc : c.pc = .test) :
    (devpipeWrite closed s c).1.writer.map (·.pc) = some .closed ↔
      s.pipe.pRpos + 32#32 ≤ s.pipe.pWpos := by
  unfold devpipeWrite
  simp only [hc]
  split
  · rename_i hle
    exact iff_of_true rfl hle
  · rename_i hle
    refine iff_of_false ?_ hle
    intro h
    cases h

theorem devpipeRead_test {closed : Bool} {c : PipeCall} (hc : c.pc = .test) :
    (devpipeRead closed s c).1.reader.map (·.pc) = some .copy ↔ s.pipe.pRpos ≠ s.pipe.pWpos := by
  unfold devpipeRead
  simp only [hc]
  split
  · rename_i heq
    refine iff_of_false ?_ (not_not.mpr heq)
    split
    all_goals
      intro h
      cases h
  · rename_i hne
    exact iff_of_true rfl hne

/-- However many bytes have passed, the code handles the positions right exactly when both fit as
signed numbers and the sum of the test does not wrap alone. -/
theorem pipe_positions_iff (hr : s.pipe.pRpos = BitVec.ofNat 32 r)
    (hw : s.pipe.pWpos = BitVec.ofNat 32 (r + k)) (hk : k ≤ pipebufsiz) :
    PositionsOk r k s ↔ PositionFits r ∧ PositionFits (r + k) ∧ RoomFits r k := by
  constructor
  · intro h
    refine ⟨?_, ?_, ?_⟩
    · rw [← pipeIndex_iff, ← hr]
      exact h.readIndex
    · rw [← pipeIndex_iff, ← hw]
      exact h.writeIndex
    · rw [← full_iff hr hw hk, ← devpipeWrite_test (c := ⟨.test, 0#32, 0#32, fun _ => 0#8⟩) rfl]
      exact h.full true _ rfl
  · rintro ⟨h1, h2, h3⟩
    refine ⟨?_, ?_, fun closed c hc => ?_, fun closed c hc => ?_⟩
    · rw [hr]
      exact (pipeIndex_iff r).mpr h1
    · rw [hw]
      exact (pipeIndex_iff (r + k)).mpr h2
    · rw [devpipeWrite_test hc]
      exact (full_iff hr hw hk).mpr h3
    · rw [devpipeRead_test hc]
      exact not_congr (empty_iff hr hw hk)

end

/-- A pipe through which `r` bytes have gone, with `k` more stored. -/
def pipeAfter (r k : Nat) : PipeState :=
  { newPipe with pipe := ⟨BitVec.ofNat 32 r, BitVec.ofNat 32 (r + k), fun _ => 0#8⟩ }

theorem pipe_positions_small : PositionsOk 40 5 (pipeAfter 40 5) :=
  (pipe_positions_iff rfl rfl (by decide)).mpr ⟨by decide, by decide, by decide⟩

/-- After two gigabytes the index of the next byte is negative. -/
theorem position_wraps : ¬ PositionsOk (2 ^ 31 + 1) 0 (pipeAfter (2 ^ 31 + 1) 0) := by
  intro h
  have hindex : pipeIndex (BitVec.ofNat 32 (2 ^ 31 + 1)) = -31 := by decide
  exact absurd (hindex.symm.trans h.readIndex) (by decide)

end Jos.User
