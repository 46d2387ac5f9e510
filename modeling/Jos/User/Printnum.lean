import Jos.Lib.Numeral
import Jos.User.Printfmt

/-!
# Numbers that read back

`printnum` counts the width down on the way to the first digit and pads there, so the padding is what the
digits leave of the width. `%d` prints the magnitude of its argument, which it negates as a word of 64 bits;
that of the least number of 64 bits is the same word, and its value as an unsigned number is the magnitude.

Main result:
* `printed_numbers_read_back`: the digits denote the number.
-/

namespace Jos.User

open Jos.Lib

/-- The character of a digit. -/
def digitChar (d : Nat) : Int := if d < 10 then 0x30 + d else 0x57 + d

/-- The digit that a character stands for. -/
def digitValue (c : Int) : Nat := if c < 0x61 then (c - 0x30).toNat else (c - 0x57).toNat

/-- The characters `cs` are the numeral of `num` in a base, without leading zeros. -/
structure IsNumeral (base num : Nat) (cs : List Int) : Prop where
  digits : ∀ c ∈ cs, ∃ d < base, digit d = .ok c
  value : readNumeral base (cs.map digitValue) = num
  leading : num ≠ 0 → cs.head? ≠ some 0x30
  zero : num = 0 → cs = [0x30]

/-- The padding of a numeral with `d` digits. -/
def padding (width : BitVec 32) (d : Nat) : Nat := (max 0 (width.toInt - d)).toNat

/-- The argument of `%d`: a number of 64 bits with the flag `ll`, and one of 32 bits otherwise. -/
def intArg (args : Nat → BitVec 32) (lflag : BitVec 32) (ap : Nat) : Int :=
  if 2 ≤ lflag.toInt then (wideArg args ap).toInt else (args ap).toInt

/-- What `%d` prints before the padding. -/
def signChars (value : Int) : List Int := if value < 0 then [0x2d] else []

/-- `%d`, `%ld` and `%lld` -/
def intFormat (longs : Nat) : List (BitVec 8) := 0x25#8 :: (List.replicate longs 0x6c#8 ++ [0x64#8])

section

variable {base num fuel d : Nat} {width : BitVec 32} {padc : Int} {cs : List Int}

theorem digit_eq (h : d < 16) : digit d = .ok (digitChar d) := by
  interval_cases d <;> rfl

theorem digitValue_digitChar (h : d < 16) : digitValue (digitChar d) = d := by
  unfold digitValue digitChar
  by_cases h10 : d < 10
  · rw [if_pos h10, if_pos (by omega)]
    omega
  · rw [if_neg h10, if_neg (by omega)]
    omega

theorem isNumeral_numeral (h2 : 2 ≤ base) (h16 : base ≤ 16) (num : Nat) :
    IsNumeral base num ((numeral base num).map digitChar) := by
  have hlt := numeral_lt h2 num
  refine ⟨?_, ?_, ?_, ?_⟩
  · intro c hc
    obtain ⟨d, hd, rfl⟩ := List.mem_map.mp hc
    exact ⟨d, hlt d hd, digit_eq (Nat.lt_of_lt_of_le (hlt d hd) h16)⟩
  · have hback : ((numeral base num).map digitChar).map digitValue = numeral base num := by
      rw [List.map_map]
      have hid : ∀ d ∈ numeral base num, (digitValue ∘ digitChar) d = id d := fun d hd =>
        digitValue_digitChar (Nat.lt_of_lt_of_le (hlt d hd) h16)
      rw [List.map_congr_left hid, List.map_id]
    rw [hback]
    exact readNumeral_numeral h2 num
  · intro hne hhead
    rw [List.head?_map, Option.map_eq_some_iff] at hhead
    obtain ⟨d, hd, hzero⟩ := hhead
    have hd0 : d = 0 := by
      unfold digitChar at hzero
      split at hzero <;> omega
    rw [hd0] at hd
    exact numeral_head h2 num hne hd
  · intro hzero
    rw [hzero, numeral_of_lt (by omega)]
    rfl

/-- What `printnum` prints; the width is counted down once for each digit. -/
theorem printnum_eq (h2 : 2 ≤ base) (h16 : base ≤ 16) (hnum : num < base ^ fuel) (hfuel : 0 < fuel) :
    printnum base padc fuel num width =
      .ok (pad padc (width - BitVec.ofNat 32 (numeral base num).length) ++ (numeral base num).map digitChar) := by
  induction fuel generalizing num width with
  | zero => exact absurd hfuel (Nat.lt_irrefl 0)
  | succ fuel ih =>
      have hmod : num % base < 16 := Nat.lt_of_lt_of_le (Nat.mod_lt _ (by omega)) h16
      unfold printnum
      rw [digit_eq hmod]
      by_cases hle : base ≤ num
      · have hdiv : num / base < base ^ fuel := by
          apply Nat.div_lt_of_lt_mul
          rw [← Nat.pow_succ']
          exact hnum
        have hpos : 0 < fuel := by
          by_contra h0
          rw [Nat.eq_zero_of_not_pos h0, Nat.pow_one] at hnum
          omega
        rw [if_pos hle, ih hdiv hpos, numeral_of_le h2 hle, List.length_append, List.map_append]
        have hwidth : width - 1#32 - BitVec.ofNat 32 (numeral base (num / base)).length =
            width - BitVec.ofNat 32 ((numeral base (num / base)).length + [num % base].length) := by
          rw [List.length_singleton]
          bv_omega
        rw [hwidth, ← List.append_assoc]
        rfl
      · rw [if_neg hle, numeral_of_lt (Nat.not_le.mp hle), Nat.mod_eq_of_lt (Nat.not_le.mp hle)]
        rfl

/-- Within the bounds the width does not wrap around. -/
theorem pad_eq (hw : |width.toInt| < 2 ^ 30) (hd : d ≤ 64) :
    pad padc (width - BitVec.ofNat 32 d) = List.replicate (padding width d) padc := by
  have hb := abs_lt.mp hw
  have hd' : (BitVec.ofNat 32 d).toInt = d := by
    rw [BitVec.toInt_eq_toNat_of_lt (by rw [BitVec.toNat_ofNat]; omega), BitVec.toNat_ofNat]
    omega
  have hsub : (width - BitVec.ofNat 32 d).toInt = width.toInt - d := by
    rw [BitVec.toInt_sub, hd']
    apply Int.bmod_eq_of_le <;> omega
  unfold pad padding
  rw [hsub]
  congr 1
  omega

end

section

variable {args : Nat → BitVec 32} {str : BitVec 32 → List (BitVec 8)}
  {pe : BitVec 32 → Except PrintFault (List Int)} {v : Flags} {base ap longs : Nat} {lflag : BitVec 32}

/-! ## Signed numbers -/

theorem getint_toInt : (getint args lflag ap).toInt = intArg args lflag ap := by
  unfold getint intArg
  by_cases h : 2 ≤ lflag.toInt
  · rw [if_pos h, if_pos h]
  · rw [if_neg h, if_neg h]
    exact BitVec.toInt_signExtend_of_le (by decide)

/-- The negative of a negative word, read as an unsigned number, is the magnitude. -/
theorem neg_toNat {num : BitVec 64} (h : num.toInt < 0) : (-num).toNat = num.toInt.natAbs := by
  have hlt := num.isLt
  rw [BitVec.toInt_eq_toNat_cond] at h ⊢
  split at h
  · omega
  · rename_i hbig
    rw [if_neg hbig, BitVec.toNat_neg, Nat.mod_eq_of_lt (by omega)]
    omega

theorem toNat_of_nonneg {num : BitVec 64} (h : ¬ num.toInt < 0) : num.toNat = num.toInt.natAbs := by
  have hlt := num.isLt
  rw [BitVec.toInt_eq_toNat_cond] at h ⊢
  split at h
  · rename_i hsmall
    rw [if_pos hsmall]
    rfl
  · omega

theorem convertNumber_eq (sign : List Int) (num : BitVec 64) (h2 : 2 ≤ base) (h16 : base ≤ 16)
    (hw : |v.width.toInt| < 2 ^ 30) : convertNumber sign num base v =
      .ok (sign ++ (List.replicate (padding v.width (numeral base num.toNat).length) v.padc.toInt ++
        (numeral base num.toNat).map digitChar)) := by
  have hnum : num.toNat < base ^ 64 := Nat.lt_of_lt_of_le num.isLt (Nat.pow_le_pow_left h2 64)
  have hlen := numeral_length_le h2 (by decide) hnum
  unfold convertNumber
  rw [printnum_eq h2 h16 hnum (by decide), pad_eq hw hlen]
  rfl

/-- `%d` prints the sign, the padding and the numeral of the magnitude. -/
theorem convert_int (hw : |v.width.toInt| < 2 ^ 30) : ∃ ds, IsNumeral 10 (intArg args v.lflag ap).natAbs ds ∧
    convert args str pe 0x64#8 v ap = some (.ok (signChars (intArg args v.lflag ap) ++
      (List.replicate (padding v.width ds.length) v.padc.toInt ++ ds), ap + intWords v.lflag)) := by
  have hconv : convert args str pe 0x64#8 v ap = some ((if (getint args v.lflag ap).toInt < 0 then
      convertNumber [0x2d] (-getint args v.lflag ap) 10 v else convertNumber [] (getint args v.lflag ap) 10 v).map
        fun out => (out, ap + intWords v.lflag)) := rfl
  refine ⟨_, isNumeral_numeral (by decide) (by decide) _, ?_⟩
  rw [hconv, List.length_map, ← getint_toInt]
  unfold signChars
  by_cases hneg : (getint args v.lflag ap).toInt < 0
  · rw [if_pos hneg, if_pos hneg, convertNumber_eq _ _ (by decide) (by decide) hw, neg_toNat hneg]
    rfl
  · rw [if_neg hneg, if_neg hneg, convertNumber_eq _ _ (by decide) (by decide) hw, toNat_of_nonneg hneg]
    rfl

theorem readFlags_longs (hlongs : longs ≤ 2) :
    readFlags args (intFormat longs) ((intFormat longs).length + 2) 1 .init 0 =
      .ok (0x64#8, ((longs + 2 : Nat) : Int), { Flags.init with lflag := BitVec.ofNat 32 longs }, 0) := by
  interval_cases longs
  · rfl
  · rfl
  · rfl

theorem intFormat_length : (intFormat longs).length = longs + 2 := by
  simp [intFormat]

/-- A format that is one `%d` prints what the conversion does. -/
theorem vprintfmt_intFormat (hlongs : longs ≤ 2) {out : List Int} {ap' : Nat}
    (hout : convert args str printError 0x64#8 { Flags.init with lflag := BitVec.ofNat 32 longs } 0 =
      some (.ok (out, ap'))) : vprintfmt str args (intFormat longs) = .ok out := by
  have hpercent : fmtAt (intFormat longs) 0 = .ok 0x25#8 := fmtAt_cons (i := 0) rfl
  have hdrop : (intFormat longs).drop (longs + 2) = [] := by
    rw [← intFormat_length]
    exact List.drop_length
  have hend : formatLoop args str printError (intFormat longs) (intFormat longs).length ((longs + 2 : Nat) : Int) ap' =
      .ok [] := by
    rw [intFormat_length]
    exact formatLoop_end hdrop (Nat.le_of_eq intFormat_length.symm)
  unfold vprintfmt vprintfmtWith formatLoop
  rw [hpercent]
  dsimp only [bind, Except.bind]
  rw [if_neg (fun hne => hne rfl), Int.zero_add, readFlags_longs hlongs]
  dsimp only
  rw [hout]
  dsimp only
  rw [hend]
  exact congrArg Except.ok (List.append_nil out)

/-- `printnum` prints the padding and the digits, which read back as the number; and `%d` prints a sign and
digits that denote its argument, with the padding between them where there is a width. -/
theorem printed_numbers_read_back (str : BitVec 32 → List (BitVec 8)) (args : Nat → BitVec 32) :
    (∀ num base padc (width : BitVec 32), num < 2 ^ 64 → 2 ≤ base → base ≤ 16 → |width.toInt| < 2 ^ 30 →
      ∃ ds, printnum base padc 64 num width = .ok (List.replicate (padding width ds.length) padc ++ ds) ∧
        IsNumeral base num ds) ∧
    (∀ (v : Flags) ap, |v.width.toInt| < 2 ^ 30 → ∃ ds, convert args str printError 0x64#8 v ap =
        some (.ok (signChars (intArg args v.lflag ap) ++
          (List.replicate (padding v.width ds.length) v.padc.toInt ++ ds), ap + intWords v.lflag)) ∧
      IsNumeral 10 (intArg args v.lflag ap).natAbs ds) ∧
    ∀ longs, longs ≤ 2 → ∃ ds, vprintfmt str args (intFormat longs) =
        .ok (signChars (intArg args (BitVec.ofNat 32 longs) 0) ++ ds) ∧
      IsNumeral 10 (intArg args (BitVec.ofNat 32 longs) 0).natAbs ds := by
  refine ⟨?_, ?_, ?_⟩
  · intro num base padc width hnum h2 h16 hw
    have hlt : num < base ^ 64 := Nat.lt_of_lt_of_le hnum (Nat.pow_le_pow_left h2 64)
    refine ⟨_, ?_, isNumeral_numeral h2 h16 num⟩
    rw [printnum_eq h2 h16 hlt (by decide), List.length_map, pad_eq hw (numeral_length_le h2 (by decide) hlt)]
  · intro v ap hw
    obtain ⟨ds, hds, hconv⟩ := @convert_int args str printError v ap hw
    exact ⟨ds, hconv, hds⟩
  · intro longs hlongs
    obtain ⟨ds, hds, hconv⟩ := @convert_int args str printError
      { Flags.init with lflag := BitVec.ofNat 32 longs } 0 (show |Flags.init.width.toInt| < 2 ^ 30 by decide)
    have hpad : padding Flags.init.width ds.length = 0 := by
      unfold padding
      have : Flags.init.width.toInt = -1 := by decide
      omega
    refine ⟨ds, ?_, hds⟩
    rw [vprintfmt_intFormat hlongs hconv]
    dsimp only
    rw [hpad]
    rfl

/-- `%lld` with the least number of 64 bits. -/
theorem printed_numbers_read_back_least : ∃ ds,
    vprintfmt (fun _ => []) (fun n => if n = 0 then 0#32 else 0x80000000#32) (intFormat 2) = .ok (0x2d :: ds) ∧
      IsNumeral 10 (2 ^ 63) ds := by
  obtain ⟨-, -, hformat⟩ :=
    printed_numbers_read_back (fun _ => []) (fun n => if n = 0 then 0#32 else 0x80000000#32)
  obtain ⟨ds, hrun, hds⟩ := hformat 2 (Nat.le_refl 2)
  have hvalue : intArg (fun n => if n = 0 then 0#32 else 0x80000000#32) (BitVec.ofNat 32 2) 0 = -2 ^ 63 := by decide
  rw [hvalue] at hrun hds
  exact ⟨ds, hrun, hds⟩

end

end Jos.User
