import Jos.Kern.Machine

/-!
# What `sys_cputs` reads

After `user_mem_assert` the kernel prints the string with `cprintf("%.*s", len, s)`. This module
has the part of `vprintfmt` that reads the flags of a conversion, and the loop of `%s`, which
reads the string byte by byte through the user's pointer. The loop reads `*p` before it looks at
the precision, and a precision from a length of `2 ^ 31` or more is negative and does not count.

Main results:
* `cputs_inside_iff`: when the kernel reads only what it checked;
* `cputs_reads_outside`: two calls with which it does not.
-/

namespace Jos.Kern

open Jos.Lib Kernel

/-! ## The conversion -/

/-- The variables of `vprintfmt` that the flags of a conversion set. -/
structure Conversion where
  padc : Char
  width : Int
  precision : Int
  lflag : Nat
  altflag : Bool
deriving DecidableEq, Repr

def Conversion.init : Conversion where
  padc := ' '
  width := -1
  precision := -1
  lflag := 0
  altflag := false

/-- `process_precision`, for the number `n` that has been read into `precision`. -/
def Conversion.processPrecision (v : Conversion) (n : Int) : Conversion :=
  if v.width < 0 then { v with width := n, precision := -1 } else { v with precision := n }

/-- A flag other than a number, with the arguments that are left; `none` for a character that is no
flag. -/
def Conversion.flag (v : Conversion) (args : List Int) : Char → Option (Conversion × List Int)
  | '-' => some ({ v with padc := '-' }, args)
  | '0' => some ({ v with padc := '0' }, args)
  | '*' => args.head?.map fun n => (v.processPrecision n, args.tail)
  | '.' => some (if v.width < 0 then { v with width := 0 } else v, args)
  | '#' => some ({ v with altflag := true }, args)
  | 'l' => some ({ v with lflag := v.lflag + 1 }, args)
  | _ => none

/-- The flags at `reswitch`, up to the character that says what is converted. A number in the
format is read digit by digit; `num` is what has been read of it. -/
def reswitch : List Char → List Int → Conversion → Option Int → Option (Char × Conversion)
  | [], _, _, _ => none
  | ch :: fmt, args, v, num =>
      if ch.isDigit && (num.isSome || ch != '0') then
        reswitch fmt args v (some (num.getD 0 * 10 + (ch.toNat - '0'.toNat)))
      else
        let v := num.elim v v.processPrecision
        match v.flag args ch with
        | some (v, args) => reswitch fmt args v none
        | none => some (ch, v)

/-- The flags of `"%.*s"`: no width, and the argument as the precision. -/
theorem reswitch_cputs (n : Int) : reswitch ['.', '*', 's'] [n] .init none =
    some ('s', { Conversion.init with width := 0, precision := n }) := rfl

/-! ## The loop of `%s` -/

/-- The variables of the loop. -/
structure StrLoop where
  p : BitVec 32
  precision : Int
deriving DecidableEq, Repr

section

variable (s : Kernel) (pgdir : Nat)

/-- The head of the loop: read `*p`, and leave at the end of the string or of the precision. The
result is `none` for a page fault, which panics, and `some none` for leaving the loop. -/
def strNext (l : StrLoop) : Option (Option StrLoop) := do
  let ch ← loadByte s pgdir l.p
  if ch = 0#8 then some none
  else if l.precision < 0 then some (some { l with p := l.p + 1#32 })
  else if 0 ≤ l.precision - 1 then
    some (some ⟨l.p + 1#32, l.precision - 1⟩)
  else some none

/-- The loop before it reads for the `n`-th time, counted from 0, if it gets so far. -/
def strRun (l : StrLoop) : Nat → Option StrLoop
  | 0 => some l
  | n + 1 => do
      let l ← strRun l n
      (← strNext s pgdir l)

/-- The loop as `cprintf("%.*s", len, s)` starts it. The width is 0, so that `strnlen` is not
called. For a null pointer the loop runs over a string of the kernel and reads nothing of the
user. -/
def cputsLoop (va len : BitVec 32) : Option StrLoop :=
  if va = 0#32 then none
  else (reswitch ['.', '*', 's'] [len.toInt] .init none).map fun x => ⟨va, x.2.precision⟩

/-- The printing reads user memory at address `a`. -/
def CputsReads (va len a : BitVec 32) : Prop :=
  ∃ l n l', cputsLoop va len = some l ∧ strRun s pgdir l n = some l' ∧ l'.p = a

end

/-- When `sys_cputs` gets past `user_mem_assert` it reads only bytes of `[va, va + len)`, and none of
these reads faults. -/
def CputsInside (s : Kernel) (cur : EnvIx) (va len : BitVec 32) : Prop :=
  (∃ s', userMemAssert s cur cur va len pteU = some (s', false)) →
    ∀ d a, (s.envs cur).envPgdir = some d → CputsReads s d va len a →
      (a - va).toNat < len.toNat ∧ x86Grants s d a pteP

/-- The string ends inside of the range, and is mapped up to its end. -/
def TerminatedIn (s : Kernel) (d : Nat) (va len : BitVec 32) : Prop :=
  ∃ n < len.toNat, (∀ i ≤ n, x86Grants s d (va + BitVec.ofNat 32 i) pteP) ∧
    s.mem (physAddr s d (va + BitVec.ofNat 32 n)) = 0#8

section

variable {s : Kernel} {cur : EnvIx} {d n : Nat} {va len : BitVec 32} {l l' : StrLoop}

/-- What a round that goes on has read. -/
theorem strNext_some (h : strNext s d l = some (some l')) :
    l'.p = l.p + 1#32 ∧ x86Grants s d l.p pteP ∧ s.mem (physAddr s d l.p) ≠ 0#8 := by
  simp only [strNext, loadByte, Option.bind_eq_bind, Option.bind_eq_some_iff] at h
  obtain ⟨ch, hch, h⟩ := h
  split at hch
  · rename_i hgrants
    cases hch
    split at h
    · cases h
    rename_i hne
    split at h
    · cases h
      exact ⟨rfl, hgrants, hne⟩
    split at h
    · cases h
      exact ⟨rfl, hgrants, hne⟩
    · cases h
  · cases hch

/-- The loop goes on after a byte that is not zero, unless the precision is used up. -/
theorem strNext_of_ne (hgrants : x86Grants s d l.p pteP) (hne : s.mem (physAddr s d l.p) ≠ 0#8)
    (hprec : l.precision < 0 ∨ 0 < l.precision) :
    ∃ l', strNext s d l = some (some l') ∧
      l'.precision = if l.precision < 0 then l.precision else l.precision - 1 := by
  simp only [strNext, loadByte, if_pos hgrants, Option.bind_eq_bind, Option.bind_some, if_neg hne]
  by_cases hneg : l.precision < 0
  · rw [if_pos hneg, if_pos hneg]
    exact ⟨_, rfl, rfl⟩
  · rw [if_neg hneg, if_neg hneg, if_pos (by omega)]
    exact ⟨_, rfl, rfl⟩

theorem strRun_succ (h : strRun s d l n = some l') :
    strRun s d l (n + 1) = (strNext s d l').bind id := by
  simp only [strRun, h, Option.bind_eq_bind, Option.bind_some]
  rfl

/-- The `n`-th read is at the `n`-th byte, after bytes that are mapped and not zero. -/
theorem strRun_some (h : strRun s d l n = some l') :
    l'.p = l.p + BitVec.ofNat 32 n ∧ ∀ i < n, x86Grants s d (l.p + BitVec.ofNat 32 i) pteP ∧
      s.mem (physAddr s d (l.p + BitVec.ofNat 32 i)) ≠ 0#8 := by
  induction n generalizing l' with
  | zero =>
      cases h
      exact ⟨(BitVec.add_zero _).symm, fun i hi => absurd hi (Nat.not_lt_zero i)⟩
  | succ n ih =>
      simp only [strRun, Option.bind_eq_bind, Option.bind_eq_some_iff] at h
      obtain ⟨l1, h1, x, hx, rfl⟩ := h
      obtain ⟨hp, hall⟩ := ih h1
      obtain ⟨hp', hgrants, hne⟩ := strNext_some hx
      rw [hp] at hp' hgrants hne
      refine ⟨?_, fun i hi => ?_⟩
      · rw [hp', BitVec.add_assoc, ← BitVec.ofNat_add]
      · by_cases hin : i = n
        · subst hin
          exact ⟨hgrants, hne⟩
        · exact hall i (by omega)

/-- The loop gets past bytes that are mapped and not zero, as far as the precision allows. -/
theorem strRun_of_ne (hall : ∀ i < n, x86Grants s d (l.p + BitVec.ofNat 32 i) pteP ∧
      s.mem (physAddr s d (l.p + BitVec.ofNat 32 i)) ≠ 0#8)
    (hprec : l.precision < 0 ∨ (n : Int) ≤ l.precision) :
    ∃ l', strRun s d l n = some l' ∧
      l'.precision = if l.precision < 0 then l.precision else l.precision - n := by
  induction n with
  | zero => exact ⟨l, rfl, by split <;> simp⟩
  | succ n ih =>
      obtain ⟨l1, h1, hprec1⟩ := ih (fun i hi => hall i (by omega)) (by omega)
      obtain ⟨hp, _⟩ := strRun_some h1
      obtain ⟨hgrants, hne⟩ := hall n (by omega)
      rw [← hp] at hgrants hne
      have hleft : l1.precision < 0 ∨ 0 < l1.precision := by
        rw [hprec1]
        split <;> omega
      obtain ⟨l2, h2, hprec2⟩ := strNext_of_ne hgrants hne hleft
      refine ⟨l2, by rw [strRun_succ h1, h2]; rfl, ?_⟩
      rw [hprec2]
      by_cases hneg : l.precision < 0
      · rw [if_pos hneg] at hprec1 ⊢
        rw [if_pos (by omega), hprec1]
      · rw [if_neg hneg] at hprec1 ⊢
        rw [if_neg (by omega), hprec1]
        omega

/-! ## When it stays inside -/

theorem cputsLoop_eq (hva : va ≠ 0#32) : cputsLoop va len = some ⟨va, len.toInt⟩ := by
  rw [cputsLoop, if_neg hva, reswitch_cputs]
  rfl

/-- `user_mem_assert` lets the caller go on exactly after a successful check. -/
theorem userMemAssert_self :
    (∃ s', userMemAssert s cur cur va len pteU = some (s', false)) ↔
      userMemCheck s cur va len pteU = some (.ok ()) := by
  have hperm : pteU ||| pteU = pteU := by decide
  constructor
  · rintro ⟨s', h⟩
    rcases userMemAssert_cases h with ⟨_, _, hok⟩ | ⟨_, hdes⟩
    · rwa [hperm] at hok
    · have hgone := envDestroy_envs hdes
      generalize hf : false = f at hgone
      cases hgone with
      | mark _ other => exact absurd rfl other
      | free => simp at hf
  · intro h
    exact ⟨s, by simp [userMemAssert, hperm, h]⟩

/-- Bytes that are not zero are read to the end of the range and one byte further. -/
theorem terminatedIn_of_inside (hva : va ≠ 0#32)
    (h : ∀ a, CputsReads s d va len a → (a - va).toNat < len.toNat ∧ x86Grants s d a pteP) :
    TerminatedIn s d va len := by
  by_contra hterm
  have hreads : ∀ n ≤ len.toNat, (∀ i < n, x86Grants s d (va + BitVec.ofNat 32 i) pteP ∧
      s.mem (physAddr s d (va + BitVec.ofNat 32 i)) ≠ 0#8) →
      CputsReads s d va len (va + BitVec.ofNat 32 n) := by
    intro n hn hall
    have hprec : len.toInt < 0 ∨ (n : Int) ≤ len.toInt := by
      rw [BitVec.toInt_eq_toNat_cond]
      split <;> omega
    obtain ⟨l', hrun, _⟩ := strRun_of_ne (l := ⟨va, len.toInt⟩) hall hprec
    exact ⟨_, n, l', cputsLoop_eq hva, hrun, (strRun_some hrun).1⟩
  have hall : ∀ n ≤ len.toNat, ∀ i < n, x86Grants s d (va + BitVec.ofNat 32 i) pteP ∧
      s.mem (physAddr s d (va + BitVec.ofNat 32 i)) ≠ 0#8 := by
    intro n
    induction n with
    | zero => exact fun _ i hi => absurd hi (Nat.not_lt_zero i)
    | succ n ih =>
        intro hn i hi
        have hprev := ih (by omega)
        by_cases hin : i < n
        · exact hprev i hin
        obtain rfl : i = n := by omega
        have hgrants := (h _ (hreads i (by omega) hprev)).2
        refine ⟨hgrants, fun hzero => hterm ⟨i, by omega, fun j hj => ?_, hzero⟩⟩
        by_cases hji : j = i
        · rwa [hji]
        · exact (hprev j (by omega)).1
  have hlast := (h _ (hreads _ (Nat.le_refl _) (hall _ (Nat.le_refl _)))).1
  rw [BitVec.ofNat_toNat, BitVec.setWidth_eq, BitVec.add_comm, BitVec.add_sub_cancel] at hlast
  exact Nat.lt_irrefl _ hlast

theorem inside_of_terminatedIn {a : BitVec 32} (h : TerminatedIn s d va len)
    (hread : CputsReads s d va len a) : (a - va).toNat < len.toNat ∧ x86Grants s d a pteP := by
  obtain ⟨n, hn, hgrants, hzero⟩ := h
  obtain ⟨l, m, l', hl, hrun, rfl⟩ := hread
  by_cases hva : va = 0#32
  · simp [cputsLoop, hva] at hl
  rw [cputsLoop_eq hva] at hl
  cases hl
  obtain ⟨hp, hall⟩ := strRun_some hrun
  simp only at hp hall
  have hle : m ≤ n := by
    by_contra hlt
    exact (hall n (by omega)).2 hzero
  rw [hp]
  refine ⟨?_, hgrants m hle⟩
  have hlen := len.isLt
  rw [BitVec.add_comm, BitVec.add_sub_cancel, BitVec.toNat_ofNat, Nat.mod_eq_of_lt (by omega)]
  omega

/-- `sys_cputs` reads only what was checked exactly when the check refuses the range, the pointer is
null, or the string ends inside of the range. -/
theorem cputs_inside_iff (hd : (s.envs cur).envPgdir = some d) :
    CputsInside s cur va len ↔ userMemCheck s cur va len pteU ≠ some (.ok ()) ∨ va = 0#32 ∨
      TerminatedIn s d va len := by
  rw [CputsInside, userMemAssert_self]
  constructor
  · intro h
    by_cases hok : userMemCheck s cur va len pteU = some (.ok ())
    · by_cases hva : va = 0#32
      · exact Or.inr (Or.inl hva)
      · exact Or.inr (Or.inr (terminatedIn_of_inside hva fun a => h hok d a hd))
    · exact Or.inl hok
  · intro hcond hok d' a hd' hread
    rw [hd] at hd'
    cases hd'
    rcases hcond with hbad | hva | hterm
    · exact absurd hok hbad
    · obtain ⟨l, _, _, hl, _⟩ := hread
      simp [cputsLoop, hva] at hl
    · exact inside_of_terminatedIn hterm hread

end

/-- The last byte of the page is set by the user. -/
def cputsFull : Kernel := { smallAfter onePageRun with
  mem := Function.update (smallAfter onePageRun).mem (physAddr (smallAfter onePageRun) 2 0x1FFF#32) 65#8 }

theorem cputs_inside_page :
    userMemCheck (smallAfter onePageRun) env0 0x1FF0#32 0x10#32 pteU = some (.ok ()) ∧
      CputsInside (smallAfter onePageRun) env0 0x1FF0#32 0x10#32 := by
  refine ⟨by decide +kernel, (cputs_inside_iff (d := 2) (by decide +kernel)).mpr (Or.inr (Or.inr ?_))⟩
  refine ⟨0, by decide, fun i hi => ?_, by decide +kernel⟩
  obtain rfl : i = 0 := by omega
  decide +kernel

/-- An empty string at an address where nothing is mapped, and a string that ends with its page. -/
theorem cputs_reads_outside :
    Reachable smallReserved (smallAfter onePageRun) ∧
      ¬ CputsInside (smallAfter onePageRun) env0 0x2000#32 0#32 ∧
      Step (smallAfter onePageRun) .internal cputsFull ∧
      ¬ CputsInside cputsFull env0 0x1FFF#32 1#32 := by
  have hd : ((smallAfter onePageRun).envs env0).envPgdir = some 2 := by decide +kernel
  refine ⟨smallAfter_reachable (by decide +kernel) (by decide), fun h => ?_,
    .store 65#8 hd (by decide +kernel), fun h => ?_⟩
  · have hread : CputsReads (smallAfter onePageRun) 2 0x2000#32 0#32 0x2000#32 :=
      ⟨⟨0x2000#32, 0⟩, 0, _, rfl, rfl, rfl⟩
    have hok : userMemCheck (smallAfter onePageRun) env0 0x2000#32 0#32 pteU = some (.ok ()) := by
      decide +kernel
    exact absurd (h (userMemAssert_self.mpr hok) 2 _ hd hread).1 (by decide)
  · have hread : CputsReads cputsFull 2 0x1FFF#32 1#32 0x2000#32 :=
      ⟨⟨0x1FFF#32, 1⟩, 1, ⟨0x2000#32, 0⟩, rfl, by decide +kernel, rfl⟩
    have hok : userMemCheck cputsFull env0 0x1FFF#32 1#32 pteU = some (.ok ()) := by decide +kernel
    exact absurd (h (userMemAssert_self.mpr hok) 2 _ hd hread).1 (by decide)

end Jos.Kern
