import Mathlib.Data.BitVec
import Mathlib.Data.List.GetD
import Mathlib.Data.List.TakeWhile

/-!
# Formatted printing

`vprintfmt` of `lib/printfmt.c`. The format is read with a pointer, which goes back to the `%` when the
character behind the flags is not known. Every read of the format, of `error_string` and of the digits
is checked, so a result that is no fault says that all of them are in bounds.

The integers and the addresses are words of 32 bits. The negative of the least integer is negative and
passes the test against `MAXERROR`; the word that is read then is `error_string[0]`, because the offset
`4 * err` wraps to 0 (`errorString`). It is a null pointer and the number is printed.

* `readFlags_ok`: the flags end at a character that is no flag, within the format.
* `formatFrom_echo`: a sequence that is not known is printed as it stands.
* `formatFrom_outcome`: a format without zeros is printed to its end if every `%e` in it prints.
* `vprintfmt_prints`: both together for `vprintfmt`, with any arguments.
-/

namespace Jos.User

/-- What goes wrong: a bound for the steps is reached, or a character of the format, an error string or
a digit is read that is not there. -/
inductive PrintFault
  | steps
  | format (i : Int)
  | errorString (offset : BitVec 32)
  | digit (i : Nat)
  deriving DecidableEq

/-- The characters of a string. -/
def bytes (text : String) : List (BitVec 8) := text.toList.map fun c => BitVec.ofNat 8 c.toNat

/-- `MAXERROR` -/
def maxError : Int := 16

/-- `error_string`; the first entry is a null pointer. -/
def errorStrings : List (Option String) :=
  [none, some "unspecified error", some "bad environment", some "invalid parameter", some "out of memory",
    some "out of environments", some "segmentation fault", some "env is not recving",
    some "unexpected end of file", some "no free space on disk", some "too many files are open",
    some "file or block not found", some "invalid path", some "file already exists",
    some "file is not a valid executable", some "operation not supported"]

/-- `error_string[err]`: the word that is `4 * err` bytes behind the beginning of the table. An address
has 32 bits, so the offset counts modulo 2 ^ 32. -/
def errorString (err : BitVec 32) : Except PrintFault (Option String) :=
  let offset := 4#32 * err
  if offset.toNat / 4 < errorStrings.length then .ok (errorStrings.getD (offset.toNat / 4) none)
  else .error (.errorString offset)

/-- `"0123456789abcdef"[i]` -/
def digit (i : Nat) : Except PrintFault Int :=
  match [0x30, 0x31, 0x32, 0x33, 0x34, 0x35, 0x36, 0x37, 0x38, 0x39, 0x61, 0x62, 0x63, 0x64, 0x65, 0x66][i]? with
  | some c => .ok c
  | none => .error (.digit i)

/-- `for (; width > 0; width--) putch(c)` -/
def pad (c : Int) (width : BitVec 32) : List Int := List.replicate width.toInt.toNat c

/-- `printnum`, for a number with at most `fuel` digits. -/
def printnum (base : Nat) (padc : Int) : Nat → Nat → BitVec 32 → Except PrintFault (List Int)
  | 0, _, _ => .error .steps
  | fuel + 1, num, width => do
      let before ← if base ≤ num then printnum base padc fuel (num / base) (width - 1#32)
        else .ok (pad padc (width - 1#32))
      let d ← digit (num % base)
      .ok (before ++ [d])

/-- The variables that the flags of a conversion set. -/
structure Flags where
  padc : BitVec 8
  width : BitVec 32
  precision : BitVec 32
  lflag : BitVec 32
  altflag : Bool

def Flags.init : Flags := ⟨0x20#8, -1#32, -1#32, 0#32, false⟩

/-- `process_precision`, with this precision. -/
def Flags.process (v : Flags) (precision : BitVec 32) : Flags :=
  if v.width.toInt < 0 then { v with width := precision, precision := -1#32 }
  else { v with precision := precision }

section

variable (args : Nat → BitVec 32)

/-- `va_arg` for a number of 64 bits. -/
def wideArg (ap : Nat) : BitVec 64 := args (ap + 1) ++ args ap

/-- How many words `getuint` and `getint` take. -/
def intWords (lflag : BitVec 32) : Nat := if 2 ≤ lflag.toInt then 2 else 1

/-- `getuint` -/
def getuint (lflag : BitVec 32) (ap : Nat) : BitVec 64 :=
  if 2 ≤ lflag.toInt then wideArg args ap else (args ap).setWidth 64

/-- `getint` -/
def getint (lflag : BitVec 32) (ap : Nat) : BitVec 64 :=
  if 2 ≤ lflag.toInt then wideArg args ap else (args ap).signExtend 64

/-- The loop of `%s`, and the width that is left. -/
def putString (altflag : Bool) : List (BitVec 8) → BitVec 32 → BitVec 32 → List Int × BitVec 32
  | [], _, width => ([], width)
  | ch :: p, precision, width =>
      if precision.toInt < 0 ∨ 0 ≤ precision.toInt - 1 then
        let precision := if precision.toInt < 0 then precision else precision - 1#32
        let c := if altflag ∧ (ch.toInt < 0x20 ∨ 0x7e < ch.toInt) then 0x3f else ch.toInt
        let rest := putString altflag p precision (width - 1#32)
        (c :: rest.1, rest.2)
      else ([], width)

/-- `strnlen` -/
def strnlen (p : List (BitVec 8)) (size : BitVec 32) : BitVec 32 := BitVec.ofNat 32 (min p.length size.toNat)

/-- The conversion of a string. -/
def convertString (p : List (BitVec 8)) (v : Flags) : List Int :=
  let before := if 0 < v.width.toInt ∧ v.padc ≠ 0x2d#8 then v.width - strnlen p v.precision else 0#32
  let width := if 0 < v.width.toInt ∧ v.padc ≠ 0x2d#8 then (if 0 < before.toInt then 0#32 else before) else v.width
  let body := putString v.altflag p v.precision width
  pad v.padc.toInt before ++ body.1 ++ pad 0x20 body.2

/-- The conversion of a number. -/
def convertNumber (sign : List Int) (num : BitVec 64) (base : Nat) (v : Flags) : Except PrintFault (List Int) :=
  (printnum base v.padc.toInt 64 num.toNat v.width).map (sign ++ ·)

variable (str : BitVec 32 → List (BitVec 8)) (printError : BitVec 32 → Except PrintFault (List Int))

/-- The cases of the conversions: what is printed and the next argument, or `none` for a character that
is not known. `str` are the strings that the arguments point to. -/
def convert (ch : BitVec 8) (v : Flags) (ap : Nat) : Option (Except PrintFault (List Int × Nat)) :=
  if ch = 0x63#8 then some (.ok ([(args ap).toInt], ap + 1))
  else if ch = 0x65#8 then some ((printError (args ap)).map fun out => (out, ap + 1))
  else if ch = 0x73#8 then
    some (.ok (convertString (if args ap = 0#32 then bytes "(null)" else str (args ap)) v, ap + 1))
  else if ch = 0x64#8 then
    let num := getint args v.lflag ap
    some ((if num.toInt < 0 then convertNumber [0x2d] (-num) 10 v else convertNumber [] num 10 v).map
      fun out => (out, ap + intWords v.lflag))
  else if ch = 0x75#8 then
    some ((convertNumber [] (getuint args v.lflag ap) 10 v).map fun out => (out, ap + intWords v.lflag))
  else if ch = 0x6f#8 then
    some ((convertNumber [] (getuint args v.lflag ap) 8 v).map fun out => (out, ap + intWords v.lflag))
  else if ch = 0x70#8 then
    some ((convertNumber [0x30, 0x78] ((args ap).setWidth 64) 16 v).map fun out => (out, ap + 1))
  else if ch = 0x78#8 then
    some ((convertNumber [] (getuint args v.lflag ap) 16 v).map fun out => (out, ap + intWords v.lflag))
  else if ch = 0x25#8 then some (.ok ([0x25], ap))
  else none

variable (s : List (BitVec 8))

/-- The character of the format at this place; the last one is zero. -/
def fmtAt (i : Int) : Except PrintFault (BitVec 8) :=
  if 0 ≤ i ∧ i ≤ s.length then .ok (s.getD i.toNat 0#8) else .error (.format i)

/-- `for (precision = 0; ; ++fmt)`, when `fmt` is `i` -/
def readNumber : Nat → Int → BitVec 8 → BitVec 32 → Except PrintFault (BitVec 32 × Int)
  | 0, _, _, _ => .error .steps
  | fuel + 1, i, ch, precision => do
      let precision := precision * 10#32 + ch.setWidth 32 - 0x30#32
      let ch ← fmtAt s i
      if ch < 0x30#8 ∨ 0x39#8 < ch then .ok (precision, i) else readNumber fuel (i + 1) ch precision

/-- The cases at `reswitch` that go on with the next character, up to the character that is none of
them: it, the place behind it, and the flags and arguments. -/
def readFlags : Nat → Int → Flags → Nat → Except PrintFault (BitVec 8 × Int × Flags × Nat)
  | 0, _, _, _ => .error .steps
  | fuel + 1, i, v, ap => do
      let ch ← fmtAt s i
      if ch = 0x2d#8 then readFlags fuel (i + 1) { v with padc := 0x2d#8 } ap
      else if ch = 0x30#8 then readFlags fuel (i + 1) { v with padc := 0x30#8 } ap
      else if 0x31#8 ≤ ch ∧ ch ≤ 0x39#8 then do
        let n ← readNumber s fuel (i + 1) ch 0#32
        readFlags fuel n.2 (v.process n.1) ap
      else if ch = 0x2a#8 then readFlags fuel (i + 1) (v.process (args ap)) (ap + 1)
      else if ch = 0x2e#8 then
        readFlags fuel (i + 1) { v with width := if v.width.toInt < 0 then 0#32 else v.width } ap
      else if ch = 0x23#8 then readFlags fuel (i + 1) { v with altflag := true } ap
      else if ch = 0x6c#8 then readFlags fuel (i + 1) { v with lflag := v.lflag + 1#32 } ap
      else .ok (ch, i + 1, v, ap)

/-- `for (; fmt[-1] != '%'; fmt--)` -/
def goBack : Nat → Int → Except PrintFault Int
  | 0, _ => .error .steps
  | fuel + 1, i => do
      let ch ← fmtAt s (i - 1)
      if ch ≠ 0x25#8 then goBack fuel (i - 1) else .ok i

/-- The loop of `vprintfmt`: what it prints from the place `i` of the format on, with the arguments from
`ap` on. No loop over the format takes more steps than there are characters. -/
def formatLoop : Nat → Int → Nat → Except PrintFault (List Int)
  | 0, _, _ => .error .steps
  | fuel + 1, i, ap => do
      let ch ← fmtAt s i
      if ch ≠ 0x25#8 then
        if ch = 0#8 then .ok []
        else (formatLoop fuel (i + 1) ap).map ((ch.toNat : Int) :: ·)
      else do
        let (ch, j, v, ap) ← readFlags args s (s.length + 2) (i + 1) .init ap
        match convert args str printError ch v ap with
        | some r => do
            let (out, ap) ← r
            (formatLoop fuel j ap).map (out ++ ·)
        | none => do
            let i ← goBack s (s.length + 2) (j - 1)
            (formatLoop fuel i ap).map (0x25 :: ·)

end

/-- `vprintfmt`, given what `%e` prints. -/
def vprintfmtWith (printError : BitVec 32 → Except PrintFault (List Int)) (str : BitVec 32 → List (BitVec 8))
    (args : Nat → BitVec 32) (fmt : List (BitVec 8)) : Except PrintFault (List Int) :=
  formatLoop args str printError fmt (fmt.length + 1) 0 0

/-- The case of `%e`. The two formats that it calls `printfmt` with have no `%e`. -/
def printError (err : BitVec 32) : Except PrintFault (List Int) :=
  let err := if err.toInt < 0 then -err else err
  let unknown := vprintfmtWith (fun _ => .error .steps) (fun _ => []) (fun _ => err)
    [0x65#8, 0x72#8, 0x72#8, 0x6f#8, 0x72#8, 0x20#8, 0x25#8, 0x64#8]
  if maxError ≤ err.toInt then unknown
  else do
    match ← errorString err with
    | none => unknown
    | some p => vprintfmtWith (fun _ => .error .steps) (fun _ => bytes p) (fun _ => 1#32) [0x25#8, 0x73#8]

/-- `vprintfmt`: the characters that it prints. -/
def vprintfmt (str : BitVec 32 → List (BitVec 8)) (args : Nat → BitVec 32) (fmt : List (BitVec 8)) :
    Except PrintFault (List Int) := vprintfmtWith printError str args fmt

/-! ## The sequences of a format -/

/-- The characters that may stand between `%` and the character that says what is converted. -/
def isFlag (c : BitVec 8) : Bool :=
  decide (c = 0x2d#8 ∨ c = 0x2a#8 ∨ c = 0x2e#8 ∨ c = 0x23#8 ∨ c = 0x6c#8 ∨ 0x30#8 ≤ c ∧ c ≤ 0x39#8)

/-- The characters that say what is converted. -/
def conversions : List (BitVec 8) := [0x63#8, 0x65#8, 0x73#8, 0x64#8, 0x75#8, 0x6f#8, 0x70#8, 0x78#8, 0x25#8]

/-- How many arguments a conversion takes, besides those of its flags. -/
def convWords (c : BitVec 8) (lflag : BitVec 32) : Nat :=
  if c = 0x63#8 ∨ c = 0x65#8 ∨ c = 0x73#8 ∨ c = 0x70#8 then 1
  else if c = 0x64#8 ∨ c = 0x75#8 ∨ c = 0x6f#8 ∨ c = 0x78#8 then intWords lflag
  else 0

/-- The arguments that a format takes as error codes. Within a sequence, `some l` is the number of its
`l`. -/
def errorArgs : Option (BitVec 32) → Nat → List (BitVec 8) → List Nat
  | _, _, [] => []
  | none, ap, c :: fmt => if c = 0x25#8 then errorArgs (some 0#32) ap fmt else errorArgs none ap fmt
  | some l, ap, c :: fmt =>
      if isFlag c then
        errorArgs (some (if c = 0x6c#8 then l + 1#32 else l)) (if c = 0x2a#8 then ap + 1 else ap) fmt
      else if c = 0x65#8 then ap :: errorArgs none (ap + 1) fmt
      else errorArgs none (ap + convWords c l) fmt

/-- It is printed. -/
def Prints (r : Except PrintFault (List Int)) : Prop := ∃ out, r = .ok out

/-- The characters themselves. -/
def echo (text : List (BitVec 8)) : List Int := text.map fun c => (c.toNat : Int)

section

variable {args : Nat → BitVec 32} {str : BitVec 32 → List (BitVec 8)}
  {pe : BitVec 32 → Except PrintFault (List Int)} {s l flags text rest : List (BitVec 8)} {c : BitVec 8} {v : Flags} {i j ap fuel n base : Nat}

/-! ## Reading the format -/

theorem fmtAt_cons (h : s.drop i = c :: rest) : fmtAt s i = .ok c := by
  have hi : i < s.length := by
    by_contra hge
    rw [List.drop_eq_nil_of_le (Nat.not_lt.mp hge)] at h
    cases h
  unfold fmtAt
  rw [if_pos ⟨by omega, by omega⟩, Int.toNat_natCast, List.getD_eq_getElem _ _ hi]
  rw [List.drop_eq_getElem_cons hi] at h
  rw [(List.cons.inj h).1]

theorem fmtAt_nil (h : s.drop i = []) (hi : i ≤ s.length) : fmtAt s i = .ok 0#8 := by
  have hlen : i = s.length := Nat.le_antisymm hi (List.drop_eq_nil_iff.mp h)
  unfold fmtAt
  rw [if_pos ⟨by omega, by omega⟩, Int.toNat_natCast, List.getD_eq_default _ _ (Nat.le_of_eq hlen.symm)]

theorem drop_tail (h : s.drop i = c :: rest) : s.drop (i + 1) = rest := by
  rw [← List.drop_drop, h]
  rfl

theorem drop_append (h : s.drop i = l ++ rest) : s.drop (i + l.length) = rest := by
  rw [← List.drop_drop, h, List.drop_left]

theorem lt_of_drop (h : s.drop i = c :: rest) : i < s.length := by
  by_contra hge
  rw [List.drop_eq_nil_of_le (Nat.not_lt.mp hge)] at h
  cases h

/-- What is read at the end of a list of characters. -/
def headOrZero : List (BitVec 8) → BitVec 8
  | [] => 0#8
  | c :: _ => c

theorem fmtAt_drop (hi : i ≤ s.length) : fmtAt s i = .ok (headOrZero (s.drop i)) := by
  cases h : s.drop i with
  | nil => exact fmtAt_nil h hi
  | cons c rest => exact fmtAt_cons h

theorem length_of_drop (h : s.drop i = l ++ rest) (hi : i ≤ s.length) : i + l.length ≤ s.length := by
  have hlen := congrArg List.length h
  rw [List.length_drop, List.length_append] at hlen
  omega

/-- A number is read up to a character that is no digit. -/
theorem readNumber_ok {ch : BitVec 8} {precision : BitVec 32} (hi : i ≤ s.length) (hfuel : s.length < i + fuel) :
    ∃ precision' l rest, s.drop i = l ++ rest ∧ (∀ c ∈ l, 0x30#8 ≤ c ∧ c ≤ 0x39#8) ∧
      readNumber s fuel i ch precision = .ok (precision', ((i + l.length : Nat) : Int)) := by
  induction fuel generalizing i ch precision with
  | zero => omega
  | succ fuel ih =>
      unfold readNumber
      rw [fmtAt_drop hi]
      change ∃ precision' l rest, _ ∧ _ ∧
        (if headOrZero (s.drop i) < 0x30#8 ∨ 0x39#8 < headOrZero (s.drop i) then _ else _) = _
      by_cases hd : headOrZero (s.drop i) < 0x30#8 ∨ 0x39#8 < headOrZero (s.drop i)
      · rw [if_pos hd]
        exact ⟨_, [], s.drop i, rfl, fun c hc => absurd hc List.not_mem_nil, rfl⟩
      · rw [if_neg hd]
        cases h : s.drop i with
        | nil =>
            rw [h] at hd
            exact absurd (Or.inl (by decide)) hd
        | cons d rest =>
            rw [h] at hd
            obtain ⟨hd1, hd2⟩ := not_or.mp hd
            have hlt := lt_of_drop h
            obtain ⟨precision', l, rest', hdrop, hall, hrun⟩ :=
              @ih (i + 1) d (precision * 10#32 + ch.setWidth 32 - 0x30#32) hlt (by omega)
            rw [drop_tail h] at hdrop
            refine ⟨precision', d :: l, rest', by rw [hdrop]; rfl, fun c hc => ?_, ?_⟩
            · rcases List.mem_cons.mp hc with rfl | hc
              · exact ⟨BitVec.not_lt.mp hd1, BitVec.not_lt.mp hd2⟩
              · exact hall c hc
            · rw [List.length_cons, Nat.add_comm l.length 1, ← Nat.add_assoc]
              exact hrun

/-- The arguments that flags take, and the `l` among them. -/
def starCount (l : List (BitVec 8)) : Nat := l.count 0x2a#8

def longCount (l : List (BitVec 8)) : BitVec 32 := BitVec.ofNat 32 (l.count 0x6c#8)

theorem digit_isFlag (h : 0x30#8 ≤ c ∧ c ≤ 0x39#8) : isFlag c = true :=
  decide_eq_true (Or.inr (Or.inr (Or.inr (Or.inr (Or.inr h)))))

theorem count_digits (h : ∀ c ∈ l, 0x30#8 ≤ c ∧ c ≤ 0x39#8) (hc : ¬ (0x30#8 ≤ c ∧ c ≤ 0x39#8)) : l.count c = 0 :=
  List.count_eq_zero.mpr fun hmem => hc (h c hmem)

theorem starCount_append (l l' : List (BitVec 8)) : starCount (l ++ l') = starCount l + starCount l' :=
  List.count_append

theorem longCount_append (l l' : List (BitVec 8)) : longCount (l ++ l') = longCount l + longCount l' := by
  unfold longCount
  rw [List.count_append, BitVec.ofNat_add]

/-- The flags that are read, up to a character that is none. -/
structure FlagsRead (args : Nat → BitVec 32) (s : List (BitVec 8)) (fuel i : Nat) (v : Flags) (ap : Nat)
    (flags rest : List (BitVec 8)) (v' : Flags) : Prop where
  split : s.drop i = flags ++ rest
  isFlag : ∀ c ∈ flags, isFlag c = true
  stop : Jos.User.isFlag (headOrZero rest) = false
  run : readFlags args s fuel i v ap =
    .ok (headOrZero rest, ((i + flags.length + 1 : Nat) : Int), v', ap + starCount flags)
  lflag : v'.lflag = v.lflag + longCount flags

/-- Some flags more, in front. -/
theorem FlagsRead.cons {fuel' : Nat} {v' v'' : Flags}
    (h : FlagsRead args s fuel (i + l.length) v' (ap + starCount l) flags rest v'')
    (hl : s.drop i = l ++ s.drop (i + l.length)) (hflag : ∀ c ∈ l, Jos.User.isFlag c = true)
    (hrun : readFlags args s fuel' i v ap = readFlags args s fuel ((i + l.length : Nat) : Int) v' (ap + starCount l))
    (hlflag : v'.lflag = v.lflag + longCount l) : FlagsRead args s fuel' i v ap (l ++ flags) rest v'' := by
  obtain ⟨h1, h2, h3, h4, h5⟩ := h
  refine ⟨?_, fun c hc => ?_, h3, ?_, ?_⟩
  · rw [hl, h1, List.append_assoc]
  · exact (List.mem_append.mp hc).elim (hflag c) (h2 c)
  · rw [hrun, h4, List.length_append, starCount_append, Nat.add_assoc i, Nat.add_assoc ap]
  · rw [h5, hlflag, longCount_append, BitVec.add_assoc]

theorem process_lflag (v : Flags) (precision : BitVec 32) : (v.process precision).lflag = v.lflag := by
  unfold Flags.process
  split
  · rfl
  · rfl

theorem readFlags_eq {ch : BitVec 8} (hat : fmtAt s i = .ok ch) : readFlags args s (fuel + 1) i v ap =
    if ch = 0x2d#8 then readFlags args s fuel (i + 1) { v with padc := 0x2d#8 } ap
    else if ch = 0x30#8 then readFlags args s fuel (i + 1) { v with padc := 0x30#8 } ap
    else if 0x31#8 ≤ ch ∧ ch ≤ 0x39#8 then
      (readNumber s fuel (i + 1) ch 0#32).bind fun n => readFlags args s fuel n.2 (v.process n.1) ap
    else if ch = 0x2a#8 then readFlags args s fuel (i + 1) (v.process (args ap)) (ap + 1)
    else if ch = 0x2e#8 then
      readFlags args s fuel (i + 1) { v with width := if v.width.toInt < 0 then 0#32 else v.width } ap
    else if ch = 0x23#8 then readFlags args s fuel (i + 1) { v with altflag := true } ap
    else if ch = 0x6c#8 then readFlags args s fuel (i + 1) { v with lflag := v.lflag + 1#32 } ap
    else .ok (ch, i + 1, v, ap) := by
  conv =>
    lhs
    unfold readFlags
  rw [hat]
  rfl

/-- Where the flags end. -/
theorem flagsRead_stop (h : s.drop i = rest) (hstop : isFlag (headOrZero rest) = false)
    (hrun : readFlags args s fuel i v ap = .ok (headOrZero rest, (i : Int) + 1, v, ap)) :
    FlagsRead args s fuel i v ap [] rest v :=
  ⟨h, fun _ hc => absurd hc List.not_mem_nil, hstop, hrun, (BitVec.add_zero _).symm⟩

theorem readFlags_ok (hi : i ≤ s.length) (hfuel : s.length < i + fuel) :
    ∃ flags rest v', FlagsRead args s fuel i v ap flags rest v' := by
  induction fuel generalizing i v ap with
  | zero => omega
  | succ fuel ih =>
      cases h : s.drop i with
      | nil => exact ⟨[], [], v, flagsRead_stop h (by decide) (readFlags_eq (fmtAt_nil h hi))⟩
      | cons ch rest =>
          have hrun := @readFlags_eq args s v i ap fuel ch (fmtAt_cons h)
          have hlt := lt_of_drop h
          have htail := drop_tail h
          -- Some flags, and those behind them.
          have hmore : ∀ l v1, ch :: rest = l ++ s.drop (i + l.length) → 0 < l.length → (∀ c ∈ l, isFlag c = true) →
              v1.lflag = v.lflag + longCount l → readFlags args s (fuel + 1) i v ap =
                readFlags args s fuel ((i + l.length : Nat) : Int) v1 (ap + starCount l) →
              ∃ flags rest v', FlagsRead args s (fuel + 1) i v ap flags rest v' := by
            intro l v1 hl hpos hflag hlflag hrun
            rw [← h] at hl
            have hle := length_of_drop hl hi
            obtain ⟨flags, rest', v', hread⟩ := @ih v1 (i + l.length) (ap + starCount l) hle (by omega)
            exact ⟨l ++ flags, rest', v', hread.cons hl hflag hrun hlflag⟩
          have hone : ∀ v1, isFlag ch = true → readFlags args s (fuel + 1) i v ap =
                readFlags args s fuel ((i : Int) + 1) v1 (ap + starCount [ch]) →
              v1.lflag = v.lflag + longCount [ch] →
              ∃ flags rest v', FlagsRead args s (fuel + 1) i v ap flags rest v' := by
            intro v1 hflag hrun hlflag
            refine hmore [ch] v1 ?_ (Nat.succ_pos 0) (fun c hc => ?_) hlflag hrun
            · rw [List.length_singleton, htail]
              rfl
            · rw [List.mem_singleton.mp hc]
              exact hflag
          by_cases h1 : ch = 0x2d#8
          · rw [if_pos h1] at hrun
            subst h1
            exact hone _ (by decide) hrun (BitVec.add_zero _).symm
          rw [if_neg h1] at hrun
          by_cases h2 : ch = 0x30#8
          · rw [if_pos h2] at hrun
            subst h2
            exact hone _ (by decide) hrun (BitVec.add_zero _).symm
          rw [if_neg h2] at hrun
          by_cases h3 : 0x31#8 ≤ ch ∧ ch ≤ 0x39#8
          · rw [if_pos h3] at hrun
            obtain ⟨precision, l, rest', hdrop, hdigits, hnum⟩ :=
              @readNumber_ok s (i + 1) fuel ch 0#32 hlt (by omega)
            have hdigits' : ∀ c ∈ ch :: l, 0x30#8 ≤ c ∧ c ≤ 0x39#8 := by
              intro c hc
              rcases List.mem_cons.mp hc with rfl | hc
              · exact ⟨by bv_omega, h3.2⟩
              · exact hdigits c hc
            have hstar : starCount (ch :: l) = 0 := count_digits hdigits' (by decide)
            have hlong : longCount (ch :: l) = 0#32 := by
              unfold longCount
              rw [count_digits hdigits' (by decide)]
            refine hmore (ch :: l) (v.process precision) ?_ (Nat.succ_pos _)
              (fun c hc => digit_isFlag (hdigits' c hc)) ?_ ?_
            · rw [List.length_cons, Nat.add_comm l.length 1, ← Nat.add_assoc, drop_append hdrop, ← htail, hdrop]
              rfl
            · rw [process_lflag, hlong, BitVec.add_zero]
            · have hcast : ((i + 1 : Nat) : Int) = (i : Int) + 1 := rfl
              rw [hrun, ← hcast, hnum, hstar, List.length_cons, Nat.add_comm l.length 1, ← Nat.add_assoc]
              rfl
          rw [if_neg h3] at hrun
          by_cases h4 : ch = 0x2a#8
          · rw [if_pos h4] at hrun
            subst h4
            exact hone _ (by decide) hrun ((process_lflag _ _).trans (BitVec.add_zero _).symm)
          rw [if_neg h4] at hrun
          by_cases h5 : ch = 0x2e#8
          · rw [if_pos h5] at hrun
            subst h5
            exact hone _ (by decide) hrun (BitVec.add_zero _).symm
          rw [if_neg h5] at hrun
          by_cases h6 : ch = 0x23#8
          · rw [if_pos h6] at hrun
            subst h6
            exact hone _ (by decide) hrun (BitVec.add_zero _).symm
          rw [if_neg h6] at hrun
          by_cases h7 : ch = 0x6c#8
          · rw [if_pos h7] at hrun
            subst h7
            exact hone _ (by decide) hrun rfl
          rw [if_neg h7] at hrun
          refine ⟨[], ch :: rest, v, flagsRead_stop h (decide_eq_false ?_) hrun⟩
          rintro (h | h | h | h | h | h)
          · exact h1 h
          · exact h4 h
          · exact h5 h
          · exact h6 h
          · exact h7 h
          · have h30 : 0x30#8 ≤ ch := h.1
            exact h3 ⟨by bv_omega, h.2⟩

/-! ## The conversions -/

theorem digit_ok (h : n < 16) : ∃ d, digit n = .ok d := by
  unfold digit
  rw [List.getElem?_eq_getElem (h : n < [0x30, 0x31, 0x32, 0x33, 0x34, 0x35, 0x36, 0x37, 0x38, 0x39, 0x61, 0x62, 0x63,
    0x64, 0x65, 0x66].length)]
  exact ⟨_, rfl⟩

theorem printnum_ok {padc : Int} {width : BitVec 32} (h2 : 2 ≤ base) (h16 : base ≤ 16) (hn : n < 2 ^ (fuel + 1)) :
    Prints (printnum base padc (fuel + 1) n width) := by
  induction fuel generalizing n width with
  | zero =>
      obtain ⟨d, hd⟩ := @digit_ok (n % base) (Nat.lt_of_lt_of_le (Nat.mod_lt _ (by omega)) h16)
      unfold printnum
      rw [if_neg (by omega), hd]
      exact ⟨_, rfl⟩
  | succ fuel ih =>
      obtain ⟨d, hd⟩ := @digit_ok (n % base) (Nat.lt_of_lt_of_le (Nat.mod_lt _ (by omega)) h16)
      unfold printnum
      rw [hd]
      split
      · have hdiv : n / base < 2 ^ (fuel + 1) := by
          rw [pow_succ] at hn
          exact Nat.div_lt_of_lt_mul (Nat.lt_of_lt_of_le hn (by rw [Nat.mul_comm]; exact Nat.mul_le_mul_right _ h2))
        obtain ⟨out, hout⟩ := @ih (n / base) (width - 1#32) hdiv
        rw [hout]
        exact ⟨_, rfl⟩
      · exact ⟨_, rfl⟩

theorem convertNumber_ok (sign : List Int) (num : BitVec 64) (h2 : 2 ≤ base) (h16 : base ≤ 16) (v : Flags) :
    Prints (convertNumber sign num base v) := by
  have hprints : Prints (printnum base v.padc.toInt (63 + 1) num.toNat v.width) := printnum_ok h2 h16 num.isLt
  obtain ⟨out, hout⟩ := hprints
  refine ⟨sign ++ out, ?_⟩
  unfold convertNumber
  rw [hout]
  rfl

theorem converts_map {r : Except PrintFault (List Int)} (h : Prints r) (ap : Nat) :
    ∃ out, r.map (fun out => (out, ap)) = .ok (out, ap) := by
  obtain ⟨out, rfl⟩ := h
  exact ⟨out, rfl⟩

/-- A conversion other than `%e` prints something. -/
theorem convert_ok (hc : c ∈ conversions) (he : c ≠ 0x65#8) (v : Flags) (ap : Nat) :
    ∃ out, convert args str pe c v ap = some (.ok (out, ap + convWords c v.lflag)) := by
  have hnum : ∀ sign num base, 2 ≤ base → base ≤ 16 → ∀ ap', ∃ out,
      (convertNumber sign num base v).map (fun out => (out, ap')) = .ok (out, ap') :=
    fun sign num base h2 h16 ap' => converts_map (convertNumber_ok sign num h2 h16 v) ap'
  have hsome : ∀ (r : Except PrintFault (List Int × Nat)) ap', (∃ out, r = .ok (out, ap')) →
      ∃ out, some r = some (.ok (out, ap')) := by
    rintro r ap' ⟨out, rfl⟩
    exact ⟨out, rfl⟩
  unfold conversions at hc
  simp only [List.mem_cons, List.not_mem_nil, or_false] at hc
  rcases hc with rfl | rfl | rfl | rfl | rfl | rfl | rfl | rfl | rfl
  · exact ⟨_, rfl⟩
  · exact absurd rfl he
  · exact ⟨_, rfl⟩
  · by_cases hneg : (getint args v.lflag ap).toInt < 0
    · refine hsome _ _ ?_
      rw [if_pos hneg]
      exact hnum _ _ 10 (by decide) (by decide) _
    · refine hsome _ _ ?_
      rw [if_neg hneg]
      exact hnum _ _ 10 (by decide) (by decide) _
  · exact hsome _ _ (hnum _ _ 10 (by decide) (by decide) _)
  · exact hsome _ _ (hnum _ _ 8 (by decide) (by decide) _)
  · exact hsome _ _ (hnum _ _ 16 (by decide) (by decide) _)
  · exact hsome _ _ (hnum _ _ 16 (by decide) (by decide) _)
  · exact ⟨_, rfl⟩

theorem convert_error (v : Flags) (ap : Nat) :
    convert args str pe 0x65#8 v ap = some ((pe (args ap)).map fun out => (out, ap + 1)) := rfl

theorem convert_unknown (hc : c ∉ conversions) (v : Flags) (ap : Nat) : convert args str pe c v ap = none := by
  unfold conversions at hc
  simp only [List.mem_cons, List.not_mem_nil, or_false, not_or] at hc
  obtain ⟨h1, h2, h3, h4, h5, h6, h7, h8, h9⟩ := hc
  unfold convert
  rw [if_neg h1, if_neg h2, if_neg h3, if_neg h4, if_neg h5, if_neg h6, if_neg h7, if_neg h8, if_neg h9]

/-! ## The loop -/

/-- The pointer goes back to the `%`. -/
theorem goBack_ok (h : s.drop i = 0x25#8 :: (l ++ rest)) (hl : 0x25#8 ∉ l) (hk : n ≤ l.length) (hfuel : n < fuel) :
    goBack s fuel ((i + 1 + n : Nat) : Int) = .ok ((i + 1 : Nat) : Int) := by
  induction n generalizing fuel with
  | zero =>
      cases fuel with
      | zero => exact absurd hfuel (Nat.not_lt_zero _)
      | succ fuel =>
          have hat : fmtAt s (((i + 1 + 0 : Nat) : Int) - 1) = .ok 0x25#8 := by
            have hcast : ((i + 1 + 0 : Nat) : Int) - 1 = (i : Int) := by omega
            rw [hcast]
            exact fmtAt_cons h
          unfold goBack
          rw [hat]
          rfl
  | succ n ih =>
      cases fuel with
      | zero => exact absurd hfuel (Nat.not_lt_zero _)
      | succ fuel =>
          have hn : n < l.length := hk
          have hdrop : s.drop (i + 1 + n) = l.get ⟨n, hn⟩ :: (l.drop (n + 1) ++ rest) := by
            rw [← List.drop_drop, drop_tail h, List.drop_append_of_le_length (Nat.le_of_lt hn),
              List.drop_eq_getElem_cons hn]
            rfl
          have hat : fmtAt s (((i + 1 + (n + 1) : Nat) : Int) - 1) = .ok (l.get ⟨n, hn⟩) := by
            have hcast : ((i + 1 + (n + 1) : Nat) : Int) - 1 = ((i + 1 + n : Nat) : Int) := by omega
            rw [hcast]
            exact fmtAt_cons hdrop
          have hne : l.get ⟨n, hn⟩ ≠ 0x25#8 := fun heq => hl (heq ▸ List.get_mem l ⟨n, hn⟩)
          have hcast : ((i + 1 + (n + 1) : Nat) : Int) - 1 = ((i + 1 + n : Nat) : Int) := by omega
          unfold goBack
          rw [hat]
          change (if l.get ⟨n, hn⟩ ≠ 0x25#8 then goBack s fuel (((i + 1 + (n + 1) : Nat) : Int) - 1) else _) = _
          rw [if_pos hne, hcast]
          exact ih (Nat.le_of_lt hk) (Nat.lt_of_succ_lt_succ hfuel)

/-- A character that is no `%`. -/
theorem formatLoop_literal (h : s.drop i = c :: rest) (hc : c ≠ 0x25#8) (h0 : c ≠ 0#8) :
    formatLoop args str pe s (fuel + 1) i ap =
      (formatLoop args str pe s fuel ((i + 1 : Nat) : Int) ap).map ((c.toNat : Int) :: ·) := by
  conv =>
    lhs
    unfold formatLoop
  rw [fmtAt_cons h]
  change (if c ≠ 0x25#8 then if c = 0#8 then _ else _ else _) = _
  rw [if_pos hc, if_neg h0]
  rfl

theorem formatLoop_end (h : s.drop i = []) (hi : i ≤ s.length) :
    formatLoop args str pe s (fuel + 1) i ap = .ok [] := by
  unfold formatLoop
  rw [fmtAt_nil h hi]
  rfl

/-- A sequence. -/
theorem formatLoop_escape {flags : List (BitVec 8)} {v : Flags} (h : s.drop i = 0x25#8 :: rest)
    (hr : FlagsRead args s (s.length + 2) (i + 1) .init ap flags l v) :
    formatLoop args str pe s (fuel + 1) i ap =
      match convert args str pe (headOrZero l) v (ap + starCount flags) with
      | some r => r.bind fun x =>
          (formatLoop args str pe s fuel ((i + flags.length + 2 : Nat) : Int) x.2).map (x.1 ++ ·)
      | none => (goBack s (s.length + 2) ((i + 1 + flags.length : Nat) : Int)).bind fun i =>
          (formatLoop args str pe s fuel i (ap + starCount flags)).map (0x25 :: ·) := by
  have hplace : ((i + 1 + flags.length + 1 : Nat) : Int) = ((i + flags.length + 2 : Nat) : Int) := by omega
  have hback : ((i + flags.length + 2 : Nat) : Int) - 1 = ((i + 1 + flags.length : Nat) : Int) := by omega
  have hrun : readFlags args s (s.length + 2) ((i : Int) + 1) .init ap =
      .ok (headOrZero l, ((i + flags.length + 2 : Nat) : Int), v, ap + starCount flags) := by
    rw [← hplace]
    exact hr.run
  conv =>
    lhs
    unfold formatLoop
  rw [fmtAt_cons h]
  dsimp only [bind, Except.bind]
  rw [if_neg (fun hne => hne rfl), hrun]
  dsimp only
  cases hconv : convert args str pe (headOrZero l) v (ap + starCount flags) with
  | none => rw [← hback]
  | some r => rfl

theorem headOrZero_conversion (h : headOrZero l ∈ conversions) : ∃ rest, l = headOrZero l :: rest := by
  cases l with
  | nil => exact absurd h (by decide)
  | cons c l => exact ⟨l, rfl⟩

/-- The place behind a conversion is in the format. -/
theorem FlagsRead.behind {flags : List (BitVec 8)} {v : Flags}
    (h : FlagsRead args s fuel (i + 1) .init ap flags l v) (hi : i < s.length) (hc : headOrZero l ∈ conversions) :
    i + flags.length + 2 ≤ s.length ∧ ∃ rest, s.drop (i + flags.length + 2) = rest ∧ l = headOrZero l :: rest := by
  obtain ⟨rest, hl⟩ := headOrZero_conversion hc
  have hplace : i + flags.length + 2 = i + 1 + (flags ++ [headOrZero l]).length := by
    rw [List.length_append, List.length_singleton]
    omega
  have hsplit : s.drop (i + 1) = (flags ++ [headOrZero l]) ++ rest := by
    rw [List.append_assoc, List.singleton_append, ← hl]
    exact h.split
  rw [hplace]
  exact ⟨length_of_drop hsplit hi, rest, drop_append hsplit, hl⟩

theorem percent_not_flag {flags : List (BitVec 8)} (h : ∀ c ∈ flags, isFlag c = true) : 0x25#8 ∉ flags := by
  intro hmem
  exact absurd (h _ hmem) (by decide)

/-- A sequence that ends in the character of a conversion. -/
theorem formatLoop_known {flags : List (BitVec 8)} {v : Flags} (h : s.drop i = 0x25#8 :: rest)
    (hr : FlagsRead args s (s.length + 2) (i + 1) .init ap flags l v) (hc : headOrZero l ∈ conversions) :
    ∃ r, convert args str pe (headOrZero l) v (ap + starCount flags) = some r ∧ ∀ fuel,
      formatLoop args str pe s (fuel + 1) i ap = r.bind fun x =>
        (formatLoop args str pe s fuel ((i + flags.length + 2 : Nat) : Int) x.2).map (x.1 ++ ·) := by
  have hsome : ∃ r, convert args str pe (headOrZero l) v (ap + starCount flags) = some r := by
    by_cases he : headOrZero l = 0x65#8
    · rw [he]
      exact ⟨_, convert_error v _⟩
    · obtain ⟨out, hout⟩ := @convert_ok args str pe _ hc he v (ap + starCount flags)
      exact ⟨_, hout⟩
  obtain ⟨r, hconv⟩ := hsome
  refine ⟨r, hconv, fun fuel => ?_⟩
  rw [formatLoop_escape h hr, hconv]

/-- A sequence that ends in another character. -/
theorem formatLoop_unknown {flags : List (BitVec 8)} {v : Flags} (h : s.drop i = 0x25#8 :: rest)
    (hr : FlagsRead args s (s.length + 2) (i + 1) .init ap flags l v) (hc : headOrZero l ∉ conversions) :
    formatLoop args str pe s (fuel + 1) i ap =
      (formatLoop args str pe s fuel ((i + 1 : Nat) : Int) (ap + starCount flags)).map (0x25 :: ·) := by
  have hdrop : s.drop i = 0x25#8 :: (flags ++ l) := by
    rw [h, ← hr.split, drop_tail h]
  have hlen := length_of_drop hr.split (lt_of_drop h)
  rw [formatLoop_escape h hr, convert_unknown hc]
  dsimp only
  rw [goBack_ok hdrop (percent_not_flag hr.isFlag) (Nat.le_refl _) (by omega)]
  rfl

/-- Enough fuel gives the result. -/
theorem formatLoop_fuel (fuel' : Nat) (hi : i ≤ s.length) (h : s.length < i + fuel) (h' : s.length < i + fuel') :
    formatLoop args str pe s fuel i ap = formatLoop args str pe s fuel' i ap := by
  induction fuel generalizing i ap fuel' with
  | zero => omega
  | succ fuel ih =>
      cases fuel' with
      | zero => omega
      | succ fuel' =>
          cases hs : s.drop i with
          | nil => rw [formatLoop_end hs hi, formatLoop_end hs hi]
          | cons c rest =>
              have hlt := lt_of_drop hs
              by_cases hc : c = 0x25#8
              · subst hc
                obtain ⟨flags, l, v, hr⟩ := @readFlags_ok args s .init (i + 1) ap (s.length + 2) hlt (by omega)
                by_cases hconv : headOrZero l ∈ conversions
                · obtain ⟨hle, -⟩ := hr.behind hlt hconv
                  obtain ⟨r, -, hrun⟩ := @formatLoop_known args str pe s l rest i ap flags v hs hr hconv
                  rw [hrun, hrun]
                  refine congrArg r.bind (funext fun x => ?_)
                  rw [ih fuel' hle (by omega) (by omega)]
                · rw [formatLoop_unknown hs hr hconv, formatLoop_unknown hs hr hconv,
                    ih fuel' hlt (by omega) (by omega)]
              · by_cases h0 : c = 0#8
                · subst h0
                  have hzero : ∀ fuel, formatLoop args str pe s (fuel + 1) i ap = .ok [] := by
                    intro fuel
                    unfold formatLoop
                    rw [fmtAt_cons hs]
                    rfl
                  rw [hzero, hzero]
                · rw [formatLoop_literal hs hc h0, formatLoop_literal hs hc h0,
                    ih fuel' hlt (by omega) (by omega)]

end

/-! ## The whole format -/

section

variable (args : Nat → BitVec 32) (str : BitVec 32 → List (BitVec 8))
  (pe : BitVec 32 → Except PrintFault (List Int)) (s : List (BitVec 8))

/-- What is printed from the place `i` on. -/
def formatFrom (i ap : Nat) : Except PrintFault (List Int) := formatLoop args str pe s (s.length + 1) i ap

variable {args str pe s} {l flags rest : List (BitVec 8)} {c : BitVec 8} {v : Flags} {i ap k : Nat}
  {r : Except PrintFault (List Int)}

theorem formatFrom_end (h : s.drop i = []) (hi : i ≤ s.length) : formatFrom args str pe s i ap = .ok [] :=
  formatLoop_end h hi

theorem formatFrom_literal (h : s.drop i = c :: rest) (hc : c ≠ 0x25#8) (h0 : c ≠ 0#8) :
    formatFrom args str pe s i ap = (formatFrom args str pe s (i + 1) ap).map ((c.toNat : Int) :: ·) := by
  have hlt := lt_of_drop h
  unfold formatFrom
  rw [formatLoop_literal h hc h0, formatLoop_fuel (s.length + 1) hlt (by omega) (by omega)]

theorem formatFrom_known (h : s.drop i = 0x25#8 :: rest)
    (hr : FlagsRead args s (s.length + 2) (i + 1) .init ap flags l v) (hc : headOrZero l ∈ conversions) :
    ∃ r, convert args str pe (headOrZero l) v (ap + starCount flags) = some r ∧
      formatFrom args str pe s i ap = r.bind fun x =>
        (formatFrom args str pe s (i + flags.length + 2) x.2).map (x.1 ++ ·) := by
  obtain ⟨r, hconv, hrun⟩ := @formatLoop_known args str pe s l rest i ap flags v h hr hc
  obtain ⟨hle, -⟩ := hr.behind (lt_of_drop h) hc
  refine ⟨r, hconv, (hrun _).trans (congrArg r.bind (funext fun x => ?_))⟩
  unfold formatFrom
  rw [formatLoop_fuel (s.length + 1) hle (by omega) (by omega)]

theorem formatFrom_unknown (h : s.drop i = 0x25#8 :: rest)
    (hr : FlagsRead args s (s.length + 2) (i + 1) .init ap flags l v) (hc : headOrZero l ∉ conversions) :
    formatFrom args str pe s i ap =
      (formatFrom args str pe s (i + 1) (ap + starCount flags)).map (0x25 :: ·) := by
  have hlt := lt_of_drop h
  unfold formatFrom
  rw [formatLoop_unknown h hr hc, formatLoop_fuel (s.length + 1) hlt (by omega) (by omega)]

theorem formatFrom_literals (h : s.drop i = l ++ rest) (hl : 0x25#8 ∉ l) (h0 : 0#8 ∉ l) :
    formatFrom args str pe s i ap = (formatFrom args str pe s (i + l.length) ap).map (echo l ++ ·) := by
  induction l generalizing i with
  | nil =>
      unfold echo
      cases formatFrom args str pe s i ap with
      | error f => rfl
      | ok out => rfl
  | cons c l ih =>
      have hc : c ≠ 0x25#8 := fun heq => hl (List.mem_cons.mpr (Or.inl heq.symm))
      have hc0 : c ≠ 0#8 := fun heq => h0 (List.mem_cons.mpr (Or.inl heq.symm))
      rw [formatFrom_literal h hc hc0,
        ih (drop_tail h) (List.not_mem_of_not_mem_cons hl) (List.not_mem_of_not_mem_cons h0), List.length_cons,
        Nat.add_comm l.length 1, ← Nat.add_assoc]
      cases formatFrom args str pe s (i + 1 + l.length) ap with
      | error f => rfl
      | ok out => rfl

/-- A sequence that ends in a character that is not known, or with the format. -/
structure UnknownSequence (s : List (BitVec 8)) (i : Nat) (flags last rest : List (BitVec 8)) : Prop where
  split : s.drop i = 0x25#8 :: (flags ++ (last ++ rest))
  isFlag : ∀ c ∈ flags, isFlag c = true
  last : last = [] ∧ rest = [] ∨ ∃ c, last = [c] ∧ Jos.User.isFlag c = false ∧ c ∉ conversions

theorem split_unique {flags' l' : List (BitVec 8)} (h : flags ++ l = flags' ++ l')
    (h1 : ∀ c ∈ flags, isFlag c = true) (h2 : ∀ c ∈ flags', isFlag c = true)
    (h3 : isFlag (headOrZero l) = false) (h4 : isFlag (headOrZero l') = false) :
    flags = flags' ∧ l = l' := by
  induction flags generalizing flags' with
  | nil =>
      cases flags' with
      | nil => exact ⟨rfl, h⟩
      | cons d flags' =>
          have hl : l = d :: (flags' ++ l') := h
          rw [hl] at h3
          exact absurd (h2 d List.mem_cons_self) (Bool.eq_false_iff.mp h3)
  | cons c flags ih =>
      cases flags' with
      | nil =>
          have hl : l' = c :: (flags ++ l) := h.symm
          rw [hl] at h4
          exact absurd (h1 c List.mem_cons_self) (Bool.eq_false_iff.mp h4)
      | cons d flags' =>
          obtain ⟨rfl, htail⟩ := List.cons.inj h
          obtain ⟨rfl, rfl⟩ := ih htail (fun c hc => h1 c (List.mem_cons_of_mem _ hc))
            (fun c hc => h2 c (List.mem_cons_of_mem _ hc))
          exact ⟨rfl, rfl⟩

/-- Such a sequence is printed as it is, and the formatting goes on behind it. -/
theorem formatFrom_echo {last : List (BitVec 8)} (hnz : 0#8 ∉ s) (h : UnknownSequence s i flags last rest) :
    formatFrom args str pe s i ap = (formatFrom args str pe s (i + 1 + (flags ++ last).length)
      (ap + starCount flags)).map (echo (0x25#8 :: (flags ++ last)) ++ ·) := by
  have hlt := lt_of_drop h.split
  have htail := drop_tail h.split
  have hstop : isFlag (headOrZero (last ++ rest)) = false ∧ headOrZero (last ++ rest) ∉ conversions ∧
      0x25#8 ∉ last := by
    rcases h.last with ⟨rfl, rfl⟩ | ⟨c, rfl, hflag, hconv⟩
    · exact ⟨by decide, by decide, List.not_mem_nil⟩
    · refine ⟨hflag, hconv, fun hmem => ?_⟩
      rw [← List.mem_singleton.mp hmem] at hconv
      exact hconv (by decide)
  obtain ⟨flags', l, v, hr⟩ := @readFlags_ok args s .init (i + 1) ap (s.length + 2) hlt (by omega)
  have hsplit := hr.split
  rw [htail] at hsplit
  obtain ⟨rfl, rfl⟩ := split_unique hsplit h.isFlag hr.isFlag hstop.1 hr.stop
  rw [← List.append_assoc] at htail
  have hnotin : 0x25#8 ∉ flags ++ last := by
    intro hmem
    exact (List.mem_append.mp hmem).elim (percent_not_flag h.isFlag) hstop.2.2
  have hnz' : 0#8 ∉ flags ++ last := by
    intro hmem
    refine hnz (List.drop_subset (i + 1) s ?_)
    rw [htail]
    exact List.mem_append_left _ hmem
  rw [formatFrom_unknown h.split hr hstop.2.1, formatFrom_literals htail hnotin hnz']
  cases formatFrom args str pe s (i + 1 + (flags ++ last).length) (ap + starCount flags) with
  | error f => rfl
  | ok out => rfl

/-! ## The error codes -/

theorem errorArgs_literals (hl : 0x25#8 ∉ l) : errorArgs none ap (l ++ rest) = errorArgs none ap rest := by
  induction l with
  | nil => rfl
  | cons c l ih =>
      have hc : c ≠ 0x25#8 := fun heq => hl (List.mem_cons.mpr (Or.inl heq.symm))
      exact (if_neg hc).trans (ih (List.not_mem_of_not_mem_cons hl))

theorem errorArgs_flags {n : BitVec 32} (h : ∀ c ∈ flags, isFlag c = true) :
    errorArgs (some n) ap (flags ++ rest) = errorArgs (some (n + longCount flags)) (ap + starCount flags) rest := by
  induction flags generalizing n ap with
  | nil => rw [List.nil_append, show longCount [] = 0#32 from rfl, BitVec.add_zero]; rfl
  | cons c flags ih =>
      have hlong : (if c = 0x6c#8 then n + 1#32 else n) = n + longCount [c] := by
        unfold longCount
        rw [List.count_singleton]
        by_cases hc : c = 0x6c#8
        · rw [if_pos hc, if_pos (beq_iff_eq.mpr hc)]
        · rw [if_neg hc, if_neg (fun heq => hc (beq_iff_eq.mp heq))]
          exact (BitVec.add_zero n).symm
      have hstar : (if c = 0x2a#8 then ap + 1 else ap) = ap + starCount [c] := by
        unfold starCount
        rw [List.count_singleton]
        by_cases hc : c = 0x2a#8
        · rw [if_pos hc, if_pos (beq_iff_eq.mpr hc)]
        · rw [if_neg hc, if_neg (fun heq => hc (beq_iff_eq.mp heq))]
          rfl
      have hstep : errorArgs (some n) ap (c :: flags ++ rest) =
          errorArgs (some (n + longCount [c])) (ap + starCount [c]) (flags ++ rest) := by
        rw [← hlong, ← hstar]
        exact if_pos (h c List.mem_cons_self)
      rw [hstep, ih fun d hd => h d (List.mem_cons_of_mem c hd), BitVec.add_assoc, ← longCount_append, Nat.add_assoc,
        ← starCount_append]
      rfl

theorem errorArgs_conversion {n : BitVec 32} (hflag : isFlag c = false) (he : c ≠ 0x65#8) :
    errorArgs (some n) ap (c :: rest) = errorArgs none (ap + convWords c n) rest :=
  (if_neg (Bool.eq_false_iff.mp hflag)).trans (if_neg he)

theorem convWords_unknown {n : BitVec 32} (hc : c ∉ conversions) : convWords c n = 0 := by
  unfold conversions at hc
  simp only [List.mem_cons, List.not_mem_nil, or_false, not_or] at hc
  obtain ⟨h1, h2, h3, h4, h5, h6, h7, h8, -⟩ := hc
  unfold convWords
  rw [if_neg (by simp only [h1, h2, h3, h7, or_self, not_false_eq_true]),
    if_neg (by simp only [h4, h5, h6, h8, or_self, not_false_eq_true])]

theorem errorArgs_unknown {n : BitVec 32} (hflag : isFlag (headOrZero l) = false) (hc : headOrZero l ∉ conversions) :
    errorArgs (some n) ap l = errorArgs none ap l := by
  cases l with
  | nil => rfl
  | cons c l =>
      have hflag : isFlag c = false := hflag
      have hc : c ∉ conversions := hc
      have h1 : c ≠ 0x65#8 := fun heq => hc (by rw [heq]; decide)
      have h2 : c ≠ 0x25#8 := fun heq => hc (by rw [heq]; decide)
      have hliteral : errorArgs none ap (c :: l) = errorArgs none ap l := if_neg h2
      rw [errorArgs_conversion hflag h1, convWords_unknown hc, hliteral]
      rfl

/-- All of these error codes can be printed, or what is wrong with one of them is what goes wrong. -/
def Outcome (args : Nat → BitVec 32) (pe : BitVec 32 → Except PrintFault (List Int)) (l : List Nat)
    (r : Except PrintFault (List Int)) : Prop :=
  (Prints r ∧ ∀ k ∈ l, Prints (pe (args k))) ∨ ∃ k ∈ l, ∃ f, pe (args k) = .error f ∧ r = .error f

theorem Outcome.map {l : List Nat} (h : Outcome args pe l r) (f : List Int → List Int) :
    Outcome args pe l (r.map f) := by
  rcases h with ⟨⟨out, rfl⟩, hall⟩ | ⟨k, hk, e, he, rfl⟩
  · exact Or.inl ⟨⟨f out, rfl⟩, hall⟩
  · exact Or.inr ⟨k, hk, e, he, rfl⟩

/-- An error code in front. -/
theorem Outcome.error {l : List Nat} {g : Nat → Except PrintFault (List Int)}
    (h : Outcome args pe l (g (k + 1))) : Outcome args pe (k :: l)
    (((pe (args k)).map fun out => (out, k + 1)).bind fun x => (g x.2).map (x.1 ++ ·)) := by
  cases hk : pe (args k) with
  | error f => exact Or.inr ⟨k, List.mem_cons_self, f, hk, rfl⟩
  | ok out =>
      rcases h.map (out ++ ·) with ⟨hr, hall⟩ | ⟨k', hk', e, he, hr⟩
      · refine Or.inl ⟨hr, fun k' hk' => ?_⟩
        rcases List.mem_cons.mp hk' with rfl | hk'
        · exact ⟨out, hk⟩
        · exact hall k' hk'
      · exact Or.inr ⟨k', List.mem_cons_of_mem k hk', e, he, hr⟩

theorem Outcome.prints_iff {l : List Nat} (h : Outcome args pe l r) : Prints r ↔ ∀ k ∈ l, Prints (pe (args k)) := by
  rcases h with ⟨hr, hall⟩ | ⟨k, hk, e, he, rfl⟩
  · exact iff_of_true hr hall
  · refine iff_of_false (fun hr => ?_) (fun hall => ?_)
    · obtain ⟨out, hout⟩ := hr
      cases hout
    · obtain ⟨out, hout⟩ := hall k hk
      rw [he] at hout
      cases hout

theorem formatFrom_outcome (hnz : 0#8 ∉ s) (hi : i ≤ s.length) :
    Outcome args pe (errorArgs none ap (s.drop i)) (formatFrom args str pe s i ap) := by
  induction hn : s.length - i using Nat.strongRecOn generalizing i ap with
  | _ n ih =>
      cases hs : s.drop i with
      | nil =>
          rw [formatFrom_end hs hi]
          exact Or.inl ⟨⟨[], rfl⟩, fun k hk => absurd hk List.not_mem_nil⟩
      | cons c rest =>
          have hlt := lt_of_drop hs
          have htail := drop_tail hs
          have hnext : ∀ j ap, i < j → j ≤ s.length →
              Outcome args pe (errorArgs none ap (s.drop j)) (formatFrom args str pe s j ap) :=
            fun j ap h1 h2 => ih (s.length - j) (by omega) h2 rfl
          by_cases hc : c = 0x25#8
          · subst hc
            obtain ⟨flags, l, v, hr⟩ := @readFlags_ok args s .init (i + 1) ap (s.length + 2) hlt (by omega)
            have hsplit := hr.split
            have hlflag := hr.lflag
            rw [htail] at hsplit
            have hargs : errorArgs none ap (0x25#8 :: rest) =
                errorArgs (some v.lflag) (ap + starCount flags) l := by
              rw [hsplit, hlflag]
              exact (if_pos rfl).trans (errorArgs_flags hr.isFlag)
            rw [hargs]
            by_cases hconv : headOrZero l ∈ conversions
            · obtain ⟨hle, rest', hdrop, hl⟩ := hr.behind hlt hconv
              have hknown : ∃ r, convert args str pe (headOrZero l) v (ap + starCount flags) = some r ∧
                  formatFrom args str pe s i ap = _ := formatFrom_known hs hr hconv
              obtain ⟨r, hr', hrun⟩ := hknown
              have hrest := fun ap => hnext (i + flags.length + 2) ap (by omega) hle
              rw [hdrop] at hrest
              rw [hrun, hl]
              by_cases he : headOrZero l = 0x65#8
              · -- The error code is printed first.
                rw [he] at hr' ⊢
                have hcons : errorArgs (some v.lflag) (ap + starCount flags) (0x65#8 :: rest') =
                    (ap + starCount flags) :: errorArgs none (ap + starCount flags + 1) rest' := rfl
                rw [hcons]
                cases hr'
                exact Outcome.error (g := formatFrom args str pe s (i + flags.length + 2)) (hrest _)
              · obtain ⟨out, hout⟩ := @convert_ok args str pe _ hconv he v (ap + starCount flags)
                rw [hr'] at hout
                cases hout
                rw [errorArgs_conversion hr.stop he]
                exact (hrest _).map _
            · rw [formatFrom_unknown hs hr hconv]
              have hrest := hnext (i + 1) (ap + starCount flags) (Nat.lt_succ_self i) hlt
              rw [htail, hsplit, errorArgs_literals (percent_not_flag hr.isFlag)] at hrest
              rw [errorArgs_unknown hr.stop hconv]
              exact hrest.map _
          · have h0 : c ≠ 0#8 := by
              rintro rfl
              refine hnz (List.drop_subset i s ?_)
              rw [hs]
              exact List.mem_cons_self
            have hrest := hnext (i + 1) ap (Nat.lt_succ_self i) hlt
            rw [htail] at hrest
            rw [formatFrom_literal hs hc h0]
            have hargs : errorArgs none ap (c :: rest) = errorArgs none ap rest := if_neg hc
            rw [hargs]
            exact hrest.map _

end

/-! ## `%e` -/

/-- A format without `%e`. -/
theorem vprintfmtWith_ok {args : Nat → BitVec 32} {str : BitVec 32 → List (BitVec 8)}
    {pe : BitVec 32 → Except PrintFault (List Int)} {fmt : List (BitVec 8)} (hnz : 0#8 ∉ fmt)
    (h : errorArgs none 0 fmt = []) : Prints (vprintfmtWith pe str args fmt) := by
  have hout : Outcome args pe (errorArgs none 0 fmt) (formatFrom args str pe fmt 0 0) :=
    formatFrom_outcome hnz (Nat.zero_le _)
  rw [h] at hout
  exact hout.prints_iff.mpr fun k hk => absurd hk List.not_mem_nil

/-- What passes the test against `MAXERROR`, once it has been negated, is an index of the table or the
least integer, whose word is the first one. -/
theorem errorString_ok {err : BitVec 32} (h : (if err.toInt < 0 then -err else err).toInt < maxError) :
    ∃ p, errorString (if err.toInt < 0 then -err else err) = .ok p := by
  by_cases hmin : err = 0x80000000#32
  · subst hmin
    exact ⟨none, rfl⟩
  · have hpos : 0 ≤ (if err.toInt < 0 then -err else err).toInt := by
      split
      · rw [BitVec.toInt_neg_of_ne_intMin hmin]
        omega
      · omega
    generalize (if err.toInt < 0 then -err else err) = e at h hpos
    have hlt : e.toNat < 16 := by
      rw [BitVec.toInt_eq_toNat_cond] at h hpos
      unfold maxError at h
      split at h <;> omega
    have hoffset : (4#32 * e).toNat / 4 = e.toNat := by
      rw [BitVec.toNat_mul, BitVec.toNat_ofNat]
      omega
    unfold errorString
    dsimp only
    rw [hoffset]
    exact ⟨_, if_pos hlt⟩

/-- `%e` prints for every integer. -/
theorem printError_ok (err : BitVec 32) : Prints (printError err) := by
  have hunknown : ∀ e : BitVec 32, Prints (vprintfmtWith (fun _ => .error .steps) (fun _ => []) (fun _ => e)
      [0x65#8, 0x72#8, 0x72#8, 0x6f#8, 0x72#8, 0x20#8, 0x25#8, 0x64#8]) := fun e =>
    vprintfmtWith_ok (by decide) (by decide)
  have hknown : ∀ p : List (BitVec 8), Prints (vprintfmtWith (fun _ => .error .steps) (fun _ => p) (fun _ => 1#32)
      [0x25#8, 0x73#8]) := fun p => vprintfmtWith_ok (by decide) (by decide)
  have hat := @errorString_ok err
  unfold printError
  dsimp only
  generalize (if err.toInt < 0 then -err else err) = e at hat
  by_cases hlarge : maxError ≤ e.toInt
  · rw [if_pos hlarge]
    exact hunknown e
  · obtain ⟨p, hp⟩ := hat (Int.not_le.mp hlarge)
    rw [if_neg hlarge, hp]
    cases p with
    | none => exact hunknown e
    | some p => exact hknown (bytes p)

/-- A sequence that is not known is printed as it is and the formatting goes on behind it; and all of
the format is printed, within the bounds, whatever the arguments are. -/
theorem vprintfmt_prints (str : BitVec 32 → List (BitVec 8)) (args : Nat → BitVec 32) {fmt : List (BitVec 8)}
    (hnz : 0#8 ∉ fmt) :
    (∀ i ap flags last rest, UnknownSequence fmt i flags last rest →
      formatFrom args str printError fmt i ap =
        (formatFrom args str printError fmt (i + 1 + (flags ++ last).length) (ap + starCount flags)).map
          (echo (0x25#8 :: (flags ++ last)) ++ ·)) ∧
    vprintfmt str args fmt = formatFrom args str printError fmt 0 0 ∧
    Prints (vprintfmt str args fmt) := by
  have hout : Outcome args printError (errorArgs none 0 fmt) (vprintfmt str args fmt) :=
    formatFrom_outcome hnz (Nat.zero_le _)
  exact ⟨fun i ap flags last rest h => formatFrom_echo hnz h, rfl,
    hout.prints_iff.mpr fun k _ => printError_ok (args k)⟩

/-- `%5z%e` with the least integer: the first sequence is not known. -/
theorem vprintfmt_prints_least :
    let fmt := [0x25#8, 0x35#8, 0x7a#8, 0x25#8, 0x65#8]
    let args := fun _ : Nat => 0x80000000#32
    let str := fun _ : BitVec 32 => ([] : List (BitVec 8))
    (∀ i ap flags last rest, UnknownSequence fmt i flags last rest →
      formatFrom args str printError fmt i ap =
        (formatFrom args str printError fmt (i + 1 + (flags ++ last).length) (ap + starCount flags)).map
          (echo (0x25#8 :: (flags ++ last)) ++ ·)) ∧
    vprintfmt str args fmt = formatFrom args str printError fmt 0 0 ∧
    Prints (vprintfmt str args fmt) :=
  vprintfmt_prints _ _ (by decide)

/- `%e` with the least integer prints the number: `error -2147483648`. -/
example : vprintfmt (fun _ => []) (fun _ => 0x80000000#32) [0x25#8, 0x65#8] =
    .ok (echo (bytes "error -2147483648")) := by decide +kernel

/- `%-3q` is printed as it is. -/
example : vprintfmt (fun _ => []) (fun _ => 0#32) [0x25#8, 0x2d#8, 0x33#8, 0x71#8, 0x21#8] =
    .ok [0x25, 0x2d, 0x33, 0x71, 0x21] := rfl

end Jos.User
