import Jos.User.CString
import Mathlib.Data.List.GetD

/-!
# The options of a program

`lib/args.c`. The state is a cursor in one argument and the array of the arguments that are left, which
is shifted when an argument is consumed. The abstract machine holds the rest of the current argument
and the arguments that are left, and says what each call returns and what it consumes.

Main result:
* `args_parse`: the calls return what the abstract machine does.
-/

namespace Jos.User

open Jos.Lib

/-- The memory, with an empty string for the literal of `args.c`. -/
structure ArgMem where
  bytes : Mem
  empty : Nat
  empty_ne : empty ≠ 0
  empty_zero : bytes empty = 0#8

/-- `struct Argstate`, with the number and the array of arguments that it points to. A pointer is an
address; zero is the null pointer. -/
structure Argstate where
  argc : Int
  argv : Nat → Nat
  curarg : Nat
  argvalue : Nat

section

variable (m : ArgMem)

/-- `argstart`; the array may be a null pointer. -/
def argstart (argc : Int) (argv : Option (Nat → Nat)) : Argstate :=
  ⟨argc, argv.getD fun _ => 0, if 1 < argc ∧ argv.isSome then m.empty else 0, 0⟩

/-- `memmove(argv + 1, argv + 2, sizeof(const char *) * (argc - 1)), argc--` -/
def Argstate.shift (s : Argstate) : Argstate :=
  { s with
    argc := s.argc - 1
    argv := fun i => if 1 ≤ i ∧ i < 1 + (s.argc - 1).toNat then s.argv (i + 1) else s.argv i }

/-- Where there are no more options. -/
def Argstate.endOfArgs (s : Argstate) : Int × Argstate := (-1, { s with curarg := 0 })

/-- The character at the cursor. -/
def Argstate.takeFlag (s : Argstate) : Int × Argstate :=
  ((m.bytes s.curarg).toNat, { s with curarg := s.curarg + 1 })

/-- `argnext` -/
def argnext (s : Argstate) : Int × Argstate :=
  let s := { s with argvalue := 0 }
  if s.curarg = 0 then (-1, s)
  else if m.bytes s.curarg = 0#8 then
    if s.argc = 1 ∨ m.bytes (s.argv 1) ≠ 0x2d#8 ∨ m.bytes (s.argv 1 + 1) = 0#8 then s.endOfArgs
    else
      let s := { s.shift with curarg := s.argv 1 + 1 }
      if m.bytes s.curarg = 0x2d#8 ∧ m.bytes (s.curarg + 1) = 0#8 then s.endOfArgs else s.takeFlag m
  else s.takeFlag m

/-- `argnextvalue` -/
def argnextvalue (s : Argstate) : Nat × Argstate :=
  if s.curarg = 0 then (0, s)
  else if m.bytes s.curarg ≠ 0#8 then (s.curarg, { s with argvalue := s.curarg, curarg := m.empty })
  else if 1 < s.argc then (s.argv 1, { s.shift with argvalue := s.argv 1 })
  else (0, { s with argvalue := 0, curarg := 0 })

/-- `argvalue` -/
def argvalue (s : Argstate) : Nat × Argstate :=
  if s.argvalue ≠ 0 then (s.argvalue, s) else argnextvalue m s

end

/-! ## The abstract machine -/

inductive ArgCall
  | next
  | value
  | nextValue

/-- What a call returns: a flag, a value, or that there is none. -/
inductive Got
  | flag (c : BitVec 8)
  | noFlag
  | value (s : List (BitVec 8))
  | noValue

/-- The rest of the current argument, the arguments that are left, and the last value since the last
flag. -/
structure Options where
  rest : List (BitVec 8)
  args : List (List (BitVec 8))
  ended : Bool
  last : Option (List (BitVec 8))

/-- The text of the arguments, with a zero before each. -/
def argsText (args : List (List (BitVec 8))) : List (BitVec 8) := args.flatMap (0#8 :: ·)

/-- What a call returns, the text that it consumes, and what is left. -/
structure Taken where
  got : Got
  text : List (BitVec 8)
  left : Options

/-- No more options. -/
def Options.stop (o : Options) (args : List (List (BitVec 8))) (text : List (BitVec 8)) : Taken :=
  ⟨.noFlag, text, { o with args := args, ended := true, last := none }⟩

/-- The next flag: of the current argument, or of the next one. -/
def Options.next (o : Options) : Taken :=
  if o.ended then ⟨.noFlag, [], { o with last := none }⟩
  else
    match o.rest, o.args with
    | c :: rest, _ => ⟨.flag c, [c], { o with rest := rest, last := none }⟩
    | [], (d :: c :: w) :: args =>
        if d ≠ 0x2d#8 then o.stop o.args []
        else if c = 0x2d#8 ∧ w = [] then o.stop args [0#8, d, c]
        else ⟨.flag c, [0#8, d, c], { o with rest := w, args := args, last := none }⟩
    | [], _ => o.stop o.args []

/-- The next value: the rest of the current argument, or the next argument. -/
def Options.nextValue (o : Options) : Taken :=
  if o.ended then ⟨.noValue, [], o⟩
  else
    match o.rest, o.args with
    | c :: rest, _ => ⟨.value (c :: rest), c :: rest, { o with rest := [], last := some (c :: rest) }⟩
    | [], a :: args => ⟨.value a, 0#8 :: a, { o with args := args, last := some a }⟩
    | [], [] => ⟨.noValue, [], { o with ended := true, last := none }⟩

/-- The last value again, or the next one. -/
def Options.value (o : Options) : Taken :=
  match o.last with
  | some v => ⟨.value v, [], o⟩
  | none => o.nextValue

def Options.call (o : Options) : ArgCall → Taken
  | .next => o.next
  | .value => o.value
  | .nextValue => o.nextValue

/-- A sequence of calls. -/
def Options.calls (o : Options) : List ArgCall → List Got × List (BitVec 8) × Options
  | [] => ([], [], o)
  | c :: l =>
      let t := o.call c
      let r := t.left.calls l
      (t.got :: r.1, t.text ++ r.2.1, r.2.2)

/-- At first no argument is current. -/
def Options.start (args : List (List (BitVec 8))) : Options := ⟨[], args, args.isEmpty, none⟩

/-- The flags of the arguments, and the arguments that are left behind them. -/
def flags : List (List (BitVec 8)) → List (BitVec 8) × List (List (BitVec 8))
  | [] => ([], [])
  | a :: args =>
      if a = [0x2d#8, 0x2d#8] then ([], args)
      else if a = [0x2d#8] ∨ a.head? ≠ some 0x2d#8 then ([], a :: args)
      else (a.tail ++ (flags args).1, (flags args).2)

/-! ## The calls of the program -/

/-- What a call of the program returns. -/
inductive Returned
  | int (r : Int)
  | pointer (p : Nat)

def argsCall (m : ArgMem) (s : Argstate) : ArgCall → Returned × Argstate
  | .next => (.int (argnext m s).1, (argnext m s).2)
  | .value => (.pointer (argvalue m s).1, (argvalue m s).2)
  | .nextValue => (.pointer (argnextvalue m s).1, (argnextvalue m s).2)

def argsCalls (m : ArgMem) (s : Argstate) : List ArgCall → List Returned × Argstate
  | [] => ([], s)
  | c :: l =>
      let r := argsCall m s c
      let r' := argsCalls m r.2 l
      (r.1 :: r'.1, r'.2)

/-- The program gets what the abstract machine says. -/
def Matches (m : Mem) : Returned → Got → Prop
  | .int r, .flag c => r = c.toNat
  | .int r, .noFlag => r = -1
  | .pointer p, .value s => p ≠ 0 ∧ CString m p s
  | .pointer p, .noValue => p = 0
  | _, _ => False

/-- A pointer to a string. -/
structure PointsTo (m : Mem) (p : Nat) (s : List (BitVec 8)) : Prop where
  ne : p ≠ 0
  text : CString m p s
  nonzero : 0#8 ∉ s

/-- The array holds the arguments, and a null pointer behind them. -/
structure ArgVec (m : Mem) (argc : Int) (argv : Nat → Nat) (args : List (List (BitVec 8))) : Prop where
  count : argc = args.length
  arg : ∀ i (h : i < args.length), PointsTo m (argv i) (args.get ⟨i, h⟩)
  null : argv args.length = 0

section

variable {m : ArgMem} {s : Argstate} {o : Options} {name : List (BitVec 8)} {args : List (List (BitVec 8))}
  {arg0 n : Nat} {a w : List (BitVec 8)} {c : BitVec 8} {argc : Int} {argv : Nat → Nat}

/-! ## One call -/

/-- The state of the program and that of the abstract machine. -/
structure Parsing (m : ArgMem) (arg0 : Nat) (name : List (BitVec 8)) (s : Argstate) (o : Options) : Prop where
  vec : ArgVec m.bytes s.argc s.argv (name :: o.args)
  first : s.argv 0 = arg0
  cursor : if o.ended then s.curarg = 0 else PointsTo m.bytes s.curarg o.rest
  value : match o.last with
    | none => s.argvalue = 0
    | some v => PointsTo m.bytes s.argvalue v

theorem ArgMem.empty_points (m : ArgMem) : PointsTo m.bytes m.empty [] :=
  ⟨m.empty_ne, ⟨fun k hk => absurd hk (Nat.not_lt_zero k), m.empty_zero⟩, List.not_mem_nil⟩

theorem PointsTo.tail (h : PointsTo m.bytes n (c :: w)) : PointsTo m.bytes (n + 1) w :=
  ⟨Nat.succ_ne_zero n, h.text.tail, List.not_mem_of_not_mem_cons h.nonzero⟩

theorem PointsTo.head_ne (h : PointsTo m.bytes n (c :: w)) : m.bytes n ≠ 0#8 := by
  rw [h.text.head]
  exact fun h0 => h.nonzero (List.mem_cons.mpr (Or.inl h0.symm))

theorem PointsTo.end (h : PointsTo m.bytes n []) : m.bytes n = 0#8 := h.text.zero

theorem ArgVec.next (h : ArgVec m.bytes s.argc s.argv (name :: a :: args)) : PointsTo m.bytes (s.argv 1) a :=
  h.arg 1 (Nat.succ_lt_succ (Nat.succ_pos _))

theorem ArgVec.shift (h : ArgVec m.bytes s.argc s.argv (name :: a :: args)) :
    ArgVec m.bytes s.shift.argc s.shift.argv (name :: args) ∧ s.shift.argv 0 = s.argv 0 := by
  have hcount := h.count
  rw [List.length_cons, List.length_cons] at hcount
  have hn : (s.argc - 1).toNat = args.length + 1 := by omega
  have h0 : s.shift.argv 0 = s.argv 0 := by
    unfold Argstate.shift
    dsimp only
    rw [if_neg (by omega)]
  have hmoved : ∀ i, 1 ≤ i → i < args.length + 2 → s.shift.argv i = s.argv (i + 1) := by
    intro i h1 h2
    unfold Argstate.shift
    dsimp only
    rw [if_pos (by omega)]
  refine ⟨⟨?_, fun i hi => ?_, ?_⟩, h0⟩
  · change s.argc - 1 = _
    rw [List.length_cons]
    omega
  · rw [List.length_cons] at hi
    cases i with
    | zero =>
        rw [h0]
        exact h.arg 0 (Nat.succ_pos _)
    | succ i =>
        rw [hmoved _ (Nat.succ_pos i) (by omega)]
        exact h.arg (i + 2) (by rw [List.length_cons, List.length_cons]; omega)
  · rw [List.length_cons, hmoved _ (Nat.succ_pos _) (by omega)]
    exact h.null

/-- No more options. -/
theorem endOfArgs_ok (hvec : ArgVec m.bytes s.argc s.argv (name :: args)) (hfirst : s.argv 0 = arg0)
    (hvalue : s.argvalue = 0) (o : Options) (text : List (BitVec 8)) :
    Matches m.bytes (.int s.endOfArgs.1) (o.stop args text).got ∧
      Parsing m arg0 name s.endOfArgs.2 (o.stop args text).left :=
  ⟨rfl, hvec, hfirst, rfl, hvalue⟩

/-- The first flag of the current argument. -/
theorem takeFlag_ok (hvec : ArgVec m.bytes s.argc s.argv (name :: args)) (hfirst : s.argv 0 = arg0)
    (hvalue : s.argvalue = 0) (hcur : PointsTo m.bytes s.curarg (c :: w)) :
    Matches m.bytes (.int (s.takeFlag m).1) (.flag c) ∧
      Parsing m arg0 name (s.takeFlag m).2 ⟨w, args, false, none⟩ := by
  unfold Argstate.takeFlag
  rw [hcur.text.head]
  exact ⟨rfl, hvec, hfirst, hcur.tail, hvalue⟩

theorem argnext_eq (hvalue : s.argvalue = 0) : argnext m s =
    if s.curarg = 0 then (-1, s)
    else if m.bytes s.curarg = 0#8 then
      if s.argc = 1 ∨ m.bytes (s.argv 1) ≠ 0x2d#8 ∨ m.bytes (s.argv 1 + 1) = 0#8 then s.endOfArgs
      else if m.bytes (s.argv 1 + 1) = 0x2d#8 ∧ m.bytes (s.argv 1 + 1 + 1) = 0#8 then
        Argstate.endOfArgs { s.shift with curarg := s.argv 1 + 1 }
      else Argstate.takeFlag m { s.shift with curarg := s.argv 1 + 1 }
    else s.takeFlag m := by
  obtain ⟨argc, argv, curarg, argvalue⟩ := s
  cases hvalue
  rfl

/-- The next argument is looked at. -/
theorem nextArg_ok (hvec : ArgVec m.bytes s.argc s.argv (name :: args)) (hfirst : s.argv 0 = arg0)
    (hvalue : s.argvalue = 0) (hcur : PointsTo m.bytes s.curarg []) :
    Matches m.bytes (.int (argnext m s).1) (Options.next ⟨[], args, false, none⟩).got ∧
      Parsing m arg0 name (argnext m s).2 (Options.next ⟨[], args, false, none⟩).left := by
  rw [argnext_eq hvalue, if_neg hcur.ne, if_pos hcur.end]
  unfold Options.next
  rw [if_neg Bool.false_ne_true]
  cases args with
  | nil =>
      have hargc : s.argc = 1 := hvec.count
      rw [if_pos (Or.inl hargc)]
      exact endOfArgs_ok hvec hfirst hvalue _ _
  | cons a args =>
      have ha := hvec.next
      cases a with
      | nil =>
          have hne : m.bytes (s.argv 1) ≠ 0x2d#8 := by
            rw [ha.end]
            decide
          rw [if_pos (Or.inr (Or.inl hne))]
          exact endOfArgs_ok hvec hfirst hvalue _ _
      | cons d a =>
          cases a with
          | nil =>
              rw [if_pos (Or.inr (Or.inr ha.tail.end))]
              exact endOfArgs_ok hvec hfirst hvalue _ _
          | cons c w =>
              have hd : m.bytes (s.argv 1) = d := ha.text.head
              have hc : m.bytes (s.argv 1 + 1) = c := ha.tail.text.head
              dsimp only
              by_cases hdash : d = 0x2d#8
              · have hargc : s.argc ≠ 1 := by
                  have hcount := hvec.count
                  rw [List.length_cons, List.length_cons] at hcount
                  omega
                have hgo : ¬ (s.argc = 1 ∨ m.bytes (s.argv 1) ≠ 0x2d#8 ∨ m.bytes (s.argv 1 + 1) = 0#8) := by
                  rintro (h | h | h)
                  · exact hargc h
                  · exact h (hd.trans hdash)
                  · exact ha.tail.head_ne h
                obtain ⟨hvec', hfirst'⟩ := hvec.shift
                have hend : m.bytes (s.argv 1 + 1 + 1) = 0#8 ↔ w = [] := by
                  cases w with
                  | nil => exact iff_of_true ha.tail.tail.end rfl
                  | cons b w => exact iff_of_false ha.tail.tail.head_ne (List.cons_ne_nil b w)
                rw [if_neg hgo, if_neg (fun h : d ≠ 0x2d#8 => h hdash)]
                by_cases hdd : c = 0x2d#8 ∧ w = []
                · rw [if_pos hdd, if_pos ⟨hc.trans hdd.1, hend.mpr hdd.2⟩]
                  exact endOfArgs_ok hvec' (hfirst'.trans hfirst) hvalue _ _
                · rw [if_neg hdd, if_neg (fun h => hdd ⟨hc.symm.trans h.1, hend.mp h.2⟩)]
                  exact takeFlag_ok hvec' (hfirst'.trans hfirst) hvalue ha.tail
              · have hne : m.bytes (s.argv 1) ≠ 0x2d#8 := fun h => hdash (hd.symm.trans h)
                rw [if_pos (Or.inr (Or.inl hne)), if_pos hdash]
                exact endOfArgs_ok hvec hfirst hvalue _ _

theorem argnext_ok (h : Parsing m arg0 name s o) : Matches m.bytes (.int (argnext m s).1) o.next.got ∧
    Parsing m arg0 name (argnext m s).2 o.next.left := by
  obtain ⟨rest, args, ended, last⟩ := o
  obtain ⟨hvec, hfirst, hcur, -⟩ := h
  have hclear : argnext m s = argnext m { s with argvalue := 0 } := rfl
  rw [hclear]
  cases ended with
  | true =>
      have hcur : s.curarg = 0 := hcur
      rw [argnext_eq rfl, if_pos hcur]
      exact ⟨rfl, hvec, hfirst, hcur, rfl⟩
  | false =>
      have hcur : PointsTo m.bytes s.curarg rest := hcur
      cases rest with
      | cons c rest =>
          rw [argnext_eq rfl, if_neg hcur.ne, if_neg hcur.head_ne]
          exact takeFlag_ok hvec hfirst rfl hcur
      | nil => exact nextArg_ok (s := { s with argvalue := 0 }) hvec hfirst rfl hcur

theorem argnextvalue_ok (h : Parsing m arg0 name s o) :
    Matches m.bytes (.pointer (argnextvalue m s).1) o.nextValue.got ∧
      Parsing m arg0 name (argnextvalue m s).2 o.nextValue.left := by
  obtain ⟨rest, args, ended, last⟩ := o
  obtain ⟨hvec, hfirst, hcur, hvalue⟩ := h
  unfold argnextvalue Options.nextValue
  cases ended with
  | true =>
      have hcur : s.curarg = 0 := hcur
      rw [if_pos hcur]
      exact ⟨rfl, hvec, hfirst, hcur, hvalue⟩
  | false =>
      have hcur : PointsTo m.bytes s.curarg rest := hcur
      rw [if_neg hcur.ne]
      cases rest with
      | cons c rest =>
          rw [if_pos hcur.head_ne]
          exact ⟨⟨hcur.ne, hcur.text⟩, hvec, hfirst, m.empty_points, hcur⟩
      | nil =>
          rw [if_neg (fun h => h hcur.end)]
          cases args with
          | nil =>
              have hargc : s.argc = 1 := hvec.count
              rw [if_neg (by omega)]
              exact ⟨rfl, hvec, hfirst, rfl, rfl⟩
          | cons a args =>
              have ha := hvec.next
              obtain ⟨hvec', hfirst'⟩ := hvec.shift
              have hcount := hvec.count
              rw [List.length_cons, List.length_cons] at hcount
              rw [if_pos (by omega)]
              exact ⟨⟨ha.ne, ha.text⟩, hvec', hfirst'.trans hfirst, hcur, ha⟩

theorem argvalue_ok (h : Parsing m arg0 name s o) :
    Matches m.bytes (.pointer (argvalue m s).1) o.value.got ∧
      Parsing m arg0 name (argvalue m s).2 o.value.left := by
  have hvalue := h.value
  unfold argvalue Options.value
  cases hlast : o.last with
  | none =>
      rw [hlast] at hvalue
      rw [if_neg (fun hne => hne hvalue)]
      exact argnextvalue_ok h
  | some v =>
      rw [hlast] at hvalue
      rw [if_pos hvalue.ne]
      exact ⟨⟨hvalue.ne, hvalue.text⟩, h⟩

theorem argsCall_ok (h : Parsing m arg0 name s o) (c : ArgCall) :
    Matches m.bytes (argsCall m s c).1 (o.call c).got ∧ Parsing m arg0 name (argsCall m s c).2 (o.call c).left := by
  cases c with
  | next => exact argnext_ok h
  | value => exact argvalue_ok h
  | nextValue => exact argnextvalue_ok h

/-- The calls of the program return what those of the abstract machine do. -/
theorem argsCalls_ok (l : List ArgCall) (h : Parsing m arg0 name s o) :
    List.Forall₂ (Matches m.bytes) (argsCalls m s l).1 (o.calls l).1 ∧
      Parsing m arg0 name (argsCalls m s l).2 (o.calls l).2.2 := by
  induction l generalizing s o with
  | nil => exact ⟨.nil, h⟩
  | cons c l ih =>
      obtain ⟨hgot, h1⟩ := argsCall_ok h c
      obtain ⟨hgots, h2⟩ := ih h1
      exact ⟨.cons hgot hgots, h2⟩

theorem argstart_ok (h : ArgVec m.bytes argc argv (name :: args)) :
    Parsing m (argv 0) name (argstart m argc (some argv)) (.start args) := by
  have hcount := h.count
  rw [List.length_cons] at hcount
  refine ⟨h, rfl, ?_, rfl⟩
  cases args with
  | nil =>
      rw [List.length_nil] at hcount
      exact if_neg (fun hc => by have := hc.1; omega)
  | cons a args =>
      rw [List.length_cons] at hcount
      change PointsTo m.bytes (if 1 < argc ∧ (some argv).isSome then m.empty else 0) []
      rw [if_pos ⟨by omega, rfl⟩]
      exact m.empty_points

/-! ## What the abstract machine does -/

/-- What a call consumes is the first part of the text that was left. -/
def Options.text (o : Options) : List (BitVec 8) := o.rest ++ argsText o.args

theorem next_text (o : Options) : o.text = o.next.text ++ o.next.left.text := by
  obtain ⟨rest, args, ended, last⟩ := o
  unfold Options.next
  cases ended with
  | true => rfl
  | false =>
      rw [if_neg Bool.false_ne_true]
      cases rest with
      | cons c rest => rfl
      | nil =>
          cases args with
          | nil => rfl
          | cons a args =>
              cases a with
              | nil => rfl
              | cons d a =>
                  cases a with
                  | nil => rfl
                  | cons c w =>
                      dsimp only
                      split
                      · rfl
                      · split
                        · rename_i hdd
                          rw [hdd.2]
                          rfl
                        · rfl

theorem nextValue_text (o : Options) : o.text = o.nextValue.text ++ o.nextValue.left.text := by
  obtain ⟨rest, args, ended, last⟩ := o
  unfold Options.nextValue
  cases ended with
  | true => rfl
  | false =>
      rw [if_neg Bool.false_ne_true]
      cases rest with
      | cons c rest => rfl
      | nil =>
          cases args with
          | nil => rfl
          | cons a args => rfl

theorem call_text (o : Options) (c : ArgCall) : o.text = (o.call c).text ++ (o.call c).left.text := by
  cases c with
  | next => exact next_text o
  | nextValue => exact nextValue_text o
  | value =>
      unfold Options.call Options.value
      cases o.last with
      | none => exact nextValue_text o
      | some v => rfl

/-- Nothing is lost, and nothing comes twice. -/
theorem calls_text (o : Options) (l : List ArgCall) : o.text = (o.calls l).2.1 ++ (o.calls l).2.2.text := by
  induction l generalizing o with
  | nil => rfl
  | cons c l ih =>
      rw [call_text o c, ih (o.call c).left, ← List.append_assoc]
      rfl

/-- The flags that are still to come. -/
def Options.flags (o : Options) : List (BitVec 8) := if o.ended then [] else o.rest ++ (Jos.User.flags o.args).1

/-- The arguments that will be left. -/
def Options.others (o : Options) : List (List (BitVec 8)) := if o.ended then o.args else (Jos.User.flags o.args).2

/-- The flag at the head of these, or none. -/
def Got.ofFlag : Option (BitVec 8) → Got
  | some c => .flag c
  | none => .noFlag

theorem flags_stop (h : a = [0x2d#8] ∨ a.head? ≠ some 0x2d#8) : flags (a :: args) = ([], a :: args) := by
  have hne : a ≠ [0x2d#8, 0x2d#8] := by
    rintro rfl
    rcases h with h | h
    · exact absurd h (by decide)
    · exact h rfl
  unfold flags
  rw [if_neg hne, if_pos h]

theorem flags_option (h : ¬ (c = 0x2d#8 ∧ w = [])) :
    flags ((0x2d#8 :: c :: w) :: args) = (c :: (w ++ (flags args).1), (flags args).2) := by
  have hdd : 0x2d#8 :: c :: w ≠ [0x2d#8, 0x2d#8] := by
    intro heq
    rw [List.cons_inj_right, List.cons.injEq] at heq
    exact h heq
  have hd : ¬ (0x2d#8 :: c :: w = [0x2d#8] ∨ (0x2d#8 :: c :: w).head? ≠ some 0x2d#8) := by
    rintro (heq | hne)
    · rw [List.cons_inj_right] at heq
      exact List.cons_ne_nil c w heq
    · exact hne rfl
  rw [flags, if_neg hdd, if_neg hd]
  rfl

/-- What a call of `argnext` does to the flags that are to come. -/
structure FlagTaken (o : Options) (t : Taken) : Prop where
  got : t.got = .ofFlag o.flags.head?
  flags : t.left.flags = o.flags.tail
  others : t.left.others = o.others
  ended : o.flags = [] → t.left.ended = true

theorem stop_flags {text : List (BitVec 8)} (hflags : o.flags = []) (hothers : o.others = args) :
    FlagTaken o (o.stop args text) := by
  refine ⟨?_, ?_, hothers.symm, fun _ => rfl⟩
  · rw [hflags]
    rfl
  · rw [hflags]
    rfl

theorem next_flags (o : Options) : FlagTaken o o.next := by
  obtain ⟨rest, args, ended, last⟩ := o
  unfold Options.next
  cases ended with
  | true => exact ⟨rfl, rfl, rfl, fun _ => rfl⟩
  | false =>
      rw [if_neg Bool.false_ne_true]
      cases rest with
      | cons c rest => exact ⟨rfl, rfl, rfl, fun h => absurd h (List.cons_ne_nil _ _)⟩
      | nil =>
          have hstop : ∀ a args', args = a :: args' → a = [0x2d#8] ∨ a.head? ≠ some 0x2d#8 →
              FlagTaken ⟨[], args, false, last⟩ (Options.stop ⟨[], args, false, last⟩ args []) := by
            rintro a args' rfl ha
            exact stop_flags (congrArg Prod.fst (flags_stop ha)) (congrArg Prod.snd (flags_stop ha))
          cases args with
          | nil => exact stop_flags rfl rfl
          | cons a args =>
              cases a with
              | nil => exact hstop _ _ rfl (Or.inr (by decide))
              | cons d a =>
                  cases a with
                  | nil =>
                      by_cases hd : d = 0x2d#8
                      · exact hstop _ _ rfl (Or.inl (by rw [hd]))
                      · exact hstop _ _ rfl (Or.inr fun h => hd (Option.some.inj h))
                  | cons c w =>
                      dsimp only
                      by_cases hd : d = 0x2d#8
                      · rw [if_neg (fun h : d ≠ 0x2d#8 => h hd)]
                        subst hd
                        by_cases hdd : c = 0x2d#8 ∧ w = []
                        · rw [if_pos hdd]
                          obtain ⟨rfl, rfl⟩ := hdd
                          exact stop_flags rfl rfl
                        · rw [if_neg hdd]
                          have hopt := @flags_option args w c hdd
                          have hfst := congrArg Prod.fst hopt
                          have hsnd := congrArg Prod.snd hopt
                          have hflags : Options.flags ⟨[], (0x2d#8 :: c :: w) :: args, false, last⟩ =
                              c :: (w ++ (flags args).1) := hfst
                          refine ⟨?_, ?_, hsnd.symm, fun h => ?_⟩
                          · rw [hflags]
                            rfl
                          · rw [hflags]
                            rfl
                          · rw [hflags] at h
                            exact absurd h (List.cons_ne_nil _ _)
                      · rw [if_pos hd]
                        exact hstop _ _ rfl (Or.inr fun h => hd (Option.some.inj h))

/-- The first `n` flags, and -1 behind the last. -/
def firstFlags (l : List (BitVec 8)) (n : Nat) : List Got := (List.range n).map fun i => .ofFlag l[i]?

theorem firstFlags_succ (l : List (BitVec 8)) (n : Nat) :
    firstFlags l (n + 1) = .ofFlag l.head? :: firstFlags l.tail n := by
  unfold firstFlags
  rw [List.range_succ_eq_map, List.map_cons, List.map_map, List.head?_eq_getElem?]
  congr 1
  apply List.map_congr_left
  intro i _
  exact congrArg Got.ofFlag List.getElem?_tail.symm

/-- The calls of `argnext` alone. -/
theorem calls_next (o : Options) (n : Nat) :
    (o.calls (List.replicate n .next)).1 = firstFlags o.flags n ∧
    (o.flags.length < n → (o.calls (List.replicate n .next)).2.2.args = o.others) := by
  induction n generalizing o with
  | zero => exact ⟨rfl, fun h => absurd h (Nat.not_lt_zero _)⟩
  | succ n ih =>
      obtain ⟨hgot, hflags, hothers, hended⟩ := next_flags o
      obtain ⟨h1, h2⟩ := ih o.next.left
      rw [hflags] at h1 h2
      refine ⟨?_, fun h => ?_⟩
      · rw [firstFlags_succ, ← hgot, ← h1]
        rfl
      · rw [List.length_tail] at h2
        cases n with
        | zero =>
            have hnil : o.flags = [] := List.length_eq_zero_iff.mp (Nat.lt_one_iff.mp h)
            rw [← hothers]
            unfold Options.others
            rw [if_pos (hended hnil)]
            rfl
        | succ n => exact (h2 (by omega)).trans hothers

end

/-- The calls of `argnext` return the flags of the arguments and then -1 for ever, and the arguments
behind the flags are left. With calls for values in between, all calls return what those of the abstract
machine do, and what these consume and leave is the text of the arguments. -/
theorem args_parse (m : ArgMem) {argc : Int} {argv : Nat → Nat} {name : List (BitVec 8)}
    {args : List (List (BitVec 8))} (h : ArgVec m.bytes argc argv (name :: args)) :
    let start := argstart m argc (some argv)
    (∀ n, let r := argsCalls m start (List.replicate n .next)
      List.Forall₂ (Matches m.bytes) r.1 (firstFlags (flags args).1 n) ∧
      ((flags args).1.length < n →
        ArgVec m.bytes r.2.argc r.2.argv (name :: (flags args).2) ∧ r.2.argv 0 = argv 0)) ∧
    ∀ l, let r := argsCalls m start l
      let t := (Options.start args).calls l
      List.Forall₂ (Matches m.bytes) r.1 t.1 ∧ argsText args = t.2.1 ++ t.2.2.text ∧
      ArgVec m.bytes r.2.argc r.2.argv (name :: t.2.2.args) ∧ r.2.argv 0 = argv 0 := by
  have hstart := argstart_ok h
  have hflags : (Options.start args).flags = (flags args).1 ∧ (Options.start args).others = (flags args).2 := by
    cases args with
    | nil => exact ⟨rfl, rfl⟩
    | cons a args => exact ⟨rfl, rfl⟩
  refine ⟨fun n => ?_, fun l => ?_⟩
  · obtain ⟨hmatch, hparsing⟩ := argsCalls_ok (List.replicate n .next) hstart
    obtain ⟨hresults, hleft⟩ := calls_next (Options.start args) n
    rw [hflags.1] at hresults hleft
    rw [hflags.2] at hleft
    rw [hresults] at hmatch
    refine ⟨hmatch, fun hn => ⟨?_, hparsing.first⟩⟩
    rw [← hleft hn]
    exact hparsing.vec
  · obtain ⟨hmatch, hparsing⟩ := argsCalls_ok l hstart
    exact ⟨hmatch, calls_text (Options.start args) l, hparsing.vec, hparsing.first⟩

/-- The strings `sh`, `-f` and `x`. -/
def shText : ArgMem where
  bytes := fun p => [0#8, 0x73#8, 0x68#8, 0#8, 0x2d#8, 0x66#8, 0#8, 0x78#8, 0#8].getD p 0#8
  empty := 8
  empty_ne := by decide
  empty_zero := by decide

theorem shText_vec : ArgVec shText.bytes 3 (fun i => [1, 4, 7, 0].getD i 0)
    [[0x73#8, 0x68#8], [0x2d#8, 0x66#8], [0x78#8]] := by
  have hsh : PointsTo shText.bytes 1 [0x73#8, 0x68#8] := ⟨by decide, ⟨by decide, by decide⟩, by decide⟩
  have hf : PointsTo shText.bytes 4 [0x2d#8, 0x66#8] := ⟨by decide, ⟨by decide, by decide⟩, by decide⟩
  have hx : PointsTo shText.bytes 7 [0x78#8] := ⟨by decide, ⟨by decide, by decide⟩, by decide⟩
  refine ⟨rfl, fun i hi => ?_, rfl⟩
  have hi3 : i < 3 := hi
  obtain rfl | rfl | rfl : i = 0 ∨ i = 1 ∨ i = 2 := by omega
  · exact hsh
  · exact hf
  · exact hx

/-- `sh -f x` -/
theorem args_parse_sh :
    let args := [[0x2d#8, 0x66#8], [0x78#8]]
    let argv := fun i => [1, 4, 7, 0].getD i 0
    let start := argstart shText 3 (some argv)
    (∀ n, let r := argsCalls shText start (List.replicate n .next)
      List.Forall₂ (Matches shText.bytes) r.1 (firstFlags (flags args).1 n) ∧
      ((flags args).1.length < n →
        ArgVec shText.bytes r.2.argc r.2.argv ([0x73#8, 0x68#8] :: (flags args).2) ∧ r.2.argv 0 = argv 0)) ∧
    ∀ l, let r := argsCalls shText start l
      let t := (Options.start args).calls l
      List.Forall₂ (Matches shText.bytes) r.1 t.1 ∧ argsText args = t.2.1 ++ t.2.2.text ∧
      ArgVec shText.bytes r.2.argc r.2.argv ([0x73#8, 0x68#8] :: t.2.2.args) ∧ r.2.argv 0 = argv 0 :=
  args_parse shText shText_vec

end Jos.User
