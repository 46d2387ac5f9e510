import Jos.Kern.State
import Jos.User.CString
import Jos.User.Printfmt

/-!
# Printing to a buffer

`vprintfmt` of `lib/printfmt.c` with the function `putch` that it calls and the state behind `putdat`, and
`vsnprintf`, which calls it with `sprintputch`. Whatever `putch` does, it is called with the characters of the
output in their order; so the buffer gets the beginning of the output, and the counter all of it.

Main result:
* `vsnprintf_prefix`: the buffer and the result.
-/

namespace Jos.User

open Jos.Lib Jos.Kern

/-! ## The formatter, given a sink -/

namespace Putch

section

variable {σ : Type} (putch : σ → Int → σ)

/-- `for (; width > 0; width--) putch(c)` -/
def pad (c : Int) (width : BitVec 32) (s : σ) : σ := (fun s => putch s c)^[width.toInt.toNat] s

/-- `printnum` -/
def printnum (base : Nat) (padc : Int) : Nat → Nat → BitVec 32 → σ → Except PrintFault σ
  | 0, _, _, _ => .error .steps
  | fuel + 1, num, width, s => do
      let s ← if base ≤ num then printnum base padc fuel (num / base) (width - 1#32) s
        else .ok (pad putch padc (width - 1#32) s)
      let d ← digit (num % base)
      .ok (putch s d)

/-- The loop of `%s`, and the width that is left. -/
def putString (altflag : Bool) : List (BitVec 8) → BitVec 32 → BitVec 32 → σ → σ × BitVec 32
  | [], _, width, s => (s, width)
  | ch :: p, precision, width, s =>
      if precision.toInt < 0 ∨ 0 ≤ precision.toInt - 1 then
        let precision := if precision.toInt < 0 then precision else precision - 1#32
        if altflag ∧ (ch.toInt < 0x20 ∨ 0x7e < ch.toInt) then
          putString altflag p precision (width - 1#32) (putch s 0x3f)
        else putString altflag p precision (width - 1#32) (putch s ch.toInt)
      else (s, width)

/-- The conversion of a string. -/
def convertString (p : List (BitVec 8)) (v : Flags) (s : σ) : σ :=
  let before := if 0 < v.width.toInt ∧ v.padc ≠ 0x2d#8 then v.width - strnlen p v.precision else 0#32
  let width := if 0 < v.width.toInt ∧ v.padc ≠ 0x2d#8 then (if 0 < before.toInt then 0#32 else before) else v.width
  let s := pad putch v.padc.toInt before s
  let body := putString putch v.altflag p v.precision width s
  pad putch 0x20 body.2 body.1

/-- The conversion of a number. -/
def convertNumber (num : BitVec 64) (base : Nat) (v : Flags) (s : σ) : Except PrintFault σ :=
  printnum putch base v.padc.toInt 64 num.toNat v.width s

variable (args : Nat → BitVec 32) (str : BitVec 32 → List (BitVec 8))
  (printError : BitVec 32 → σ → Except PrintFault σ)

/-- The cases of the conversions. -/
def convert (ch : BitVec 8) (v : Flags) (ap : Nat) (s : σ) : Option (Except PrintFault (σ × Nat)) :=
  if ch = 0x63#8 then some (.ok (putch s (args ap).toInt, ap + 1))
  else if ch = 0x65#8 then some ((printError (args ap) s).map fun s => (s, ap + 1))
  else if ch = 0x73#8 then
    some (.ok (convertString putch (if args ap = 0#32 then bytes "(null)" else str (args ap)) v s, ap + 1))
  else if ch = 0x64#8 then
    let num := getint args v.lflag ap
    some ((if num.toInt < 0 then convertNumber putch (-num) 10 v (putch s 0x2d)
      else convertNumber putch num 10 v s).map fun s => (s, ap + intWords v.lflag))
  else if ch = 0x75#8 then
    some ((convertNumber putch (getuint args v.lflag ap) 10 v s).map fun s => (s, ap + intWords v.lflag))
  else if ch = 0x6f#8 then
    some ((convertNumber putch (getuint args v.lflag ap) 8 v s).map fun s => (s, ap + intWords v.lflag))
  else if ch = 0x70#8 then
    some ((convertNumber putch ((args ap).setWidth 64) 16 v (putch (putch s 0x30) 0x78)).map fun s => (s, ap + 1))
  else if ch = 0x78#8 then
    some ((convertNumber putch (getuint args v.lflag ap) 16 v s).map fun s => (s, ap + intWords v.lflag))
  else if ch = 0x25#8 then some (.ok (putch s 0x25, ap))
  else none

variable (fmt : List (BitVec 8))

/-- The loop of `vprintfmt`. -/
def formatLoop : Nat → Int → Nat → σ → Except PrintFault σ
  | 0, _, _, _ => .error .steps
  | fuel + 1, i, ap, s => do
      let ch ← fmtAt fmt i
      if ch ≠ 0x25#8 then
        if ch = 0#8 then .ok s
        else formatLoop fuel (i + 1) ap (putch s (ch.toNat : Int))
      else do
        let (ch, j, v, ap) ← readFlags args fmt (fmt.length + 2) (i + 1) .init ap
        match convert putch args str printError ch v ap s with
        | some r => do
            let (s, ap) ← r
            formatLoop fuel j ap s
        | none => do
            let i ← goBack fmt (fmt.length + 2) (j - 1)
            formatLoop fuel i ap (putch s 0x25)

end

section

variable {σ : Type} (putch : σ → Int → σ)

/-- `vprintfmt`, given what `%e` does. -/
def vprintfmtWith (printError : BitVec 32 → σ → Except PrintFault σ) (str : BitVec 32 → List (BitVec 8))
    (args : Nat → BitVec 32) (fmt : List (BitVec 8)) (s : σ) : Except PrintFault σ :=
  formatLoop putch args str printError fmt (fmt.length + 1) 0 0 s

/-- The case of `%e`, which calls `printfmt` with the same sink. -/
def printError (err : BitVec 32) (s : σ) : Except PrintFault σ :=
  let err := if err.toInt < 0 then -err else err
  let unknown := vprintfmtWith putch (fun _ _ => .error .steps) (fun _ => []) (fun _ => err)
    [0x65#8, 0x72#8, 0x72#8, 0x6f#8, 0x72#8, 0x20#8, 0x25#8, 0x64#8] s
  if maxError ≤ err.toInt then unknown
  else do
    match ← errorString err with
    | none => unknown
    | some p => vprintfmtWith putch (fun _ _ => .error .steps) (fun _ => bytes p) (fun _ => 1#32) [0x25#8, 0x73#8] s

/-- `vprintfmt` -/
def vprintfmt (str : BitVec 32 → List (BitVec 8)) (args : Nat → BitVec 32) (fmt : List (BitVec 8)) (s : σ) :
    Except PrintFault σ := vprintfmtWith putch (printError putch) str args fmt s

end

end Putch

/-! ## `vsnprintf` -/

structure Sprintbuf where
  mem : Mem
  buf : Nat
  ebuf : Nat
  cnt : BitVec 32

/-- `sprintputch` -/
def sprintputch (b : Sprintbuf) (ch : Int) : Sprintbuf :=
  let b := { b with cnt := b.cnt + 1#32 }
  if b.buf < b.ebuf then
    { b with mem := Function.update b.mem b.buf (BitVec.ofInt 8 ch), buf := b.buf + 1 }
  else b

/-- `vsnprintf`: the memory and the result. The strings and the format are not in the buffer. -/
def vsnprintf (str : BitVec 32 → List (BitVec 8)) (args : Nat → BitVec 32) (mem : Mem) (buf : Nat)
    (n : BitVec 32) (fmt : List (BitVec 8)) : Except PrintFault (Mem × Int) :=
  if buf = 0 ∨ n.toInt < 1 then .ok (mem, -eInval)
  else
    (Putch.vprintfmt sprintputch str args fmt ⟨mem, buf, buf + n.toInt.toNat - 1, 0#32⟩).map fun b =>
      (Function.update b.mem b.buf 0#8, b.cnt.toInt)

/-! ## Every sink gets the output -/

section

variable {σ : Type} {putch : σ → Int → σ} {s : σ} {args : Nat → BitVec 32} {str : BitVec 32 → List (BitVec 8)}
  {pe : BitVec 32 → Except PrintFault (List Int)} {peTo : BitVec 32 → σ → Except PrintFault σ}
  {fmt : List (BitVec 8)} {fuel ap : Nat} {i : Int}

/-- The sink after the characters that are printed. -/
def feed (putch : σ → Int → σ) (s : σ) (r : Except PrintFault (List Int)) : Except PrintFault σ :=
  r.map fun out => out.foldl putch s

theorem pad_feed (c : Int) (width : BitVec 32) : Putch.pad putch c width s = (pad c width).foldl putch s := by
  unfold Putch.pad pad
  generalize width.toInt.toNat = n
  induction n generalizing s with
  | zero => rfl
  | succ n ih =>
      rw [Function.iterate_succ_apply, ih, List.replicate_succ]
      rfl

theorem printnum_feed {base : Nat} {padc : Int} {num : Nat} {width : BitVec 32} :
    Putch.printnum putch base padc fuel num width s = feed putch s (printnum base padc fuel num width) := by
  induction fuel generalizing num width with
  | zero => rfl
  | succ fuel ih =>
      unfold Putch.printnum printnum
      rw [ih, pad_feed]
      by_cases hle : base ≤ num
      · rw [if_pos hle, if_pos hle]
        cases printnum base padc fuel (num / base) (width - 1#32) with
        | error f => rfl
        | ok out =>
            cases digit (num % base) with
            | error f => rfl
            | ok d => exact congrArg Except.ok (List.foldl_concat putch s d out).symm
      · rw [if_neg hle, if_neg hle]
        cases digit (num % base) with
        | error f => rfl
        | ok d => exact congrArg Except.ok (List.foldl_concat putch s d _).symm

theorem putString_feed {altflag : Bool} {p : List (BitVec 8)} {precision width : BitVec 32} :
    Putch.putString putch altflag p precision width s =
      ((putString altflag p precision width).1.foldl putch s, (putString altflag p precision width).2) := by
  induction p generalizing precision width s with
  | nil => rfl
  | cons ch p ih =>
      unfold Putch.putString putString
      by_cases hprec : precision.toInt < 0 ∨ 0 ≤ precision.toInt - 1
      · rw [if_pos hprec, if_pos hprec]
        dsimp only
        by_cases halt : altflag ∧ (ch.toInt < 0x20 ∨ 0x7e < ch.toInt)
        · rw [if_pos halt, if_pos halt, ih]
          rfl
        · rw [if_neg halt, if_neg halt, ih]
          rfl
      · rw [if_neg hprec, if_neg hprec]
        rfl

theorem convertString_feed {p : List (BitVec 8)} {v : Flags} :
    Putch.convertString putch p v s = (convertString p v).foldl putch s := by
  unfold Putch.convertString convertString
  dsimp only
  rw [List.foldl_append, List.foldl_append, putString_feed, pad_feed, pad_feed]

/-- A number behind the characters `sign`. -/
theorem convertNumber_feed {sign : List Int} {num : BitVec 64} {base : Nat} {v : Flags} :
    Putch.convertNumber putch num base v (sign.foldl putch s) = feed putch s (convertNumber sign num base v) := by
  unfold Putch.convertNumber convertNumber
  rw [printnum_feed]
  cases printnum base v.padc.toInt 64 num.toNat v.width with
  | error f => rfl
  | ok out => exact congrArg Except.ok List.foldl_append.symm

theorem feed_cons (c : Int) (r : Except PrintFault (List Int)) :
    feed putch s (r.map (c :: ·)) = feed putch (putch s c) r := by
  cases r with
  | error f => rfl
  | ok out => rfl

theorem feed_append (out : List Int) (r : Except PrintFault (List Int)) :
    feed putch s (r.map (out ++ ·)) = feed putch (out.foldl putch s) r := by
  cases r with
  | error f => rfl
  | ok rest => exact congrArg Except.ok List.foldl_append

/-- The sink and the next argument after a conversion. -/
def feedNext (putch : σ → Int → σ) (s : σ) (r : Except PrintFault (List Int × Nat)) : Except PrintFault (σ × Nat) :=
  r.map fun x => (x.1.foldl putch s, x.2)

theorem number_feed (sign : List Int) {num : BitVec 64} {base : Nat} {v : Flags} {k : Nat} :
    (Putch.convertNumber putch num base v (sign.foldl putch s)).map (fun s => (s, k)) =
      feedNext putch s ((convertNumber sign num base v).map fun out => (out, k)) := by
  rw [convertNumber_feed]
  cases convertNumber sign num base v with
  | error f => rfl
  | ok out => rfl

theorem convert_feed {ch : BitVec 8} {v : Flags} (hpe : ∀ err s, peTo err s = feed putch s (pe err)) :
    Putch.convert putch args str peTo ch v ap s = (convert args str pe ch v ap).map (feedNext putch s) := by
  unfold Putch.convert convert
  by_cases hc : ch = 0x63#8
  · rw [if_pos hc, if_pos hc]
    rfl
  rw [if_neg hc, if_neg hc]
  by_cases he : ch = 0x65#8
  · rw [if_pos he, if_pos he, hpe]
    cases pe (args ap) with
    | error f => rfl
    | ok out => rfl
  rw [if_neg he, if_neg he]
  by_cases hs : ch = 0x73#8
  · rw [if_pos hs, if_pos hs, convertString_feed]
    rfl
  rw [if_neg hs, if_neg hs]
  by_cases hd : ch = 0x64#8
  · rw [if_pos hd, if_pos hd]
    dsimp only
    by_cases hneg : (getint args v.lflag ap).toInt < 0
    · rw [if_pos hneg, if_pos hneg]
      exact congrArg some (number_feed [0x2d])
    · rw [if_neg hneg, if_neg hneg]
      exact congrArg some (number_feed [])
  rw [if_neg hd, if_neg hd]
  by_cases hu : ch = 0x75#8
  · rw [if_pos hu, if_pos hu]
    exact congrArg some (number_feed [])
  rw [if_neg hu, if_neg hu]
  by_cases ho : ch = 0x6f#8
  · rw [if_pos ho, if_pos ho]
    exact congrArg some (number_feed [])
  rw [if_neg ho, if_neg ho]
  by_cases hp : ch = 0x70#8
  · rw [if_pos hp, if_pos hp]
    exact congrArg some (number_feed [0x30, 0x78])
  rw [if_neg hp, if_neg hp]
  by_cases hx : ch = 0x78#8
  · rw [if_pos hx, if_pos hx]
    exact congrArg some (number_feed [])
  rw [if_neg hx, if_neg hx]
  by_cases hpercent : ch = 0x25#8
  · rw [if_pos hpercent, if_pos hpercent]
    rfl
  · rw [if_neg hpercent, if_neg hpercent]
    rfl

/-- The loop of `vprintfmt` calls `putch` with what it prints. -/
theorem formatLoop_feed (hpe : ∀ err s, peTo err s = feed putch s (pe err)) :
    Putch.formatLoop putch args str peTo fmt fuel i ap s =
      feed putch s (formatLoop args str pe fmt fuel i ap) := by
  induction fuel generalizing i ap s with
  | zero => rfl
  | succ fuel ih =>
      unfold Putch.formatLoop formatLoop
      cases fmtAt fmt i with
      | error f => rfl
      | ok ch =>
          dsimp only [bind, Except.bind]
          by_cases hch : ch ≠ 0x25#8
          · rw [if_pos hch, if_pos hch]
            by_cases h0 : ch = 0#8
            · rw [if_pos h0, if_pos h0]
              rfl
            · rw [if_neg h0, if_neg h0, ih, feed_cons]
          · rw [if_neg hch, if_neg hch]
            cases readFlags args fmt (fmt.length + 2) (i + 1) .init ap with
            | error f => rfl
            | ok x =>
                dsimp only
                rw [convert_feed hpe]
                cases convert args str pe x.1 x.2.2.1 x.2.2.2 with
                | none =>
                    dsimp only [Option.map_none]
                    cases goBack fmt (fmt.length + 2) (x.2.1 - 1) with
                    | error f => rfl
                    | ok j =>
                        dsimp only
                        rw [ih, feed_cons]
                | some r =>
                    cases r with
                    | error f => rfl
                    | ok y =>
                        dsimp only [Option.map_some, feedNext, Except.map]
                        rw [ih]
                        exact (feed_append y.1 _).symm

theorem vprintfmtWith_feed (hpe : ∀ err s, peTo err s = feed putch s (pe err)) :
    Putch.vprintfmtWith putch peTo str args fmt s = feed putch s (vprintfmtWith pe str args fmt) :=
  formatLoop_feed hpe

/-- The nested calls for `%e` go to the same sink. -/
theorem printError_feed (err : BitVec 32) (s : σ) :
    Putch.printError putch err s = feed putch s (printError err) := by
  unfold Putch.printError printError
  dsimp only
  generalize (if err.toInt < 0 then -err else err) = e
  by_cases hlarge : maxError ≤ e.toInt
  · rw [if_pos hlarge, if_pos hlarge]
    exact vprintfmtWith_feed fun _ _ => rfl
  · rw [if_neg hlarge, if_neg hlarge]
    cases errorString e with
    | error f => rfl
    | ok p =>
        dsimp only [bind, Except.bind]
        cases p with
        | none => exact vprintfmtWith_feed fun _ _ => rfl
        | some p => exact vprintfmtWith_feed fun _ _ => rfl

/-- `vprintfmt` does to any sink what its output does, one character after the other. -/
theorem vprintfmt_feed : Putch.vprintfmt putch str args fmt s = feed putch s (vprintfmt str args fmt) :=
  vprintfmtWith_feed printError_feed

end

/-! ## The buffer -/

section

variable {b : Sprintbuf} {out : List Int} {mem : Mem} {a n : Nat}

/-- The characters that are stored for `out`. -/
def charsOf (out : List Int) : List (BitVec 8) := out.map (BitVec.ofInt 8)

theorem store_cons (mem : Mem) (a : Nat) (c : BitVec 8) (l : List (BitVec 8)) :
    Mem.store (Function.update mem a c) (a + 1) l = mem.store a (c :: l) := by
  ext x : 1
  simp only [Mem.store, List.length_cons]
  by_cases hx : x = a
  · rw [if_neg (by omega), if_pos (by omega), hx, Function.update_self, Nat.sub_self]
    rfl
  · rw [Function.update_of_ne hx]
    by_cases hin : a + 1 ≤ x ∧ x < a + 1 + l.length
    · rw [if_pos hin, if_pos (by omega), show x - a = (x - (a + 1)) + 1 by omega]
      rfl
    · rw [if_neg hin, if_neg (by omega)]

theorem store_nil (mem : Mem) (a : Nat) : mem.store a [] = mem := by
  ext x : 1
  simp only [Mem.store, List.length_nil]
  rw [if_neg (by omega)]

theorem store_concat (mem : Mem) (a : Nat) (c : BitVec 8) (l : List (BitVec 8)) :
    Function.update (mem.store a l) (a + l.length) c = mem.store a (l ++ [c]) := by
  induction l generalizing mem a with
  | nil =>
      rw [store_nil, List.nil_append, ← store_cons, store_nil]
      rfl
  | cons d l ih =>
      rw [← store_cons, List.cons_append, ← store_cons, ← ih, List.length_cons]
      congr 1
      omega

theorem sprintputch_room (h : b.buf < b.ebuf) (c : Int) : sprintputch b c =
    ⟨Function.update b.mem b.buf (BitVec.ofInt 8 c), b.buf + 1, b.ebuf, b.cnt + 1#32⟩ := by
  unfold sprintputch
  exact if_pos h

theorem sprintputch_full (h : ¬ b.buf < b.ebuf) (c : Int) :
    sprintputch b c = ⟨b.mem, b.buf, b.ebuf, b.cnt + 1#32⟩ := by
  unfold sprintputch
  exact if_neg h

/-- The sink after `out`: all characters are counted, and those for which there is room are stored. -/
theorem sprintputch_foldl (h : b.buf ≤ b.ebuf) : out.foldl sprintputch b =
    { mem := b.mem.store b.buf (charsOf (out.take (b.ebuf - b.buf)))
      buf := b.buf + min out.length (b.ebuf - b.buf)
      ebuf := b.ebuf
      cnt := b.cnt + BitVec.ofNat 32 out.length } := by
  induction out generalizing b with
  | nil => simp [charsOf, store_nil]
  | cons c out ih =>
      have hcnt : b.cnt + 1#32 + BitVec.ofNat 32 out.length = b.cnt + BitVec.ofNat 32 (c :: out).length := by
        rw [List.length_cons]
        bv_omega
      rw [List.foldl_cons]
      by_cases hroom : b.buf < b.ebuf
      · obtain ⟨k, hk⟩ := Nat.exists_eq_add_of_lt hroom
        rw [sprintputch_room hroom, ih (by dsimp only; omega)]
        dsimp only
        rw [hcnt, store_cons, show b.ebuf - (b.buf + 1) = k by omega, show b.ebuf - b.buf = k + 1 by omega,
          List.length_cons, show b.buf + 1 + min out.length k = b.buf + min (out.length + 1) (k + 1) by omega]
        rfl
      · rw [sprintputch_full hroom, ih (by dsimp only; omega)]
        dsimp only
        rw [hcnt, show b.ebuf - b.buf = 0 by omega, Nat.min_zero, Nat.min_zero]
        rfl

/-- `vsnprintf` returns the length of the whole output of `vprintfmt`; the buffer holds as much of it as there
is room for before the zero, and nothing behind the buffer is written. -/
theorem vsnprintf_prefix {str : BitVec 32 → List (BitVec 8)} {args : Nat → BitVec 32} {fmt : List (BitVec 8)}
    {buf : Nat} {n : BitVec 32} (mem : Mem) (hbuf : buf ≠ 0) (hn : 1 ≤ n.toInt)
    (hout : vprintfmt str args fmt = .ok out) (hm : out.length < 2 ^ 31) :
    ∃ mem', vsnprintf str args mem buf n fmt = .ok (mem', out.length) ∧
      CString mem' buf (charsOf (out.take (min out.length (n.toInt.toNat - 1)))) ∧
      ∀ x, x < buf ∨ buf + n.toInt.toNat ≤ x → mem' x = mem x := by
  have hroom : buf + n.toInt.toNat - 1 - buf = n.toInt.toNat - 1 := by omega
  have hlen : (charsOf (out.take (n.toInt.toNat - 1))).length = min out.length (n.toInt.toNat - 1) := by
    rw [charsOf, List.length_map, List.length_take, Nat.min_comm]
  have hcnt : (0#32 + BitVec.ofNat 32 out.length).toInt = out.length := by
    rw [BitVec.zero_add, BitVec.toInt_eq_toNat_of_lt (by rw [BitVec.toNat_ofNat]; omega), BitVec.toNat_ofNat]
    omega
  have htake : out.take (min out.length (n.toInt.toNat - 1)) = out.take (n.toInt.toNat - 1) := by
    rw [Nat.min_comm, ← List.take_take, List.take_length]
  refine ⟨mem.store buf (charsOf (out.take (n.toInt.toNat - 1)) ++ [0#8]), ?_, ?_, ?_⟩
  · unfold vsnprintf
    rw [if_neg (by omega), vprintfmt_feed, hout]
    unfold feed
    dsimp only [Except.map]
    rw [sprintputch_foldl (b := ⟨mem, buf, buf + n.toInt.toNat - 1, 0#32⟩) (by dsimp only; omega)]
    dsimp only
    rw [hroom, hcnt, ← hlen, store_concat]
  · rw [htake]
    refine ⟨?_, ?_⟩
    · intro k hk
      rw [Mem.store_of_mem _ (by rw [List.length_append]; omega), List.getD_append _ _ _ _ hk]
      exact List.getD_eq_getElem _ _ hk
    · rw [Mem.store_of_mem _ (by rw [List.length_append, List.length_singleton]; omega),
        List.getD_append_right _ _ _ _ (Nat.le_refl _), Nat.sub_self]
      rfl
  · intro x hx
    apply Mem.store_of_disjoint
    rw [List.length_append, hlen, List.length_singleton]
    omega

/-- `hi %c!` with the argument `x` in a buffer of 5 bytes. -/
theorem vsnprintf_prefix_short : ∃ mem', vsnprintf (fun _ => []) (fun _ => 0x78#32) (fun _ => 0xff#8) 0x1000 5#32
      [0x68#8, 0x69#8, 0x20#8, 0x25#8, 0x63#8, 0x21#8] = .ok (mem', 5) ∧
    CString mem' 0x1000 [0x68#8, 0x69#8, 0x20#8, 0x78#8] ∧
    ∀ x, x < 0x1000 ∨ 0x1000 + 5 ≤ x → mem' x = 0xff#8 := by
  have hn : 1 ≤ (5#32).toInt := by decide
  have hout : vprintfmt (fun _ => []) (fun _ => 0x78#32) [0x68#8, 0x69#8, 0x20#8, 0x25#8, 0x63#8, 0x21#8] =
      .ok [0x68, 0x69, 0x20, 0x78, 0x21] := rfl
  exact vsnprintf_prefix (fun _ => 0xff#8) (by decide) hn hout (by decide)

end

end Jos.User
