import Jos.Lib.Chunks
import Jos.User.Snprintf

/-!
# Printing to the console

`vcprintf` of `lib/printf.c` collects the characters of the output in a buffer and gives it to
`sys_cputs` when there are 255, and at the end. The kernel prints what it gets with `cprintf` and the
format `%.*s`, one character after the other. So the output arrives on the console as a whole and in its
order, but for what stands behind a zero in the same chunk.

Main result:
* `vcprintf_console`: what arrives on the console.
-/

namespace Jos.User

open Jos.Lib

namespace Cprintf

/-! ## The environment -/

/-- `struct printbuf`, and what is behind `sys_cputs`. The first `idx` characters of the buffer are in `buf`. -/
structure Printbuf (σ : Type) where
  world : σ
  buf : List (BitVec 8)
  cnt : BitVec 32

section

variable {σ : Type} (cputs : σ → List (BitVec 8) → σ)

/-- `putch` -/
def putch (b : Printbuf σ) (ch : Int) : Printbuf σ :=
  let b := { b with buf := b.buf ++ [BitVec.ofInt 8 ch] }
  let b := if b.buf.length = 256 - 1 then { b with world := cputs b.world b.buf, buf := [] } else b
  { b with cnt := b.cnt + 1#32 }

/-- `vcprintf` -/
def vcprintf (str : BitVec 32 → List (BitVec 8)) (args : Nat → BitVec 32) (fmt : List (BitVec 8)) (world : σ) :
    Except PrintFault (σ × BitVec 32) :=
  (Putch.vprintfmt (putch cputs) str args fmt ⟨world, [], 0#32⟩).map fun b => (cputs b.world b.buf, b.cnt)

end

/-! ## The kernel -/

section

variable {κ : Type} (cputchar : κ → Int → κ)

/-- `putch` of `kern/printf.c` -/
def kernPutch (s : κ × BitVec 32) (ch : Int) : κ × BitVec 32 := (cputchar s.1 ch, s.2 + 1#32)

/-- `vcprintf` of `kern/printf.c` -/
def kernVcprintf (str : BitVec 32 → List (BitVec 8)) (args : Nat → BitVec 32) (fmt : List (BitVec 8)) (console : κ) :
    Except PrintFault (κ × BitVec 32) := Putch.vprintfmt (kernPutch cputchar) str args fmt (console, 0#32)

/-- `sys_cputs` for an address that the environment may read. `text` is what is in the memory from there
on. -/
def sysCputs (addr : BitVec 32) (text : List (BitVec 8)) (len : BitVec 32) (console : κ) : Except PrintFault κ :=
  (kernVcprintf cputchar (fun _ => text.takeWhile (· ≠ 0#8)) (fun i => if i = 0 then len else addr)
    [0x25#8, 0x2e#8, 0x2a#8, 0x73#8] console).map Prod.fst

/-- The system call for a buffer at `addr`, when `behind` is in the memory behind the characters. -/
def cputsCall (addr : BitVec 32) (behind : κ → List (BitVec 8) → List (BitVec 8)) (r : Except PrintFault κ)
    (buf : List (BitVec 8)) : Except PrintFault κ :=
  r.bind fun console =>
    sysCputs cputchar addr (buf ++ behind console buf) (BitVec.ofNat 32 buf.length) console

end

section

variable {σ κ : Type} {cputs : σ → List (BitVec 8) → σ} {cputchar : κ → Int → κ} {console : κ}
  {addr precision width len : BitVec 32} {text p : List (BitVec 8)} {out : List Int} {k : Nat}
  {behind : κ → List (BitVec 8) → List (BitVec 8)}

/-! ## The buffer -/

theorem foldl_putch (w : σ) (l : List (BitVec 8)) (cnt : BitVec 32) (out : List Int) :
    out.foldl (putch cputs) ⟨w, l, cnt⟩ =
      ⟨((charsOf out).foldl (buffered 255 cputs) (w, l)).1, ((charsOf out).foldl (buffered 255 cputs) (w, l)).2,
        cnt + BitVec.ofNat 32 out.length⟩ := by
  induction out generalizing w l cnt with
  | nil =>
      rw [List.length_nil, BitVec.add_zero]
      rfl
  | cons ch out ih =>
      have hcnt : cnt + 1#32 + BitVec.ofNat 32 out.length = cnt + BitVec.ofNat 32 (ch :: out).length := by
        rw [List.length_cons]
        bv_omega
      have hstep : putch cputs ⟨w, l, cnt⟩ ch = ⟨(buffered 255 cputs (w, l) (BitVec.ofInt 8 ch)).1,
          (buffered 255 cputs (w, l) (BitVec.ofInt 8 ch)).2, cnt + 1#32⟩ := by
        unfold putch buffered
        dsimp only
        rw [List.length_append, List.length_singleton]
        by_cases hfull : l.length + 1 = 255
        · rw [if_pos hfull, if_pos hfull]
        · rw [if_neg hfull, if_neg hfull]
      rw [List.foldl_cons, hstep, ih, hcnt]
      rfl

/-- The calls of `sys_cputs`. -/
theorem vcprintf_chunks (cputs : σ → List (BitVec 8) → σ) {str : BitVec 32 → List (BitVec 8)} {args : Nat → BitVec 32} {fmt : List (BitVec 8)}
    (hout : vprintfmt str args fmt = .ok out) (w : σ) : ∃ chunks rest, IsChunks 255 (charsOf out) chunks rest ∧
      vcprintf cputs str args fmt w = .ok ((chunks ++ [rest]).foldl cputs w, BitVec.ofNat 32 out.length) := by
  obtain ⟨chunks, rest, hchunks, hbuf⟩ := foldl_buffered cputs (n := 255) (by omega) w (charsOf out)
  refine ⟨chunks, rest, hchunks, ?_⟩
  unfold vcprintf
  rw [vprintfmt_feed, hout]
  unfold feed
  dsimp only [Except.map]
  rw [foldl_putch, hbuf, BitVec.zero_add, List.foldl_concat]

/-! ## The format of `sys_cputs` -/

theorem toInt_sub_one (hp : precision.toInt = (k + 1 : Nat)) : (precision - 1#32).toInt = k := by
  have hnat := BitVec.toInt_eq_toNat_cond precision
  have hsub := BitVec.toInt_eq_toNat_cond (precision - 1#32)
  bv_omega

/-- The loop of `%s` with a precision prints as many characters as it says, if there are so many. -/
theorem putString_take (hp : precision.toInt = k) : (putString false text precision width).1 = (text.take k).map BitVec.toInt := by
  induction text generalizing precision width k with
  | nil => rw [List.take_nil]; rfl
  | cons ch text ih =>
      unfold putString
      cases k with
      | zero =>
          rw [if_neg (by omega)]
          rfl
      | succ k =>
          rw [if_pos (by omega)]
          dsimp only
          rw [if_neg (by simp), if_neg (by omega), ih (toInt_sub_one hp), List.take_succ_cons]
          rfl

theorem putString_width (hp : precision.toInt = k) : (putString false text precision width).2 =
    width - BitVec.ofNat 32 (min k text.length) := by
  induction text generalizing precision width k with
  | nil =>
      rw [List.length_nil, Nat.min_zero, BitVec.sub_zero]
      rfl
  | cons ch text ih =>
      unfold putString
      cases k with
      | zero =>
          rw [if_neg (by omega), Nat.zero_min, BitVec.sub_zero]
      | succ k =>
          rw [if_pos (by omega)]
          dsimp only
          rw [if_neg (by omega), ih (toInt_sub_one hp), List.length_cons, Nat.add_min_add_right]
          bv_omega

/-- What the kernel prints for a call of `sys_cputs`. -/
theorem sysCputs_prints (haddr : addr ≠ 0#32) (hk : k < 2 ^ 31) : sysCputs cputchar addr text (BitVec.ofNat 32 k) console =
    .ok ((((text.takeWhile (· ≠ 0#8)).take k).map BitVec.toInt).foldl cputchar console) := by
  have hlen : (BitVec.ofNat 32 k).toInt = k := by
    rw [BitVec.toInt_eq_toNat_of_lt (by rw [BitVec.toNat_ofNat]; omega), BitVec.toNat_ofNat]
    omega
  have hfold : ∀ (out : List Int) (s : κ × BitVec 32),
      (out.foldl (kernPutch cputchar) s).1 = out.foldl cputchar s.1 := by
    intro out
    induction out with
    | nil => exact fun s => rfl
    | cons ch out ih => exact fun s => ih (kernPutch cputchar s ch)
  have hout : vprintfmt (fun _ => text.takeWhile (· ≠ 0#8)) (fun i => if i = 0 then BitVec.ofNat 32 k else addr)
      [0x25#8, 0x2e#8, 0x2a#8, 0x73#8] =
      .ok (convertString (if addr = 0#32 then bytes "(null)" else text.takeWhile (· ≠ 0#8))
        ⟨0x20#8, 0#32, BitVec.ofNat 32 k, 0#32, false⟩ ++ []) := rfl
  rw [if_neg haddr, List.append_nil] at hout
  -- the width is 0 at first and counts down
  have hconv : convertString (text.takeWhile (· ≠ 0#8)) ⟨0x20#8, 0#32, BitVec.ofNat 32 k, 0#32, false⟩ =
      ((text.takeWhile (· ≠ 0#8)).take k).map BitVec.toInt := by
    have hwidth : (0#32 - BitVec.ofNat 32 (min k (text.takeWhile (· ≠ 0#8)).length)).toInt ≤ 0 := by
      have hmin := Nat.min_le_left k (text.takeWhile (· ≠ 0#8)).length
      generalize min k (text.takeWhile (· ≠ 0#8)).length = m at hmin ⊢
      have hcond := BitVec.toInt_eq_toNat_cond (0#32 - BitVec.ofNat 32 m)
      bv_omega
    unfold convertString
    dsimp only
    rw [if_neg (by decide), if_neg (by decide), putString_take hlen, putString_width hlen]
    unfold pad
    rw [Int.toNat_of_nonpos hwidth]
    exact List.append_nil _
  unfold sysCputs kernVcprintf
  rw [vprintfmt_feed, hout, hconv]
  unfold feed
  dsimp only [Except.map]
  rw [hfold]

/-! ## Together -/

/-- What is behind the characters is not printed. -/
theorem take_text (p behind : List (BitVec 8)) :
    ((p ++ behind).takeWhile (· ≠ 0#8)).take p.length = p.takeWhile (· ≠ 0#8) := by
  induction p with
  | nil => rfl
  | cons c p ih =>
      rw [List.cons_append]
      by_cases hc : c = 0#8
      · rw [List.takeWhile_cons_of_neg (by simp [hc]), List.takeWhile_cons_of_neg (by simp [hc]), List.take_nil]
      · rw [List.takeWhile_cons_of_pos (by simp [hc]), List.takeWhile_cons_of_pos (by simp [hc]), List.length_cons,
          List.take_succ_cons, ih]

theorem foldl_cputsCall (haddr : addr ≠ 0#32) {ps : List (List (BitVec 8))} (hps : ∀ p ∈ ps, p.length < 2 ^ 31)
    (console : κ) : ps.foldl (cputsCall cputchar addr behind) (.ok console) =
      .ok (((ps.flatMap fun p => p.takeWhile (· ≠ 0#8)).map BitVec.toInt).foldl cputchar console) := by
  induction ps generalizing console with
  | nil => rfl
  | cons p ps ih =>
      have hcall : cputsCall cputchar addr behind (.ok console) p =
          .ok (((p.takeWhile (· ≠ 0#8)).map BitVec.toInt).foldl cputchar console) := by
        unfold cputsCall Except.bind
        dsimp only
        rw [sysCputs_prints haddr (hps p (List.mem_cons_self ..)), take_text]
      rw [List.foldl_cons, hcall, ih fun p hp => hps p (List.mem_cons_of_mem _ hp), List.flatMap_cons,
        List.map_append, List.foldl_append]

theorem flatMap_takeWhile {ps : List (List (BitVec 8))} (h : 0#8 ∉ ps.flatten) :
    (ps.flatMap fun p => p.takeWhile (· ≠ 0#8)) = ps.flatten := by
  rw [List.flatMap_def]
  refine congrArg List.flatten ((List.map_congr_left fun p hp => ?_).trans (List.map_id _))
  exact List.takeWhile_eq_self_iff.mpr fun c hc =>
    decide_eq_true fun heq => h (List.mem_flatten.mpr ⟨p, hp, heq ▸ hc⟩)

/-- What a program prints with `cprintf` arrives on the console in its order: of each chunk of 255 that the
buffer is emptied at, the characters up to the first zero, and so all of it if there is no zero. The result
is the length of the output. -/
theorem vcprintf_console {str : BitVec 32 → List (BitVec 8)} {args : Nat → BitVec 32} {fmt : List (BitVec 8)}
    (hout : vprintfmt str args fmt = .ok out) (haddr : addr ≠ 0#32)
    (behind : κ → List (BitVec 8) → List (BitVec 8)) (cputchar : κ → Int → κ) (console : κ) :
    (∃ chunks rest, IsChunks 255 (charsOf out) chunks rest ∧
      vcprintf (cputsCall cputchar addr behind) str args fmt (.ok console) = .ok
        (.ok ((((chunks ++ [rest]).flatMap fun p => p.takeWhile (· ≠ 0#8)).map BitVec.toInt).foldl cputchar console),
          BitVec.ofNat 32 out.length)) ∧
      (0#8 ∉ charsOf out → vcprintf (cputsCall cputchar addr behind) str args fmt (.ok console) = .ok
        (.ok (((charsOf out).map BitVec.toInt).foldl cputchar console), BitVec.ofNat 32 out.length)) := by
  obtain ⟨chunks, rest, hchunks, hrun⟩ := vcprintf_chunks (cputsCall cputchar addr behind) hout (.ok console)
  have hps : ∀ p ∈ chunks ++ [rest], p.length < 2 ^ 31 := by
    intro p hp
    rcases List.mem_append.mp hp with hp | hp
    · have hfull := hchunks.full p hp
      omega
    · rw [List.mem_singleton.mp hp]
      have hlt := hchunks.lt
      omega
  rw [foldl_cputsCall haddr hps] at hrun
  refine ⟨⟨chunks, rest, hchunks, hrun⟩, fun hzero => ?_⟩
  have hconcat : (chunks ++ [rest]).flatten = charsOf out := by
    rw [List.flatten_append, List.flatten_singleton, hchunks.concat]
  rw [hrun, flatMap_takeWhile (hconcat ▸ hzero), hconcat]

/-- `hi` on a console that is a list of characters. -/
theorem vcprintf_console_hi : vcprintf (cputsCall (fun l c => l ++ [c]) 0x1000#32 fun _ _ => [0x7a#8]) (fun _ => [])
    (fun _ => 0#32) [0x68#8, 0x69#8] (.ok []) = .ok (.ok [0x68, 0x69], 2#32) := by
  have hout : vprintfmt (fun _ => []) (fun _ => 0#32) [0x68#8, 0x69#8] = .ok [0x68, 0x69] := rfl
  exact (vcprintf_console hout (by decide) (fun _ _ => [0x7a#8]) (fun l c => l ++ [c]) []).2 (by decide)

end

end Cprintf

end Jos.User
