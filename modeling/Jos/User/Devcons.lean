import Jos.User.Cprintf
import Jos.User.Fprintf

/-!
# The console as a file

`devcons_write` copies what it is given to a buffer, 127 characters at a time, and calls `sys_cputs`
with them. So what a program prints with `printf` when its standard output is the console goes through
two buffers, and arrives there like what it prints with `cprintf`.

Main result:
* `printf_console`: the output arrives through both buffers.
-/

namespace Jos.User

open Jos.Lib Cprintf Fprintf

namespace Devcons

section

variable {σ : Type} (cputs : σ → List (BitVec 8) → σ) (text : List (BitVec 8))

/-- The loop of `devcons_write`. The comparisons are those of numbers without a sign. -/
def writeLoop (n tot : BitVec 32) (w : σ) : σ × BitVec 32 :=
  if _h : tot < n then
    let m := if 127#32 < n - tot then 127#32 else n - tot
    writeLoop n (tot + m) (cputs w ((text.drop tot.toNat).take m.toNat))
  else (w, tot)
termination_by (n - tot).toNat
decreasing_by
  split
  · bv_omega
  · bv_omega

/-- `devcons_write` of the characters `text` -/
def devconsWrite (w : σ) : σ × BitVec 32 := writeLoop cputs text (BitVec.ofNat 32 text.length) 0#32 w

end

section

variable {σ κ : Type} {cputs : σ → List (BitVec 8) → σ} {text : List (BitVec 8)} {cputchar : κ → Int → κ}
  {addr fd : BitVec 32} {behind : κ → List (BitVec 8) → List (BitVec 8)} {w : σ}
  {w' : Except PrintFault κ} {ps : List (List (BitVec 8))}

/-- The calls of `sys_cputs`. -/
theorem writeLoop_pieces (cputs : σ → List (BitVec 8) → σ) (w : σ) {text : List (BitVec 8)} {tot : BitVec 32} (hn : text.length < 2 ^ 32) (htot : tot.toNat ≤ text.length) :
    ∃ ps : List (List (BitVec 8)), ps.flatten = text.drop tot.toNat ∧ (∀ p ∈ ps, p.length ≤ 127) ∧
      writeLoop cputs text (BitVec.ofNat 32 text.length) tot w = (ps.foldl cputs w, BitVec.ofNat 32 text.length) := by
  fun_induction writeLoop cputs text (BitVec.ofNat 32 text.length) tot w with
  | case1 tot w hlt m ih =>
      have hlen : (BitVec.ofNat 32 text.length).toNat = text.length := by
        rw [BitVec.toNat_ofNat, Nat.mod_eq_of_lt hn]
      have hleft : (BitVec.ofNat 32 text.length - tot).toNat = text.length - tot.toNat := by
        rw [BitVec.toNat_sub_of_le (BitVec.le_of_lt hlt), hlen]
      have hm : m.toNat ≤ 127 ∧ m.toNat ≤ text.length - tot.toNat := by
        by_cases hlarge : 127#32 < BitVec.ofNat 32 text.length - tot
        · have hmeq : m = 127#32 := if_pos hlarge
          have hlarge := BitVec.lt_def.mp hlarge
          rw [hleft] at hlarge
          rw [hmeq]
          exact ⟨Nat.le_refl _, Nat.le_of_lt hlarge⟩
        · have hmeq : m = BitVec.ofNat 32 text.length - tot := if_neg hlarge
          have hsmall := BitVec.le_def.mp (BitVec.not_lt.mp hlarge)
          rw [hleft] at hsmall
          rw [hmeq, hleft]
          exact ⟨hsmall, Nat.le_refl _⟩
      have hadd : (tot + m).toNat = tot.toNat + m.toNat := by
        rw [BitVec.toNat_add, Nat.mod_eq_of_lt (by omega)]
      obtain ⟨ps, hflat, hle, hrun⟩ := ih (by omega)
      refine ⟨(text.drop tot.toNat).take m.toNat :: ps, ?_, fun p hp => ?_, hrun⟩
      · rw [List.flatten_cons, hflat, hadd, ← List.drop_drop, List.take_append_drop]
      · rcases List.mem_cons.mp hp with rfl | hp
        · exact Nat.le_trans (List.length_take_le ..) hm.1
        · exact hle p hp
  | case2 tot w hge =>
      have heq : tot.toNat = text.length := by bv_omega
      refine ⟨[], ?_, fun p hp => absurd hp List.not_mem_nil, ?_⟩
      · rw [heq, List.drop_length]
        rfl
      · rw [← heq, BitVec.ofNat_toNat, BitVec.setWidth_eq]
        rfl

theorem devconsWrite_pieces (cputs : σ → List (BitVec 8) → σ) (w : σ) (hn : text.length < 2 ^ 32) :
    ∃ ps : List (List (BitVec 8)), ps.flatten = text ∧ (∀ p ∈ ps, p.length ≤ 127) ∧
      devconsWrite cputs text w = (ps.foldl cputs w, BitVec.ofNat 32 text.length) := by
  have hzero : (0#32).toNat ≤ text.length := Nat.zero_le _
  exact writeLoop_pieces cputs w hn hzero

/-- `devcons_write` writes everything. -/
theorem devconsWrite_all (hn : text.length < 2 ^ 31) : (devconsWrite cputs text w).2.toInt = text.length := by
  obtain ⟨ps, -, -, hrun⟩ := devconsWrite_pieces cputs w (Nat.lt_trans hn (by decide))
  rw [hrun, BitVec.toInt_eq_toNat_of_lt (by rw [BitVec.toNat_ofNat]; omega), BitVec.toNat_ofNat]
  omega

theorem devconsWrite_console (haddr : addr ≠ 0#32) (hn : text.length < 2 ^ 31) (hzero : 0#8 ∉ text) (console : κ) :
    (devconsWrite (cputsCall cputchar addr behind) text (.ok console)).1 =
      .ok ((text.map BitVec.toInt).foldl cputchar console) := by
  obtain ⟨ps, hflat, hle, hrun⟩ := devconsWrite_pieces (cputsCall cputchar addr behind) (.ok console)
    (Nat.lt_trans hn (by decide))
  have hps : ∀ p ∈ ps, p.length < 2 ^ 31 := fun p hp => Nat.lt_of_le_of_lt (hle p hp) (by decide)
  rw [hrun]
  dsimp only
  rw [foldl_cputsCall haddr hps, flatMap_takeWhile (hflat ▸ hzero), hflat]

/-- The calls of `write` when the file is the console. -/
theorem run_console (haddr : addr ≠ 0#32) (hps : ∀ p ∈ ps, p.length < 2 ^ 31) (hzero : 0#8 ∉ ps.flatten)
    {console : κ} (h : LabelledRun (WroteAll (fun _ => devconsWrite (cputsCall cputchar addr behind)) fd)
      (.ok console) ps w') : w' = .ok ((ps.flatten.map BitVec.toInt).foldl cputchar console) := by
  induction ps generalizing console with
  | nil =>
      cases h
      rfl
  | cons p ps ih =>
      rw [List.flatten_cons, List.mem_append, not_or] at hzero
      cases h with
      | cons hstep rest =>
          rw [← hstep.1, devconsWrite_console haddr (hps p (List.mem_cons_self ..)) hzero.1] at rest
          rw [ih (fun p hp => hps p (List.mem_cons_of_mem _ hp)) hzero.2 rest, List.flatten_cons, List.map_append,
            List.foldl_append]

/-- What a program prints with `printf` to the console arrives there as a whole and in its order, if it has
no zeros. The result is the length of the output, or 1 if it is empty. -/
theorem printf_console {str : BitVec 32 → List (BitVec 8)} {args : Nat → BitVec 32} {fmt : List (BitVec 8)}
    {out : List Int} (hout : vprintfmt str args fmt = .ok out) (hzero : 0#8 ∉ charsOf out) (haddr : addr ≠ 0#32)
    (behind : κ → List (BitVec 8) → List (BitVec 8)) (cputchar : κ → Int → κ) (console : κ) :
    vfprintf (fun _ => devconsWrite (cputsCall cputchar addr behind)) fd str args fmt (.ok console) = .ok
      (.ok (((charsOf out).map BitVec.toInt).foldl cputchar console),
        if BitVec.ofNat 32 out.length ≠ 0#32 then BitVec.ofNat 32 out.length else 1#32) := by
  obtain ⟨chunks, rest, b, hchunks, hb, hrun⟩ := vfprintf_sent
    (fun _ => devconsWrite (cputsCall cputchar addr behind)) fd hout (.ok console)
  have hflat := hchunks.flatten_pieces
  have hps : ∀ p ∈ (if rest = [] then chunks else chunks ++ [rest]), p.length < 2 ^ 31 :=
    fun p hp => Nat.lt_of_le_of_lt (hchunks.pieces_le p hp) (by decide)
  generalize (if rest = [] then chunks else chunks ++ [rest]) = ps at *
  obtain ⟨w', n, e, hcalls, hw, hn, he⟩ := foldl_sent
    (fun _ => devconsWrite (cputsCall cputchar addr behind)) (b := ⟨.ok console, fd, [], 0#32, 1#32⟩) rfl ps
  rw [← hb] at hw hn he
  rw [hrun, hw, hn, he, BitVec.zero_add]
  cases hcalls with
  | all run =>
      rw [run_console haddr hps (hflat ▸ hzero) run, hflat, charsOf, List.length_map]
  | @stop done rest p w₁ w' r split run call short =>
      have hp : p ∈ ps := by
        rw [split]
        exact List.mem_append_right _ (List.mem_cons_self ..)
      refine absurd ?_ short
      rw [← devconsWrite_all (hps p hp), call]

/-- `hi` -/
theorem printf_console_hi : vfprintf (fun _ => devconsWrite (cputsCall (fun l c => l ++ [c]) 0x1000#32 fun _ _ => []))
    1#32 (fun _ => []) (fun _ => 0#32) [0x68#8, 0x69#8] (.ok []) = .ok (.ok [0x68, 0x69], 2#32) := by
  have hout : vprintfmt (fun _ => []) (fun _ => 0#32) [0x68#8, 0x69#8] = .ok [0x68, 0x69] := rfl
  exact printf_console hout (by decide) (by decide) (fun _ _ => []) (fun l c => l ++ [c]) []

end

end Devcons

end Jos.User
