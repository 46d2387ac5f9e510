import Jos.Lib.Chunks
import Jos.Lib.Pool
import Jos.User.Snprintf

/-!
# Printing to a file

`vfprintf` of `lib/fprintf.c` collects the characters of the output in a buffer of 256 and gives it to
`write` when it is full, and at the end. After a call that did not write everything there are no more
calls. What `write` does, and to what, is a parameter.

Main result:
* `vfprintf_writes`: the calls of `write`, and the result.
-/

namespace Jos.User

open Jos.Lib

/-- `struct printbuf`, and what is behind `write`. The first `idx` characters of the buffer are in `buf`. -/
structure Printbuf (σ : Type) where
  world : σ
  fd : BitVec 32
  buf : List (BitVec 8)
  result : BitVec 32
  error : BitVec 32

namespace Fprintf

section

variable {σ : Type} (write : BitVec 32 → List (BitVec 8) → σ → σ × BitVec 32)

/-- `writebuf` -/
def writebuf (b : Printbuf σ) : Printbuf σ :=
  if 0 < b.error.toInt then
    let r := write b.fd b.buf b.world
    { b with
      world := r.1
      result := if 0 < r.2.toInt then b.result + r.2 else b.result
      error := if r.2.toInt ≠ b.buf.length then (if r.2.toInt < 0 then r.2 else 0#32) else b.error }
  else b

/-- `putch` -/
def putch (b : Printbuf σ) (ch : Int) : Printbuf σ :=
  let b := { b with buf := b.buf ++ [BitVec.ofInt 8 ch] }
  if b.buf.length = 256 then { writebuf write b with buf := [] } else b

/-- `vfprintf` -/
def vfprintf (fd : BitVec 32) (str : BitVec 32 → List (BitVec 8)) (args : Nat → BitVec 32)
    (fmt : List (BitVec 8)) (world : σ) : Except PrintFault (σ × BitVec 32) :=
  (Putch.vprintfmt (putch write) str args fmt ⟨world, fd, [], 0#32, 1#32⟩).map fun b =>
    let b := if 0 < b.buf.length then writebuf write b else b
    (b.world, if b.result ≠ 0#32 then b.result else b.error)

/-- A call of `write` with the whole buffer. -/
def sent (b : Printbuf σ) (p : List (BitVec 8)) : Printbuf σ :=
  { writebuf write { b with buf := p } with buf := [] }

/-- A call of `write` that writes everything. -/
def WroteAll (fd : BitVec 32) (w : σ) (p : List (BitVec 8)) (w' : σ) : Prop :=
  (write fd p w).1 = w' ∧ (write fd p w).2.toInt = p.length

/-- The calls of `write` for `ps` end at the first that does not write everything, if there is one. -/
inductive Calls (fd : BitVec 32) (w : σ) (ps : List (List (BitVec 8))) : σ → BitVec 32 → BitVec 32 → Prop
  | all {w' : σ} (run : LabelledRun (WroteAll write fd) w ps w') :
      Calls fd w ps w' (BitVec.ofNat 32 ps.flatten.length) 1#32
  | stop {done rest : List (List (BitVec 8))} {p : List (BitVec 8)} {w₁ w' : σ} {r : BitVec 32}
      (split : ps = done ++ p :: rest) (run : LabelledRun (WroteAll write fd) w done w₁)
      (call : write fd p w₁ = (w', r)) (short : r.toInt ≠ p.length) :
      Calls fd w ps w' (BitVec.ofNat 32 done.flatten.length + if 0 < r.toInt then r else 0#32)
        (if r.toInt < 0 then r else 0#32)

end

section

variable {σ : Type} {write : BitVec 32 → List (BitVec 8) → σ → σ × BitVec 32} {b : Printbuf σ}
  {fd : BitVec 32} {w w' : σ} {ps : List (List (BitVec 8))} {p : List (BitVec 8)}

/-! ## The buffer -/

theorem putch_buffered (l : List (BitVec 8)) (ch : Int) : putch write { b with buf := l } ch =
    { (buffered 256 (sent write) (b, l) (BitVec.ofInt 8 ch)).1 with
      buf := (buffered 256 (sent write) (b, l) (BitVec.ofInt 8 ch)).2 } := by
  unfold putch buffered
  dsimp only
  rw [List.length_append, List.length_singleton]
  by_cases hfull : l.length + 1 = 256
  · rw [if_pos hfull, if_pos hfull]
    rfl
  · rw [if_neg hfull, if_neg hfull]

theorem foldl_putch (write : BitVec 32 → List (BitVec 8) → σ → σ × BitVec 32) (b : Printbuf σ) (out : List Int)
    (l : List (BitVec 8)) : out.foldl (putch write) { b with buf := l } =
    { ((charsOf out).foldl (buffered 256 (sent write)) (b, l)).1 with
      buf := ((charsOf out).foldl (buffered 256 (sent write)) (b, l)).2 } := by
  induction out generalizing b l with
  | nil => rfl
  | cons ch out ih =>
      rw [List.foldl_cons, putch_buffered, ih]
      rfl

/-! ## The calls -/

/-- There are no calls after an error. -/
theorem foldl_sent_stopped (h : ¬ 0 < b.error.toInt) (ps : List (List (BitVec 8))) :
    (ps.foldl (sent write) b).world = b.world ∧ (ps.foldl (sent write) b).result = b.result ∧
      (ps.foldl (sent write) b).error = b.error := by
  induction ps generalizing b with
  | nil => exact ⟨rfl, rfl, rfl⟩
  | cons p ps ih =>
      have hsent : sent write b p = { b with buf := [] } := by
        unfold sent writebuf
        rw [if_neg h]
      rw [List.foldl_cons, hsent]
      exact ih h

theorem sent_all (herr : b.error = 1#32) (h : WroteAll write b.fd b.world p w') :
    sent write b p = { b with
      world := w'
      buf := []
      result := b.result + BitVec.ofNat 32 p.length } := by
  obtain ⟨rfl, hlen⟩ := h
  have hr : (write b.fd p b.world).2 = BitVec.ofNat 32 p.length := by
    rw [← BitVec.ofInt_natCast, ← hlen, BitVec.ofInt_toInt]
  have hresult : (if 0 < (write b.fd p b.world).2.toInt then b.result + (write b.fd p b.world).2 else b.result) =
      b.result + BitVec.ofNat 32 p.length := by
    rw [hlen]
    by_cases hp : p.length = 0
    · rw [if_neg (by omega), hp]
      exact (BitVec.add_zero _).symm
    · rw [if_pos (by omega), hr]
  unfold sent writebuf
  rw [if_pos (by rw [herr]; decide)]
  dsimp only
  rw [if_neg (not_not_intro hlen), hresult]

/-- The calls of `write` for the pieces `ps`. -/
theorem foldl_sent (write : BitVec 32 → List (BitVec 8) → σ → σ × BitVec 32) {b : Printbuf σ} (herr : b.error = 1#32) (ps : List (List (BitVec 8))) :
    ∃ w' n e, Calls write b.fd b.world ps w' n e ∧ (ps.foldl (sent write) b).world = w' ∧
      (ps.foldl (sent write) b).result = b.result + n ∧ (ps.foldl (sent write) b).error = e := by
  induction ps generalizing b with
  | nil => exact ⟨_, _, _, .all (.nil b.world), rfl, (BitVec.add_zero _).symm, herr⟩
  | cons p ps ih =>
      rw [List.foldl_cons]
      by_cases hall : (write b.fd p b.world).2.toInt = p.length
      · have hstep : WroteAll write b.fd b.world p (write b.fd p b.world).1 := ⟨rfl, hall⟩
        have hadd : ∀ k : Nat, BitVec.ofNat 32 (p.length + k) = BitVec.ofNat 32 p.length + BitVec.ofNat 32 k :=
          fun k => BitVec.ofNat_add ..
        rw [sent_all herr hstep]
        obtain ⟨w', n, e, hcalls, hw, hn, he⟩ := ih (b := { b with
          world := (write b.fd p b.world).1
          buf := []
          result := b.result + BitVec.ofNat 32 p.length }) herr
        refine ⟨w', BitVec.ofNat 32 p.length + n, e, ?_, hw, hn.trans (BitVec.add_assoc ..), he⟩
        cases hcalls with
        | all run =>
            rw [← hadd, ← List.length_append, ← List.flatten_cons]
            exact .all (.cons hstep run)
        | @stop done rest q w₁ _ r split run call short =>
            rw [← BitVec.add_assoc, ← hadd, ← List.length_append, ← List.flatten_cons]
            exact .stop (congrArg (p :: ·) split) (.cons hstep run) call short
      · refine ⟨_, _, _, .stop (List.nil_append _).symm (.nil b.world) rfl hall, ?_⟩
        have hsent : sent write b p = { b with
            world := (write b.fd p b.world).1
            buf := []
            result := b.result + if 0 < (write b.fd p b.world).2.toInt then (write b.fd p b.world).2 else 0#32
            error := if (write b.fd p b.world).2.toInt < 0 then (write b.fd p b.world).2 else 0#32 } := by
          unfold sent writebuf
          rw [if_pos (by rw [herr]; decide)]
          dsimp only
          rw [if_pos hall]
          by_cases hpos : 0 < (write b.fd p b.world).2.toInt
          · rw [if_pos hpos, if_pos hpos]
          · rw [if_neg hpos, if_neg hpos, BitVec.add_zero]
        have hstop : ¬ 0 < (sent write b p).error.toInt := by
          rw [hsent]
          dsimp only
          split
          · omega
          · decide
        obtain ⟨hw, hn, he⟩ := foldl_sent_stopped hstop ps
        rw [hw, hn, he, hsent]
        refine ⟨rfl, ?_, rfl⟩
        exact congrArg (b.result + ·) (BitVec.zero_add _).symm

/-- The calls of `vfprintf`. -/
theorem vfprintf_sent (write : BitVec 32 → List (BitVec 8) → σ → σ × BitVec 32) (fd : BitVec 32)
    {str : BitVec 32 → List (BitVec 8)} {args : Nat → BitVec 32} {fmt : List (BitVec 8)} {out : List Int}
    (hout : vprintfmt str args fmt = .ok out) (w : σ) :
    ∃ chunks rest b, IsChunks 256 (charsOf out) chunks rest ∧
      b = (if rest = [] then chunks else chunks ++ [rest]).foldl (sent write) ⟨w, fd, [], 0#32, 1#32⟩ ∧
      vfprintf write fd str args fmt w = .ok (b.world, if b.result ≠ 0#32 then b.result else b.error) := by
  obtain ⟨chunks, rest, hchunks, hbuf⟩ := foldl_buffered (sent write) (n := 256) (by omega)
    ⟨w, fd, [], 0#32, 1#32⟩ (charsOf out)
  refine ⟨chunks, rest, _, hchunks, rfl, ?_⟩
  have hfold := foldl_putch write ⟨w, fd, [], 0#32, 1#32⟩ out []
  rw [hbuf] at hfold
  unfold vfprintf
  rw [vprintfmt_feed, hout]
  unfold feed
  dsimp only [Except.map]
  rw [hfold]
  dsimp only
  by_cases hrest : rest = []
  · rw [if_pos hrest, if_neg (by rw [hrest]; decide)]
  · rw [if_neg hrest, if_pos (List.length_pos_iff.mpr hrest), List.foldl_concat]
    rfl

/-- `vfprintf` gives the output to `write`, in its order and in chunks of 256, up to the first call that
does not write everything. It returns the number of characters that were written, and if there are none the
error of the last call; an empty output makes it return 1. -/
theorem vfprintf_writes {str : BitVec 32 → List (BitVec 8)} {args : Nat → BitVec 32}
    {fmt : List (BitVec 8)} {out : List Int} (hout : vprintfmt str args fmt = .ok out) :
    ∃ chunks rest w' n e, IsChunks 256 (charsOf out) chunks rest ∧
      Calls write fd w (if rest = [] then chunks else chunks ++ [rest]) w' n e ∧
      vfprintf write fd str args fmt w = .ok (w', if n ≠ 0#32 then n else e) := by
  obtain ⟨chunks, rest, b, hchunks, hb, hrun⟩ := vfprintf_sent write fd hout w
  obtain ⟨w', n, e, hcalls, hw, hn, he⟩ := foldl_sent write (b := ⟨w, fd, [], 0#32, 1#32⟩) rfl
    (if rest = [] then chunks else chunks ++ [rest])
  refine ⟨chunks, rest, w', n, e, hchunks, hcalls, ?_⟩
  rw [← hb] at hw hn he
  rw [hrun, hw, hn, he, BitVec.zero_add]

/-- A file that takes 100 bytes at a time. -/
def takesHundred (_ : BitVec 32) (p w : List (BitVec 8)) : List (BitVec 8) × BitVec 32 :=
  (w ++ p.take 100, BitVec.ofNat 32 (min p.length 100))

/-- `%300d` of 7 fills the buffer, and the first call does not write all of it. -/
theorem vfprintf_writes_short : ∃ chunks rest w' n e,
    IsChunks 256 (charsOf (List.replicate 299 0x20 ++ [0x37])) chunks rest ∧
    Calls takesHundred 1#32 [] (if rest = [] then chunks else chunks ++ [rest]) w' n e ∧
    vfprintf takesHundred 1#32 (fun _ => []) (fun _ => 7#32) [0x25#8, 0x33#8, 0x30#8, 0x30#8, 0x64#8] [] =
      .ok (w', if n ≠ 0#32 then n else e) := by
  have hout : vprintfmt (fun _ => []) (fun _ => 7#32) [0x25#8, 0x33#8, 0x30#8, 0x30#8, 0x64#8] =
      .ok (List.replicate 299 0x20 ++ [0x37]) := by decide +kernel
  exact vfprintf_writes hout

end

end Fprintf

end Jos.User
