import Jos.Lib.Ring
import Mathlib.Data.List.OfFn

/-!
# Pipes

`devpipe_read` and `devpipe_write` of `lib/pipe.c`, run by one reader and one writer that share the
page of the pipe and may be preempted between any two elementary steps: a test of the positions, the
copy of a byte, the increment of a position, a yield. What `_pipeisclosed` returns is left open.

Beside the state there are two histories, the bytes that the writer has stored and the bytes that the
reader has taken. A byte is stored when it is copied to `p_buf`, and taken when `p_rpos` has moved
past it.

Main results:
* `PipeInv.step`: an elementary step keeps the invariant;
* `pipe_fifo`: the pipe is a bounded queue, in every interleaving.
-/

namespace Jos.User

open Jos.Lib

def pipebufsiz : Nat := 32

/-- `struct Pipe`; a cell of `p_buf` is named by the value of the index expression. -/
structure Pipe where
  pRpos : BitVec 32
  pWpos : BitVec 32
  pBuf : Int → BitVec 8

/-- `pos % PIPEBUFSIZ`, a signed remainder. -/
def pipeIndex (pos : BitVec 32) : Int := (pos.srem 32#32).toInt

/-- Where a call of `devpipe_read` or `devpipe_write` is. -/
inductive PipePc
  /-- Before `i < n`. -/
  | head
  /-- Before the condition of the `while` loop. -/
  | test
  /-- Before `_pipeisclosed`. -/
  | closed
  /-- Before `sys_yield`. -/
  | yield
  /-- Before the copy of a byte. -/
  | copy
  /-- Before the increment of the position. -/
  | incr
  deriving DecidableEq

/-- The parameters and locals of a call, and where it is. -/
structure PipeCall where
  pc : PipePc
  n : BitVec 32
  i : BitVec 32
  buf : BitVec 32 → BitVec 8

/-- The pipe, the calls under way, and the histories. -/
structure PipeState where
  pipe : Pipe
  reader : Option PipeCall
  writer : Option PipeCall
  stored : List (BitVec 8)
  taken : List (BitVec 8)
  /-- How many bytes had been stored when the call of the writer began. -/
  base : Nat

/-- The steps; the `Bool` is what `_pipeisclosed` returns, if it is called. -/
inductive PipeEvent
  | readCall (n : BitVec 32) (buf : BitVec 32 → BitVec 8)
  | read (closed : Bool)
  | writeCall (n : BitVec 32) (buf : BitVec 32 → BitVec 8)
  | write (closed : Bool)

def startCall (n : BitVec 32) (buf : BitVec 32 → BitVec 8) : PipeCall := ⟨.head, n, 0#32, buf⟩

/-- A step of `devpipe_read`, with the value that it returns if it does. -/
def devpipeRead (closed : Bool) (s : PipeState) (c : PipeCall) : PipeState × Option Int :=
  let p := s.pipe
  let goto := fun pc => ({ s with reader := some { c with pc := pc } }, none)
  let ret := fun r => ({ s with reader := none }, some r)
  match c.pc with
  | .head => if c.i < c.n then goto .test else ret c.i.toInt
  | .test =>
      if p.pRpos = p.pWpos then
        if 0#32 < c.i then ret c.i.toInt else goto .closed
      else goto .copy
  | .closed => if closed then ret 0 else goto .yield
  | .yield => goto .test
  | .copy =>
      let byte := p.pBuf (pipeIndex p.pRpos)
      ({ s with reader := some { c with pc := .incr, buf := Function.update c.buf c.i byte } }, none)
  | .incr =>
      ({ s with
          pipe := { p with pRpos := p.pRpos + 1#32 }
          reader := some { c with pc := .head, i := c.i + 1#32 }
          taken := s.taken ++ [c.buf c.i] }, none)

/-- A step of `devpipe_write`, with the value that it returns if it does. -/
def devpipeWrite (closed : Bool) (s : PipeState) (c : PipeCall) : PipeState × Option Int :=
  let p := s.pipe
  let goto := fun pc => ({ s with writer := some { c with pc := pc } }, none)
  let ret := fun r => ({ s with writer := none }, some r)
  match c.pc with
  | .head => if c.i < c.n then goto .test else ret c.i.toInt
  -- `sizeof` makes the comparison one of unsigned numbers.
  | .test => if p.pRpos + 32#32 ≤ p.pWpos then goto .closed else goto .copy
  | .closed => if closed then ret 0 else goto .yield
  | .yield => goto .test
  | .copy =>
      ({ s with
          pipe := { p with pBuf := Function.update p.pBuf (pipeIndex p.pWpos) (c.buf c.i) }
          writer := some { c with pc := .incr }
          stored := s.stored ++ [c.buf c.i] }, none)
  | .incr =>
      ({ s with
          pipe := { p with pWpos := p.pWpos + 1#32 }
          writer := some { c with pc := .head, i := c.i + 1#32 } }, none)

/-- A step of the reader or the writer. -/
def pipeStep (s : PipeState) : PipeEvent → Option (PipeState × Option Int)
  | .readCall n buf =>
      match s.reader with
      | none => some ({ s with reader := some (startCall n buf) }, none)
      | some _ => none
  | .read closed => s.reader.map (devpipeRead closed s)
  | .writeCall n buf =>
      match s.writer with
      | none =>
          some ({ s with writer := some (startCall n buf), base := s.stored.length }, none)
      | some _ => none
  | .write closed => s.writer.map (devpipeWrite closed s)

/-- A new pipe, on a page of zeros. -/
def newPipe : PipeState := ⟨⟨0#32, 0#32, fun _ => 0#8⟩, none, none, [], [], 0⟩

/-- The states that the reader and the writer reach in any interleaving. -/
inductive PipeReached : PipeState → Prop
  | new : PipeReached newPipe
  | step {s s' : PipeState} {ev : PipeEvent} {o : Option Int} (h : PipeReached s)
      (hstep : pipeStep s ev = some (s', o)) : PipeReached s'

/-! ## The invariant -/

/-- The bytes of its buffer that a call of `devpipe_write` has stored. -/
def PipeCall.done (c : PipeCall) : Nat := c.i.toNat + if c.pc = .incr then 1 else 0

/-- What a call of `devpipe_read` knows. -/
structure ReadOk (s : PipeState) (c : PipeCall) : Prop where
  ready : c.pc = .copy ∨ c.pc = .incr → s.taken.length < s.pipe.pWpos.toNat
  copied : c.pc = .incr → s.stored[s.taken.length]? = some (c.buf c.i)

/-- What a call of `devpipe_write` knows and has done. -/
structure WriteOk (s : PipeState) (c : PipeCall) : Prop where
  room : c.pc = .copy → s.stored.length < s.taken.length + pipebufsiz
  wpos : s.pipe.pWpos.toNat + (if c.pc = .incr then 1 else 0) = s.stored.length
  base_le : s.base ≤ s.stored.length
  bytes : s.stored.drop s.base = (List.range c.done).map fun k => c.buf (BitVec.ofNat 32 k)
  count : c.i ≤ c.n
  more : c.pc ≠ .head → c.i < c.n

/-- The invariant of the pipe. -/
structure PipeInv (s : PipeState) : Prop where
  rpos : s.pipe.pRpos.toNat = s.taken.length
  le : s.taken.length ≤ s.pipe.pWpos.toNat
  full : s.stored.length ≤ s.taken.length + pipebufsiz
  ring : RingHolds pipebufsiz (fun k => s.pipe.pBuf k) s.stored s.taken.length
  taken : s.taken = s.stored.take s.taken.length
  reader : ∀ c, s.reader = some c → ReadOk s c
  idle : s.writer = none → s.pipe.pWpos.toNat = s.stored.length
  writer : ∀ c, s.writer = some c → WriteOk s c

section

variable {s s' : PipeState} {c : PipeCall} {ev : PipeEvent} {o : Option Int} {closed : Bool}

theorem pipeIndex_eq {pos : BitVec 32} (h : pos.toNat < 2 ^ 31) :
    pipeIndex pos = ((pos.toNat % pipebufsiz : Nat) : Int) := by
  have hmsb : pos.msb = false := by
    rw [BitVec.msb_eq_false_iff_two_mul_lt]
    omega
  rw [pipeIndex, BitVec.toInt_srem, BitVec.toInt_eq_toNat_of_msb hmsb]
  simp only [pipebufsiz]
  norm_cast

theorem PipeInv.wpos_le (h : PipeInv s) : s.pipe.pWpos.toNat ≤ s.stored.length := by
  cases hw : s.writer with
  | none => exact Nat.le_of_eq (h.idle hw)
  | some c =>
      have := (h.writer c hw).wpos
      omega

theorem newPipe_inv : PipeInv newPipe where
  rpos := rfl
  le := Nat.zero_le _
  full := Nat.zero_le _
  ring := ringHolds_nil
  taken := rfl
  reader c hc := by cases hc
  idle _ := rfl
  writer c hc := by cases hc

/-- A step of the reader that takes nothing. -/
theorem PipeInv.moveReader {r : Option PipeCall} (h : PipeInv s)
    (hr : ∀ c, r = some c → ReadOk s c) : PipeInv { s with reader := r } where
  rpos := h.rpos
  le := h.le
  full := h.full
  ring := h.ring
  taken := h.taken
  reader c hc := ⟨(hr c hc).ready, (hr c hc).copied⟩
  idle := h.idle
  writer c hc := by
    have := h.writer c hc
    exact ⟨this.room, this.wpos, this.base_le, this.bytes, this.count, this.more⟩

/-- A reader that has not seen a byte yet. -/
theorem readOk_of_pc (hcopy : c.pc ≠ .copy) (hincr : c.pc ≠ .incr) : ReadOk s c where
  ready hpc := absurd hpc (by simp [hcopy, hincr])
  copied hpc := absurd hpc hincr

theorem PipeInv.devpipeRead (h : PipeInv s) (hlt : s.stored.length < 2 ^ 31)
    (hc : s.reader = some c) (hrun : devpipeRead closed s c = (s', o)) : PipeInv s' := by
  have hread := h.reader c hc
  have hw := h.wpos_le
  have hle := h.le
  rw [Jos.User.devpipeRead] at hrun
  cases hpc : c.pc with
  | head =>
      simp only [hpc] at hrun
      split at hrun <;> cases hrun
      · exact h.moveReader fun c' hc' => by
          cases hc'
          exact readOk_of_pc (by simp) (by simp)
      · exact h.moveReader fun c' hc' => by cases hc'
  | test =>
      simp only [hpc] at hrun
      split at hrun
      · split at hrun <;> cases hrun
        · exact h.moveReader fun c' hc' => by cases hc'
        · exact h.moveReader fun c' hc' => by
            cases hc'
            exact readOk_of_pc (by simp) (by simp)
      · rename_i hne
        cases hrun
        refine h.moveReader fun c' hc' => ?_
        cases hc'
        refine ⟨fun _ => ?_, fun hpc => by cases hpc⟩
        have hrpos := h.rpos
        have hne' : s.pipe.pRpos.toNat ≠ s.pipe.pWpos.toNat := fun heq => hne (BitVec.eq_of_toNat_eq heq)
        omega
  | closed =>
      simp only [hpc] at hrun
      split at hrun <;> cases hrun
      · exact h.moveReader fun c' hc' => by cases hc'
      · exact h.moveReader fun c' hc' => by
          cases hc'
          exact readOk_of_pc (by simp) (by simp)
  | yield =>
      simp only [hpc] at hrun
      cases hrun
      exact h.moveReader fun c' hc' => by
        cases hc'
        exact readOk_of_pc (by simp) (by simp)
  | copy =>
      simp only [hpc] at hrun
      cases hrun
      have hready := hread.ready (Or.inl hpc)
      refine h.moveReader fun c' hc' => ?_
      cases hc'
      refine ⟨fun _ => hready, fun _ => ?_⟩
      have hstored : s.taken.length < s.stored.length := by omega
      have hrpos := h.rpos
      rw [List.getElem?_eq_getElem hstored, ← h.ring _ (Nat.le_refl _) hstored,
        pipeIndex_eq (by omega), hrpos]
      simp
  | incr =>
      simp only [hpc] at hrun
      cases hrun
      have hready := hread.ready (Or.inr hpc)
      have hcopied := hread.copied hpc
      have hstored : s.taken.length < s.stored.length := by omega
      refine ⟨?_, ?_, ?_, ?_, ?_, fun c' hc' => ?_, h.idle, fun c' hc' => ?_⟩
      · have hrpos := h.rpos
        simp only [BitVec.toNat_add, BitVec.toNat_ofNat, List.length_append, List.length_singleton]
        omega
      · simp only [List.length_append, List.length_singleton]
        omega
      · have hfull := h.full
        simp only [List.length_append, List.length_singleton]
        omega
      · exact h.ring.mono (by simp)
      · have htaken := h.taken
        simp only [List.length_append, List.length_singleton]
        rw [List.take_add_one, ← htaken, hcopied]
        rfl
      · cases hc'
        exact readOk_of_pc (by simp) (by simp)
      · have hwr := h.writer c' hc'
        refine ⟨fun hpc => ?_, hwr.wpos, hwr.base_le, hwr.bytes, hwr.count, hwr.more⟩
        have := hwr.room hpc
        simp only [List.length_append, List.length_singleton]
        omega

/-- A step of the writer that stores nothing. -/
theorem PipeInv.moveWriter {c' : PipeCall} (h : PipeInv s) (hc : s.writer = some c)
    (hpc : c.pc ≠ .incr) (hpc' : c'.pc ≠ .incr) (hi : c'.i = c.i ∧ c'.n = c.n ∧ c'.buf = c.buf)
    (hroom : c'.pc = .copy → s.stored.length < s.taken.length + pipebufsiz)
    (hmore : c'.pc ≠ .head → c.i < c.n) : PipeInv { s with writer := some c' } := by
  have hwr := h.writer c hc
  refine ⟨h.rpos, h.le, h.full, h.ring, h.taken, fun d hd => ?_, (fun hd => by cases hd),
    fun d hd => ?_⟩
  · exact ⟨(h.reader d hd).ready, (h.reader d hd).copied⟩
  · cases hd
    obtain ⟨hii, hn, hbuf⟩ := hi
    refine ⟨hroom, ?_, hwr.base_le, ?_, ?_, fun hpc => ?_⟩
    · have := hwr.wpos
      rw [if_neg hpc] at this
      rw [if_neg hpc']
      exact this
    · have := hwr.bytes
      rw [PipeCall.done, if_neg hpc] at this
      rw [PipeCall.done, if_neg hpc', hii, hbuf]
      exact this
    · rw [hii, hn]
      exact hwr.count
    · rw [hii, hn]
      exact hmore hpc

theorem PipeInv.endWriter (h : PipeInv s) (hc : s.writer = some c) (hpc : c.pc ≠ .incr) :
    PipeInv { s with writer := none } := by
  have hwpos := (h.writer c hc).wpos
  rw [if_neg hpc] at hwpos
  refine ⟨h.rpos, h.le, h.full, h.ring, h.taken, fun d hd => ?_, fun _ => hwpos, fun d hd => by cases hd⟩
  exact ⟨(h.reader d hd).ready, (h.reader d hd).copied⟩

/-- `p_buf[p_wpos % PIPEBUFSIZ] = buf[i]`: the byte is stored, and `p_wpos` is behind by one. -/
theorem PipeInv.copyIn (h : PipeInv s) (hc : s.writer = some c) (hpc : c.pc = .copy)
    (hlt : s.stored.length + 1 < 2 ^ 31) :
    PipeInv { s with
      pipe := { s.pipe with
        pBuf := Function.update s.pipe.pBuf (pipeIndex s.pipe.pWpos) (c.buf c.i) }
      stored := s.stored ++ [c.buf c.i]
      writer := some { c with pc := .incr } } := by
  have hwr := h.writer c hc
  have hle := h.le
  have hwpos := hwr.wpos
  have hroom := hwr.room hpc
  have hdone : c.done = c.i.toNat := by rw [PipeCall.done, hpc, if_neg (by simp), Nat.add_zero]
  simp only [hpc, reduceCtorEq, if_false, Nat.add_zero] at hwpos
  have hlen : s.taken.length ≤ s.stored.length := by omega
  refine ⟨h.rpos, h.le, ?_, ?_, ?_, fun d hd => ?_, (fun hd => by cases hd), fun d hd => ?_⟩
  · simp only [List.length_append, List.length_singleton]
    omega
  · have hpush := h.ring.push hroom (c.buf c.i)
    have hbuf : (fun k : Nat => Function.update s.pipe.pBuf (pipeIndex s.pipe.pWpos) (c.buf c.i) k) =
        Function.update (fun k : Nat => s.pipe.pBuf k) (s.stored.length % pipebufsiz)
          (c.buf c.i) := by
      funext k
      rw [pipeIndex_eq (by omega), hwpos]
      by_cases hk : k = s.stored.length % pipebufsiz
      · rw [hk, Function.update_self, Function.update_self]
      · rw [Function.update_of_ne hk, Function.update_of_ne (by exact_mod_cast hk)]
    simp only [hbuf]
    exact hpush
  · rw [List.take_append_of_le_length hlen]
    exact h.taken
  · have hread := h.reader d hd
    refine ⟨hread.ready, fun hpc => ?_⟩
    have hcopied := hread.copied hpc
    have hlt' : s.taken.length < s.stored.length := by
      have := hread.ready (Or.inr hpc)
      omega
    simp only
    rw [List.getElem?_append_left hlt']
    exact hcopied
  · cases hd
    have hmore := hwr.more (by simp [hpc])
    refine ⟨(fun h => by cases h), ?_, ?_, ?_, hwr.count, fun _ => hmore⟩
    · simp only [if_true, List.length_append, List.length_singleton]
      omega
    · have := hwr.base_le
      simp only [List.length_append, List.length_singleton]
      omega
    · have hbytes := hwr.bytes
      rw [hdone] at hbytes
      simp only [PipeCall.done, if_true]
      rw [List.drop_append_of_le_length hwr.base_le, hbytes, List.range_succ, List.map_append]
      simp

/-- `p_wpos++`: the reader may take the byte. -/
theorem PipeInv.incrWpos (h : PipeInv s) (hc : s.writer = some c) (hpc : c.pc = .incr)
    (hlt : s.stored.length < 2 ^ 31) :
    PipeInv { s with
      pipe := { s.pipe with pWpos := s.pipe.pWpos + 1#32 }
      writer := some { c with pc := .head, i := c.i + 1#32 } } := by
  have hwr := h.writer c hc
  have hle := h.le
  have hwpos := hwr.wpos
  have hmore := hwr.more (by simp [hpc])
  simp only [hpc, if_true] at hwpos
  have hwlt : (s.pipe.pWpos + 1#32).toNat = s.stored.length := by
    rw [BitVec.toNat_add, BitVec.toNat_ofNat]
    omega
  have hilt : (c.i + 1#32).toNat = c.i.toNat + 1 := by
    rw [BitVec.lt_def] at hmore
    rw [BitVec.toNat_add, BitVec.toNat_ofNat]
    omega
  refine ⟨h.rpos, ?_, h.full, h.ring, h.taken, fun d hd => ?_, (fun hd => by cases hd),
    fun d hd => ?_⟩
  · simp only [hwlt]
    omega
  · have hread := h.reader d hd
    refine ⟨fun hpc => ?_, hread.copied⟩
    have := hread.ready hpc
    simp only [hwlt]
    omega
  · cases hd
    refine ⟨(fun h => by cases h), ?_, hwr.base_le, ?_, ?_, fun h => absurd rfl h⟩
    · simp only [reduceCtorEq, if_false, Nat.add_zero, hwlt]
    · have hbytes := hwr.bytes
      rw [PipeCall.done, hpc, if_pos rfl] at hbytes
      simp only [PipeCall.done, reduceCtorEq, if_false, Nat.add_zero, hilt]
      exact hbytes
    · rw [BitVec.lt_def] at hmore
      show (c.i + 1#32).toNat ≤ c.n.toNat
      omega

theorem PipeInv.devpipeWrite (h : PipeInv s) (hlt : s'.stored.length < 2 ^ 31)
    (hc : s.writer = some c) (hrun : devpipeWrite closed s c = (s', o)) : PipeInv s' := by
  have hwr := h.writer c hc
  have hle := h.le
  rw [Jos.User.devpipeWrite] at hrun
  cases hpc : c.pc with
  | head =>
      simp only [hpc] at hrun
      split at hrun <;> cases hrun
      · rename_i hmore
        exact h.moveWriter hc (by simp [hpc]) (by simp) ⟨rfl, rfl, rfl⟩ (fun h => by cases h)
          fun _ => hmore
      · exact h.endWriter hc (by simp [hpc])
  | test =>
      have hmore := hwr.more (by simp [hpc])
      simp only [hpc] at hrun
      split at hrun <;> cases hrun
      · exact h.moveWriter hc (by simp [hpc]) (by simp) ⟨rfl, rfl, rfl⟩ (fun h => by cases h)
          fun _ => hmore
      · rename_i hnot
        refine h.moveWriter hc (by simp [hpc]) (by simp) ⟨rfl, rfl, rfl⟩ (fun _ => ?_) fun _ => hmore
        have hwpos := hwr.wpos
        have hrpos := h.rpos
        simp only [hpc, reduceCtorEq, if_false] at hwpos
        simp only at hlt
        rw [BitVec.not_le, BitVec.lt_def, BitVec.toNat_add, BitVec.toNat_ofNat] at hnot
        simp only [pipebufsiz]
        omega
  | closed =>
      have hmore := hwr.more (by simp [hpc])
      simp only [hpc] at hrun
      split at hrun <;> cases hrun
      · exact h.endWriter hc (by simp [hpc])
      · exact h.moveWriter hc (by simp [hpc]) (by simp) ⟨rfl, rfl, rfl⟩ (fun h => by cases h)
          fun _ => hmore
  | yield =>
      simp only [hpc] at hrun
      cases hrun
      exact h.moveWriter hc (by simp [hpc]) (by simp) ⟨rfl, rfl, rfl⟩ (fun h => by cases h)
        fun _ => hwr.more (by simp [hpc])
  | copy =>
      simp only [hpc] at hrun
      cases hrun
      rw [List.length_append, List.length_singleton] at hlt
      exact h.copyIn hc hpc hlt
  | incr =>
      simp only [hpc] at hrun
      cases hrun
      exact h.incrWpos hc hpc hlt

/-- What is stored stays stored. -/
theorem pipeStep_stored (hstep : pipeStep s ev = some (s', o)) :
    s.stored.length ≤ s'.stored.length := by
  cases ev with
  | readCall n buf =>
      simp only [pipeStep] at hstep
      split at hstep <;> cases hstep
      exact Nat.le_refl _
  | read closed =>
      obtain ⟨c, _, hrun⟩ := Option.map_eq_some_iff.mp hstep
      rw [devpipeRead] at hrun
      split at hrun <;> (try split at hrun) <;> (try split at hrun) <;> cases hrun <;> simp
  | writeCall n buf =>
      simp only [pipeStep] at hstep
      split at hstep <;> cases hstep
      exact Nat.le_refl _
  | write closed =>
      obtain ⟨c, _, hrun⟩ := Option.map_eq_some_iff.mp hstep
      rw [devpipeWrite] at hrun
      split at hrun <;> (try split at hrun) <;> cases hrun <;> simp

theorem PipeInv.step (h : PipeInv s) (hlt : s'.stored.length < 2 ^ 31)
    (hstep : pipeStep s ev = some (s', o)) : PipeInv s' := by
  have hmono := pipeStep_stored hstep
  cases ev with
  | readCall n buf =>
      simp only [pipeStep] at hstep
      split at hstep <;> cases hstep
      refine h.moveReader fun c hc => ?_
      cases hc
      exact readOk_of_pc (by simp [startCall]) (by simp [startCall])
  | read closed =>
      obtain ⟨c, hc, hrun⟩ := Option.map_eq_some_iff.mp hstep
      exact h.devpipeRead (by omega) hc hrun
  | writeCall n buf =>
      simp only [pipeStep] at hstep
      split at hstep <;> cases hstep
      rename_i hidle
      refine ⟨h.rpos, h.le, h.full, h.ring, h.taken, fun d hd => ?_, (fun hd => by cases hd),
    fun d hd => ?_⟩
      · exact ⟨(h.reader d hd).ready, (h.reader d hd).copied⟩
      · cases hd
        refine ⟨(fun h => by cases h), ?_, Nat.le_refl _, ?_, Nat.zero_le _, fun h => absurd rfl h⟩
        · simp [startCall, h.idle hidle]
        · simp [startCall, PipeCall.done]
  | write closed =>
      obtain ⟨c, hc, hrun⟩ := Option.map_eq_some_iff.mp hstep
      exact h.devpipeWrite hlt hc hrun

theorem PipeReached.inv (h : PipeReached s) (hlt : s.stored.length < 2 ^ 31) : PipeInv s := by
  induction h with
  | new => exact newPipe_inv
  | step _ hstep ih =>
      have := pipeStep_stored hstep
      exact (ih (by omega)).step hlt hstep

/-- A positive result of `devpipe_write` is the length of its buffer. -/
theorem devpipeWrite_returns {r : Int} (hrun : devpipeWrite closed s c = (s', some r)) (hr : 0 < r) :
    c.pc = .head ∧ ¬ c.i < c.n ∧ r = c.i.toInt ∧ s'.stored = s.stored := by
  rw [devpipeWrite] at hrun
  cases hpc : c.pc with
  | head =>
      simp only [hpc] at hrun
      split at hrun <;> cases hrun
      exact ⟨rfl, ‹_›, rfl, rfl⟩
  | closed =>
      simp only [hpc] at hrun
      split at hrun <;> cases hrun
      exact absurd hr (Int.lt_irrefl _)
  | test =>
      simp only [hpc] at hrun
      split at hrun <;> cases hrun
  | _ =>
      simp only [hpc] at hrun
      cases hrun

end

/-- In every interleaving, as long as fewer than 2^31 bytes are stored, a pipe is a bounded queue:
the positions are at most `PIPEBUFSIZ` apart, the reader has taken the first `p_rpos` of the stored
bytes, the byte that it has in hand is the next one, and a call of `devpipe_write` that returns `r > 0`
has stored the `r` bytes of its buffer. -/
theorem pipe_fifo {s : PipeState} (h : PipeReached s) (hlt : s.stored.length < 2 ^ 31) :
    (0 ≤ s.pipe.pWpos.toInt - s.pipe.pRpos.toInt ∧
      s.pipe.pWpos.toInt - s.pipe.pRpos.toInt ≤ pipebufsiz) ∧
    (s.taken = s.stored.take s.pipe.pRpos.toNat ∧ s.taken.length = s.pipe.pRpos.toNat) ∧
    (∀ c, s.reader = some c → c.pc = .incr →
      s.stored[s.pipe.pRpos.toNat]? = some (c.buf c.i)) ∧
    ∀ c closed s' r, s.writer = some c → pipeStep s (.write closed) = some (s', some r) → 0 < r →
      r = c.n.toInt ∧
        s'.stored = s.stored.take s.base ++ (List.range c.n.toNat).map fun k => c.buf (BitVec.ofNat 32 k) := by
  have hinv := h.inv hlt
  have hrpos := hinv.rpos
  have hwpos := hinv.wpos_le
  have hle := hinv.le
  have hfull := hinv.full
  have hw : s.pipe.pWpos.toInt = s.pipe.pWpos.toNat :=
    BitVec.toInt_eq_toNat_of_lt (by omega)
  have hr : s.pipe.pRpos.toInt = s.pipe.pRpos.toNat :=
    BitVec.toInt_eq_toNat_of_lt (by omega)
  refine ⟨?_, ⟨?_, hrpos.symm⟩, fun c hc hpc => ?_, fun c closed s' r hc hstep hpos => ?_⟩
  · rw [hw, hr]
    omega
  · rw [hrpos]
    exact hinv.taken
  · rw [hrpos]
    exact (hinv.reader c hc).copied hpc
  · simp only [pipeStep, hc, Option.map_some, Option.some.injEq] at hstep
    obtain ⟨hpc, hnot, rfl, hstored⟩ := devpipeWrite_returns hstep hpos
    have hwr := hinv.writer c hc
    have heq : c.i = c.n := by
      apply BitVec.eq_of_toNat_eq
      have hcount := hwr.count
      rw [BitVec.lt_def] at hnot
      rw [BitVec.le_def] at hcount
      omega
    have hdone : c.done = c.n.toNat := by rw [PipeCall.done, hpc, if_neg (by simp), heq, Nat.add_zero]
    refine ⟨by rw [heq], ?_⟩
    rw [hstored, ← hdone, ← hwr.bytes, List.take_append_drop]

/-- The states along a list of steps. -/
def pipeRun : List PipeEvent → PipeState → Option PipeState
  | [], s => some s
  | ev :: l, s => (pipeStep s ev).bind fun x => pipeRun l x.1

theorem PipeReached.run {s s' : PipeState} {l : List PipeEvent} (h : PipeReached s)
    (hrun : pipeRun l s = some s') : PipeReached s' := by
  induction l generalizing s with
  | nil =>
      cases hrun
      exact h
  | cons ev l ih =>
      obtain ⟨⟨s1, o⟩, hstep, hrun⟩ := Option.bind_eq_some_iff.mp hrun
      exact ih (h.step hstep) hrun

/-- The writer stores two bytes, the reader takes one of them in between. -/
def twoBytes : List PipeEvent :=
  [.writeCall 2#32 fun i => i.setWidth 8 + 65#8, .write false, .write false, .write false,
    .readCall 1#32 fun _ => 0#8, .read false, .read false, .read false, .read false, .read false,
    .write false, .read false, .read false, .read false, .write false, .write false, .write false,
    .read false, .write false, .read false]

theorem pipe_fifo_twoBytes : ∃ s, pipeRun twoBytes newPipe = some s ∧ s.stored.length = 2 ∧
    s.taken = s.stored.take 1 := by
  have hrun : (pipeRun twoBytes newPipe).isSome := by decide
  obtain ⟨s, hs⟩ := Option.isSome_iff_exists.mp hrun
  have hstored : (pipeRun twoBytes newPipe).map (fun s => (s.stored.length, s.pipe.pRpos.toNat)) =
      some (2, 1) := by decide
  rw [hs, Option.map_some, Option.some.injEq, Prod.mk.injEq] at hstored
  have hfifo := pipe_fifo (PipeReached.new.run hs) (by omega)
  exact ⟨s, hs, hstored.1, hstored.2 ▸ hfifo.2.1.1⟩

end Jos.User
