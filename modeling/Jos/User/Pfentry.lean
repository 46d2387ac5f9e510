import Jos.Kern.UserView
import Jos.Lib.X86

/-!
# Page faults seen from user mode

A page fault goes to `page_fault_handler` of `kern/trap.c`, which pushes a `struct UTrapframe` on the
exception stack, from there to `_pgfault_upcall` of `lib/pfentry.S` and to the handler in C, and back
through the rest of `_pgfault_upcall`. A handler may fault itself, to any depth.

The memory is that of the environment, by virtual addresses. The handler in C may do what it likes as
long as it keeps the stack contract: it runs on the exception stack below the frame, leaves the frame
and what is above it alone, and returns.

Main results:
* `upcall_restores_iff`: when the trap-time state comes back, at any depth;
* `upcall_overwrites`: a stack with which it does not.
-/

namespace Jos.User

open Jos.Lib Jos.Lib.X86 Jos.Kern

/-! ## The code -/

/-- The frame that the processor and `trapentry.S` save for user code in state `c`; `tf` has the rest:
the error code, the trap number, the segments, `reg_oesp`. -/
def trapFrame (c : Core) (tf : Trapframe) : Trapframe :=
  { tf with
    tfRegs := ⟨c.regs .edi, c.regs .esi, c.regs .ebp, tf.tfRegs.regOesp, c.regs .ebx, c.regs .edx,
      c.regs .ecx, c.regs .eax⟩
    tfEip := c.eip
    tfEflags := c.eflags
    tfEsp := c.regs .esp }

/-- The state in which `page_fault_handler` resumes the environment, if its checks pass. -/
def pageFault (upcall faultVa : BitVec 32) (tf : Trapframe) (c : Core) : Core :=
  let tf := trapFrame c tf
  let u := utrapframeVa tf
  { c with
    mem := writeWords c.mem u.toNat (utrapframe tf faultVa)
    regs := Function.update c.regs .esp u
    eip := upcall }

/-- The kernel does what `pageFault` says, as far as the page of the exception stack goes. -/
theorem pageFaultHandler_eq {R : Nat → Prop} {s s' : Kernel} {cur : EnvIx} {d : Nat}
    {faultVa : BitVec 32} {tf : Trapframe} {c : Core} (h : Inv R s)
    (hd : (s.envs cur).envPgdir = some d)
    (hmem : ∀ a, uxstacktop.toNat - 4096 ≤ a → a < uxstacktop.toNat → userMem s d a = c.mem a)
    (hrun : pageFaultHandler s cur (trapFrame c tf) faultVa = some (s', .run))
    (hfit : uxstacktop.toNat - 4096 ≤ (utrapframeVa (trapFrame c tf)).toNat ∧
      (utrapframeVa (trapFrame c tf)).toNat + 52 ≤ uxstacktop.toNat) :
    (∀ a, uxstacktop.toNat - 4096 ≤ a → a < uxstacktop.toNat →
      userMem s' d a = (pageFault (s.envs cur).envPgfaultUpcall faultVa tf c).mem a) ∧
    (s'.envs cur).envTf.tfEip = (pageFault (s.envs cur).envPgfaultUpcall faultVa tf c).eip ∧
    (s'.envs cur).envTf.tfEsp = (pageFault (s.envs cur).envPgfaultUpcall faultVa tf c).regs .esp := by
  obtain ⟨hwords, htf⟩ := pageFaultHandler_userMem h hd hrun hfit
  refine ⟨fun a ha ha' => ?_, ?_, ?_⟩
  · rw [hwords a ha ha']
    exact writeWords_congr _ (hmem a ha ha')
  · rw [htf]
    rfl
  · rw [htf]
    simp only [pageFault, Function.update_self]

/-- `_pgfault_upcall` up to the call; `handler` is the address of `_pgfault_handler`. -/
def upcallEntry (handler next : BitVec 32) : List Instr :=
  [.pushl .esp, .loadAbs handler .eax, .call .eax next]

/-- `_pgfault_upcall` from the return of the handler on. -/
def upcallExit : List Instr :=
  [.addl 4#32 .esp,
    .load 48#32 .esp .ecx, .subl 4#32 .ecx, .store .ecx 48#32 .esp,
    .load 40#32 .esp .eax, .store .eax 0#32 .ecx,
    .addl 8#32 .esp, .popal,
    .addl 4#32 .esp, .popfl,
    .popl .esp,
    .ret]

/-! ## Runs -/

/-- A fault whose handler has not returned: the state at the fault, and the place of the frame. -/
structure Fault where
  core : Core
  frame : BitVec 32

/-- The environment, with the faults that it is handling, innermost first. -/
structure Faulting where
  core : Core
  pending : List Fault

/-- The page of the exception stack. -/
def OnXstack (a : BitVec 32) : Prop := uxstacktop - 4096#32 ≤ a ∧ a < uxstacktop

instance (a : BitVec 32) : Decidable (OnXstack a) := inferInstanceAs (Decidable (_ ∧ _))

/-- The frame lies in the exception stack, and the word below a trap-time stack outside of it is
writable. -/
structure CanPush (writable : BitVec 32 → Prop) (c : Core) (u : BitVec 32) : Prop where
  fits : uxstacktop.toNat - 4096 ≤ u.toNat ∧ u.toNat + 52 ≤ uxstacktop.toNat
  word : ¬ OnXstack (c.regs .esp) → ∀ k < 4, writable (c.regs .esp - 4#32 + BitVec.ofNat 32 k)

/-- The code that handles the fault `p` runs on the exception stack, below the frame. -/
def InHandler (p : Fault) (c : Core) : Prop := OnXstack (c.regs .esp) ∧ c.regs .esp ≤ p.frame

/-- What user code leaves alone: the system flags, and the frames of the faults it handles with all
that is above them on the exception stack. -/
structure CodeRuns (pending : List Fault) (c c' : Core) : Prop where
  flags : c'.eflags &&& ~~~userFlags = c.eflags &&& ~~~userFlags
  frames : ∀ p ∈ pending.head?, ∀ a, p.frame.toNat ≤ a → a < uxstacktop.toNat → c'.mem a = c.mem a

section

variable (status : BitVec 32 → BitVec 32) (writable : BitVec 32 → Prop)
variable (upcall handler next : BitVec 32)

/-- The state in which the handler in C starts. -/
def enterHandler (faultVa : BitVec 32) (tf : Trapframe) (c : Core) : Core :=
  execBlock status (upcallEntry handler next) (pageFault upcall faultVa tf c)

inductive FaultStep : Faulting → Faulting → Prop
  /-- The program, or the handler of the innermost fault, runs. -/
  | code {c c' : Core} {l : List Fault} (h : CodeRuns l c c') : FaultStep ⟨c, l⟩ ⟨c', l⟩
  /-- A page fault. -/
  | fault {c : Core} {l : List Fault} {faultVa : BitVec 32} {tf : Trapframe}
      (hin : ∀ p ∈ l.head?, InHandler p c)
      (h : CanPush writable c (utrapframeVa (trapFrame c tf))) :
      FaultStep ⟨c, l⟩
        ⟨enterHandler status upcall handler next faultVa tf c, ⟨c, utrapframeVa (trapFrame c tf)⟩ :: l⟩
  /-- The handler in C returns, and the rest of `_pgfault_upcall` runs. -/
  | ret {c : Core} {p : Fault} {l : List Fault} (hesp : c.regs .esp = p.frame - 4#32)
      (heip : c.eip = next) :
      FaultStep ⟨c, p :: l⟩ ⟨execBlock status upcallExit c, l⟩

/-- The states of the environment in any run; it starts without a pending fault. -/
inductive FaultRun : Faulting → Prop
  | start (c : Core) : FaultRun ⟨c, []⟩
  | step {s s' : Faulting} (h : FaultRun s)
      (hstep : FaultStep status writable upcall handler next s s') : FaultRun s'

end

/-- The trap-time state of `p` is back in `c'`, the word that `_pgfault_upcall` writes for it is outside
of all frames, and no data of the trap-time stack is changed: neither what is above `esp` on the
exception stack since the fault, nor by the upcall, which starts in `c`, anything but that word. -/
structure Restored (p : Fault) (l : List Fault) (c c' : Core) : Prop where
  regs : c'.regs = p.core.regs
  eip : c'.eip = p.core.eip
  eflags : c'.eflags = p.core.eflags
  word : ∀ q ∈ p :: l, (p.core.regs .esp).toNat ≤ q.frame.toNat ∨
    q.frame.toNat + 52 ≤ (p.core.regs .esp).toNat - 4
  data : OnXstack (p.core.regs .esp) → ∀ a, (p.core.regs .esp).toNat ≤ a → a < uxstacktop.toNat →
    c'.mem a = p.core.mem a
  others : ∀ a, a < uxstacktop.toNat - 4096 ∨ uxstacktop.toNat ≤ a →
    a < (p.core.regs .esp).toNat - 4 ∨ (p.core.regs .esp).toNat ≤ a → c'.mem a = c.mem a

/-! ## The words of a frame -/

/-- The words of the frame that hold the trap-time state. -/
structure FrameWords (m : Mem) (u : Nat) (c : Core) : Prop where
  edi : m.read32 (u + 8) = c.regs .edi
  esi : m.read32 (u + 12) = c.regs .esi
  ebp : m.read32 (u + 16) = c.regs .ebp
  ebx : m.read32 (u + 24) = c.regs .ebx
  edx : m.read32 (u + 28) = c.regs .edx
  ecx : m.read32 (u + 32) = c.regs .ecx
  eax : m.read32 (u + 36) = c.regs .eax
  eip : m.read32 (u + 40) = c.eip
  eflags : m.read32 (u + 44) = c.eflags
  esp : m.read32 (u + 48) = c.regs .esp

theorem frameWords_of_read {m : Mem} {u : Nat} {c : Core} {tf : Trapframe} {faultVa : BitVec 32}
    (h : ∀ k, ∀ hk : k < (utrapframe (trapFrame c tf) faultVa).length,
      m.read32 (u + 4 * k) = (utrapframe (trapFrame c tf) faultVa)[k]) : FrameWords m u c where
  edi := h 2 (by simp [utrapframe])
  esi := h 3 (by simp [utrapframe])
  ebp := h 4 (by simp [utrapframe])
  ebx := h 6 (by simp [utrapframe])
  edx := h 7 (by simp [utrapframe])
  ecx := h 8 (by simp [utrapframe])
  eax := h 9 (by simp [utrapframe])
  eip := h 10 (by simp [utrapframe])
  eflags := h 11 (by simp [utrapframe])
  esp := h 12 (by simp [utrapframe])

/-- The frame lies in memory that has not changed. -/
theorem FrameWords.congr {m m' : Mem} {u : Nat} {c : Core} (h : FrameWords m u c)
    (hm : ∀ a, u + 8 ≤ a → a < u + 52 → m' a = m a) : FrameWords m' u c := by
  have hread : ∀ k, 8 ≤ k → k + 4 ≤ 52 → m'.read32 (u + k) = m.read32 (u + k) := by
    intro k hk hk'
    exact Mem.read32_congr fun x hx hx' => hm x (by omega) (by omega)
  constructor
  · rw [hread 8 (by omega) (by omega), h.edi]
  · rw [hread 12 (by omega) (by omega), h.esi]
  · rw [hread 16 (by omega) (by omega), h.ebp]
  · rw [hread 24 (by omega) (by omega), h.ebx]
  · rw [hread 28 (by omega) (by omega), h.edx]
  · rw [hread 32 (by omega) (by omega), h.ecx]
  · rw [hread 36 (by omega) (by omega), h.eax]
  · rw [hread 40 (by omega) (by omega), h.eip]
  · rw [hread 44 (by omega) (by omega), h.eflags]
  · rw [hread 48 (by omega) (by omega), h.esp]

/-! ## The blocks of `_pgfault_upcall` -/

section

variable {status : BitVec 32 → BitVec 32} {c : Core} {u : BitVec 32}

/-- The memory after the two stores of `_pgfault_upcall` for a frame at `u`. -/
def exitMem (m : Mem) (u : BitVec 32) : Mem :=
  let m1 := m.write32 (u + 48#32).toNat (m.read32 (u + 48#32).toNat - 4#32)
  m1.write32 (m.read32 (u + 48#32).toNat - 4#32).toNat (m1.read32 (u + 40#32).toNat)

theorem execBlock_exit (hesp : c.regs .esp = u - 4#32) :
    execBlock status upcallExit c =
      { regs := fun
          | .edi => (exitMem c.mem u).read32 (u + 8#32).toNat
          | .esi => (exitMem c.mem u).read32 (u + 12#32).toNat
          | .ebp => (exitMem c.mem u).read32 (u + 16#32).toNat
          | .esp => (exitMem c.mem u).read32 (u + 48#32).toNat + 4#32
          | .ebx => (exitMem c.mem u).read32 (u + 24#32).toNat
          | .edx => (exitMem c.mem u).read32 (u + 28#32).toNat
          | .ecx => (exitMem c.mem u).read32 (u + 32#32).toNat
          | .eax => (exitMem c.mem u).read32 (u + 36#32).toNat
        eip := (exitMem c.mem u).read32 ((exitMem c.mem u).read32 (u + 48#32).toNat).toNat
        eflags := mixFlags c.eflags ((exitMem c.mem u).read32 (u + 44#32).toNat)
        mem := exitMem c.mem u } := by
  have hu : c.regs .esp + 4#32 = u := by
    rw [hesp, BitVec.sub_add_cancel]
  simp [execBlock, upcallExit, X86.exec, Core.set, Core.store, Core.word, Core.popal, hu, exitMem,
    mixFlags_mixFlags, BitVec.add_assoc]
  funext r
  cases r <;> simp

end

/-! ## Pending faults -/

/-- The frame of `p` is in place, and what was on the exception stack at the fault is still there. -/
structure FrameAt (c : Core) (p : Fault) : Prop where
  fits : uxstacktop.toNat - 4096 ≤ p.frame.toNat ∧ p.frame.toNat + 52 ≤ uxstacktop.toNat
  words : FrameWords c.mem p.frame.toNat p.core
  flags : c.eflags &&& ~~~userFlags = p.core.eflags &&& ~~~userFlags
  inside : OnXstack (p.core.regs .esp) → p.frame.toNat + 56 = (p.core.regs .esp).toNat
  outside : ¬ OnXstack (p.core.regs .esp) → p.frame.toNat + 52 = uxstacktop.toNat ∧
    4 ≤ (p.core.regs .esp).toNat ∧ (p.core.regs .esp).toNat ≤ uxstacktop.toNat
  data : OnXstack (p.core.regs .esp) → ∀ a, (p.core.regs .esp).toNat ≤ a → a < uxstacktop.toNat →
    c.mem a = p.core.mem a

/-- The faults of the list are pending, each in the handler of the next one. -/
def Live (c : Core) : List Fault → Prop
  | [] => True
  | p :: l => FrameAt c p ∧ (∀ q ∈ l.head?, InHandler q p.core) ∧ Live c l

section

variable {c c' : Core} {p q : Fault} {l : List Fault}

theorem onXstack_iff {a : BitVec 32} :
    OnXstack a ↔ uxstacktop.toNat - 4096 ≤ a.toNat ∧ a.toNat < uxstacktop.toNat := by
  rw [OnXstack, BitVec.le_def, BitVec.lt_def]
  rfl

/-- The frames of a chain of faults lie above the stack of the innermost one. -/
theorem Live.esp_le (h : Live c l) (hin : ∀ p ∈ l.head?, InHandler p c') (hq : q ∈ l) :
    (c'.regs .esp).toNat ≤ q.frame.toNat := by
  induction l generalizing c' with
  | nil => cases hq
  | cons p l ih =>
      obtain ⟨hp, hnest, hl⟩ := h
      have hle : (c'.regs .esp).toNat ≤ p.frame.toNat := BitVec.le_def.mp (hin p rfl).2
      rcases List.mem_cons.mp hq with rfl | hq
      · exact hle
      · have hup := ih hl hnest hq
        have hon : OnXstack (p.core.regs .esp) := by
          cases l with
          | nil => cases hq
          | cons r l => exact (hnest r rfl).1
        have := hp.inside hon
        omega

/-- Nothing from the innermost frame up has changed. -/
theorem Live.congr (h : Live c l) (hflags : c'.eflags &&& ~~~userFlags = c.eflags &&& ~~~userFlags)
    (hmem : ∀ p ∈ l, ∀ a, p.frame.toNat ≤ a → a < uxstacktop.toNat → c'.mem a = c.mem a) :
    Live c' l := by
  induction l with
  | nil => trivial
  | cons p l ih =>
      obtain ⟨hp, hnest, hl⟩ := h
      refine ⟨⟨hp.fits, ?_, hflags.trans hp.flags, hp.inside, hp.outside, fun hon a ha ha' => ?_⟩, hnest,
        ih hl fun q hq => hmem q (List.mem_cons_of_mem _ hq)⟩
      · have hfits := hp.fits
        exact hp.words.congr fun a ha ha' => hmem p List.mem_cons_self a (by omega) (by omega)
      · have hin := hp.inside hon
        rw [hmem p List.mem_cons_self a (by omega) ha']
        exact hp.data hon a ha ha'

theorem Live.frame_le (h : Live c (p :: l)) (hq : q ∈ p :: l) : p.frame.toNat ≤ q.frame.toNat := by
  rcases List.mem_cons.mp hq with rfl | hq
  · exact Nat.le_refl _
  · obtain ⟨hp, hnest, hl⟩ := h
    have hle := hl.esp_le hnest hq
    have hon : OnXstack (p.core.regs .esp) := by
      cases l with
      | nil => cases hq
      | cons r l => exact (hnest r rfl).1
    have := hp.inside hon
    omega

theorem Live.code (h : Live c l) (hrun : CodeRuns l c c') : Live c' l := by
  refine h.congr hrun.flags fun q hq a ha ha' => ?_
  cases l with
  | nil => cases hq
  | cons p l =>
      have := h.frame_le hq
      exact hrun.frames p rfl a (by omega) ha'

end

/-! ## A fault -/

section

variable {status : BitVec 32 → BitVec 32} {writable : BitVec 32 → Prop}
variable {upcall handler next faultVa : BitVec 32} {tf : Trapframe} {c : Core} {l : List Fault}

theorem utrapframeVa_inside (hon : OnXstack (c.regs .esp)) :
    (utrapframeVa (trapFrame c tf)).toNat + 56 = (c.regs .esp).toNat := by
  have hon' : uxstacktop - 4096#32 ≤ (trapFrame c tf).tfEsp ∧ (trapFrame c tf).tfEsp < uxstacktop :=
    hon
  rw [utrapframeVa, if_pos hon']
  have hle := (onXstack_iff.mp hon).1
  have htop : uxstacktop.toNat = 4005560320 := rfl
  simp only [trapFrame, utrapframeSize, BitVec.toNat_sub, BitVec.toNat_ofNat]
  omega

theorem utrapframeVa_outside (hon : ¬ OnXstack (c.regs .esp)) :
    (utrapframeVa (trapFrame c tf)).toNat + 52 = uxstacktop.toNat := by
  have hon' : ¬ (uxstacktop - 4096#32 ≤ (trapFrame c tf).tfEsp ∧
      (trapFrame c tf).tfEsp < uxstacktop) := hon
  rw [utrapframeVa, if_neg hon']
  rfl

/-- A user stack, with the word below its pointer writable, ends below the top of user memory. -/
theorem CanPush.esp_range {u : BitVec 32} (h : CanPush writable c u)
    (htop : ∀ a, writable a → a < utop) (hon : ¬ OnXstack (c.regs .esp)) :
    4 ≤ (c.regs .esp).toNat ∧ (c.regs .esp).toNat ≤ uxstacktop.toNat := by
  have h0 := htop _ (h.word hon 0 (by omega))
  have h3 := htop _ (h.word hon 3 (by omega))
  have hutop : utop.toNat = 4005560320 := rfl
  have hux : uxstacktop.toNat = 4005560320 := rfl
  rw [BitVec.lt_def] at h0 h3
  simp only [BitVec.toNat_add, BitVec.toNat_sub, BitVec.toNat_ofNat] at h0 h3
  omega

/-- What the handler finds in memory: the frame, two words below it, and the old contents. -/
theorem enterHandler_mem {a : Nat} (hfit : 8 ≤ (utrapframeVa (trapFrame c tf)).toNat)
    (ha : (utrapframeVa (trapFrame c tf)).toNat ≤ a) :
    (enterHandler status upcall handler next faultVa tf c).mem a =
      (pageFault upcall faultVa tf c).mem a := by
  have h4 : (utrapframeVa (trapFrame c tf) - 4#32).toNat = (utrapframeVa (trapFrame c tf)).toNat - 4 := by
    rw [BitVec.toNat_sub, BitVec.toNat_ofNat]
    omega
  have h8 : (utrapframeVa (trapFrame c tf) - 4#32 - 4#32).toNat =
      (utrapframeVa (trapFrame c tf)).toNat - 8 := by
    rw [BitVec.toNat_sub, h4, BitVec.toNat_ofNat]
    omega
  have hesp : (pageFault upcall faultVa tf c).regs .esp = utrapframeVa (trapFrame c tf) := by
    simp only [pageFault, Function.update_self]
  simp only [enterHandler, execBlock, upcallEntry, List.foldl_cons, List.foldl_nil, X86.exec, Core.push,
    Core.set, Core.store, Function.update_self, hesp]
  rw [Function.update_of_ne (by decide), Function.update_self, h8, h4,
    Mem.write32_of_disjoint _ _ (by omega), Mem.write32_of_disjoint _ _ (by omega)]

/-- The new frame is in place. -/
theorem frameAt_new (htop : ∀ a, writable a → a < utop)
    (h : CanPush writable c (utrapframeVa (trapFrame c tf))) :
    FrameAt (enterHandler status upcall handler next faultVa tf c)
      ⟨c, utrapframeVa (trapFrame c tf)⟩ := by
  have hfits := h.fits
  have hux : uxstacktop.toNat = 4005560320 := rfl
  refine ⟨hfits, ?_, rfl, fun hon => utrapframeVa_inside hon,
    fun hon => ⟨utrapframeVa_outside hon, h.esp_range htop hon⟩, fun hon a ha ha' => ?_⟩
  · refine FrameWords.congr (m := (pageFault upcall faultVa tf c).mem) ?_ fun a ha _ => ?_
    · exact frameWords_of_read fun k hk => read32_writeWords _ hk
    · simp only at ha
      exact enterHandler_mem (by omega) (by omega)
  · simp only at hon ha
    have hu : (utrapframeVa (trapFrame c tf)).toNat + 56 = (c.regs .esp).toNat :=
      utrapframeVa_inside hon
    rw [enterHandler_mem (by omega) (by omega)]
    refine writeWords_of_disjoint _ (Or.inr ?_)
    simp only [utrapframe, List.length_cons, List.length_nil]
    omega

theorem Live.fault (h : Live c l) (hin : ∀ p ∈ l.head?, InHandler p c)
    (htop : ∀ a, writable a → a < utop) (hpush : CanPush writable c (utrapframeVa (trapFrame c tf))) :
    Live (enterHandler status upcall handler next faultVa tf c)
      (⟨c, utrapframeVa (trapFrame c tf)⟩ :: l) := by
  refine ⟨frameAt_new htop hpush, hin, h.congr rfl fun q hq a ha _ => ?_⟩
  have hle := h.esp_le hin hq
  have hon : OnXstack (c.regs .esp) := by
    cases l with
    | nil => cases hq
    | cons p l => exact (hin p rfl).1
  have hu : (utrapframeVa (trapFrame c tf)).toNat + 56 = (c.regs .esp).toNat :=
    utrapframeVa_inside hon
  have hfits := hpush.fits
  have hux : uxstacktop.toNat = 4005560320 := rfl
  rw [enterHandler_mem (by omega) (by omega)]
  refine writeWords_of_disjoint _ (Or.inr ?_)
  simp only [utrapframe, List.length_cons, List.length_nil]
  omega

end

/-! ## The return -/

section

variable {status : BitVec 32 → BitVec 32} {c : Core} {p : Fault} {l : List Fault}

theorem FrameAt.toNat_add (h : FrameAt c p) {k : Nat} (hk : k ≤ 52) :
    (p.frame + BitVec.ofNat 32 k).toNat = p.frame.toNat + k := by
  have hfits := h.fits
  have hux : uxstacktop.toNat = 4005560320 := rfl
  rw [BitVec.toNat_add, BitVec.toNat_ofNat]
  omega

/-- Where the scratch word is, and that it is not in the frame. -/
def ScratchFree (p : Fault) : Prop := 4 ≤ (p.core.regs .esp).toNat ∧
  ((p.core.regs .esp).toNat ≤ p.frame.toNat ∨ p.frame.toNat + 52 ≤ (p.core.regs .esp).toNat - 4)

theorem FrameAt.scratchFree (h : FrameAt c p) (hne : p.core.regs .esp ≠ uxstacktop) :
    ScratchFree p := by
  have hfits := h.fits
  have hux : uxstacktop.toNat = 4005560320 := rfl
  by_cases hon : OnXstack (p.core.regs .esp)
  · have hin := h.inside hon
    exact ⟨by omega, by omega⟩
  · obtain ⟨hplace, hlow, hhigh⟩ := h.outside hon
    have hne' : (p.core.regs .esp).toNat ≠ uxstacktop.toNat := fun heq => hne (BitVec.eq_of_toNat_eq heq)
    rw [onXstack_iff] at hon
    exact ⟨hlow, by omega⟩

theorem FrameAt.exitMem_eq (h : FrameAt c p) : exitMem c.mem p.frame =
    (c.mem.write32 (p.frame.toNat + 48) (p.core.regs .esp - 4#32)).write32
      (p.core.regs .esp - 4#32).toNat p.core.eip := by
  simp only [exitMem]
  rw [h.toNat_add (k := 48) (by omega), h.toNat_add (k := 40) (by omega), h.words.esp,
    Mem.read32_write32_of_disjoint _ _ (by omega), h.words.eip]

theorem ScratchFree.toNat_sub (h : ScratchFree p) :
    (p.core.regs .esp - 4#32).toNat = (p.core.regs .esp).toNat - 4 := by
  have := h.1
  rw [BitVec.toNat_sub, BitVec.toNat_ofNat]
  omega

/-- The frame after the two stores: only the word for `esp` has changed. -/
theorem FrameAt.read_exitMem (h : FrameAt c p) (hs : ScratchFree p) {k : Nat} (hk : k + 4 ≤ 48) :
    (exitMem c.mem p.frame).read32 (p.frame + BitVec.ofNat 32 k).toNat =
      c.mem.read32 (p.frame.toNat + k) := by
  have hlow := hs.1
  have hfree := hs.2
  rw [h.toNat_add (by omega), h.exitMem_eq, hs.toNat_sub,
    Mem.read32_write32_of_disjoint _ _ (by omega), Mem.read32_write32_of_disjoint _ _ (by omega)]

theorem FrameAt.read_esp (h : FrameAt c p) (hs : ScratchFree p) :
    (exitMem c.mem p.frame).read32 (p.frame + 48#32).toNat = p.core.regs .esp - 4#32 := by
  have hfree := hs.2
  rw [h.toNat_add (k := 48) (by omega), h.exitMem_eq, hs.toNat_sub,
    Mem.read32_write32_of_disjoint _ _ (by omega), Mem.read32_write32_self]

/-- What `_pgfault_upcall` leaves as it was. -/
theorem FrameAt.exitMem_of_disjoint (h : FrameAt c p) (hs : ScratchFree p) {a : Nat}
    (hframe : a < p.frame.toNat + 48 ∨ p.frame.toNat + 52 ≤ a)
    (hword : a < (p.core.regs .esp).toNat - 4 ∨ (p.core.regs .esp).toNat ≤ a) :
    exitMem c.mem p.frame a = c.mem a := by
  have hlow := hs.1
  rw [h.exitMem_eq, hs.toNat_sub, Mem.write32_of_disjoint _ _ (by omega),
    Mem.write32_of_disjoint _ _ (by omega)]

theorem Live.restored (h : Live c (p :: l)) (hesp : c.regs .esp = p.frame - 4#32)
    (hne : p.core.regs .esp ≠ uxstacktop) : Restored p l c (execBlock status upcallExit c) := by
  obtain ⟨hp, hnest, hl⟩ := h
  have hs := hp.scratchFree hne
  have hw := hp.words
  have hfits := hp.fits
  have hux : uxstacktop.toNat = 4005560320 := rfl
  rw [execBlock_exit hesp]
  refine ⟨?_, ?_, ?_, fun q hq => ?_, fun hon a ha ha' => ?_, fun a ha ha' => ?_⟩
  · funext r
    cases r with
    | edi => exact (hp.read_exitMem hs (k := 8) (by omega)).trans hw.edi
    | esi => exact (hp.read_exitMem hs (k := 12) (by omega)).trans hw.esi
    | ebp => exact (hp.read_exitMem hs (k := 16) (by omega)).trans hw.ebp
    | ebx => exact (hp.read_exitMem hs (k := 24) (by omega)).trans hw.ebx
    | edx => exact (hp.read_exitMem hs (k := 28) (by omega)).trans hw.edx
    | ecx => exact (hp.read_exitMem hs (k := 32) (by omega)).trans hw.ecx
    | eax => exact (hp.read_exitMem hs (k := 36) (by omega)).trans hw.eax
    | esp =>
        show (exitMem c.mem p.frame).read32 (p.frame + 48#32).toNat + 4#32 = p.core.regs .esp
        rw [hp.read_esp hs, BitVec.sub_add_cancel]
  · show (exitMem c.mem p.frame).read32 _ = p.core.eip
    rw [hp.read_esp hs, hp.exitMem_eq, Mem.read32_write32_self]
  · show mixFlags c.eflags _ = p.core.eflags
    rw [hp.read_exitMem hs (k := 44) (by omega), hw.eflags]
    exact mixFlags_eq hp.flags
  · rcases List.mem_cons.mp hq with rfl | hq
    · exact hs.2
    · exact Or.inl (hl.esp_le hnest hq)
  · have hin := hp.inside hon
    exact (hp.exitMem_of_disjoint hs (by omega) (by omega)).trans (hp.data hon a ha ha')
  · exact hp.exitMem_of_disjoint hs (by omega) ha'

theorem Live.ret (h : Live c (p :: l)) (hesp : c.regs .esp = p.frame - 4#32) :
    Live (execBlock status upcallExit c) l := by
  cases l with
  | nil => trivial
  | cons r l =>
      have hnest := h.2.1
      have hp := h.1
      have hon := (hnest r rfl).1
      have hs : ScratchFree p := by
        refine hp.scratchFree fun heq => ?_
        rw [onXstack_iff, heq] at hon
        exact absurd hon.2 (Nat.lt_irrefl _)
      have hin := hp.inside hon
      rw [execBlock_exit hesp]
      refine h.2.2.congr (mixFlags_system _ _) fun q hq a ha ha' => ?_
      have hle := h.2.2.esp_le hnest hq
      exact hp.exitMem_of_disjoint hs (by omega) (by omega)

end

section

variable {status : BitVec 32 → BitVec 32} {writable : BitVec 32 → Prop}
variable {upcall handler next : BitVec 32} {s s' : Faulting}

theorem FaultStep.live (htop : ∀ a, writable a → a < utop)
    (h : FaultStep status writable upcall handler next s s') (hs : Live s.core s.pending) :
    Live s'.core s'.pending := by
  cases h with
  | code hrun => exact hs.code hrun
  | fault hin hpush => exact hs.fault hin htop hpush
  | ret hesp _ => exact hs.ret hesp

theorem FaultRun.live (htop : ∀ a, writable a → a < utop)
    (h : FaultRun status writable upcall handler next s) : Live s.core s.pending := by
  induction h with
  | start c => trivial
  | step _ hstep ih => exact hstep.live htop ih

/-- Whenever the handler of a fault returns, at any depth, `_pgfault_upcall` brings back the trap-time
state and overwrites nothing that is in use, exactly if the trap-time stack was not at the very top of
the exception stack. -/
theorem upcall_restores_iff (htop : ∀ a, writable a → a < utop) {p : Fault} {l : List Fault}
    (h : FaultRun status writable upcall handler next s) (hp : s.pending = p :: l)
    (hesp : s.core.regs .esp = p.frame - 4#32) :
    Restored p l s.core (execBlock status upcallExit s.core) ↔ p.core.regs .esp ≠ uxstacktop := by
  have hlive := h.live htop
  rw [hp] at hlive
  constructor
  · rintro hr heq
    -- The word below the top of the stack is the last word of the frame.
    have hword := hr.word p List.mem_cons_self
    have hfits := hlive.1.fits
    have hon : ¬ OnXstack (p.core.regs .esp) := by
      rw [heq]
      decide
    have hplace := (hlive.1.outside hon).1
    rw [heq] at hword
    omega
  · intro hne
    exact hlive.restored hesp hne

end

/-! ## Runs with one fault, and with two -/

/-- A program with its stack at `esp`. -/
def stackAt (esp : BitVec 32) : Core := ⟨fun
  | .esp => esp
  | _ => 7#32, 0x800100#32, 0x202#32, fun _ => 0#8⟩

/-- All of user memory is writable. -/
def belowUtop (a : BitVec 32) : Prop := a < utop

instance (a : BitVec 32) : Decidable (belowUtop a) := inferInstanceAs (Decidable (_ < _))

section

variable (esp : BitVec 32)

/-- The frame of a fault with the stack at `esp`. -/
def utrapframeOf (c : Core) : BitVec 32 := utrapframeVa (trapFrame c .zero)

def inHandler (c : Core) : Core :=
  enterHandler (fun _ => 0#32) 0x800020#32 0x804000#32 0x80002c#32 0#32 .zero c

/-- The handler has done nothing, and returns. -/
def handlerDone (c : Core) : Core := { inHandler c with
  regs := Function.update (inHandler c).regs .esp (utrapframeOf c - 4#32)
  eip := 0x80002c#32 }

variable {esp : BitVec 32} {s : Faulting}

/-- Runs with the handler of `handlerDone`. -/
def SomeRun (s : Faulting) : Prop :=
  FaultRun (fun _ => 0#32) belowUtop 0x800020#32 0x804000#32 0x80002c#32 s

theorem SomeRun.fault {c : Core} {l : List Fault} (h : SomeRun ⟨c, l⟩)
    (hin : ∀ p ∈ l.head?, InHandler p c) (hpush : CanPush belowUtop c (utrapframeOf c)) :
    SomeRun ⟨inHandler c, ⟨c, utrapframeOf c⟩ :: l⟩ :=
  FaultRun.step h (.fault hin hpush)

theorem SomeRun.done {c : Core} {l : List Fault} (h : SomeRun ⟨inHandler c, ⟨c, utrapframeOf c⟩ :: l⟩) :
    SomeRun ⟨handlerDone c, ⟨c, utrapframeOf c⟩ :: l⟩ :=
  FaultRun.step h (.code ⟨rfl, fun _ _ _ _ _ => rfl⟩)

end

/-- A fault on the user stack, and one in its handler. -/
theorem upcall_restores_nested :
    Restored ⟨inHandler (stackAt 0xEEBFDF00#32), utrapframeOf (inHandler (stackAt 0xEEBFDF00#32))⟩
      [⟨stackAt 0xEEBFDF00#32, utrapframeOf (stackAt 0xEEBFDF00#32)⟩]
      (handlerDone (inHandler (stackAt 0xEEBFDF00#32)))
      (execBlock (fun _ => 0#32) upcallExit (handlerDone (inHandler (stackAt 0xEEBFDF00#32)))) := by
  have hstart : SomeRun ⟨stackAt 0xEEBFDF00#32, []⟩ := FaultRun.start _
  have hone := hstart.fault (fun p hp => by cases hp) ⟨by decide, fun _ => by decide⟩
  have htwo := hone.fault (fun p hp => by cases hp; exact ⟨by decide, by decide⟩)
    ⟨by decide, fun hon => absurd (by decide) hon⟩
  refine (upcall_restores_iff (fun _ h => h) htwo.done rfl ?_).mpr (by decide)
  simp only [handlerDone, Function.update_self]

/-- A fault with the stack at `UXSTACKTOP`. -/
theorem upcall_overwrites : ∃ s p, SomeRun s ∧ s.pending = [p] ∧
    s.core.regs .esp = p.frame - 4#32 ∧ CanPush belowUtop p.core p.frame ∧
    ¬ Restored p [] s.core (execBlock (fun _ => 0#32) upcallExit s.core) := by
  have hstart : SomeRun ⟨stackAt uxstacktop, []⟩ := FaultRun.start _
  have hpush : CanPush belowUtop (stackAt uxstacktop) (utrapframeOf (stackAt uxstacktop)) :=
    ⟨by decide, fun _ => by decide⟩
  have hone := hstart.fault (fun p hp => by cases hp) hpush
  refine ⟨_, _, hone.done, rfl, ?_, hpush, fun hr => ?_⟩
  · simp only [handlerDone, Function.update_self]
  · have hword := hr.word _ List.mem_cons_self
    revert hword
    decide

end Jos.User
