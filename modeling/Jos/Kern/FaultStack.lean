import Jos.Kern.UserView
import Jos.Kern.Machine
import Mathlib.Logic.Relation

/-!
# Nested page faults and the end of the exception stack

`page_fault_handler` over sequences of page faults of one environment, whose exception stack is the
page below `UXSTACKTOP`. `FaultState` has the frames of the faults that have not been returned from,
the innermost first. A handler that runs below its frame may have moved `esp` below the page, and
then the fault does not count as nested.

Main results:
* `overflow_caught_iff`: when the end of the exception stack is noticed;
* `overflow_overwrites`: a frame written over another.
-/

namespace Jos.Kern

open Jos.Lib Kernel

/-- The kernel, and the frames of the faults that the environment is handling. -/
structure FaultState where
  kern : Kernel
  frames : List (BitVec 32)

/-- The exception stack is one page, and the page below it is not mapped. -/
structure OneStackPage (s : Kernel) (cur : EnvIx) : Prop where
  page : ∀ d va, (s.envs cur).envPgdir = some d → uxstacktop - 4096#32 ≤ va → va < uxstacktop →
    x86Grants s d va userWrite
  below : ∀ d va, (s.envs cur).envPgdir = some d → uxstacktop - 8192#32 ≤ va →
    va < uxstacktop - 4096#32 → ¬ x86Grants s d va pteP

/-- A fault with the trapframe `tf`: a handler that is running has `esp` at its frame or below. -/
structure FaultReady (R : Nat → Prop) (st : FaultState) (cur : EnvIx) (tf : Trapframe) : Prop where
  inv : Inv R st.kern
  bounded : Bounded st.kern
  live : (st.kern.envs cur).envStatus ≠ .free
  stack : OneStackPage st.kern cur
  esp : ∀ f ∈ st.frames.head?, tf.tfEsp ≤ f

/-- A fault is taken, a handler returns, or anything else happens to the kernel. -/
inductive FaultStep (R : Nat → Prop) (cur : EnvIx) (ok : FaultState → Trapframe → Prop) :
    FaultState → FaultState → Prop
  | fault {st : FaultState} {tf : Trapframe} {faultVa : BitVec 32} {s' : Kernel}
      (ready : FaultReady R st cur tf) (hok : ok st tf)
      (run : pageFaultHandler st.kern cur tf faultVa = some (s', .run)) :
      FaultStep R cur ok st ⟨s', utrapframeVa tf :: st.frames⟩
  | ret {s : Kernel} {u : BitVec 32} {frames : List (BitVec 32)} :
      FaultStep R cur ok ⟨s, u :: frames⟩ ⟨s, frames⟩
  | other {st : FaultState} (s' : Kernel) : FaultStep R cur ok st ⟨s', st.frames⟩

/-- The new frame is written, below every frame that is still needed. -/
structure FramePushed (s : Kernel) (cur : EnvIx) (tf : Trapframe) (faultVa : BitVec 32)
    (frames : List (BitVec 32)) (s' : Kernel) : Prop where
  below : ∀ f ∈ frames, (utrapframeVa tf).toNat + 52 ≤ f.toNat
  memory : ∀ d a, (s.envs cur).envPgdir = some d → uxstacktop.toNat - 4096 ≤ a →
    a < uxstacktop.toNat →
    userMem s' d a = writeWords (userMem s d) (utrapframeVa tf).toNat (utrapframe tf faultVa) a
  context : (s'.envs cur).envTf = { (s.envs cur).envTf with
    tfEip := (s.envs cur).envPgfaultUpcall, tfEsp := utrapframeVa tf }

/-- The environment is destroyed, and no page has been written. -/
structure EnvGone (s : Kernel) (cur : EnvIx) (s' : Kernel) : Prop where
  status : (s'.envs cur).envStatus = .free
  unwritten : ∀ f, Mapped s f → SameFrame s s' f

/-- What should come of a fault. -/
def FaultCaught (s : Kernel) (cur : EnvIx) (tf : Trapframe) (faultVa : BitVec 32)
    (frames : List (BitVec 32)) (s' : Kernel) : Next → Prop
  | .run => FramePushed s cur tf faultVa frames s'
  | .gone => EnvGone s cur s'
  | _ => False

/-- The handler that has faulted has not left the page of the exception stack. -/
def EspInside (cur : EnvIx) (st : FaultState) (tf : Trapframe) : Prop :=
  st.frames = [] ∨ uxstacktop - 4096#32 ≤ tf.tfEsp ∨ (st.kern.envs cur).envPgfaultUpcall = 0#32

/-- The frame lies in the page. -/
def FrameFits (u : BitVec 32) : Prop :=
  uxstacktop.toNat - 4096 ≤ u.toNat ∧ u.toNat + 52 ≤ uxstacktop.toNat

section

variable {R : Nat → Prop} {s s' : Kernel} {cur e : EnvIx} {d i n : Nat} {va perm u faultVa : BitVec 32}
  {tf : Trapframe} {st st' : FaultState} {frames : List (BitVec 32)}

/-! ## Stores that succeed -/

theorem Writing.storeByte_some (h : Writing R e d va n s) (hi : i < n) (c : BitVec 8) :
    ∃ s', Kern.storeByte s d (va + BitVec.ofNat 32 i) c = some s' :=
  ⟨_, if_pos ((h.grants i hi).mono (by decide))⟩

theorem Writing.store32_some (h : Writing R e d va n s) (hi : i + 3 < n) (v : BitVec 32) :
    ∃ s', Kern.store32 s d (va + BitVec.ofNat 32 i) v = some s' := by
  have hhalf : ∀ {s j} (w : BitVec 16), Writing R e d va n s → j + 1 < n →
      ∃ s', Kern.store16 s d (va + BitVec.ofNat 32 j) w = some s' ∧ Writing R e d va n s' := by
    intro s j w h hj
    obtain ⟨s1, hs1⟩ := h.storeByte_some (i := j) (by omega) (w.extractLsb' 0 8)
    have h1 := (h.storeByte (by omega) hs1).1
    obtain ⟨s2, hs2⟩ := h1.storeByte_some (i := j + 1) hj (w.extractLsb' 8 8)
    have hrun : Kern.store16 s d (va + BitVec.ofNat 32 j) w = some s2 := by
      have hnext := Writing.add_ofNat va j 1
      simp only [Kern.store16, hs1, Option.bind_eq_bind, Option.bind_some]
      rw [hnext]
      exact hs2
    exact ⟨s2, hrun, (h.store16 hj hrun).1⟩
  obtain ⟨s1, hs1, h1⟩ := hhalf (j := i) (v.extractLsb' 0 16) h (by omega)
  obtain ⟨s2, hs2, _⟩ := hhalf (j := i + 2) (v.extractLsb' 16 16) h1 (by omega)
  refine ⟨s2, ?_⟩
  have hnext := Writing.add_ofNat va i 2
  simp only [Kern.store32, hs1, Option.bind_eq_bind, Option.bind_some]
  rw [hnext]
  exact hs2

theorem Writing.storeWords_some (l : List (BitVec 32)) (h : Writing R e d va n s)
    (hn : i + 4 * l.length ≤ n) : ∃ s', Kern.storeWords s d (va + BitVec.ofNat 32 i) l = some s' := by
  induction l generalizing s i with
  | nil => exact ⟨s, rfl⟩
  | cons w l ih =>
      simp only [List.length_cons] at hn
      obtain ⟨s1, hs1⟩ := h.store32_some (i := i) (by omega) w
      obtain ⟨s2, hs2⟩ := ih (i := i + 4) (h.store32 (by omega) hs1).1 (by omega)
      refine ⟨s2, ?_⟩
      have hnext := Writing.add_ofNat va i 4
      simp only [Kern.storeWords, hs1, Option.bind_eq_bind, Option.bind_some]
      rw [hnext]
      exact hs2

/-! ## The check -/

theorem x86Grants.passes (h : x86Grants s d va perm) (hp : perm &&& pteP = pteP) :
    PagePasses s d perm va := by
  refine ⟨fun hz => ?_, h.2⟩
  have hacc : perm &&& accessBits &&& pteP = pteP := by
    rw [BitVec.and_assoc, show accessBits &&& pteP = pteP by decide, hp]
  rw [← h.1, hz, BitVec.zero_and] at hacc
  exact absurd hacc (by decide)

/-- Where the frame is. -/
theorem utrapframeVa_cases (tf : Trapframe) :
    (uxstacktop.toNat - 4096 ≤ tf.tfEsp.toNat ∧ tf.tfEsp.toNat < uxstacktop.toNat ∧
      (utrapframeVa tf).toNat + 56 = tf.tfEsp.toNat) ∨
    (¬ (uxstacktop.toNat - 4096 ≤ tf.tfEsp.toNat ∧ tf.tfEsp.toNat < uxstacktop.toNat) ∧
      (utrapframeVa tf).toNat + 52 = uxstacktop.toNat) := by
  have hlow : (uxstacktop - 4096#32).toNat = uxstacktop.toNat - 4096 := rfl
  have hux : uxstacktop.toNat = 4005560320 := rfl
  have hin : uxstacktop - 4096#32 ≤ tf.tfEsp ∧ tf.tfEsp < uxstacktop ↔
      uxstacktop.toNat - 4096 ≤ tf.tfEsp.toNat ∧ tf.tfEsp.toNat < uxstacktop.toNat := by
    rw [BitVec.le_def, BitVec.lt_def, hlow]
  by_cases hesp : uxstacktop - 4096#32 ≤ tf.tfEsp ∧ tf.tfEsp < uxstacktop
  · have hnat := hin.mp hesp
    refine Or.inl ⟨hnat.1, hnat.2, ?_⟩
    rw [utrapframeVa, if_pos hesp, utrapframeSize]
    bv_omega
  · refine Or.inr ⟨fun h => hesp (hin.mpr h), ?_⟩
    rw [utrapframeVa, if_neg hesp]
    rfl

/-- The frame fits in the page, or begins in the page below it. -/
theorem utrapframeVa_range (tf : Trapframe) :
    uxstacktop.toNat - 8192 ≤ (utrapframeVa tf).toNat ∧ (utrapframeVa tf).toNat + 52 ≤ uxstacktop.toNat := by
  have hux : uxstacktop.toNat = 4005560320 := rfl
  rcases utrapframeVa_cases tf with ⟨h1, h2, h3⟩ | ⟨_, h3⟩ <;> omega

theorem FaultReady.dir (h : FaultReady R st cur tf) : ∃ d, (st.kern.envs cur).envPgdir = some d :=
  h.inv.envs.exists_pgdir h.live

/-- `user_mem_assert` lets the frame pass exactly when it fits in the page. -/
theorem FaultReady.userMemCheck (h : FaultReady R st cur tf) :
    (FrameFits (utrapframeVa tf) ∧ userMemCheck st.kern cur (utrapframeVa tf) utrapframeSize
      (pteP ||| pteW ||| pteU) = some (.ok ())) ∨
    (¬ FrameFits (utrapframeVa tf) ∧ ∃ x, userMemCheck st.kern cur (utrapframeVa tf) utrapframeSize
      (pteP ||| pteW ||| pteU) = some (.error x)) := by
  obtain ⟨d, hd⟩ := h.dir
  have hdn := (h.inv.pages.target_lt (k := .pgdir cur) hd).1
  have hux : uxstacktop.toNat = 4005560320 := rfl
  have hulim : ulim.toNat = 4018143232 := rfl
  obtain ⟨hlow, hhigh⟩ := utrapframeVa_range tf
  have hlen : (utrapframeVa tf + utrapframeSize).toNat = (utrapframeVa tf).toNat + 52 := by
    rw [BitVec.toNat_add, utrapframeSize, BitVec.toNat_ofNat]
    omega
  have hperm : pteP ||| pteW ||| pteU ||| pteP = userWrite := by decide
  rcases h.inv.pages.shape.userMemCheck (utrapframeVa tf) utrapframeSize (pteP ||| pteW ||| pteU) hd
    hdn with ⟨hok, _, hall⟩ | ⟨hbad, hnot⟩
  · refine Or.inl ⟨⟨?_, hhigh⟩, hok⟩
    -- The page below does not pass, so the frame does not begin there.
    by_contra hbelow
    have hpass := hall ((utrapframeVa tf).toNat / 4096) (Nat.le_refl _) (by
      rw [checkEnd, hlen]
      omega)
    have hnat : (pageVa ((utrapframeVa tf).toNat / 4096)).toNat =
        4096 * ((utrapframeVa tf).toNat / 4096) := pageVa_toNat (by omega)
    refine h.stack.below d (pageVa ((utrapframeVa tf).toNat / 4096)) hd ?_ ?_ ?_
    · rw [BitVec.le_def, hnat, show (uxstacktop - 8192#32).toNat = 4005552128 from rfl]
      omega
    · rw [BitVec.lt_def, hnat, show (uxstacktop - 4096#32).toNat = 4005556224 from rfl]
      omega
    · have hu : pdx (pageVa ((utrapframeVa tf).toNat / 4096)) ≠ pdxUvpt := by
        rw [pdx_eq, hnat]
        simp only [pdxUvpt]
        omega
      exact (h.inv.pages.shape.x86Grants_of_passes hd hu hpass).mono (by decide)
  · refine Or.inr ⟨fun hfit => hnot ⟨?_, fun n hn hn' => ?_⟩, hbad⟩
    · rw [BitVec.le_def]
      omega
    · rw [checkStart] at hn
      rw [checkEnd, hlen] at hn'
      obtain ⟨hfit, _⟩ := hfit
      have hnat : (pageVa n).toNat = 4096 * n := pageVa_toNat (by omega)
      rw [hperm]
      refine (h.stack.page d (pageVa n) hd ?_ ?_).passes (by decide)
      · rw [BitVec.le_def, hnat, show (uxstacktop - 4096#32).toNat = 4005556224 from rfl]
        omega
      · rw [BitVec.lt_def, hnat]
        omega

theorem Inv.envDestroy_gone (h : Inv R s) (hb : Bounded s) (hlive : (s.envs cur).envStatus ≠ .free) :
    ∃ s', Kern.envDestroy s cur cur = some (s', true) ∧ EnvGone s cur s' := by
  rcases h.envDestroy cur hlive hb with ⟨_, hne, _⟩ | ⟨_, s', hrun, _, hfreed⟩
  · exact absurd rfl hne
  · rw [decide_eq_true rfl] at hrun
    refine ⟨s', hrun, ?_, fun f hf => hfreed.data f ?_⟩
    · rw [hfreed.envs, Function.update_self]
    · have hno := h.pages.noTable_of_mapped hf
      exact ⟨hno (.pgdir cur) rfl, fun i => hno (.pde cur i) rfl⟩

/-- `page_fault_handler` writes the frame if it fits, and destroys the environment otherwise. -/
theorem FaultReady.pageFaultHandler (h : FaultReady R st cur tf) (faultVa : BitVec 32) :
    (FrameFits (utrapframeVa tf) ∧ (st.kern.envs cur).envPgfaultUpcall ≠ 0#32 ∧ ∃ s',
      pageFaultHandler st.kern cur tf faultVa = some (s', .run)) ∨
    (¬ (FrameFits (utrapframeVa tf) ∧ (st.kern.envs cur).envPgfaultUpcall ≠ 0#32) ∧ ∃ s',
      pageFaultHandler st.kern cur tf faultVa = some (s', .gone) ∧ EnvGone st.kern cur s') := by
  obtain ⟨s1, hgone, hends⟩ := h.inv.envDestroy_gone h.bounded h.live
  by_cases hup : (st.kern.envs cur).envPgfaultUpcall = 0#32
  · refine Or.inr ⟨fun hfit => hfit.2 hup, s1, ?_, hends⟩
    simp only [Kern.pageFaultHandler, hup, ne_eq, not_true_eq_false, if_false, hgone,
      Option.bind_eq_bind, Option.bind_some]
  rcases h.userMemCheck with ⟨hfit, hok⟩ | ⟨hno, x, hbad⟩
  · obtain ⟨d, hd⟩ := h.dir
    have hwriting : Writing R cur d (utrapframeVa tf) 52 st.kern := by
      refine ⟨h.inv, hd, fun i hi => h.stack.page d _ hd ?_ ?_⟩
      all_goals
        have hux : uxstacktop.toNat = 4005560320 := rfl
        obtain ⟨hlow, hhigh⟩ := hfit
        have hnat : (utrapframeVa tf + BitVec.ofNat 32 i).toNat = (utrapframeVa tf).toNat + i := by
          rw [BitVec.toNat_add, BitVec.toNat_ofNat]
          omega
      · rw [BitVec.le_def, hnat, show (uxstacktop - 4096#32).toNat = 4005556224 from rfl]
        omega
      · rw [BitVec.lt_def, hnat]
        omega
    obtain ⟨s2, hs2⟩ := hwriting.storeWords_some (i := 0) (utrapframe tf faultVa) (by
      rw [show (utrapframe tf faultVa).length = 13 from rfl])
    rw [BitVec.add_zero] at hs2
    refine Or.inl ⟨hfit, hup, s2.setEnv cur fun env => { env with
      envTf := { env.envTf with tfEip := env.envPgfaultUpcall, tfEsp := utrapframeVa tf } }, ?_⟩
    simp only [Kern.pageFaultHandler, ne_eq, hup, not_false_eq_true, if_true, userMemAssert, hok,
      Option.bind_eq_bind, Option.bind_some, Bool.false_eq_true, if_false, hd, hs2]
  · refine Or.inr ⟨fun hfit => hno hfit.1, s1, ?_, hends⟩
    simp only [Kern.pageFaultHandler, ne_eq, hup, not_false_eq_true, if_true, userMemAssert, hbad,
      Option.bind_eq_bind, Option.bind_some, hgone]

/-! ## Sequences of faults -/

/-- The frames that are still needed lie in the page, each above those pushed later. -/
structure FramesOk (frames : List (BitVec 32)) : Prop where
  fits : ∀ f ∈ frames, FrameFits f
  apart : frames.Pairwise fun f g => f.toNat + 52 ≤ g.toNat

theorem FramesOk.tail (h : FramesOk (u :: frames)) : FramesOk frames :=
  ⟨fun f hf => h.fits f (List.mem_cons_of_mem _ hf), h.apart.of_cons⟩

/-- A frame below the innermost one is below all. -/
theorem FramesOk.le_of_head (h : FramesOk frames) (hesp : ∀ f ∈ frames.head?, tf.tfEsp ≤ f) :
    ∀ f ∈ frames, tf.tfEsp.toNat ≤ f.toNat := by
  intro f hf
  cases frames with
  | nil => cases hf
  | cons u frames =>
      have hu : tf.tfEsp.toNat ≤ u.toNat := BitVec.le_def.mp (hesp u rfl)
      rcases List.mem_cons.mp hf with rfl | hf
      · exact hu
      · have := List.rel_of_pairwise_cons h.apart hf
        omega

/-- The new frame is below the others exactly when there are none or `esp` is in the page. -/
theorem FramesOk.below_iff (h : FramesOk frames) (hesp : ∀ f ∈ frames.head?, tf.tfEsp ≤ f) :
    (∀ f ∈ frames, (utrapframeVa tf).toNat + 52 ≤ f.toNat) ↔
      frames = [] ∨ uxstacktop - 4096#32 ≤ tf.tfEsp := by
  have hle := h.le_of_head hesp
  have hlow : (uxstacktop - 4096#32).toNat = uxstacktop.toNat - 4096 := rfl
  constructor
  · intro hall
    cases frames with
    | nil => exact Or.inl rfl
    | cons u frames =>
        have h1 := hall u (List.mem_cons_self ..)
        have h2 := h.fits u (List.mem_cons_self ..)
        right
        rw [BitVec.le_def, hlow]
        rcases utrapframeVa_cases tf with ⟨hin, _⟩ | ⟨_, htop⟩
        · exact hin
        · have := h2.2
          omega
  · intro hcase f hf
    have hlef := hle f hf
    have hfit := h.fits f hf
    rcases hcase with rfl | hin
    · cases hf
    rw [BitVec.le_def, hlow] at hin
    rcases utrapframeVa_cases tf with ⟨_, _, hu⟩ | ⟨hout, _⟩
    · omega
    · have := hfit.2
      exact absurd ⟨hin, by omega⟩ hout

theorem faultStep_framesOk (h : FramesOk st.frames) (hstep : FaultStep R cur (EspInside cur) st st') :
    FramesOk st'.frames := by
  cases hstep with
  | @fault _ tf faultVa s' ready hok run =>
      rcases ready.pageFaultHandler faultVa with ⟨hfit, hup, _⟩ | ⟨_, s1, hgone, _⟩
      · have hcase : st.frames = [] ∨ uxstacktop - 4096#32 ≤ tf.tfEsp := by
          rcases hok with hnil | hin | hz
          · exact Or.inl hnil
          · exact Or.inr hin
          · exact absurd hz hup
        have hbelow := (h.below_iff ready.esp).mpr hcase
        refine ⟨fun f hf => ?_, List.pairwise_cons.mpr ⟨hbelow, h.apart⟩⟩
        rcases List.mem_cons.mp hf with rfl | hf
        · exact hfit
        · exact h.fits f hf
      · rw [run] at hgone
        cases hgone
  | ret => exact h.tail
  | other => exact h

theorem framesOk_run (h0 : st.frames = [])
    (hrun : Relation.ReflTransGen (FaultStep R cur (EspInside cur)) st st') : FramesOk st'.frames := by
  induction hrun with
  | refl =>
      rw [h0]
      refine ⟨fun f hf => ?_, List.Pairwise.nil⟩
      cases hf
  | tail _ hstep ih => exact faultStep_framesOk ih hstep

/-- After any sequence of faults that were taken with `esp` in the page, the next fault is caught
exactly when no handler is running, or `esp` is not below the page, or there is no upcall. -/
theorem overflow_caught_iff (h0 : st.frames = [])
    (hrun : Relation.ReflTransGen (FaultStep R cur (EspInside cur)) st st')
    (hready : FaultReady R st' cur tf) (faultVa : BitVec 32) :
    ∃ s' next, pageFaultHandler st'.kern cur tf faultVa = some (s', next) ∧
      (FaultCaught st'.kern cur tf faultVa st'.frames s' next ↔ EspInside cur st' tf) := by
  have hok := framesOk_run h0 hrun
  rcases hready.pageFaultHandler faultVa with ⟨hfit, hup, s', hpush⟩ | ⟨hno, s', hgone, hends⟩
  · refine ⟨s', .run, hpush, ⟨fun hcaught => ?_, fun hin => ?_⟩⟩
    · rcases (hok.below_iff hready.esp).mp hcaught.below with hnil | hin
      · exact Or.inl hnil
      · exact Or.inr (Or.inl hin)
    · have hcase : st'.frames = [] ∨ uxstacktop - 4096#32 ≤ tf.tfEsp := by
        rcases hin with hnil | hin | hz
        · exact Or.inl hnil
        · exact Or.inr hin
        · exact absurd hz hup
      obtain ⟨d, hd⟩ := hready.dir
      obtain ⟨_, hcontext⟩ := pageFaultHandler_userMem hready.inv hd hpush hfit
      refine ⟨(hok.below_iff hready.esp).mpr hcase, fun d' a hd' ha ha' => ?_, hcontext⟩
      exact (pageFaultHandler_userMem hready.inv hd' hpush hfit).1 a ha ha'
  · refine ⟨s', .gone, hgone, iff_of_true hends ?_⟩
    by_contra hout
    simp only [EspInside, not_or] at hout
    obtain ⟨_, hesp, hup⟩ := hout
    -- Below the page the frame is at the top, where it fits.
    refine hno ⟨?_, hup⟩
    rw [BitVec.le_def, show (uxstacktop - 4096#32).toNat = uxstacktop.toNat - 4096 from rfl] at hesp
    have hux : uxstacktop.toNat = 4005560320 := rfl
    rcases utrapframeVa_cases tf with ⟨hin, _⟩ | ⟨_, htop⟩
    · exact absurd hin hesp
    · exact ⟨by omega, by omega⟩

/-- The stack is one page if the first addresses of the two pages say so. -/
theorem oneStackPage_of (h : ∀ d, (s.envs cur).envPgdir = some d →
    x86Grants s d (uxstacktop - 4096#32) userWrite ∧ ¬ x86Grants s d (uxstacktop - 8192#32) pteP) :
    OneStackPage s cur := by
  have h4 : (uxstacktop - 4096#32).toNat = 4005556224 := rfl
  have h8 : (uxstacktop - 8192#32).toNat = 4005552128 := rfl
  have hux : uxstacktop.toNat = 4005560320 := rfl
  refine ⟨fun d va hd hva hva' => ?_, fun d va hd hva hva' => ?_⟩
  · rw [BitVec.le_def, h4] at hva
    rw [BitVec.lt_def, hux] at hva'
    exact (x86Grants.congr_page (by omega)).mp (h d hd).1
  · rw [BitVec.le_def, h8] at hva
    rw [BitVec.lt_def, h4] at hva'
    exact fun hg => (h d hd).2 ((x86Grants.congr_page (by omega)).mp hg)

end

/-- An environment with an upcall and a page for the exception stack. -/
def stackRun : List Cmd :=
  [.create, .call env0 (.pageAlloc 0#32 (uxstacktop - 4096#32) 7#32),
    .call env0 (.envSetPgfaultUpcall 0#32 0x800020#32)]

/-- A fault on the user stack. -/
def faultOnStack : Trapframe := { initTf with tfEsp := 0xeebfdf00#32 }

/-- A fault in a handler that has made room for 8192 bytes. -/
def faultBelow : Trapframe := { initTf with tfEsp := uxstacktop - 8244#32 }

theorem overflow_caught_first : ∃ s' next,
    pageFaultHandler (smallAfter stackRun) env0 faultOnStack 0x5000#32 = some (s', next) ∧
    FaultCaught (smallAfter stackRun) env0 faultOnStack 0x5000#32 [] s' next := by
  obtain ⟨hinv, hb⟩ := (smallAfter_reachable (l := stackRun) (by decide +kernel) (by decide)).inv
  have hdir : ((smallAfter stackRun).envs env0).envPgdir = some 2 := by decide +kernel
  have hready : FaultReady smallReserved ⟨smallAfter stackRun, []⟩ env0 faultOnStack := by
    refine ⟨hinv, hb, by decide +kernel, oneStackPage_of fun d hd => ?_, fun f hf => by cases hf⟩
    cases hdir.symm.trans hd
    exact ⟨by decide +kernel, by decide +kernel⟩
  obtain ⟨s', next, hrun, hcaught⟩ := overflow_caught_iff rfl Relation.ReflTransGen.refl hready 0x5000#32
  exact ⟨s', next, hrun, hcaught.mpr (Or.inl rfl)⟩

/-- The handler of a first fault moves `esp` two pages down and faults there. The frame of the
second fault is written over that of the first. -/
theorem overflow_overwrites : ∃ s1 s2, OneStackPage (smallAfter stackRun) env0 ∧
    pageFaultHandler (smallAfter stackRun) env0 faultOnStack 0x5000#32 = some (s1, .run) ∧
    OneStackPage s1 env0 ∧ faultBelow.tfEsp ≤ (s1.envs env0).envTf.tfEsp ∧
    pageFaultHandler s1 env0 faultBelow (uxstacktop - 8244#32) = some (s2, .run) ∧
    ¬ FaultCaught s1 env0 faultBelow (uxstacktop - 8244#32) [utrapframeVa faultOnStack] s2 .run := by
  have hdir : ((smallAfter stackRun).envs env0).envPgdir = some 2 := by decide +kernel
  have hruns : ((pageFaultHandler (smallAfter stackRun) env0 faultOnStack 0x5000#32).bind fun x =>
      (pageFaultHandler x.1 env0 faultBelow (uxstacktop - 8244#32)).map fun y => (x.2, y.2,
        (x.1.envs env0).envPgdir, (x.1.envs env0).envTf.tfEsp,
        decide (x86Grants x.1 2 (uxstacktop - 4096#32) userWrite),
        decide (x86Grants x.1 2 (uxstacktop - 8192#32) pteP))) =
      some (.run, .run, some 2, uxstacktop - 52#32, true, false) := by decide +kernel
  obtain ⟨⟨s1, n1⟩, hrun1, hmap⟩ := Option.bind_eq_some_iff.mp hruns
  obtain ⟨⟨s2, n2⟩, hrun2, hval⟩ := Option.map_eq_some_iff.mp hmap
  simp only [Prod.mk.injEq, decide_eq_true_eq, decide_eq_false_iff_not] at hval
  obtain ⟨rfl, rfl, hdir1, hesp, hpage, hbelow⟩ := hval
  refine ⟨s1, s2, oneStackPage_of fun d hd => ?_, hrun1, oneStackPage_of fun d hd => ?_, ?_, hrun2,
    fun hcaught => ?_⟩
  · cases hdir.symm.trans hd
    exact ⟨by decide +kernel, by decide +kernel⟩
  · cases hdir1.symm.trans hd
    exact ⟨hpage, hbelow⟩
  · rw [hesp]
    decide
  · exact absurd (hcaught.below _ (List.mem_cons_self ..)) (by decide)

end Jos.Kern
