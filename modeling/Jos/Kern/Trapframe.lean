import Jos.Kern.UserPointer

/-!
# The pointer of `sys_env_set_trapframe`

`sys_env_set_trapframe(envid, tf)` checks `tf` in the address space of the environment
`envid` and then reads and writes through it in that of the caller. When the check fails
for an environment other than the caller, that environment is destroyed and the call goes
on all the same. The theorem of this module says exactly when the accesses stay inside
memory that the caller may write.

Main results:
* `trapframe_safe_iff`: when the accesses through the pointer are safe;
* `trapframe_unsafe_child`: a pointer that is mapped in the child only.
-/

namespace Jos.Kern

open Jos.Lib Kernel

/-- The whole `struct Trapframe` at `tf` is user-writable in the address space of `cur`. -/
def FrameWritable (s : Kernel) (cur : EnvIx) (tf : BitVec 32) : Prop :=
  tf.toNat + 68 ≤ ulim.toNat ∧ UserMayWrite s cur tf 68

/-- Nothing changes but the caller: not the saved context of any environment, no other
environment, and no memory except page tables of the caller itself. -/
structure OnlyCaller (s : Kernel) (cur : EnvIx) (s' : Kernel) : Prop where
  envTf : ∀ e, (s'.envs e).envTf = (s.envs e).envTf
  envs : ∀ e ≠ cur, s'.envs e = s.envs e
  mem : ∀ f, NoTableOf s cur f → SameFrame s s' f

/-- A call that accesses memory through `tf` has a caller who may write there, and any
other call changes nothing but the caller. -/
def TrapframeSafe (s : Kernel) (cur : EnvIx) (envid tf : BitVec 32) : Prop :=
  ∀ s1, (∀ e, trapframeCheck s cur envid tf = some (s1, .inr e) → FrameWritable s1 cur tf) ∧
    ∀ o, trapframeCheck s cur envid tf = some (s1, .inl o) → OnlyCaller s cur s1

section

variable {R : Nat → Prop} {s s' : Kernel} {cur e : EnvIx} {d : Nat} {envid tf va : BitVec 32}

theorem OnlyCaller.refl (s : Kernel) (cur : EnvIx) : OnlyCaller s cur s :=
  ⟨fun _ => rfl, fun _ _ => rfl, fun _ _ _ _ _ => rfl⟩

/-- Freeing the caller changes nothing else. -/
theorem EnvFreed.onlyCaller (h : EnvFreed R [] s cur s') : OnlyCaller s cur s' where
  envTf e := by
    rw [h.envs, Function.update_apply]
    split
    · rename_i he
      rw [he]
    · rfl
  envs e he := by rw [h.envs, Function.update_of_ne he]
  mem := h.data

/-- The rights of a user to write, in terms of the page table entry. -/
theorem PageInv.userWrite_iff (h : PageInv R [] s) (hd : (s.envs e).envPgdir = some d) :
    x86Grants s d va userWrite ↔
      ∃ hva : va < utop, pteOf s (slotOf e va hva) &&& userWrite = userWrite := by
  have hdn := (h.target_lt (k := .pgdir e) hd).1
  have hp : userWrite &&& pteP = pteP := by decide
  constructor
  · intro hw
    have hva := h.shape.lt_utop_of_write hd hdn hw
    exact ⟨hva, (h.shape.x86Grants_low hd hva hp).mp hw⟩
  · rintro ⟨hva, hw⟩
    exact (h.shape.x86Grants_low hd hva hp).mpr hw

/-- What the caller may write does not depend on other environments. -/
theorem frameWritable_congr (h : PageInv R [] s) (h' : PageInv R [] s')
    (hdir : (s'.envs cur).envPgdir = (s.envs cur).envPgdir)
    (hpte : ∀ k : Slot, k.1 = cur → pteOf s' k = pteOf s k) :
    FrameWritable s' cur tf ↔ FrameWritable s cur tf := by
  rw [FrameWritable, FrameWritable, UserMayWrite, UserMayWrite, hdir]
  refine and_congr_right fun _ => exists_congr fun d => and_congr_right fun hd =>
    forall_congr' fun i => imp_congr_right fun _ => ?_
  rw [h'.userWrite_iff (by rw [hdir, hd]), h.userWrite_iff hd]
  exact exists_congr fun hva => by rw [hpte _ rfl]

theorem userWrite_or : (pteW ||| pteP ||| pteU) ||| pteP = userWrite := by decide

/-- The accepted frame, when the address space checked is the one in force. -/
theorem Shape.frameWritable_of_check (hs : Shape R s) (hd : (s.envs cur).envPgdir = some d)
    (hdn : d < s.npages)
    (hwin : ¬ WindowWrite s d tf trapframeSize (pteW ||| pteP ||| pteU))
    (hok : Kern.userMemCheck s cur tf trapframeSize (pteW ||| pteP ||| pteU) = some (.ok ())) :
    FrameWritable s cur tf := by
  have hsize : trapframeSize.toNat = 68 := rfl
  have hva : tf ≤ ulim := by
    rcases hs.userMemCheck _ _ _ hd hdn with ⟨_, hva, _⟩ | ⟨⟨x, herr⟩, _⟩
    · exact hva
    · rw [herr] at hok
      cases hok
  have hva' : tf.toNat ≤ 0xEF800000 := hva
  have hsound := (hs.checkSound_iff_of_le trapframeSize hd hdn (by decide) (by decide) hva
    (by rw [hsize]; omega)).mpr hwin
  obtain ⟨_, hall⟩ := hsound hok
  rw [hsize, userWrite_or] at hall
  have hx : ∀ i < 68, (tf + BitVec.ofNat 32 i).toNat = tf.toNat + i := by
    intro i hi
    rw [BitVec.toNat_add, BitVec.toNat_ofNat, Nat.mod_eq_of_lt (by omega),
      Nat.mod_eq_of_lt (by omega)]
  have hin : ∀ i < 68, tf + BitVec.ofNat 32 i < ulim ∧
      x86Grants s d (tf + BitVec.ofNat 32 i) userWrite := by
    intro i hi
    exact hall d hd _ (by rw [BitVec.le_def, hx i hi]; omega) (by rw [hx i hi]; omega)
  refine ⟨?_, d, hd, fun i hi => (hin i hi).2⟩
  have hlast := (hin 67 (by omega)).1
  rw [BitVec.lt_def, hx 67 (by omega)] at hlast
  omega

/-- In the window at `UVPT` the check passes and the caller may not write. -/
theorem Shape.window_check (hs : Shape R s) (hd : (s.envs cur).envPgdir = some d)
    (hdn : d < s.npages)
    (hwin : WindowWrite s d tf trapframeSize (pteW ||| pteP ||| pteU)) :
    Kern.userMemCheck s cur tf trapframeSize (pteW ||| pteP ||| pteU) = some (.ok ()) ∧
      ¬ FrameWritable s cur tf := by
  have hsize : trapframeSize.toNat = 68 := rfl
  obtain ⟨_, huvpt, hulim, _⟩ := id hwin
  have hva : tf ≤ ulim := by
    rw [BitVec.le_def]
    omega
  have hva' : tf.toNat ≤ 0xEF800000 := hva
  have hunsound : ¬ CheckSound s cur tf trapframeSize (pteW ||| pteP ||| pteU) := fun h =>
    (hs.checkSound_iff_of_le _ hd hdn (by decide) (by decide) hva (by rw [hsize]; omega)).mp h hwin
  refine ⟨?_, ?_⟩
  · by_contra hno
    exact hunsound fun hok => absurd hok hno
  · rintro ⟨_, d', hd', hw⟩
    rw [hd] at hd'
    cases hd'
    have h0 := hw 0 (by omega)
    rw [BitVec.add_zero] at h0
    have hlt : tf.toNat < 0xEEC00000 := hs.lt_utop_of_write hd hdn h0
    have huvpt' : 0xEF400000 ≤ tf.toNat := huvpt
    omega

/-- The call for another environment always goes on to use `tf`. -/
theorem Inv.trapframeCheck_other (h : Inv R s) (tf : BitVec 32) (hb : Bounded s)
    (hcur : (s.envs cur).envStatus ≠ .free) (henv : envid2env s cur envid true = some e)
    (hne : e ≠ cur) :
    ∃ s1, trapframeCheck s cur envid tf = some (s1, .inr e) ∧
      (FrameWritable s1 cur tf ↔ FrameWritable s cur tf) := by
  have hlive := envid2env_live hcur henv
  obtain ⟨d, hd⟩ := h.envs.exists_pgdir hlive
  have hdn := (h.pages.target_lt (k := .pgdir e) hd).1
  rcases h.pages.shape.userMemCheck tf trapframeSize
    (pteW ||| pteP ||| pteU) hd hdn with ⟨hok, _⟩ | ⟨⟨x, herr⟩, _⟩
  · exact ⟨s, by simp [trapframeCheck, henv, userMemAssert, hok], Iff.rfl⟩
  · rcases h.envDestroy cur hlive hb with ⟨_, _, hdes, hinv⟩ | ⟨_, s1, hdes, hinv, hfr⟩
    · refine ⟨s.setEnv e fun env => { env with envStatus := .dying },
        by simp [trapframeCheck, henv, userMemAssert, herr, hdes], ?_⟩
      refine frameWritable_congr h.pages hinv.pages (by rw [setEnv_of_ne _ _ (Ne.symm hne)]) ?_
      intro k _
      rw [(target_setEnv (e := e) rfl).2]
    · refine ⟨s1, by simp [trapframeCheck, henv, userMemAssert, herr, hdes, Ne.symm hne], ?_⟩
      refine frameWritable_congr h.pages hinv.pages ?_ ?_
      · rw [hfr.envs, Function.update_of_ne (Ne.symm hne)]
      · intro k hk
        exact hfr.pte k (by rw [hk]; exact Ne.symm hne)

/-- The accesses of `sys_env_set_trapframe` are safe exactly when there is no such
environment, when the caller may write the whole frame, or when the caller is the target and
`tf` is not in the part of the window at `UVPT` that passes the check. -/
theorem trapframe_safe_iff (h : Reachable R s) (hcur : (s.envs cur).envStatus ≠ .free)
    (hd : (s.envs cur).envPgdir = some d) :
    TrapframeSafe s cur envid tf ↔
      envid2env s cur envid true = none ∨ FrameWritable s cur tf ∨
      (envid2env s cur envid true = some cur ∧
        ¬ WindowWrite s d tf trapframeSize (pteW ||| pteP ||| pteU)) := by
  obtain ⟨hinv, hb⟩ := h.inv
  have hs := hinv.pages.shape
  have hdn := (hinv.pages.target_lt (k := .pgdir cur) hd).1
  cases henv : envid2env s cur envid true with
  | none =>
      refine ⟨fun _ => Or.inl rfl, fun _ s1 => ⟨fun e hc => ?_, fun o hc => ?_⟩⟩
      · simp [trapframeCheck, henv] at hc
      · simp only [trapframeCheck, henv, Option.some.injEq, Prod.mk.injEq] at hc
        rw [← hc.1]
        exact OnlyCaller.refl s cur
  | some e =>
  by_cases hne : e = cur
  swap
  · -- another environment: the call goes on in any case
    obtain ⟨s1, hcheck, hiff⟩ := hinv.trapframeCheck_other tf hb hcur henv hne
    have hsafe : TrapframeSafe s cur envid tf ↔ FrameWritable s cur tf := by
      constructor
      · intro hsafe
        exact hiff.mp ((hsafe s1).1 e hcheck)
      · intro hw s2
        refine ⟨fun e' hc => ?_, fun o hc => ?_⟩
        · rw [hcheck] at hc
          cases hc
          exact hiff.mpr hw
        · rw [hcheck] at hc
          cases hc
    rw [hsafe]
    simp [hne]
  · subst hne
    rcases hs.userMemCheck tf trapframeSize (pteW ||| pteP ||| pteU)
      hd hdn with ⟨hok, _⟩ | ⟨⟨x, herr⟩, _⟩
    · -- the check passes: the frame is writable unless it lies in the window
      have hcheck : trapframeCheck s e envid tf = some (s, .inr e) := by
        simp [trapframeCheck, henv, userMemAssert, hok]
      have hsafe : TrapframeSafe s e envid tf ↔ FrameWritable s e tf := by
        constructor
        · intro hsafe
          exact (hsafe s).1 e hcheck
        · intro hw s2
          refine ⟨fun e' hc => ?_, fun o hc => ?_⟩
          · rw [hcheck] at hc
            cases hc
            exact hw
          · rw [hcheck] at hc
            cases hc
      rw [hsafe]
      constructor
      · exact fun hw => Or.inr (Or.inl hw)
      · rintro (hno | hw | ⟨_, hwin⟩)
        · cases hno
        · exact hw
        · exact hs.frameWritable_of_check hd hdn hwin hok
    · -- the check fails: the caller is destroyed and the call does not return
      have hwin : ¬ WindowWrite s d tf trapframeSize (pteW ||| pteP ||| pteU) := by
        intro hwin
        rw [(hs.window_check hd hdn hwin).1] at herr
        cases herr
      refine ⟨fun _ => Or.inr (Or.inr ⟨rfl, hwin⟩), fun _ s2 => ?_⟩
      rcases hinv.envDestroy e hcur hb with ⟨_, hee, _⟩ | ⟨_, s1, hdes, _, hfr⟩
      · exact absurd rfl hee
      · have hcheck : trapframeCheck s e envid tf = some (s1, .inl .gone) := by
          simp [trapframeCheck, henv, userMemAssert, herr, hdes]
        refine ⟨fun e' hc => ?_, fun o hc => ?_⟩
        · rw [hcheck] at hc
          cases hc
        · rw [hcheck] at hc
          cases hc
          exact hfr.onlyCaller

end

/-- A parent and a child, each with a page: the parent's at `0x1000`, the child's at
`0x2000`. -/
def trapframeRun : List Cmd :=
  [.create, .call env0 .exofork,
    .call env0 (.pageAlloc 0#32 0x1000#32 7#32),
    .call env0 (.pageAlloc 0x1001#32 0x2000#32 7#32)]

/-- With a pointer to a page of its own the parent sets its own frame safely. -/
theorem trapframe_safe_own :
    TrapframeSafe (smallAfter trapframeRun) ⟨0, by decide⟩ 0#32 0x1000#32 := by
  refine (trapframe_safe_iff (R := smallReserved) (d := 2)
    (smallAfter_reachable (by decide +kernel) (by decide)) (by decide +kernel)
    (by decide +kernel)).mpr (Or.inr (Or.inr ⟨by decide +kernel, ?_⟩))
  rintro ⟨_, huvpt, _⟩
  exact absurd huvpt (by decide)

/-- The parent passes a pointer that is mapped only in its child: the check succeeds and
the call goes on to write at an address that is not mapped in the caller. -/
theorem trapframe_unsafe_child :
    Reachable smallReserved (smallAfter trapframeRun) ∧
    ((smallAfter trapframeRun).envs ⟨0, by decide⟩).envStatus ≠ .free ∧
    ¬ TrapframeSafe (smallAfter trapframeRun) ⟨0, by decide⟩ 0x1001#32 0x2000#32 := by
  refine ⟨smallAfter_reachable (by decide +kernel) (by decide), by decide +kernel, fun h => ?_⟩
  have hchecked : (trapframeCheck (smallAfter trapframeRun) ⟨0, by decide⟩ 0x1001#32 0x2000#32).map
      (·.2) = some (.inr ⟨1, by decide⟩) := by decide +kernel
  obtain ⟨⟨s1, x⟩, hs1, hx⟩ := Option.map_eq_some_iff.mp hchecked
  simp only at hx
  subst hx
  obtain ⟨_, d, hd, hw⟩ := (h s1).1 _ hs1
  have hno : (trapframeCheck (smallAfter trapframeRun) ⟨0, by decide⟩ 0x1001#32 0x2000#32).map
      (fun r => (r.1.envs ⟨0, by decide⟩).envPgdir.map fun d =>
        decide (x86Grants r.1 d 0x2000#32 userWrite)) = some (some false) := by decide +kernel
  rw [hs1, Option.map_some, hd, Option.map_some] at hno
  have h0 := hw 0 (by omega)
  rw [BitVec.add_zero] at h0
  simp only [Option.some.injEq, decide_eq_false_iff_not] at hno
  exact hno h0

end Jos.Kern
