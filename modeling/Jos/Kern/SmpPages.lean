import Jos.Kern.FaultStack
import Jos.Kern.Smp

/-!
# The page tables under many CPUs

The machine with its CPUs has the environments in a field of their own, but in memory they are an array
in frames that the kernel has reserved. Two things could write there past the kernel's own assignments: a
store of user code, once a counter `pp_ref` has wrapped around and a page table is in user hands, and
`sys_env_set_trapframe` with a pointer that is the kernel's. `Contained` excludes both, as the steps of
`Jos.Kern.Machine` do: no frame has more than 65535 references, and a call that goes on to write through
its pointer may write there on behalf of its caller.

* `SmpStep.kept`: such a step keeps the page invariants, on any number of CPUs.
* `Writing.unreserved`: what is written through the page tables of an environment is neither a frame
  that the kernel has reserved nor one of the tables.
* `SmpReached.execAll`: in a short run no counter can wrap around.
-/

namespace Jos.Kern

open Jos.Lib Kernel

variable {n : Nat}

/-- A call of the event that goes on to write through a pointer may write there for its caller. -/
def SafeCalls (m : Smp n) : SmpEvent n → Prop
  | .trap k tf faultVa console => ∀ cur c, m.cpus k = .running cur →
      (m.kern.envs cur).envStatus ≠ .dying → Trap.ofFrame tf faultVa console = .syscall c →
        SafeCall (saveFrame m.kern cur tf) cur c
  | _ => True

/-- The event writes to the memory of environments only through mappings that they have: no frame has
more references than `pp_ref` can count, and every `sys_env_set_trapframe` that writes does so where
its caller may. -/
structure Contained (m : Smp n) (ev : SmpEvent n) : Prop where
  bounded : Bounded m.kern
  safe : SafeCalls m ev

section

variable {R : Nat → Prop} {s s' s1 : Kernel} {cur e : EnvIx} {d i l : Nat} {va faultVa : BitVec 32}
  {tf : Trapframe} {t : Trap} {next : Next} {cpunum : Nat} {curenv : Option EnvIx} {cpu : Cpu}
  {forced : Prop} {m m' : Smp n} {k : Fin n} {ev : SmpEvent n}

/-! ## Writes of the kernel for an environment -/

/-- What is written through the page tables of an environment is no frame of the kernel. -/
theorem Writing.unreserved (h : Writing R e d va l s) (hi : i < l) :
    ¬ R (physAddr s d (va + BitVec.ofNat 32 i) / 4096) ∧
      NoTable s (physAddr s d (va + BitVec.ofNat 32 i) / 4096) := by
  have hdn := (h.inv.pages.target_lt (k := .pgdir e) h.dir).1
  have hw := h.grants i hi
  obtain ⟨f, hf, hphys⟩ := h.inv.pages.physAddr_eq h.dir
    (h.inv.pages.shape.lt_utop_of_write h.dir hdn hw) (by decide) hw
  have hoff : pgoff (va + BitVec.ofNat 32 i) < 4096 := by
    rw [pgoff_eq]
    exact Nat.mod_lt _ (by omega)
  rw [hphys, show (4096 * f + pgoff (va + BitVec.ofNat 32 i)) / 4096 = f by omega]
  rw [← target_placeOf] at hf
  exact ⟨(h.inv.pages.target_lt hf).2.1, h.inv.pages.noTable_of_mapped ⟨_, by rw [← target_placeOf]; exact hf⟩⟩

theorem Writing.storeWords (ws : List (BitVec 32)) (h : Writing R e d va l s)
    (hn : i + 4 * ws.length ≤ l) (hs : Kern.storeWords s d (va + BitVec.ofNat 32 i) ws = some s') :
    Writing R e d va l s' ∧ s'.envs = s.envs ∧ SameMaps s s' := by
  induction ws generalizing s i with
  | nil =>
      cases hs
      exact ⟨h, rfl, rfl, rfl⟩
  | cons w ws ih =>
      simp only [Kern.storeWords, Option.bind_eq_bind, Option.bind_eq_some_iff] at hs
      obtain ⟨s1, hs1, hs2⟩ := hs
      rw [List.length_cons] at hn
      rw [Writing.add_ofNat va i 4] at hs2
      obtain ⟨h1, he1, ht1⟩ := h.store32 (by omega) hs1
      obtain ⟨h2, he2, ht2⟩ := ih (i := i + 4) h1 (by omega) hs2
      exact ⟨h2, he2.trans he1, ht1.trans ht2⟩

/-- A frame that passes the check of `page_fault_handler` is where the environment may write. -/
theorem Inv.frameWriting (h : Inv R s) (hd : (s.envs cur).envPgdir = some d)
    (hcheck : userMemCheck s cur (utrapframeVa tf) utrapframeSize (pteP ||| pteW ||| pteU) =
      some (.ok ())) : Writing R cur d (utrapframeVa tf) 52 s := by
  have hux : uxstacktop.toNat = 4005560320 := rfl
  have hdn := (h.pages.target_lt (k := .pgdir cur) hd).1
  have hplace : 4005556000 ≤ (utrapframeVa tf).toNat ∧ (utrapframeVa tf).toNat + 52 ≤ uxstacktop.toNat := by
    rcases utrapframeVa_cases tf with ⟨_, _, _⟩ | ⟨_, _⟩ <;> omega
  refine ⟨h, hd, fun i hi => ?_⟩
  rcases h.pages.shape.userMemCheck (utrapframeVa tf) utrapframeSize (pteP ||| pteW ||| pteU) hd hdn with
    ⟨_, _, hall⟩ | ⟨⟨x, hbad⟩, _⟩
  · have hnat : (utrapframeVa tf + BitVec.ofNat 32 i).toNat = (utrapframeVa tf).toNat + i := by
      rw [BitVec.toNat_add, BitVec.toNat_ofNat]
      omega
    have hlen : (utrapframeVa tf + utrapframeSize).toNat = (utrapframeVa tf).toNat + 52 := by
      rw [BitVec.toNat_add, utrapframeSize, BitVec.toNat_ofNat]
      omega
    have hpass := hall (((utrapframeVa tf).toNat + i) / 4096)
      (by rw [checkStart]; omega) (by rw [checkEnd, hlen]; omega)
    have hpg : (pageVa (((utrapframeVa tf).toNat + i) / 4096)).toNat / 4096 =
        (utrapframeVa tf + BitVec.ofNat 32 i).toNat / 4096 := by
      rw [pageVa_toNat (by omega), hnat]
      omega
    have hu : pdx (utrapframeVa tf + BitVec.ofNat 32 i) ≠ pdxUvpt := by
      rw [pdx_eq, hnat]
      simp only [pdxUvpt]
      omega
    exact h.pages.shape.x86Grants_of_passes hd hu ((PagePasses.congr_page hpg).mp hpass)
  · rw [hbad] at hcheck
    cases hcheck

/-! ## One entry -/

theorem Kept.same (h : Kept R s s1) (hinv : Inv R s') (htar : target s' = target s1) : Kept R s s' :=
  ⟨hinv, fun p => htar ▸ h.count_le p⟩

theorem Kept.frame {g : Trapframe → Trapframe} (h : Kept R s s1) :
    Kept R s (s1.setEnv cur fun env => { env with envTf := g env.envTf }) :=
  h.same (h.inv.setEnv rfl rfl Iff.rfl (h.inv.envs.dstva_ok _)) (target_setEnv rfl).1

theorem Inv.pageFaultHandler_kept (h : Inv R s) (hb : Bounded s)
    (hcur : (s.envs cur).envStatus ≠ .free)
    (hrun : pageFaultHandler s cur tf faultVa = some (s', next)) : Kept R s s' := by
  rw [pageFaultHandler] at hrun
  split at hrun
  · simp only [Option.bind_eq_bind, Option.bind_eq_some_iff] at hrun
    obtain ⟨⟨s1, destroyed⟩, hassert, hrun⟩ := hrun
    have hkept := h.userMemAssert_kept hb hcur hassert
    simp only at hrun
    split at hrun
    · cases hrun
      exact hkept
    · rename_i hdes
      simp only [Option.bind_eq_some_iff] at hrun
      obtain ⟨d, hd, s2, hstore, hend⟩ := hrun
      cases hend
      rcases userMemAssert_cases hassert with ⟨rfl, _, hok⟩ | ⟨_, hgone⟩
      · have hstore0 : storeWords s1 d (utrapframeVa tf + BitVec.ofNat 32 0) (utrapframe tf faultVa) =
            some s2 := by
          rw [BitVec.add_zero]
          exact hstore
        obtain ⟨h2, _, hmaps⟩ := (h.frameWriting hd hok).storeWords _ (by
          rw [show (utrapframe tf faultVa).length = 13 from rfl]) hstore0
        exact (Kept.of_target h2.inv hmaps.1).same (h2.inv.setEnv rfl rfl Iff.rfl (h2.inv.envs.dstva_ok _))
          (target_setEnv rfl).1
      · rcases h.envDestroy cur hcur hb with ⟨_, hne, _⟩ | ⟨_, _, hrun', _, _⟩
        · exact absurd rfl hne
        · rw [hrun'] at hgone
          cases hgone
          exact absurd (decide_eq_true rfl) hdes
  · simp only [Option.bind_eq_bind, Option.bind_eq_some_iff] at hrun
    obtain ⟨⟨s1, f⟩, hdes, hend⟩ := hrun
    cases hend
    exact h.envDestroy_kept hb hcur hdes

theorem Inv.trapDispatch_kept (h : Inv R s) (hb : Bounded s) (hcur : (s.envs cur).envStatus ≠ .free)
    (hsafe : ∀ c, t = .syscall c → SafeCall s cur c)
    (hrun : trapDispatch s cur tf t = some (s', next)) : Kept R s s' := by
  cases t with
  | pgflt faultVa => exact h.pageFaultHandler_kept hb hcur hrun
  | syscall c =>
      obtain ⟨⟨s1, o⟩, hcall, hrun⟩ := Option.bind_eq_some_iff.mp hrun
      have hkept : Kept R s s1 := h.syscall hb hcur (hsafe c rfl) hcall
      cases o with
      | ret r =>
          cases hrun
          exact hkept.frame (g := fun tf => { tf with
            tfRegs := { tf.tfRegs with regEax := BitVec.ofInt 32 r } })
      | yield =>
          cases hrun
          exact hkept
      | gone =>
          cases hrun
          exact hkept
  | other =>
      obtain ⟨⟨s1, f⟩, hdes, hrun⟩ := Option.bind_eq_some_iff.mp hrun
      cases hrun
      exact h.envDestroy_kept hb hcur hdes
  | _ =>
      cases hrun
      exact .refl h

/-- The scheduler assigns to environments only. -/
theorem schedYield_only (h : schedYield s cpunum curenv = some (s', cpu)) :
    s' = { s with envs := s'.envs } := by
  have hrun : ∀ e, envRun s cpunum curenv e = some (s', cpu) → s' = { s with envs := s'.envs } := by
    intro e he
    simp only [envRun, Option.bind_eq_bind, Option.bind_eq_some_iff] at he
    obtain ⟨_, _, he⟩ := he
    cases he
    rfl
  have hhalt : schedHalt s = some (s', cpu) → s' = { s with envs := s'.envs } := by
    intro he
    rw [schedHalt] at he
    split at he
    · cases he
      rfl
    · cases he
  unfold schedYield at h
  split at h
  · exact hrun _ h
  · split at h
    · exact hhalt h
    · split at h
      · exact hrun _ h
      · exact hhalt h

theorem leave_only (h : leave s cpunum cur next = some (s', cpu)) : s' = { s with envs := s'.envs } := by
  have hrun : envRun s cpunum (some cur) cur = some (s', cpu) → s' = { s with envs := s'.envs } := by
    intro he
    simp only [envRun, Option.bind_eq_bind, Option.bind_eq_some_iff] at he
    obtain ⟨_, _, he⟩ := he
    cases he
    rfl
  cases next with
  | back =>
      rw [leave] at h
      split at h
      · exact hrun h
      · exact schedYield_only h
  | run => exact hrun h
  | yield =>
      rw [leave] at h
      exact schedYield_only h
  | gone =>
      rw [leave] at h
      exact schedYield_only h

theorem trapHalted_only (h : trapHalted s cpunum t = some (s', cpu)) :
    s' = { s with envs := s'.envs } := by
  unfold trapHalted at h
  split at h
  iterate 4 exact schedYield_only h
  cases h

/-- `env_run` changes the status of two environments at most, and what it keeps of the runs. -/
theorem switchEnv_eq (envs : EnvIx → Env) :
    switchEnv envs cpunum curenv e =
      Function.update (match curenv with
        | some x => if x ≠ e ∧ (envs x).envStatus = .running then
            Function.update envs x { envs x with envStatus := .runnable } else envs
        | none => envs) e { envs e with
          envStatus := .running, envRuns := (envs e).envRuns + 1#32, envCpunum := cpunum } := by
  funext x
  by_cases hx : x = e
  · subst hx
    rw [switchEnv, if_pos rfl, Function.update_self]
  · rw [switchEnv, if_neg hx, Function.update_of_ne hx]
    cases curenv with
    | none => rw [if_neg fun h => by cases h.1]
    | some y =>
        dsimp only
        by_cases hy : y = x
        · subst hy
          by_cases hrun : (envs y).envStatus = .running
          · rw [if_pos ⟨rfl, hrun⟩, if_pos ⟨hx, hrun⟩, Function.update_self]
          · rw [if_neg fun h => hrun h.2, if_neg fun h => hrun h.2]
        · rw [if_neg fun h => hy (Option.some.inj h.1)]
          split
          · rw [Function.update_of_ne (Ne.symm hy)]
          · rfl

theorem Switched.kept (hsw : Switched s cpunum curenv forced s' cpu) (h : Kept R s1 s)
    (hlive : ∀ e, curenv = some e → (s.envs e).envStatus ≠ .free)
    (honly : s' = { s with envs := s'.envs }) : Kept R s1 s' := by
  cases hsw with
  | halt => exact h
  | @run e _ ready envs free =>
      have he : (s.envs e).envStatus ≠ .free := by
        rcases ready with hrun | hrun
        · rw [hrun]
          decide
        · exact hlive e hrun.1
      have hset : ∀ {x : EnvIx} {g : Env → Env} {s0 : Kernel}, Kept R s1 s0 →
          (∀ env, (g env).envPgdir = env.envPgdir ∧ (g env).envLink = env.envLink ∧
            (g env).envIpcDstva = env.envIpcDstva ∧ (g env).envStatus ≠ .free) →
          (s0.envs x).envStatus ≠ .free → Kept R s1 (s0.setEnv x g) := by
        intro x g s0 h0 hg hx
        obtain ⟨hdir, hlink, hdst, hst⟩ := hg (s0.envs x)
        exact h0.same (h0.inv.setEnv hdir hlink (iff_of_false hst hx)
          (by rw [hdst]; exact h0.inv.envs.dstva_ok x)) (target_setEnv hdir).1
      rw [switchEnv_eq] at envs
      rw [honly, envs]
      -- The current environment first, if it was running, and then the chosen one.
      cases hc : curenv with
      | none => exact hset (x := e) (g := fun env => { env with
          envStatus := .running, envRuns := env.envRuns + 1#32, envCpunum := cpunum }) h (by simp) he
      | some x =>
          dsimp only
          split
          · rename_i hx
            have h1 := hset (x := x) (g := fun env => { env with envStatus := .runnable }) h (by simp)
              (hlive x hc)
            have hself : (Function.update s.envs x { s.envs x with envStatus := .runnable }) e = s.envs e :=
              Function.update_of_ne hx.1.symm ..
            have h2 := hset (x := e) (g := fun env => { env with
              envStatus := .running, envRuns := env.envRuns + 1#32, envCpunum := cpunum }) h1 (by simp)
              (by simpa only [Kernel.setEnv, hself] using he)
            simpa only [Kernel.setEnv, hself] using h2
          · exact hset (x := e) (g := fun env => { env with
              envStatus := .running, envRuns := env.envRuns + 1#32, envCpunum := cpunum }) h (by simp) he

/-! ## Steps and runs -/

theorem Inv.trap_kept (h : Inv R s) (hb : Bounded s) (hcur : (s.envs cur).envStatus ≠ .free)
    (hsafe : ∀ c, (s.envs cur).envStatus ≠ .dying → t = .syscall c → SafeCall (saveFrame s cur tf) cur c)
    (hrun : trap s cpunum cur tf t = some (s', cpu)) : Kept R s s' := by
  rw [trap] at hrun
  split at hrun
  · obtain ⟨s1, hfree, hyield⟩ := Option.bind_eq_some_iff.mp hrun
    obtain ⟨s2, hfree', hinv, hfreed⟩ := h.envFree hcur hb
    rw [hfree'] at hfree
    cases hfree
    have hswitch : Switched s1 cpunum none False s' cpu := switched_schedYield hyield
    exact hswitch.kept ⟨hinv, fun p => Nat.le_add_right_of_le (hfreed.count_le p)⟩ (by simp)
      (schedYield_only hyield)
  · rename_i halive
    obtain ⟨⟨s1, next⟩, hdispatch, hleave⟩ := Option.bind_eq_some_iff.mp hrun
    have hsame := target_setEnv (s := s) (e := cur) (g := fun env => { env with envTf := tf }) rfl
    have hsaved : Inv R (saveFrame s cur tf) := h.setEnv rfl rfl Iff.rfl (h.envs.dstva_ok _)
    have hcur0 : ((saveFrame s cur tf).envs cur).envStatus ≠ .free := by
      rw [saveFrame, setEnv_self]
      exact hcur
    have hkept : Kept R (saveFrame s cur tf) s1 :=
      hsaved.trapDispatch_kept (fun p => by rw [saveFrame, hsame.1]; exact hb p) hcur0
        (fun c => hsafe c halive) hdispatch
    have hkept0 : Kept R s s1 := ⟨hkept.inv, fun p => by rw [← hsame.1]; exact hkept.count_le p⟩
    exact (switched_leave hleave).kept hkept0 ((dispatched_trapDispatch hdispatch).cur_live hcur0)
      (leave_only hleave)

/-- A step keeps the page invariants, whichever CPU makes it, if the environments that run are in
use. -/
theorem SmpStep.kept (h : SmpStep m ev m') (hinv : Inv R m.kern) (hok : Contained m ev)
    (hlive : ∀ k e, m.cpus k = .running e → (m.kern.envs e).envStatus ≠ .free) :
    Kept R m.kern m'.kern := by
  cases h with
  | @trap k cur tf faultVa console r cpu run =>
      obtain ⟨s', c⟩ := r
      exact hinv.trap_kept hok.bounded (hlive k cur cpu) (fun c halive ht => hok.safe cur c cpu halive ht) run
  | @wake k t r cpu run =>
      obtain ⟨s', c⟩ := r
      exact (switched_trapHalted run).kept (.refl hinv) (by simp) (trapHalted_only run)
  | store c cpu dir grants => exact hinv.step hok.bounded (.store c dir grants)
  | create idle run => exact hinv.step hok.bounded (.create run)
  | region idle dir low alloc insert => exact hinv.step hok.bounded (.region dir low alloc insert)
  | load c idle dir grants => exact hinv.step hok.bounded (.store c dir grants)
  | @setup e idle tf ty =>
      exact Kept.setEnv (e := e) (g := fun env => { env with envTf := tf, envType := ty }) hinv rfl rfl
        Iff.rfl (hinv.envs.dstva_ok e)

end

end Jos.Kern
