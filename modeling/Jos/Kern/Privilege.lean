import Jos.Kern.FrameStore
import Jos.Kern.Load
import Jos.Kern.OneCpu

/-!
# The privileges of saved contexts

The saved context of an environment is made by `env_alloc`, copied by `sys_exofork`, saved at a
trap, changed by `page_fault_handler` and set by `sys_env_set_trapframe`. An environment that is not
a file server and has no file server among its ancestors has a context of ring 3 with IOPL 0 and with
interrupts, as long as nobody changes the status of an environment that another CPU runs, and every
`struct Trapframe` that is set is in memory of the caller. Otherwise a CPU can save the context of
one environment in the slot of another one.

Main results:
* `PrivInv.step`: a step of any CPU keeps the privileges of the saved contexts;
* `saved_frames_unprivileged`: the saved contexts in every state of a run;
* `child_gets_privileges`: a run that breaks it.
-/

namespace Jos.Kern

open Jos.Lib Kernel

/-! ## Creating an environment -/

/-- `env_create` -/
def envCreate (s : Kernel) (binary : Mem) (type : EnvType) : Option Kernel := do
  match ← envAlloc s 0#32 with
  | (_, .error _) => none
  | (s, .ok e) =>
      let s ← loadIcode s e binary
      let s := s.setEnv e fun env => { env with envType := type, envParentId := 0#32 }
      if type = .fs then
        some (s.setEnv e fun env => { env with
          envTf := { env.envTf with tfEflags := env.envTf.tfEflags ||| flIopl3 } })
      else some s

/-! ## The machine -/

/-- The machine with the frame from which each CPU has loaded its registers, and with the
environments that are of type `ENV_TYPE_FS` or have an ancestor of that type. -/
structure Priv (n : Nat) where
  smp : Smp n
  loaded : Fin n → Trapframe
  fs : EnvIx → Bool

/-- User code in ring 3 with IOPL 0 changes neither CS, nor IOPL, nor IF. -/
def RingKept (old new : Trapframe) : Prop :=
  old.tfCs &&& 3#16 = 3#16 → old.tfEflags &&& flIoplMask = 0#32 → new.tfCs = old.tfCs ∧
    new.tfEflags &&& (flIoplMask ||| flIf) = old.tfEflags &&& (flIoplMask ||| flIf)

/-- The child that `sys_exofork` makes descends from the caller. -/
def bornFs (s : Kernel) (fs : EnvIx → Bool) (cur : EnvIx) : Trap → EnvIx → Bool
  | .syscall .exofork =>
      match s.envFreeList with
      | some e => Function.update fs e (fs cur)
      | none => fs
  | _ => fs

/-- The environment that `env_create` makes. -/
def createdFs (s : Kernel) (fs : EnvIx → Bool) (type : EnvType) : EnvIx → Bool :=
  match s.envFreeList with
  | some e => Function.update fs e (decide (type = .fs))
  | none => fs

/-- `env_pop_tf` on CPU `k`. -/
def Priv.popTf {n : Nat} (p : Priv n) (k : Fin n) (r : Kernel × Cpu) : Fin n → Trapframe :=
  match r.2.cpuEnv with
  | some e => Function.update p.loaded k (r.1.envs e).envTf
  | none => p.loaded

inductive PrivStep {n : Nat} : Priv n → SmpEvent n → Priv n → Prop
  | trap {p : Priv n} {k : Fin n} {cur : EnvIx} {tf : Trapframe} {faultVa : BitVec 32}
      {console : Int} {r : Kernel × Cpu} (cpu : p.smp.cpus k = .running cur)
      (user : tf.tfCs &&& 3#16 = 3#16) (kept : RingKept (p.loaded k) tf)
      (run : trap p.smp.kern k cur tf (.ofFrame tf faultVa console) = some r) :
      PrivStep p (.trap k tf faultVa console)
        ⟨p.smp.after k r, p.popTf k r, bornFs p.smp.kern p.fs cur (.ofFrame tf faultVa console)⟩
  | wake {p : Priv n} {k : Fin n} {t : Trap} {r : Kernel × Cpu} (cpu : p.smp.cpus k = .halted)
      (run : trapHalted p.smp.kern k t = some r) :
      PrivStep p (.wake k t) ⟨p.smp.after k r, p.popTf k r, p.fs⟩
  | store {p : Priv n} {k : Fin n} {cur : EnvIx} {d : Nat} {va : BitVec 32} (c : BitVec 8)
      (cpu : p.smp.cpus k = .running cur) (dir : (p.smp.kern.envs cur).envPgdir = some d)
      (grants : x86Grants p.smp.kern d va userWrite) :
      PrivStep p .internal { p with smp := { p.smp with kern := { p.smp.kern with
        mem := Function.update p.smp.kern.mem (physAddr p.smp.kern d va) c } } }
  | create {p : Priv n} {s : Kernel} {binary : Mem} {type : EnvType}
      (idle : ∀ k, p.smp.cpus k = .halted) (run : envCreate p.smp.kern binary type = some s) :
      PrivStep p .internal
        { p with smp := { p.smp with kern := s }, fs := createdFs p.smp.kern p.fs type }

/-- States reached by steps that satisfy `ok`. -/
inductive PrivRun {n : Nat} (R : Nat → Prop) (ok : Smp n → SmpEvent n → Prop) : Priv n → Prop
  | boot {p : Priv n} (h : SmpBooted R p.smp) : PrivRun R ok p
  | step {p p' : Priv n} {ev : SmpEvent n} (h : PrivRun R ok p) (hstep : PrivStep p ev p')
      (hok : ok p.smp ev) : PrivRun R ok p'

variable {n : Nat}

/-- A `struct Trapframe` that the event sets is in memory of the caller. -/
def OwnFrames (m : Smp n) : SmpEvent n → Prop
  | .trap k tf faultVa console => ∀ cur envid va s1 e, m.cpus k = .running cur →
      (m.kern.envs cur).envStatus ≠ .dying →
      Trap.ofFrame tf faultVa console = .syscall (.envSetTrapframe envid va) →
      trapframeCheck (saveFrame m.kern cur tf) cur envid va = some (s1, .inr e) →
      OwnFrame s1 cur va
  | _ => True

/-- The event overwrites neither the status of an environment that another CPU runs nor memory that
does not belong to the caller. -/
def Orderly (m : Smp n) (ev : SmpEvent n) : Prop := Careful m ev ∧ OwnFrames m ev

/-- The saved contexts of all environments but file servers and their descendants are of ring 3, with
IOPL 0 and with interrupts, and such an environment runs that way. -/
structure Unprivileged (p : Priv n) : Prop where
  saved : ∀ e, (p.smp.kern.envs e).envStatus ≠ .free → p.fs e = false →
    UserFrame (p.smp.kern.envs e).envTf
  running : ∀ k e, p.smp.cpus k = .running e → p.fs e = false → UserFrame (p.loaded k)

/-! ## Frames -/

/-- The saved contexts of the environments outside `fs`. -/
def Frames (fs : EnvIx → Bool) (s : Kernel) : Prop :=
  ∀ e, (s.envs e).envStatus ≠ .free → fs e = false → UserFrame (s.envs e).envTf

section

variable {R : Nat → Prop} {s s' s1 : Kernel} {cur e x : EnvIx} {c : Call} {o : Outcome} {t : Trap}
  {tf tf' : Trapframe} {fs fs' : EnvIx → Bool} {env : Env} {next : Next} {m : Smp n} {k : Fin n}
  {p p' : Priv n} {cpunum : Nat} {curenv : Option EnvIx} {cpu : Cpu} {forced : Prop}

theorem userFrame_initTf : UserFrame initTf := ⟨rfl, by decide, by decide⟩

theorem UserFrame.congr (h : UserFrame tf) (hcs : tf'.tfCs = tf.tfCs)
    (hflags : tf'.tfEflags = tf.tfEflags) : UserFrame tf' :=
  ⟨hcs.trans h.cs, by rw [hflags]; exact h.iopl, by rw [hflags]; exact h.flagIf⟩

theorem UserFrame.kept (h : UserFrame tf) (hk : RingKept tf tf') : UserFrame tf' := by
  obtain ⟨hcs, hflags⟩ := hk (by rw [h.cs]; decide) h.iopl
  have hand : ∀ mask, mask &&& (flIoplMask ||| flIf) = mask →
      tf'.tfEflags &&& mask = tf.tfEflags &&& mask := by
    intro mask hmask
    rw [← hmask, BitVec.and_comm mask, ← BitVec.and_assoc, hflags, BitVec.and_assoc]
  refine ⟨hcs.trans h.cs, ?_, ?_⟩
  · rw [hand _ (by decide)]
    exact h.iopl
  · rw [hand _ (by decide)]
    exact h.flagIf

theorem Frames.same (h : Frames fs s) (hsame : s'.envs = s.envs) : Frames fs s' := by
  unfold Frames
  rw [hsame]
  exact h

theorem Frames.update (h : Frames fs s) (henvs : s'.envs = Function.update s.envs e env)
    (henv : env.envStatus ≠ .free → fs e = false → UserFrame env.envTf) : Frames fs s' := by
  intro x hx hfs
  rw [henvs] at hx ⊢
  by_cases hxe : x = e
  · subst hxe
    rw [Function.update_self] at hx ⊢
    exact henv hx hfs
  · rw [Function.update_of_ne hxe] at hx ⊢
    exact h x hx hfs

/-- A change that leaves CS and the flags. -/
theorem Frames.keep (h : Frames fs s) (henvs : s'.envs = Function.update s.envs e env)
    (hlive : (s.envs e).envStatus ≠ .free) (hcs : env.envTf.tfCs = (s.envs e).envTf.tfCs)
    (hflags : env.envTf.tfEflags = (s.envs e).envTf.tfEflags) : Frames fs s' :=
  h.update henvs fun _ hfs => (h e hlive hfs).congr hcs hflags

theorem Frames.congr (h : Frames fs s) (hfs : ∀ x, (s.envs x).envStatus ≠ .free → fs' x = fs x) :
    Frames fs' s := fun x hx hx' => h x hx (by rw [← hfs x hx]; exact hx')

theorem Destroyed.frames {f : Bool} (hd : Destroyed s cur e s' f) (h : Frames fs s) :
    Frames fs s' := by
  cases hd with
  | mark running _ envs _ => exact h.keep envs (by simp [running]) rfl rfl
  | free _ envs _ => exact h.update envs fun hst => absurd rfl hst

theorem Switched.frames (hsw : Switched s cpunum curenv forced s' cpu) (h : Frames fs s)
    (hlive : ∀ e, curenv = some e → (s.envs e).envStatus ≠ .free) : Frames fs s' := by
  have hiff := hsw.free_iff hlive
  have htf : ∀ x, (s'.envs x).envTf = (s.envs x).envTf := by
    intro x
    cases hsw with
    | run _ envs _ =>
        rw [envs, switchEnv]
        split
        · rfl
        · split <;> rfl
    | halt => rfl
  intro x hx hfs
  rw [htf]
  exact h x (fun hfree => hx ((hiff x).mpr hfree)) hfs

/-- A slot in use is not the one that `sys_exofork` takes. -/
theorem bornFs_of_live (hfree : FreeEnvs s) (hx : (s.envs x).envStatus ≠ .free) :
    bornFs s fs cur t x = fs x := by
  unfold bornFs
  split
  · cases hhead : s.envFreeList with
    | none => rfl
    | some e =>
        refine Function.update_of_ne ?_ ..
        rintro rfl
        exact hx (hfree.head hhead)
  · rfl

/-! ## System calls -/

/-- All calls but `sys_env_set_trapframe`. -/
theorem EnvChange.frames (hc : EnvChange s cur c o s') (h : Frames fs s) (hfree : FreeEnvs s)
    (hcur : (s.envs cur).envStatus ≠ .free) (hnot : ∀ envid va, c ≠ .envSetTrapframe envid va) :
    Frames (bornFs s fs cur (.syscall c)) s' := by
  have hborn : Frames (bornFs s fs cur (.syscall c)) s := h.congr fun x hx => bornFs_of_live hfree hx
  cases hc with
  | same hsame => exact hborn.same hsame.1
  | yield => exact hborn
  | fault hd => exact hd.frames hborn
  | destroy _ hd => exact hd.frames hborn
  | trapframe => exact absurd rfl (hnot _ _)
  | @exofork e q r s1 _ head alloc envs _ =>
      have hne : cur ≠ e := by
        rintro rfl
        exact hcur (hfree.head head)
      have hfs : ∀ x, x ≠ e → bornFs s fs cur (.syscall .exofork) x = fs x := by
        intro x hx
        rw [bornFs, head]
        exact Function.update_of_ne hx ..
      have h1 : Frames (bornFs s fs cur (.syscall .exofork)) s1 :=
        hborn.update alloc fun _ _ => userFrame_initTf
      refine h1.update envs fun _ hchild => ?_
      -- The child has the context of the caller.
      have hself : bornFs s fs cur (.syscall .exofork) e = fs cur := by
        rw [bornFs, head]
        exact Function.update_self ..
      have hparent : UserFrame (s.envs cur).envTf := h cur hcur (by rw [← hself]; exact hchild)
      refine hparent.congr ?_ ?_
      all_goals
        simp only [exoforkEnv, alloc, Function.update_of_ne hne]
  | status target _ envs _ => exact hborn.keep envs (envid2env_live hcur target) rfl rfl
  | upcall target envs _ => exact hborn.keep envs (envid2env_live hcur target) rfl rfl
  | deliver target _ envs _ => exact hborn.keep envs (envid2env_live hcur target) rfl rfl
  | recv envs _ => exact hborn.keep envs hcur rfl rfl

theorem sysEnvSetTrapframe_frames {envid va : BitVec 32} (h : Frames fs s)
    (hown : ∀ s1 e, trapframeCheck s cur envid va = some (s1, .inr e) → OwnFrame s1 cur va)
    (hrun : sysEnvSetTrapframe s cur envid va = some (s', o)) : Frames fs s' := by
  obtain ⟨⟨s1, q⟩, hcheck, hrun⟩ := Option.bind_eq_some_iff.mp hrun
  have h1 : Frames fs s1 := by
    rw [trapframeCheck] at hcheck
    split at hcheck
    · cases hcheck
      exact h
    · obtain ⟨⟨s2, f⟩, hassert, hcheck⟩ := Option.bind_eq_some_iff.mp hcheck
      cases hcheck
      rcases userMemAssert_envs hassert with ⟨rfl, _⟩ | ⟨_, hd⟩
      · exact h
      · exact hd.frames h
  cases q with
  | inl o =>
      cases hrun
      exact h1
  | inr e =>
      obtain ⟨s2, hstore, hrun⟩ := Option.bind_eq_some_iff.mp hrun
      cases hrun
      obtain ⟨envTf, htf, henvs, _⟩ := trapframeStore_userFrame (hown s1 e hcheck) hstore
      exact h1.update henvs fun _ _ => htf

theorem syscall_frames (h : Frames fs s) (hfree : FreeEnvs s) (hcur : (s.envs cur).envStatus ≠ .free)
    (hown : ∀ envid va s1 e, c = .envSetTrapframe envid va →
      trapframeCheck s cur envid va = some (s1, .inr e) → OwnFrame s1 cur va)
    (hrun : syscall s cur c = some (s', o)) : Frames (bornFs s fs cur (.syscall c)) s' := by
  cases c with
  | envSetTrapframe envid va =>
      exact sysEnvSetTrapframe_frames h (fun s1 e hcheck => hown envid va s1 e rfl hcheck) hrun
  | _ => exact (syscall_envs hrun).frames h hfree hcur (by simp)

/-! ## Traps -/

theorem pageFaultHandler_frames {faultVa : BitVec 32} (h : Frames fs s)
    (hcur : (s.envs cur).envStatus ≠ .free)
    (hrun : pageFaultHandler s cur tf faultVa = some (s', next)) : Frames fs s' := by
  rw [pageFaultHandler] at hrun
  split at hrun
  · obtain ⟨⟨s1, f⟩, hassert, hrun⟩ := Option.bind_eq_some_iff.mp hrun
    rcases userMemAssert_envs hassert with ⟨rfl, rfl⟩ | ⟨_, hd⟩
    · simp only [Bool.false_eq_true, if_false, Option.bind_eq_bind, Option.bind_eq_some_iff] at hrun
      obtain ⟨d, _, s2, hstore, hrun⟩ := hrun
      cases hrun
      have hsame := (sameEnvs_storeWords hstore).1
      refine (h.same hsame).keep (e := cur) rfl (by rw [hsame]; exact hcur) rfl rfl
    · have hf : f = true := by
        cases hd with
        | mark _ other => exact absurd rfl other
        | free => simp
      subst hf
      cases hrun
      exact hd.frames h
  · obtain ⟨⟨s1, f⟩, hdes, hrun⟩ := Option.bind_eq_some_iff.mp hrun
    cases hrun
    exact (envDestroy_envs hdes).frames h

theorem trapDispatch_frames (h : Frames fs s) (hfree : FreeEnvs s)
    (hcur : (s.envs cur).envStatus ≠ .free)
    (hown : ∀ envid va s1 e, t = .syscall (.envSetTrapframe envid va) →
      trapframeCheck s cur envid va = some (s1, .inr e) → OwnFrame s1 cur va)
    (hrun : trapDispatch s cur tf t = some (s', next)) : Frames (bornFs s fs cur t) s' := by
  cases t with
  | pgflt faultVa => exact pageFaultHandler_frames h hcur hrun
  | syscall c =>
      obtain ⟨⟨s1, o⟩, hcall, hrun⟩ := Option.bind_eq_some_iff.mp hrun
      have h1 := syscall_frames h hfree hcur
        (fun envid va s1 e hc hcheck => hown envid va s1 e (by rw [hc]) hcheck) hcall
      cases o with
      | ret r =>
          cases hrun
          exact h1.keep (e := cur) rfl ((syscall_envs hcall).cur_live hcur (by simp)) rfl rfl
      | yield =>
          cases hrun
          exact h1
      | gone =>
          cases hrun
          exact h1
  | other =>
      obtain ⟨⟨s1, f⟩, hdes, hrun⟩ := Option.bind_eq_some_iff.mp hrun
      cases hrun
      exact (envDestroy_envs hdes).frames h
  | _ =>
      cases hrun
      exact h

/-- An entry from user mode, with a frame that suits the environment. -/
theorem trap_frames (h : Frames fs m.kern) (hfree : FreeEnvs m.kern)
    (hcur : (m.kern.envs cur).envStatus ≠ .free) (htf : fs cur = false → UserFrame tf)
    (hsafe : ∀ c, (m.kern.envs cur).envStatus ≠ .dying → t = .syscall c →
      ¬ Clobbers m k (saveFrame m.kern cur tf) cur c)
    (hown : ∀ envid va s1 e, (m.kern.envs cur).envStatus ≠ .dying →
      t = .syscall (.envSetTrapframe envid va) →
      trapframeCheck (saveFrame m.kern cur tf) cur envid va = some (s1, .inr e) → OwnFrame s1 cur va)
    (hrun : trap m.kern cpunum cur tf t = some (s', cpu)) :
    Frames (bornFs m.kern fs cur t) s' ∧ ∀ e, cpu = .running e → (s'.envs e).envStatus = .running := by
  rw [trap] at hrun
  by_cases hdying : (m.kern.envs cur).envStatus = .dying
  · rw [if_pos hdying] at hrun
    obtain ⟨s1, hfreed, hsched⟩ := Option.bind_eq_some_iff.mp hrun
    have hborn : Frames (bornFs m.kern fs cur t) m.kern :=
      h.congr fun x hx => bornFs_of_live hfree hx
    have h1 : Frames (bornFs m.kern fs cur t) s1 :=
      hborn.update (envFree_envs hfreed).1 fun hst => absurd rfl hst
    have hsw : Switched s1 cpunum none False s' cpu := switched_schedYield hsched
    exact ⟨hsw.frames h1 (by simp), fun e he => hsw.status he⟩
  · rw [if_neg hdying] at hrun
    obtain ⟨⟨s1, next⟩, hdispatch, hleave⟩ := Option.bind_eq_some_iff.mp hrun
    have h0 : Frames fs (saveFrame m.kern cur tf) := h.update saveFrame_envs fun _ hfs => htf hfs
    have hfree0 : FreeEnvs (saveFrame m.kern cur tf) := hfree.update saveFrame_envs rfl Iff.rfl rfl
    have hcur0 : ((saveFrame m.kern cur tf).envs cur).envStatus ≠ .free := by
      rw [saveFrame_envs, Function.update_self]
      exact hcur
    have h1 : Frames (bornFs (saveFrame m.kern cur tf) fs cur t) s1 :=
      trapDispatch_frames h0 hfree0 hcur0
        (fun envid va s1 e ht hcheck => hown envid va s1 e hdying ht hcheck) hdispatch
    have hkept := (dispatched_trapDispatch hdispatch).kept hfree0 hcur0 fun c hc => hsafe c hdying hc
    have hsw := switched_leave hleave
    exact ⟨hsw.frames h1 hkept.cur_live, fun e he => hsw.status he⟩

/-! ## Creating an environment -/

theorem sameEnvs_regionPage {d : Nat} {va : BitVec 32} (h : regionPage s d va = some s') :
    SameEnvs s s' := by
  obtain ⟨⟨s1, q⟩, halloc, h⟩ := Option.bind_eq_some_iff.mp h
  cases q with
  | none => cases h
  | some pg =>
      obtain ⟨⟨s2, r⟩, hinsert, h⟩ := Option.bind_eq_some_iff.mp h
      simp only at h
      split at h
      · cases h
      · cases h
        exact (sameEnvs_pageAlloc halloc).trans (sameEnvs_pageInsert hinsert)

theorem sameEnvs_regionAlloc {d : Nat} {va len : BitVec 32} (h : regionAlloc s d va len = some s') :
    SameEnvs s s' :=
  foldlM_inv (SameEnvs s) (fun _ _ _ hstep hs => hs.trans (sameEnvs_regionPage hstep)) h (.refl s)

theorem sameEnvs_kernCopy {d len : Nat} {va : BitVec 32} {src : Nat → BitVec 8}
    (h : kernCopy d s va src len = some s') : SameEnvs s s' :=
  foldlM_inv (SameEnvs s) (fun _ _ _ hstep hs => hs.trans (sameEnvs_storeByte hstep)) h (.refl s)

theorem sameEnvs_loadSegment {d : Nat} {img : Mem} {ph : Proghdr}
    (h : loadSegment d img s ph = some s') : SameEnvs s s' := by
  rw [loadSegment] at h
  split at h
  · obtain ⟨s1, h1, h⟩ := Option.bind_eq_some_iff.mp h
    obtain ⟨s2, h2, h3⟩ := Option.bind_eq_some_iff.mp h
    exact ((sameEnvs_regionAlloc h1).trans (sameEnvs_kernCopy h2)).trans (sameEnvs_kernCopy h3)
  · cases h
    exact .refl s

/-- `load_icode` sets the entry point. -/
theorem loadIcode_envs {img : Mem} (h : loadIcode s e img = some s') :
    s'.envs = Function.update s.envs e { s.envs e with
      envTf := { (s.envs e).envTf with tfEip := eEntry img } } ∧ s'.envFreeList = s.envFreeList := by
  rw [loadIcode] at h
  split at h
  · cases h
  obtain ⟨d, _, h⟩ := Option.bind_eq_some_iff.mp h
  obtain ⟨s1, hloop, hstack⟩ := Option.bind_eq_some_iff.mp h
  have h1 : SameEnvs s s1 :=
    foldlM_inv (SameEnvs s) (fun _ _ _ hstep hs => hs.trans (sameEnvs_loadSegment hstep)) hloop
      (.refl s)
  have h2 := sameEnvs_regionAlloc hstack
  refine ⟨?_, h2.2.trans h1.2⟩
  rw [h2.1]
  simp only [Kernel.setEnv, h1.1]

theorem setEnv_envs (f : Env → Env) (h : s1.envs = Function.update s.envs e env) :
    (s1.setEnv e f).envs = Function.update s.envs e (f env) := by
  simp only [Kernel.setEnv, h, Function.update_self, Function.update_idem]

/-- The new environment has a context of ring 3, and I/O privileges if it is the file server. -/
theorem envCreate_envs {binary : Mem} {type : EnvType} (h : envCreate s binary type = some s') :
    ∃ e env, s.envFreeList = some e ∧ s'.envs = Function.update s.envs e env ∧
      s'.envFreeList = (s.envs e).envLink ∧ env.envLink = (s.envs e).envLink ∧
      env.envStatus = .runnable ∧ (type ≠ .fs → UserFrame env.envTf) := by
  obtain ⟨⟨s1, q⟩, halloc, h⟩ := Option.bind_eq_some_iff.mp h
  rcases envAlloc_envs halloc with ⟨_, n, _, rfl⟩ | ⟨e, p, rfl, hhead, henvs, hfree⟩
  · cases h
  obtain ⟨s2, hload, h⟩ := Option.bind_eq_some_iff.mp h
  obtain ⟨h2, hfree2⟩ := loadIcode_envs hload
  rw [henvs, Function.update_self, Function.update_idem] at h2
  have h3 := setEnv_envs (fun env => { env with envType := type, envParentId := 0#32 }) h2
  by_cases hty : type = .fs
  · simp only [if_pos hty] at h
    cases h
    exact ⟨e, _, hhead, setEnv_envs _ h3, hfree2.trans hfree, rfl, rfl, fun hne => absurd hty hne⟩
  · simp only [if_neg hty] at h
    cases h
    exact ⟨e, _, hhead, h3, hfree2.trans hfree, rfl, rfl, fun _ => userFrame_initTf.congr rfl rfl⟩

/-! ## Runs -/

structure PrivInv (p : Priv n) : Prop where
  excl : ExclInv p.smp
  unpriv : Unprivileged p

theorem popTf_self {r : Kernel × Cpu} (hcpu : r.2 = .running x) :
    p.popTf k r k = (r.1.envs x).envTf := by
  rw [Priv.popTf, hcpu]
  exact Function.update_self ..

theorem popTf_of_ne {r : Kernel × Cpu} {k' : Fin n} (hk : k' ≠ k) : p.popTf k r k' = p.loaded k' := by
  unfold Priv.popTf
  cases r.2.cpuEnv with
  | none => rfl
  | some e => exact Function.update_of_ne hk ..

/-- The frame that a CPU loads on its way out of the kernel. -/
theorem PrivInv.after {r : Kernel × Cpu} (h : PrivInv p) (hexcl : ExclInv (p.smp.after k r))
    (hframes : Frames fs' r.1) (hrun : ∀ e, r.2 = .running e → (r.1.envs e).envStatus = .running)
    (hfs : ∀ x, (p.smp.kern.envs x).envStatus ≠ .free → fs' x = p.fs x) :
    PrivInv ⟨p.smp.after k r, p.popTf k r, fs'⟩ := by
  refine ⟨hexcl, hframes, fun k' x hk' hx => ?_⟩
  dsimp only at hk' hx ⊢
  by_cases hkk : k' = k
  · subst hkk
    have hcpu : r.2 = .running x := by
      simpa [Smp.after] using hk'
    rw [popTf_self hcpu]
    exact hframes x (by rw [hrun x hcpu]; decide) hx
  · have hcpu : p.smp.cpus k' = .running x := by
      simpa [Smp.after, hkk] using hk'
    have hlive := Busy.ne_free (s := p.smp.kern) (h.excl.excl.status k' x hcpu)
    rw [popTf_of_ne hkk]
    exact h.unpriv.running k' x hcpu (by rw [← hfs x hlive]; exact hx)

theorem PrivInv.step {ev : SmpEvent n} (h : PrivInv p) (hstep : PrivStep p ev p')
    (hok : Orderly p.smp ev) : PrivInv p' := by
  obtain ⟨hcareful, hown⟩ := hok
  cases hstep with
  | @trap k cur tf faultVa console r cpu user kept run =>
      obtain ⟨s', c⟩ := r
      have hbusy : Busy p.smp.kern cur := h.excl.excl.status k cur cpu
      have hexcl := h.excl.step (.trap cpu run) hcareful
      obtain ⟨hframes, hrun⟩ := trap_frames h.unpriv.saved h.excl.free hbusy.ne_free
        (fun hfs => (h.unpriv.running k cur cpu hfs).kept kept)
        (fun c halive hc => hcareful cur c cpu halive hc)
        (fun envid va s1 e halive ht hcheck => hown cur envid va s1 e cpu halive ht hcheck) run
      exact h.after hexcl hframes hrun fun x hx => bornFs_of_live h.excl.free hx
  | @wake k t r cpu run =>
      obtain ⟨s', c⟩ := r
      have hsw := switched_trapHalted run
      have hexcl := h.excl.step (.wake cpu run) hcareful
      exact h.after hexcl (hsw.frames h.unpriv.saved (by simp)) (fun e he => hsw.status he)
        fun _ _ => rfl
  | store c cpu dir grants =>
      exact ⟨h.excl.step (.store c cpu dir grants) trivial, h.unpriv.saved, h.unpriv.running⟩
  | @create s binary type idle run =>
      obtain ⟨e, env, hhead, henvs, hfree, hlink, hst, htf⟩ := envCreate_envs run
      refine ⟨ExclInv.idle (h.excl.free.take _ hhead henvs hlink (by simp [hst]) hfree) idle,
        ?_, fun k x hk => ?_⟩
      · have hfs : ∀ x, (p.smp.kern.envs x).envStatus ≠ .free →
            createdFs p.smp.kern p.fs type x = p.fs x := by
          intro x hx
          rw [createdFs, hhead]
          refine Function.update_of_ne ?_ ..
          rintro rfl
          exact hx (h.excl.free.head hhead)
        have h0 : Frames (createdFs p.smp.kern p.fs type) p.smp.kern :=
          Frames.congr h.unpriv.saved hfs
        refine h0.update henvs fun _ hnew => htf fun hty => ?_
        rw [createdFs, hhead] at hnew
        simp [hty] at hnew
      · have hhalted := idle k
        rw [show p.smp.cpus k = .running x from hk] at hhalted
        cases hhalted

theorem SmpBooted.privInv (h : SmpBooted R p.smp) : PrivInv p := by
  refine ⟨h.exclInv, fun e he => absurd (h.kern.envs e).1 he, fun k e hk => ?_⟩
  rw [h.cpus k] at hk
  cases hk

/-- In every run in which no system call overwrites the status of an environment that another CPU
runs, and every `struct Trapframe` that is set is in memory of the caller, no environment but file
servers and their descendants has privileges. -/
theorem saved_frames_unprivileged {n : Nat} {R : Nat → Prop} {p : Priv n}
    (h : PrivRun R Orderly p) : Unprivileged p := by
  have hinv : PrivInv p := by
    induction h with
    | boot h => exact h.privInv
    | step _ hstep hok ih => exact ih.step hstep hok
  exact hinv.unpriv

end

/-! ## Executing a run -/

instance (old new : Trapframe) : Decidable (RingKept old new) :=
  inferInstanceAs (Decidable (_ → _ → _ ∧ _))

/-- A step as a command. -/
inductive PrivCmd (n : Nat)
  | create (type : EnvType)
  | trap (k : Fin n) (tf : Trapframe)
  | wake (k : Fin n)

def PrivCmd.smp : PrivCmd n → SmpCmd n
  | .create _ => .create
  | .trap k tf => .trap k tf
  | .wake k => .wake k

/-- A program without segments. -/
def emptyElf : Mem := Mem.write32 (fun _ => 0#8) 0 elfMagic

def privExec (p : Priv n) : PrivCmd n → Option (Priv n)
  | .create type =>
      if ∀ k, p.smp.cpus k = .halted then
        (envCreate p.smp.kern emptyElf type).map fun s =>
          { p with smp := { p.smp with kern := s }, fs := createdFs p.smp.kern p.fs type }
      else none
  | .trap k tf =>
      match p.smp.cpus k with
      | ⟨some cur, true⟩ =>
          if tf.tfCs &&& 3#16 = 3#16 ∧ RingKept (p.loaded k) tf then
            (trap p.smp.kern k cur tf (.ofFrame tf 0#32 0)).map fun r =>
              ⟨p.smp.after k r, p.popTf k r, bornFs p.smp.kern p.fs cur (.ofFrame tf 0#32 0)⟩
          else none
      | _ => none
  | .wake k =>
      if p.smp.cpus k = .halted then
        (trapHalted p.smp.kern k .timer).map fun r => ⟨p.smp.after k r, p.popTf k r, p.fs⟩
      else none

theorem privStep_of_exec {p p' : Priv n} {c : PrivCmd n} (h : privExec p c = some p') :
    PrivStep p c.smp.event p' := by
  cases c with
  | create type =>
      simp only [privExec] at h
      split at h
      · rename_i hidle
        obtain ⟨s, hs, rfl⟩ := Option.map_eq_some_iff.mp h
        exact .create hidle hs
      · cases h
  | trap k tf =>
      simp only [privExec] at h
      split at h
      · rename_i cur hcpu
        split at h
        · rename_i hframe
          obtain ⟨r, hr, rfl⟩ := Option.map_eq_some_iff.mp h
          exact .trap hcpu hframe.1 hframe.2 hr
        · cases h
      · cases h
  | wake k =>
      simp only [privExec] at h
      split at h
      · rename_i hcpu
        obtain ⟨r, hr, rfl⟩ := Option.map_eq_some_iff.mp h
        exact .wake hcpu hr
      · cases h

theorem PrivRun.execAll {R : Nat → Prop} {ok : Smp n → SmpEvent n → Prop} {l : List (PrivCmd n)}
    {p p' : Priv n} (test : Smp n → SmpCmd n → Bool) (htest : ∀ m c, test m c → ok m c.event)
    (h : PrivRun R ok p)
    (hrun : l.foldlM (fun p c => if test p.smp c.smp then privExec p c else none) p = some p') :
    PrivRun R ok p' := by
  induction l generalizing p with
  | nil =>
      cases hrun
      exact h
  | cons c l ih =>
      simp only [List.foldlM_cons, Option.bind_eq_bind, Option.bind_eq_some_iff] at hrun
      obtain ⟨p1, hp1, hrest⟩ := hrun
      split at hp1
      · rename_i hc
        exact ih (.step h (privStep_of_exec hp1) (htest _ _ hc)) hrest
      · cases hp1

def smallPriv : Priv 2 := ⟨smallSmp, fun _ => Trapframe.zero, fun _ => false⟩

/-- The state of the small machine after commands that pass a test. -/
def smallPrivAfter (test : Smp 2 → SmpCmd 2 → Bool) (l : List (PrivCmd 2)) : Priv 2 :=
  (l.foldlM (fun p c => if test p.smp c.smp then privExec p c else none) smallPriv).getD smallPriv

theorem smallPrivAfter_run {ok : Smp 2 → SmpEvent 2 → Prop} {test : Smp 2 → SmpCmd 2 → Bool}
    {l : List (PrivCmd 2)} (htest : ∀ m c, test m c → ok m c.event)
    (h : (l.foldlM (fun p c => if test p.smp c.smp then privExec p c else none) smallPriv).isSome) :
    PrivRun smallReserved ok (smallPrivAfter test l) := by
  obtain ⟨p, hp⟩ := Option.isSome_iff_exists.mp h
  rw [smallPrivAfter, hp]
  exact PrivRun.execAll test htest (.boot smallSmp_booted) hp

/-- A system call of code with I/O privileges. -/
def fsFrame (no a1 a2 : BitVec 32) : Trapframe :=
  { callFrame no a1 a2 0 0 0 with tfEflags := flIf ||| flIopl3 }

/-- The file server and another environment; the file server makes a child. -/
def serverForks : List (PrivCmd 2) :=
  [.create .fs, .create .user, .wake cpu0, .trap cpu0 (fsFrame 7 0 0)]

/-- No other CPU runs, and the call is not `sys_env_set_trapframe`. -/
def orderlyTest (m : Smp n) : SmpCmd n → Bool
  | .trap k tf => lone m (.trap k tf) && match Trap.ofFrame tf 0#32 0 with
    | .syscall (.envSetTrapframe _ _) => false
    | _ => true
  | _ => true

theorem orderly_of_test {m : Smp n} {c : SmpCmd n} (h : orderlyTest m c) : Orderly m c.event := by
  cases c with
  | trap k tf =>
      rw [orderlyTest, Bool.and_eq_true] at h
      refine ⟨careful_of_lone h.1, fun cur envid va s1 e _ _ ht => ?_⟩
      rw [ht] at h
      cases h.2
  | create => exact ⟨trivial, trivial⟩
  | wake k => exact ⟨trivial, trivial⟩

/-- The file server and its child have I/O privileges, and the other environment has none. -/
theorem server_child_privileged : Unprivileged (smallPrivAfter orderlyTest serverForks) ∧
    ((smallPrivAfter orderlyTest serverForks).smp.kern.envs ⟨2, by decide⟩).envTf.tfEflags =
      flIf ||| flIopl3 ∧
    (smallPrivAfter orderlyTest serverForks).fs ⟨2, by decide⟩ = true ∧
    (smallPrivAfter orderlyTest serverForks).fs env1 = false :=
  ⟨saved_frames_unprivileged (smallPrivAfter_run (fun _ _ => orderly_of_test) (by decide +kernel)),
    by decide +kernel, by decide +kernel, by decide +kernel⟩

/-- CPU 1 runs the child of the file server. The file server takes the child off the list of
runnable environments and destroys it, and the other environment gets the slot for a child. -/
def reusedSlot : List (PrivCmd 2) := serverForks ++
  [.trap cpu0 (fsFrame 8 0x1002 2), .wake cpu1, .trap cpu1 (callFrame 11 0 0 0 0 0),
    .trap cpu0 (fsFrame 8 0x1002 4), .trap cpu0 (fsFrame 3 0x1002 0), .trap cpu0 (fsFrame 11 0 0),
    .trap cpu0 (callFrame 7 0 0 0 0 0),
    .trap cpu1 { initTf with tfTrapno := 32#32, tfEflags := flIf ||| flIopl3 }]

/-- At its next trap CPU 1 saves its context with IOPL 3 in the slot of the new child. -/
theorem child_gets_privileges : ∃ p : Priv 2, PrivRun smallReserved (fun _ _ => True) p ∧
    ¬ Unprivileged p := by
  have hrun : (reusedSlot.foldlM (fun p c => if true then privExec p c else none) smallPriv).map
      (fun p => ((p.smp.kern.envs ⟨2, by decide⟩).envStatus, p.fs ⟨2, by decide⟩,
        (p.smp.kern.envs ⟨2, by decide⟩).envTf.tfEflags)) =
      some (.notRunnable, false, flIf ||| flIopl3) := by
    unfold privExec trap trapDispatch syscall sysEnvDestroy envDestroy
    rw [envFree_eq_byte]
    decide +kernel
  obtain ⟨p, hp, heq⟩ := Option.map_eq_some_iff.mp hrun
  simp only [Prod.mk.injEq] at heq
  obtain ⟨hst, hfs, hflags⟩ := heq
  refine ⟨p, .execAll (fun _ _ => true) (fun _ _ _ => trivial) (.boot smallSmp_booted) hp,
    fun h => ?_⟩
  have hiopl := (h.saved ⟨2, by decide⟩ (by rw [hst]; decide) hfs).iopl
  rw [hflags] at hiopl
  exact absurd hiopl (by decide)

end Jos.Kern
