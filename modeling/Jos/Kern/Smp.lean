import Jos.Kern.EnvChange
import Jos.Kern.Machine
import Jos.Kern.Trap

/-!
# The machine with its CPUs

A state has the kernel state and, for each CPU, what it does outside the kernel. A step is
one entry of a CPU into the kernel, from user mode or from the halted state, a byte stored by
user code, or a part of `env_create` while no CPU has an environment. `SmpRun ok m` says that
`m` is reached from boot by steps that satisfy `ok`, a condition on the event and on the state
before it.
-/

namespace Jos.Kern

open Jos.Lib Kernel

structure Smp (n : Nat) where
  kern : Kernel
  cpus : Fin n → Cpu

inductive SmpEvent (n : Nat)
  /-- CPU `k` traps from user mode. -/
  | trap (k : Fin n) (tf : Trapframe) (faultVa : BitVec 32) (console : Int)
  /-- CPU `k` is woken up, or starts. -/
  | wake (k : Fin n) (t : Trap)
  | internal

/-- The state after an entry of CPU `k`. -/
def Smp.after {n : Nat} (m : Smp n) (k : Fin n) (r : Kernel × Cpu) : Smp n :=
  ⟨r.1, Function.update m.cpus k r.2⟩

inductive SmpStep {n : Nat} : Smp n → SmpEvent n → Smp n → Prop
  | trap {m : Smp n} {k : Fin n} {cur : EnvIx} {tf : Trapframe} {faultVa : BitVec 32}
      {console : Int} {r : Kernel × Cpu} (cpu : m.cpus k = .running cur)
      (run : trap m.kern k cur tf (.ofFrame tf faultVa console) = some r) :
      SmpStep m (.trap k tf faultVa console) (m.after k r)
  | wake {m : Smp n} {k : Fin n} {t : Trap} {r : Kernel × Cpu} (cpu : m.cpus k = .halted)
      (run : trapHalted m.kern k t = some r) : SmpStep m (.wake k t) (m.after k r)
  | store {m : Smp n} {k : Fin n} {cur : EnvIx} {d : Nat} {va : BitVec 32} (c : BitVec 8)
      (cpu : m.cpus k = .running cur) (dir : (m.kern.envs cur).envPgdir = some d)
      (grants : x86Grants m.kern d va userWrite) :
      SmpStep m .internal
        { m with kern := { m.kern with mem := Function.update m.kern.mem (physAddr m.kern d va) c } }
  /-- `env_alloc` in `env_create`. -/
  | create {m : Smp n} {s : Kernel} {r : Except Int EnvIx} (idle : ∀ k, m.cpus k = .halted)
      (run : envAlloc m.kern 0#32 = some (s, r)) : SmpStep m .internal { m with kern := s }
  /-- One round of `region_alloc`. -/
  | region {m : Smp n} {s1 s : Kernel} {e : EnvIx} {d pg : Nat} {va : BitVec 32}
      (idle : ∀ k, m.cpus k = .halted) (dir : (m.kern.envs e).envPgdir = some d) (low : va < utop)
      (alloc : pageAlloc m.kern false = some (s1, some pg))
      (insert : pageInsert s1 d pg va (pteW ||| pteU) = some (s, 0)) :
      SmpStep m .internal { m with kern := s }
  /-- A byte of the program, written by `load_icode`. -/
  | load {m : Smp n} {e : EnvIx} {d : Nat} {va : BitVec 32} (c : BitVec 8)
      (idle : ∀ k, m.cpus k = .halted) (dir : (m.kern.envs e).envPgdir = some d)
      (grants : x86Grants m.kern d va userWrite) :
      SmpStep m .internal
        { m with kern := { m.kern with mem := Function.update m.kern.mem (physAddr m.kern d va) c } }
  /-- The entry point, the I/O privilege and the type of a new environment. -/
  | setup {m : Smp n} {e : EnvIx} (idle : ∀ k, m.cpus k = .halted) (tf : Trapframe) (ty : EnvType) :
      SmpStep m .internal
        { m with kern := m.kern.setEnv e fun env => { env with envTf := tf, envType := ty } }

/-- The state in which `i386_init` creates the first environments. -/
structure SmpBooted {n : Nat} (R : Nat → Prop) (m : Smp n) : Prop where
  kern : Booted R m.kern
  cpus : ∀ k, m.cpus k = .halted

/-- States reached by steps that satisfy `ok`. -/
inductive SmpRun {n : Nat} (R : Nat → Prop) (ok : Smp n → SmpEvent n → Prop) : Smp n → Prop
  | boot {m : Smp n} (h : SmpBooted R m) : SmpRun R ok m
  | step {m m' : Smp n} {ev : SmpEvent n} (h : SmpRun R ok m) (hstep : SmpStep m ev m')
      (hok : ok m ev) : SmpRun R ok m'

/-- A weaker condition on the events. -/
theorem SmpRun.mono {n : Nat} {R : Nat → Prop} {ok ok' : Smp n → SmpEvent n → Prop} {m : Smp n}
    (h : SmpRun R ok m) (hle : ∀ m ev, ok m ev → ok' m ev) : SmpRun R ok' m := by
  induction h with
  | boot h => exact .boot h
  | step _ hstep hok ih => exact .step ih hstep (hle _ _ hok)

/-! ## The environments at each part of an entry -/

/-- After a dispatch that has freed the current environment, there is none. -/
def Next.curenv (cur : EnvIx) : Next → Option EnvIx
  | .gone => none
  | _ => some cur

/-- How `sched_yield` and `env_run` leave the kernel. `forced` says that `env_run` is called
without a look at the status. -/
inductive Switched (s : Kernel) (cpunum : Nat) (curenv : Option EnvIx) (forced : Prop) :
    Kernel → Cpu → Prop
  | run {e : EnvIx} {s' : Kernel}
      (ready : (s.envs e).envStatus = .runnable ∨
        curenv = some e ∧ (forced ∨ (s.envs e).envStatus = .running))
      (envs : s'.envs = switchEnv s.envs cpunum curenv e)
      (free : s'.envFreeList = s.envFreeList) : Switched s cpunum curenv forced s' (.running e)
  | halt : Switched s cpunum curenv forced s .halted

section

variable {s s' : Kernel} {cpunum : Nat} {curenv : Option EnvIx} {cur e : EnvIx} {cpu : Cpu}
  {forced : Prop}

theorem switched_envRun (hready : (s.envs e).envStatus = .runnable ∨
      curenv = some e ∧ (forced ∨ (s.envs e).envStatus = .running))
    (h : envRun s cpunum curenv e = some (s', cpu)) : Switched s cpunum curenv forced s' cpu := by
  simp only [envRun, Option.bind_eq_bind, Option.bind_eq_some_iff] at h
  obtain ⟨_, _, h⟩ := h
  cases h
  exact .run hready rfl rfl

theorem switched_schedHalt (h : schedHalt s = some (s', cpu)) :
    Switched s cpunum curenv forced s' cpu := by
  rw [schedHalt] at h
  split at h
  · cases h
    exact .halt
  · cases h

theorem schedPick_runnable {start : Nat} (h : schedPick s start = some e) :
    (s.envs e).envStatus = .runnable := by
  have hrun := List.find?_some h
  simpa using hrun

theorem switched_schedYield (h : schedYield s cpunum curenv = some (s', cpu)) :
    Switched s cpunum curenv forced s' cpu := by
  unfold schedYield at h
  cases hpick : schedPick s (schedStart s curenv) with
  | some e =>
      rw [hpick] at h
      exact switched_envRun (Or.inl (schedPick_runnable hpick)) h
  | none =>
      rw [hpick] at h
      cases curenv with
      | none => exact switched_schedHalt h
      | some cur =>
          simp only at h
          split at h
          · rename_i hrun
            exact switched_envRun (Or.inr ⟨rfl, Or.inr hrun⟩) h
          · exact switched_schedHalt h

theorem switched_leave {next : Next} (h : leave s cpunum cur next = some (s', cpu)) :
    Switched s cpunum (next.curenv cur) (next = .run) s' cpu := by
  cases next with
  | back =>
      rw [leave] at h
      split at h
      · rename_i hrun
        exact switched_envRun (Or.inr ⟨rfl, Or.inr hrun⟩) h
      · exact switched_schedYield h
  | run => exact switched_envRun (Or.inr ⟨rfl, Or.inl rfl⟩) h
  | yield => exact switched_schedYield h
  | gone => exact switched_schedYield h

theorem sameEnvs_storeWords {d : Nat} {va : BitVec 32} {ws : List (BitVec 32)}
    (h : storeWords s d va ws = some s') : SameEnvs s s' := by
  induction ws generalizing s va with
  | nil =>
      cases h
      exact SameEnvs.refl _
  | cons w ws ih =>
      simp only [storeWords, Option.bind_eq_bind, Option.bind_eq_some_iff] at h
      obtain ⟨s1, h1, h2⟩ := h
      exact (sameEnvs_store32 h1).trans (ih h2)

end

/-- How `trap_dispatch` changes the environments: a system call, a new saved context of the
current environment, or its end. -/
inductive Dispatched (s : Kernel) (cur : EnvIx) : Trap → Next → Kernel → Prop
  | context {t : Trap} {next : Next} {s' : Kernel} (hnext : next ≠ .gone) (tf : Trapframe)
      (nocall : ∀ c, t ≠ .syscall c)
      (envs : s'.envs = Function.update s.envs cur { s.envs cur with envTf := tf })
      (free : s'.envFreeList = s.envFreeList) : Dispatched s cur t next s'
  | fault {t : Trap} {s' : Kernel} (nocall : ∀ c, t ≠ .syscall c)
      (h : Destroyed s cur cur s' true) : Dispatched s cur t .gone s'
  | ret {c : Call} {r : Int} {s1 s' : Kernel} (tf : Trapframe)
      (run : syscall s cur c = some (s1, .ret r))
      (envs : s'.envs = Function.update s1.envs cur { s1.envs cur with envTf := tf })
      (free : s'.envFreeList = s1.envFreeList) : Dispatched s cur (.syscall c) .back s'
  | yield {c : Call} {s' : Kernel} (run : syscall s cur c = some (s', .yield)) :
      Dispatched s cur (.syscall c) .yield s'
  | gone {c : Call} {s' : Kernel} (run : syscall s cur c = some (s', .gone)) :
      Dispatched s cur (.syscall c) .gone s'

section

variable {s s' : Kernel} {cpunum : Nat} {cur e : EnvIx} {cpu : Cpu} {next : Next}
  {tf : Trapframe} {t : Trap}

theorem Destroyed.self {f : Bool} (h : Destroyed s cur cur s' f) : Destroyed s cur cur s' true := by
  cases h with
  | mark _ other => exact absurd rfl other
  | free now envs free => simpa using Destroyed.free now envs free

theorem dispatched_pageFaultHandler {faultVa : BitVec 32}
    (h : pageFaultHandler s cur tf faultVa = some (s', next)) :
    Dispatched s cur (.pgflt faultVa) next s' := by
  simp only [pageFaultHandler] at h
  split at h
  · simp only [Option.bind_eq_bind, Option.bind_eq_some_iff] at h
    obtain ⟨⟨s1, f⟩, h1, h⟩ := h
    rcases userMemAssert_envs h1 with ⟨rfl, rfl⟩ | ⟨_, hdes⟩
    · simp only [Bool.false_eq_true, if_false, Option.bind_eq_some_iff] at h
      obtain ⟨d, _, s2, h2, h⟩ := h
      cases h
      have hsame := sameEnvs_storeWords h2
      refine .context (by simp) { (s2.envs cur).envTf with
        tfEip := (s2.envs cur).envPgfaultUpcall, tfEsp := utrapframeVa tf } (by simp) ?_ hsame.2
      simp only [Kernel.setEnv, hsame.1]
    · have hf : f = true := by
        cases hdes with
        | mark _ other => exact absurd rfl other
        | free => simp
      subst hf
      simp only [if_true] at h
      cases h
      exact .fault (by simp) hdes
  · simp only [Option.bind_eq_bind, Option.bind_eq_some_iff] at h
    obtain ⟨⟨s1, f⟩, h1, h⟩ := h
    cases h
    exact .fault (by simp) (envDestroy_envs h1).self

theorem dispatched_trapDispatch (h : trapDispatch s cur tf t = some (s', next)) :
    Dispatched s cur t next s' := by
  have hsame : (s.envs) = Function.update s.envs cur
      { s.envs cur with envTf := (s.envs cur).envTf } := by simp
  cases t with
  | pgflt faultVa => exact dispatched_pageFaultHandler h
  | syscall c =>
      simp only [trapDispatch, Option.bind_eq_bind, Option.bind_eq_some_iff] at h
      obtain ⟨⟨s1, o⟩, h1, h⟩ := h
      cases o with
      | ret r =>
          cases h
          exact .ret _ h1 rfl rfl
      | yield =>
          cases h
          exact .yield h1
      | gone =>
          cases h
          exact .gone h1
  | other =>
      simp only [trapDispatch, Option.bind_eq_bind, Option.bind_eq_some_iff] at h
      obtain ⟨⟨s1, f⟩, h1, h⟩ := h
      cases h
      exact .fault (by simp) (envDestroy_envs h1).self
  | _ =>
      cases h
      exact .context (by simp) _ (by simp) hsame rfl

/-- An entry from user mode: a zombie is collected, or the trap is dispatched with the frame
saved; then the scheduler chooses. -/
inductive Entered (s : Kernel) (cpunum : Nat) (cur : EnvIx) (tf : Trapframe) (t : Trap) :
    Kernel → Cpu → Prop
  | zombie {s1 s' : Kernel} {cpu : Cpu} (dying : (s.envs cur).envStatus = .dying)
      (envs : s1.envs = Function.update s.envs cur (freedEnv s.envFreeList (s.envs cur)))
      (free : s1.envFreeList = some cur) (hswitch : Switched s1 cpunum none False s' cpu) :
      Entered s cpunum cur tf t s' cpu
  | dispatch {s1 s' : Kernel} {cpu : Cpu} {next : Next} (alive : (s.envs cur).envStatus ≠ .dying)
      (hdispatch : Dispatched (saveFrame s cur tf) cur t next s1)
      (hswitch : Switched s1 cpunum (next.curenv cur) (next = .run) s' cpu) : Entered s cpunum cur tf t s' cpu

theorem entered_trap (h : trap s cpunum cur tf t = some (s', cpu)) :
    Entered s cpunum cur tf t s' cpu := by
  rw [trap] at h
  split at h
  · rename_i hdying
    simp only [Option.bind_eq_bind, Option.bind_eq_some_iff] at h
    obtain ⟨s1, h1, h2⟩ := h
    obtain ⟨he, hf⟩ := envFree_envs h1
    exact .zombie hdying he hf (switched_schedYield h2)
  · rename_i halive
    simp only [Option.bind_eq_bind, Option.bind_eq_some_iff] at h
    obtain ⟨⟨s1, next⟩, h1, h2⟩ := h
    exact .dispatch halive (dispatched_trapDispatch h1) (switched_leave h2)

theorem switched_trapHalted (h : trapHalted s cpunum t = some (s', cpu)) :
    Switched s cpunum none False s' cpu := by
  cases t with
  | spurious => exact switched_schedYield h
  | timer => exact switched_schedYield h
  | kbd => exact switched_schedYield h
  | serial => exact switched_schedYield h
  | _ => cases h

end

/-! ## The list of free environments -/

/-- The free list holds exactly the free slots. -/
def FreeEnvs (s : Kernel) : Prop :=
  ∃ l, Linked (fun e => (s.envs e).envLink) s.envFreeList l ∧ l.Nodup ∧
    ∀ e, e ∈ l ↔ (s.envs e).envStatus = .free

section

variable {s s' : Kernel} {cur e : EnvIx} {env : Env}

theorem links_update (henvs : s'.envs = Function.update s.envs e env) :
    (fun x => (s'.envs x).envLink) =
      Function.update (fun x => (s.envs x).envLink) e env.envLink := by
  funext x
  rw [henvs]
  by_cases hx : x = e
  · subst hx
    simp
  · simp [hx]

/-- The status of the other slots stays the same. -/
theorem status_update (henvs : s'.envs = Function.update s.envs e env) {x : EnvIx} (hx : x ≠ e) :
    s'.envs x = s.envs x := by
  rw [henvs, Function.update_of_ne hx]

theorem FreeEnvs.congr (h : FreeEnvs s) (hlink : ∀ x, (s'.envs x).envLink = (s.envs x).envLink)
    (hst : ∀ x, (s'.envs x).envStatus = .free ↔ (s.envs x).envStatus = .free)
    (hfree : s'.envFreeList = s.envFreeList) : FreeEnvs s' := by
  obtain ⟨l, hl, hnd, hmem⟩ := h
  refine ⟨l, ?_, hnd, fun x => (hmem x).trans (hst x).symm⟩
  simp only [hlink, hfree]
  exact hl

theorem FreeEnvs.same (h : FreeEnvs s) (hsame : SameEnvs s s') : FreeEnvs s' :=
  h.congr (fun _ => by rw [hsame.1]) (fun _ => by rw [hsame.1]) hsame.2

theorem FreeEnvs.update (h : FreeEnvs s) (henvs : s'.envs = Function.update s.envs e env)
    (hlink : env.envLink = (s.envs e).envLink)
    (hst : env.envStatus = .free ↔ (s.envs e).envStatus = .free)
    (hfree : s'.envFreeList = s.envFreeList) : FreeEnvs s' := by
  refine h.congr (fun x => ?_) (fun x => ?_) hfree
  all_goals
    rw [henvs]
    by_cases hx : x = e
    · subst hx
      simp [hlink, hst]
    · simp [hx]

theorem FreeEnvs.head (h : FreeEnvs s) (hhead : s.envFreeList = some e) :
    (s.envs e).envStatus = .free := by
  obtain ⟨l, hl, _, hmem⟩ := h
  rw [hhead] at hl
  exact (hmem e).mp hl.head_mem

/-- Taking the first slot off the list. -/
theorem FreeEnvs.take (h : FreeEnvs s) (env : Env) (hhead : s.envFreeList = some e)
    (henvs : s'.envs = Function.update s.envs e env) (hlink : env.envLink = (s.envs e).envLink)
    (hst : env.envStatus ≠ .free) (hfree : s'.envFreeList = (s.envs e).envLink) : FreeEnvs s' := by
  obtain ⟨l, hl, hnd, hmem⟩ := h
  rw [hhead] at hl
  obtain ⟨l', rfl, hl'⟩ := hl.exists_cons
  have hnot := (List.nodup_cons.mp hnd).1
  refine ⟨l', ?_, (List.nodup_cons.mp hnd).2, fun x => ?_⟩
  · rw [links_update henvs, hlink, hfree]
    exact hl'.update_of_notMem hnot
  · by_cases hx : x = e
    · subst hx
      rw [henvs, Function.update_self]
      exact ⟨fun hmem' => absurd hmem' hnot, fun hfree' => absurd hfree' hst⟩
    · rw [status_update henvs hx, ← hmem, List.mem_cons]
      exact ⟨Or.inr, fun h => h.resolve_left hx⟩

/-- Putting a slot in front of the list. -/
theorem FreeEnvs.put (h : FreeEnvs s) (hlive : (s.envs e).envStatus ≠ .free)
    (henvs : s'.envs = Function.update s.envs e (freedEnv s.envFreeList (s.envs e)))
    (hfree : s'.envFreeList = some e) : FreeEnvs s' := by
  obtain ⟨l, hl, hnd, hmem⟩ := h
  have hnot : e ∉ l := fun hmem' => hlive ((hmem e).mp hmem')
  refine ⟨e :: l, ?_, List.nodup_cons.mpr ⟨hnot, hnd⟩, fun x => ?_⟩
  · rw [links_update henvs, hfree]
    exact hl.push hnot
  · by_cases hx : x = e
    · subst hx
      rw [henvs, Function.update_self]
      simp [freedEnv]
    · rw [status_update henvs hx, ← hmem, List.mem_cons]
      exact ⟨fun h => h.resolve_left hx, Or.inr⟩

theorem FreeEnvs.destroyed {f : Bool} (h : FreeEnvs s) (hlive : (s.envs e).envStatus ≠ .free)
    (hdes : Destroyed s cur e s' f) : FreeEnvs s' := by
  cases hdes with
  | mark running _ envs free => exact h.update envs rfl (by simp [running]) free
  | free _ envs free => exact h.put hlive envs free

theorem FreeEnvs.envChange {c : Call} {o : Outcome} (h : FreeEnvs s)
    (hcur : (s.envs cur).envStatus ≠ .free) (hc : EnvChange s cur c o s') : FreeEnvs s' := by
  cases hc with
  | same hsame => exact h.same hsame
  | yield => exact h
  | fault hdes => exact h.destroyed hcur hdes
  | destroy target hdes => exact h.destroyed (envid2env_live hcur target) hdes
  | @trapframe _ _ _ s1 _ _ target hs envs free =>
      have h1 : FreeEnvs s1 := by
        rcases hs with hsame | ⟨_, hdes⟩
        · exact h.same hsame
        · exact h.destroyed (envid2env_live hcur target) hdes
      exact h1.update envs rfl Iff.rfl free
  | @exofork e p _ s1 _ head alloc envs free =>
      refine h.take (exoforkEnv (s1.envs cur) (newEnv e p (s.envs cur).envId (s.envs e))) head
        ?_ rfl (by simp [exoforkEnv]) free
      rw [envs, alloc, Function.update_idem, Function.update_self]
  | status target hst envs free =>
      have hlive := envid2env_live hcur target
      exact h.update envs rfl (by simp [statusOf_ne_free hst, hlive]) free
  | upcall target envs free => exact h.update envs rfl Iff.rfl free
  | deliver target _ envs free =>
      have hlive := envid2env_live hcur target
      exact h.update envs rfl (by simp [hlive]) free
  | recv envs free => exact h.update envs rfl (by simp [hcur]) free

end

/-! ## The caller -/

section

variable {s s' : Kernel} {cur e x : EnvIx} {next : Next} {t : Trap}

theorem live_update {env : Env} (henvs : s'.envs = Function.update s.envs e env)
    (hx : (s.envs x).envStatus ≠ .free) (henv : env.envStatus ≠ .free) :
    (s'.envs x).envStatus ≠ .free := by
  rw [henvs, Function.update_apply]
  split
  · exact henv
  · exact hx

theorem Destroyed.cur_live (h : Destroyed s cur e s' false)
    (hcur : (s.envs cur).envStatus ≠ .free) : (s'.envs cur).envStatus ≠ .free := by
  generalize hf : false = f at h
  cases h with
  | mark _ _ envs => exact live_update envs hcur (by simp)
  | free _ envs =>
      have hne : cur ≠ e := by simpa using hf.symm
      rw [status_update envs hne]
      exact hcur

/-- A caller that is not destroyed is still there. -/
theorem EnvChange.cur_live {c : Call} {o : Outcome} (h : EnvChange s cur c o s')
    (hcur : (s.envs cur).envStatus ≠ .free) (ho : o ≠ .gone) :
    (s'.envs cur).envStatus ≠ .free := by
  cases h with
  | same hsame =>
      rw [hsame.1]
      exact hcur
  | yield => exact hcur
  | fault => exact absurd rfl ho
  | @destroy envid e f _ target hdes =>
      cases f with
      | true => exact absurd rfl ho
      | false => exact hdes.cur_live hcur
  | @trapframe envid tf e s1 _ envTf target hs envs =>
      have h1 : (s1.envs cur).envStatus ≠ .free := by
        rcases hs with hsame | ⟨_, hdes⟩
        · rw [hsame.1]
          exact hcur
        · exact hdes.cur_live hcur
      rw [envs, Function.update_apply]
      split
      · rename_i heq
        rw [← heq]
        exact h1
      · exact h1
  | exofork head alloc envs =>
      exact live_update envs (live_update alloc hcur (by simp [newEnv])) (by simp [exoforkEnv])
  | status target hst envs => exact live_update envs hcur (statusOf_ne_free hst)
  | upcall target envs => exact live_update envs hcur (envid2env_live hcur target)
  | deliver _ _ envs => exact live_update envs hcur (by simp)
  | recv envs => exact live_update envs hcur (by simp)

theorem Next.eq_of_curenv (h : next.curenv cur = some e) : e = cur ∧ next ≠ .gone := by
  cases next with
  | gone => cases h
  | _ =>
      cases h
      exact ⟨rfl, by simp⟩

/-- After a dispatch the current environment, if there is one, is in use. -/
theorem Dispatched.cur_live (h : Dispatched s cur t next s') (hcur : (s.envs cur).envStatus ≠ .free) :
    ∀ e, next.curenv cur = some e → (s'.envs e).envStatus ≠ .free := by
  intro e he
  obtain ⟨rfl, hnext⟩ := Next.eq_of_curenv he
  cases h with
  | context _ tf _ envs free => exact live_update envs hcur hcur
  | fault => exact absurd rfl hnext
  | ret tf run envs free =>
      have hcur1 := (syscall_envs run).cur_live hcur (by simp)
      exact live_update envs hcur1 hcur1
  | yield run => exact (syscall_envs run).cur_live hcur (by simp)
  | gone => exact absurd rfl hnext

end

/-! ## Executing a run -/

/-- A step as a command. -/
inductive SmpCmd (n : Nat)
  | create
  | trap (k : Fin n) (tf : Trapframe)
  | wake (k : Fin n)

def SmpCmd.event {n : Nat} : SmpCmd n → SmpEvent n
  | .create => .internal
  | .trap k tf => .trap k tf 0#32 0
  | .wake k => .wake k .timer

def smpExec {n : Nat} (m : Smp n) : SmpCmd n → Option (Smp n)
  | .create =>
      if ∀ k, m.cpus k = .halted then (envAlloc m.kern 0#32).map fun r => { m with kern := r.1 }
      else none
  | .trap k tf =>
      match m.cpus k with
      | ⟨some cur, true⟩ => (trap m.kern k cur tf (.ofFrame tf 0#32 0)).map (m.after k)
      | _ => none
  | .wake k =>
      if m.cpus k = .halted then (trapHalted m.kern k .timer).map (m.after k) else none

theorem smpStep_of_exec {n : Nat} {m m' : Smp n} {c : SmpCmd n} (h : smpExec m c = some m') :
    SmpStep m c.event m' := by
  cases c with
  | create =>
      simp only [smpExec] at h
      split at h
      · rename_i hidle
        obtain ⟨⟨s, r⟩, hr, rfl⟩ := Option.map_eq_some_iff.mp h
        exact .create hidle hr
      · cases h
  | trap k tf =>
      simp only [smpExec] at h
      split at h
      · rename_i cur hcpu
        obtain ⟨r, hr, rfl⟩ := Option.map_eq_some_iff.mp h
        exact .trap hcpu hr
      · cases h
  | wake k =>
      simp only [smpExec] at h
      split at h
      · rename_i hcpu
        obtain ⟨r, hr, rfl⟩ := Option.map_eq_some_iff.mp h
        exact .wake hcpu hr
      · cases h

/-- Execute a command that passes a test. -/
def smpExecIf {n : Nat} (test : Smp n → SmpCmd n → Bool) (m : Smp n) (c : SmpCmd n) :
    Option (Smp n) := if test m c then smpExec m c else none

theorem SmpRun.execAll {n : Nat} {R : Nat → Prop} {ok : Smp n → SmpEvent n → Prop}
    {test : Smp n → SmpCmd n → Bool} {l : List (SmpCmd n)} {m m' : Smp n}
    (htest : ∀ m c, test m c → ok m c.event) (h : SmpRun R ok m)
    (hrun : l.foldlM (smpExecIf test) m = some m') : SmpRun R ok m' := by
  induction l generalizing m with
  | nil =>
      cases hrun
      exact h
  | cons c l ih =>
      simp only [List.foldlM_cons, Option.bind_eq_bind, Option.bind_eq_some_iff] at hrun
      obtain ⟨m1, hm1, hrest⟩ := hrun
      simp only [smpExecIf] at hm1
      split at hm1
      · rename_i hc
        exact ih (.step h (smpStep_of_exec hm1) (htest m c hc)) hrest
      · cases hm1

/-- Two CPUs with the memory of the small machine. -/
def smallSmp : Smp 2 := ⟨small, fun _ => .halted⟩

def cpu0 : Fin 2 := ⟨0, by decide⟩
def cpu1 : Fin 2 := ⟨1, by decide⟩

theorem smallSmp_booted : SmpBooted smallReserved smallSmp := ⟨small_booted, fun _ => rfl⟩

/-- The state of the small machine after commands that pass a test. -/
def smallSmpAfter (test : Smp 2 → SmpCmd 2 → Bool) (l : List (SmpCmd 2)) : Smp 2 :=
  (l.foldlM (smpExecIf test) smallSmp).getD smallSmp

/-- One evaluation shows that the run exists and what is seen at its end. -/
theorem smallSmpAfter_run {α : Type} {ok : Smp 2 → SmpEvent 2 → Prop}
    {test : Smp 2 → SmpCmd 2 → Bool} {l : List (SmpCmd 2)} {f : Smp 2 → α} {a : α}
    (h : (l.foldlM (smpExecIf test) smallSmp).map f = some a)
    (htest : ∀ m c, test m c → ok m c.event) :
    SmpRun smallReserved ok (smallSmpAfter test l) ∧ f (smallSmpAfter test l) = a := by
  obtain ⟨m, hm, ha⟩ := Option.map_eq_some_iff.mp h
  rw [smallSmpAfter, hm]
  exact ⟨SmpRun.execAll htest (.boot smallSmp_booted) hm, ha⟩

/-- The frame of a system call with its number and arguments. -/
def callFrame (no a1 a2 a3 a4 a5 : BitVec 32) : Trapframe :=
  { initTf with tfTrapno := 48#32, tfRegs := ⟨a4, a5, 0#32, 0#32, a3, a1, a2, no⟩ }

end Jos.Kern
