import Jos.Kern.OneCpu

/-!
# Messages are delivered once

The history of a slot since it was last taken off the free list: whether the scheduler has run
it, and the receives and deliveries in order. A message is delivered exactly once when the
history alternates: each delivery directly after the receive that it completes, and no
receive returned without one. The history is carried along a run beside the state; it is
computed from the events and does not influence them.

Main results:
* `IpcInv.step`: a step of any CPU keeps the invariant of the histories;
* `ipc_exactly_once`: the histories alternate in every run;
* `recv_returns_without_send`: a receive that returns without a message.
-/

namespace Jos.Kern

open Jos.Lib Kernel

variable {n : Nat}

/-- A receive that has begun, or a delivery with the sender and the value. -/
inductive IpcEvent
  | recv
  | sent (sender value : BitVec 32)
deriving DecidableEq

/-- The history of a slot; the last event comes first. -/
structure Hist where
  log : List IpcEvent
  ran : Bool
deriving DecidableEq

/-- The history of a free slot. -/
def Hist.none : Hist := ⟨[], false⟩

/-- Every receive is completed by one delivery, and every delivery completes one. -/
inductive Complete : List IpcEvent → Prop
  | nil : Complete []
  | cons {l : List IpcEvent} (sender value : BitVec 32) (h : Complete l) :
      Complete (.sent sender value :: .recv :: l)

/-- The same with one receive that waits. -/
def Pending (l : List IpcEvent) : Prop := ∃ l', l = .recv :: l' ∧ Complete l'

/-! ## The events of a run -/

/-- The system call of an event: the state with the frame saved, the caller and the call. -/
def callOf (m : Smp n) : SmpEvent n → Option (Kernel × EnvIx × Call)
  | .trap k tf faultVa console =>
      match m.cpus k with
      | ⟨some cur, true⟩ =>
          if (m.kern.envs cur).envStatus = .dying then none
          else
            match Trap.ofFrame tf faultVa console with
            | .syscall c => some (saveFrame m.kern cur tf, cur, c)
            | _ => none
      | _ => none
  | _ => none

/-- What a system call adds to the history of slot `e`. -/
def ipcEvent (s : Kernel) (cur : EnvIx) (c : Call) (o : Outcome) (e : EnvIx) : Option IpcEvent :=
  match c, o with
  | .ipcRecv _, .yield => if e = cur then some .recv else none
  | .ipcTrySend envid value _ _, .ret r =>
      if r = 0 ∧ envid2env s cur envid false = some e then some (.sent (s.envs cur).envId value)
      else none
  | _, _ => none

def ipcEventOf (m : Smp n) (ev : SmpEvent n) (e : EnvIx) : Option IpcEvent :=
  (callOf m ev).bind fun (s, cur, c) => (syscall s cur c).bind fun r => ipcEvent s cur c r.2 e

/-- The event ends with `env_run(e)`. -/
def chosen (ev : SmpEvent n) (m' : Smp n) (e : EnvIx) : Bool :=
  match ev with
  | .trap k _ _ _ => m'.cpus k = .running e
  | .wake k _ => m'.cpus k = .running e
  | .internal => false

/-- The history with one more event; a slot that is free has none. -/
def Hist.push (h : Hist) (env : Env) (i : Option IpcEvent) : Hist :=
  if env.envStatus = .free then .none else { h with log := i.toList ++ h.log }

/-- The history after an event that leads from `m` to `m'`. -/
def Hist.next (m : Smp n) (ev : SmpEvent n) (m' : Smp n) (h : EnvIx → Hist) (e : EnvIx) : Hist :=
  let h' := (h e).push (m'.kern.envs e) (ipcEventOf m ev e)
  if chosen ev m' e then { h' with ran := true } else h'

/-- Runs with their histories. -/
inductive IpcRun (R : Nat → Prop) (ok : Smp n → (EnvIx → Hist) → SmpEvent n → Prop) :
    Smp n → (EnvIx → Hist) → Prop
  | boot {m : Smp n} (h : SmpBooted R m) : IpcRun R ok m fun _ => .none
  | step {m m' : Smp n} {h : EnvIx → Hist} {ev : SmpEvent n} (hrun : IpcRun R ok m h)
      (hstep : SmpStep m ev m') (hok : ok m h ev) : IpcRun R ok m' (Hist.next m ev m' h)

/-- `sys_env_set_status` only of environments that have never run, and no
`sys_env_set_trapframe`. -/
def IpcOnly (m : Smp n) (h : EnvIx → Hist) (ev : SmpEvent n) : Prop :=
  ∀ s cur c, callOf m ev = some (s, cur, c) →
    match c with
    | .envSetStatus envid _ => ∀ e, envid2env s cur envid true = some e → (h e).ran = false
    | .envSetTrapframe _ _ => False
    | _ => True

/-- No environment is destroyed that is a zombie already. -/
def NoSecondDestroy (m : Smp n) (ev : SmpEvent n) : Prop :=
  ∀ s cur envid e, callOf m ev = some (s, cur, .envDestroy envid) →
    envid2env s cur envid true = some e → (s.envs e).envStatus ≠ .dying

/-- Every delivery completes one receive and every receive that has returned was completed by
one delivery, whose sender and value are the ones that the environment sees. -/
structure IpcExact (m : Smp n) (h : EnvIx → Hist) : Prop where
  waiting : ∀ e, (m.kern.envs e).envStatus ≠ .free → (m.kern.envs e).envIpcRecving = true →
    Pending (h e).log
  complete : ∀ e, (m.kern.envs e).envStatus ≠ .free → (m.kern.envs e).envIpcRecving = false →
    Complete (h e).log
  resumed : ∀ k e, m.cpus k = .running e → Complete (h e).log
  message : ∀ e sender value l, (h e).log = .sent sender value :: l →
    (m.kern.envs e).envIpcFrom = sender ∧ (m.kern.envs e).envIpcValue = value

/-! ## The invariant of one slot -/

/-- An environment agrees with its history. -/
structure HistOk (env : Env) (h : Hist) : Prop where
  free : env.envStatus = .free → h = .none
  waiting : env.envStatus ≠ .free → env.envIpcRecving = true →
    env.envStatus = .notRunnable ∧ h.ran = true ∧ Pending h.log
  complete : env.envStatus ≠ .free → env.envIpcRecving = false → Complete h.log
  message : ∀ sender value l, h.log = .sent sender value :: l →
    env.envIpcFrom = sender ∧ env.envIpcValue = value

section

variable {env env' : Env} {h : Hist} {i : Option IpcEvent}

theorem histOk_free (hfree : env.envStatus = .free) : HistOk env .none :=
  ⟨fun _ => rfl, fun hne => absurd hfree hne, fun _ _ => .nil, fun _ _ _ hlog => by cases hlog⟩

theorem HistOk.push_free (hfree : env.envStatus = .free) : HistOk env (h.push env i) := by
  rw [Hist.push, if_pos hfree]
  exact histOk_free hfree

theorem Hist.push_none (hh : HistOk env h) : h.push env Option.none = h := by
  rw [Hist.push]
  split
  · rename_i hfree
    exact (hh.free hfree).symm
  · rfl

/-- An environment in use that is not blocked is not receiving. -/
theorem HistOk.not_recving (hh : HistOk env h) (hlive : env.envStatus ≠ .free)
    (hst : env.envStatus ≠ .notRunnable) : env.envIpcRecving = false := by
  by_contra hrec
  exact hst (hh.waiting hlive (by simpa using hrec)).1

/-- Without a receive under way the status does not matter. -/
theorem HistOk.setStatus (hh : HistOk env h) (hlive : env.envStatus ≠ .free)
    (hrec : env.envIpcRecving = false) (hlive' : env'.envStatus ≠ .free)
    (hrec' : env'.envIpcRecving = env.envIpcRecving) (hfrom : env'.envIpcFrom = env.envIpcFrom)
    (hvalue : env'.envIpcValue = env.envIpcValue) : HistOk env' h := by
  refine ⟨fun hfree => absurd hfree hlive', fun _ h1 => ?_, fun _ _ => hh.complete hlive hrec, ?_⟩
  · rw [hrec', hrec] at h1
    cases h1
  · rw [hfrom, hvalue]
    exact hh.message

theorem HistOk.congr (hh : HistOk env h) (hst : env'.envStatus = env.envStatus)
    (hrec : env'.envIpcRecving = env.envIpcRecving) (hfrom : env'.envIpcFrom = env.envIpcFrom)
    (hvalue : env'.envIpcValue = env.envIpcValue) : HistOk env' h := by
  obtain ⟨h1, h2, h3, h4⟩ := hh
  exact ⟨by rwa [hst], by rwa [hst, hrec], by rwa [hst, hrec], by rwa [hfrom, hvalue]⟩

/-- A message completes the receive. -/
theorem HistOk.deliver (hh : HistOk env h) (hlive : env.envStatus ≠ .free)
    (hrec : env.envIpcRecving = true) (hlive' : env'.envStatus ≠ .free)
    (hrec' : env'.envIpcRecving = false) :
    HistOk env' (h.push env' (some (.sent env'.envIpcFrom env'.envIpcValue))) := by
  obtain ⟨_, _, l, hl, hc⟩ := hh.waiting hlive hrec
  rw [Hist.push, if_neg hlive']
  refine ⟨fun hfree => absurd hfree hlive', fun _ h1 => ?_, fun _ _ => ?_, ?_⟩
  · rw [hrec'] at h1
    cases h1
  · simp only [Option.toList, List.cons_append, List.nil_append, hl]
    exact .cons _ _ hc
  · intro sender value l' hlog
    simp only [Option.toList, List.cons_append, List.nil_append, List.cons.injEq,
      IpcEvent.sent.injEq] at hlog
    exact hlog.1

theorem HistOk.recv (hh : HistOk env h) (hlive : env.envStatus ≠ .free)
    (hrec : env.envIpcRecving = false) (hran : h.ran = true)
    (hst' : env'.envStatus = .notRunnable) (hrec' : env'.envIpcRecving = true) :
    HistOk env' (h.push env' (some .recv)) := by
  rw [Hist.push, if_neg (by rw [hst']; decide)]
  refine ⟨fun hfree => ?_, fun _ _ => ⟨hst', hran, h.log, rfl, hh.complete hlive hrec⟩,
    fun _ h1 => ?_, fun sender value l hlog => ?_⟩
  · rw [hst'] at hfree
    cases hfree
  · rw [hrec'] at h1
    cases h1
  · simp at hlog

theorem HistOk.setRan (hh : HistOk env h) (hlive : env.envStatus ≠ .free) :
    HistOk env { h with ran := true } :=
  ⟨fun hfree => absurd hfree hlive, fun h1 h2 =>
    ⟨(hh.waiting h1 h2).1, rfl, (hh.waiting h1 h2).2.2⟩, hh.complete, hh.message⟩

/-- A slot that has just been taken has no history. -/
theorem HistOk.alloc (hh : HistOk env h) (hfree : env.envStatus = .free)
    (hlive : env'.envStatus ≠ .free) (hrec : env'.envIpcRecving = false) :
    HistOk env' (h.push env' Option.none) := by
  rw [hh.free hfree, Hist.push, if_neg hlive]
  refine ⟨fun hfree' => absurd hfree' hlive, fun _ h1 => ?_, fun _ _ => .nil, fun _ _ _ hlog => ?_⟩
  · rw [hrec] at h1
    cases h1
  · cases hlog

theorem HistOk.push_of_setStatus (hh : HistOk env h) (hlive : env.envStatus ≠ .free)
    (hrec : env.envIpcRecving = false) (hlive' : env'.envStatus ≠ .free)
    (hrec' : env'.envIpcRecving = env.envIpcRecving) (hfrom : env'.envIpcFrom = env.envIpcFrom)
    (hvalue : env'.envIpcValue = env.envIpcValue) : HistOk env' (h.push env' Option.none) := by
  have hh' := hh.setStatus hlive hrec hlive' hrec' hfrom hvalue
  rw [Hist.push_none hh']
  exact hh'

end

/-! ## System calls -/

section

variable {s s' : Kernel} {cpunum : Nat} {curenv : Option EnvIx} {cur e : EnvIx} {cpu : Cpu}
  {next : Next} {t : Trap} {tf : Trapframe} {m m' : Smp n} {k : Fin n} {R : Nat → Prop}
  {forced : Prop} {h : EnvIx → Hist} {env : Env} {c : Call} {o : Outcome}

/-- Every slot agrees with its history after the events `i`. -/
def HistsOk (s : Kernel) (h : EnvIx → Hist) (i : EnvIx → Option IpcEvent) : Prop :=
  ∀ e, HistOk (s.envs e) ((h e).push (s.envs e) (i e))

theorem histsOk_same (hh : ∀ e, HistOk (s.envs e) (h e)) (henvs : s'.envs = s.envs)
    {i : EnvIx → Option IpcEvent} (hi : ∀ e, i e = none) : HistsOk s' h i := by
  intro e
  rw [henvs, hi, Hist.push_none (hh e)]
  exact hh e

theorem histsOk_update (hh : ∀ e, HistOk (s.envs e) (h e))
    (henvs : s'.envs = Function.update s.envs e env) {i : EnvIx → Option IpcEvent}
    (hi : ∀ e', e' ≠ e → i e' = none) (he : HistOk env ((h e).push env (i e))) :
    HistsOk s' h i := by
  intro e'
  by_cases heq : e' = e
  · subst heq
    rw [henvs, Function.update_self]
    exact he
  · rw [status_update henvs heq, hi e' heq, Hist.push_none (hh e')]
    exact hh e'

theorem Destroyed.histsOk {f : Bool} (hdes : Destroyed s cur e s' f)
    (hh : ∀ e, HistOk (s.envs e) (h e)) {i : EnvIx → Option IpcEvent} (hi : ∀ e, i e = none) :
    HistsOk s' h i := by
  cases hdes with
  | mark running other envs =>
      have hlive : (s.envs e).envStatus ≠ .free := by simp [running]
      refine histsOk_update hh envs (fun e' _ => hi e') ?_
      rw [hi]
      exact (hh e).push_of_setStatus hlive ((hh e).not_recving hlive (by simp [running])) (by simp)
        rfl rfl rfl
  | free now envs => exact histsOk_update hh envs (fun e' _ => hi e') (HistOk.push_free rfl)

theorem EnvChange.histsOk (hch : EnvChange s cur c o s') (hh : ∀ e, HistOk (s.envs e) (h e))
    (hfree : FreeEnvs s) (hcur : (s.envs cur).envStatus = .running) (hran : (h cur).ran = true)
    (hstatus : ∀ envid st e, c = .envSetStatus envid st →
      envid2env s cur envid true = some e → (h e).ran = false)
    (htf : ∀ envid tf, c ≠ .envSetTrapframe envid tf) : HistsOk s' h (ipcEvent s cur c o) := by
  have hlive : (s.envs cur).envStatus ≠ .free := by simp [hcur]
  cases hch with
  | @same _ r _ hsame failed =>
      refine histsOk_same hh hsame.1 fun e => ?_
      cases c with
      | ipcTrySend envid value srcva perm =>
          exact if_neg fun h => failed envid value srcva perm rfl h.1
      | _ => rfl
  | yield => exact histsOk_same hh rfl fun _ => rfl
  | fault hdes => exact hdes.histsOk hh fun e => by cases c <;> rfl
  | destroy target hdes => exact hdes.histsOk hh fun _ => rfl
  | @trapframe envid tf => exact absurd rfl (htf envid tf)
  | @exofork e p r s1 _ head alloc envs =>
      rw [alloc, Function.update_idem, Function.update_self] at envs
      exact histsOk_update hh envs (fun _ _ => rfl)
        ((hh e).alloc (hfree.head head) (by simp [exoforkEnv]) rfl)
  | @status envid status st e _ target hst envs =>
      have helive := envid2env_live hlive target
      have hrec : (s.envs e).envIpcRecving = false := by
        by_contra hrec
        have hran' := ((hh e).waiting helive (by simpa using hrec)).2.1
        rw [hstatus envid status e rfl target] at hran'
        cases hran'
      exact histsOk_update hh envs (fun _ _ => rfl)
        ((hh e).push_of_setStatus helive hrec (statusOf_ne_free hst) rfl rfl rfl)
  | @upcall envid func e _ target envs =>
      refine histsOk_update hh envs (fun _ _ => rfl) ?_
      have hok : HistOk { s.envs e with envPgfaultUpcall := func } (h e) :=
        (hh e).congr rfl rfl rfl rfl
      rw [show ipcEvent s cur (.envSetPgfaultUpcall envid func) (.ret 0) e = none from rfl,
        Hist.push_none hok]
      exact hok
  | @deliver envid value srcva perm q e _ target recving envs =>
      have hev : ∀ e', ipcEvent s cur (.ipcTrySend envid value srcva perm) (.ret 0) e' =
          if e' = e then some (.sent (s.envs cur).envId value) else none := by
        intro e'
        simp only [ipcEvent, target, true_and, Option.some.injEq, eq_comm]
      refine histsOk_update hh envs (fun e' he' => by rw [hev, if_neg he']) ?_
      rw [hev, if_pos rfl]
      exact (hh e).deliver (envid2env_live hlive target) recving (by simp) rfl
  | @recv dstva _ envs =>
      refine histsOk_update hh envs (fun e' he' => if_neg he') ?_
      rw [show ipcEvent s cur (.ipcRecv dstva) .yield cur = some .recv from if_pos rfl]
      exact (hh cur).recv hlive ((hh cur).not_recving hlive (by simp [hcur])) hran rfl rfl

/-! ## The scheduler -/

/-- The scheduler runs no environment in the middle of a receive. -/
theorem Switched.histOk (hsw : Switched s cpunum curenv forced s' cpu)
    (hh : ∀ e, HistOk (s.envs e) (h e))
    (hforced : forced → ∀ e, curenv = some e → (s.envs e).envStatus = .running) (e : EnvIx) :
    HistOk (s'.envs e) (if cpu = .running e then { h e with ran := true } else h e) := by
  cases hsw with
  | @run e0 _ ready envs free =>
      have hready : (s.envs e0).envStatus = .runnable ∨ (s.envs e0).envStatus = .running := by
        rcases ready with hrun | ⟨hcur, hf | hrun⟩
        · exact Or.inl hrun
        · exact Or.inr (hforced hf e0 hcur)
        · exact Or.inr hrun
      rw [envs, switchEnv]
      by_cases heq : e = e0
      · subst heq
        have hlive : (s.envs e).envStatus ≠ .free := by
          rcases hready with hst | hst <;> simp [hst]
        have hrec := (hh e).not_recving hlive (by rcases hready with hst | hst <;> simp [hst])
        rw [if_pos rfl, if_pos rfl]
        refine HistOk.setRan ?_ (by simp)
        exact (hh e).setStatus hlive hrec (by simp) rfl rfl rfl
      · rw [if_neg heq, if_neg fun heq' => heq (Cpu.running_inj heq').symm]
        split
        · rename_i hcur
          have hlive : (s.envs e).envStatus ≠ .free := by simp [hcur.2]
          exact (hh e).setStatus hlive ((hh e).not_recving hlive (by simp [hcur.2])) (by simp)
            rfl rfl rfl
        · exact hh e
  | halt =>
      rw [if_neg (by simp [Cpu.halted, Cpu.running])]
      exact hh e

theorem Hist.push_congr {env env' : Env} {h : Hist} {i : Option IpcEvent}
    (hiff : env'.envStatus = .free ↔ env.envStatus = .free) : h.push env' i = h.push env i := by
  simp only [Hist.push, hiff]

/-! ## Steps and runs -/

/-- What the runs keep. -/
structure IpcInv (m : Smp n) (h : EnvIx → Hist) : Prop where
  excl : ExclInv m
  hist : ∀ e, HistOk (m.kern.envs e) (h e)
  ran : ∀ k e, m.cpus k = .running e → (h e).ran = true

theorem callOf_trap {faultVa : BitVec 32} {console : Int} (hcpu : m.cpus k = .running cur)
    (halive : (m.kern.envs cur).envStatus ≠ .dying)
    (ht : Trap.ofFrame tf faultVa console = .syscall c) :
    callOf m (.trap k tf faultVa console) = some (saveFrame m.kern cur tf, cur, c) := by
  simp only [callOf, hcpu, Cpu.running, if_neg halive, ht]

theorem callOf_eq_none (tf : Trapframe) (faultVa : BitVec 32) (console : Int)
    (hcpu : m.cpus k = .running cur)
    (ht : (m.kern.envs cur).envStatus = .dying ∨
      ∀ c, Trap.ofFrame tf faultVa console ≠ .syscall c) :
    callOf m (.trap k tf faultVa console) = none := by
  simp only [callOf, hcpu, Cpu.running]
  split
  · rfl
  · rename_i halive
    have hno := ht.resolve_left halive
    split
    · rename_i c hc
      exact absurd hc (hno c)
    · rfl

/-- The events of these runs do not overwrite the status of an environment on another CPU. -/
theorem IpcInv.careful {ev : SmpEvent n} (hi : IpcInv m h) (honly : IpcOnly m h ev)
    (hdes : NoSecondDestroy m ev) : Careful m ev := by
  cases ev with
  | wake k t => trivial
  | internal => trivial
  | trap k tf faultVa console =>
      intro cur c hcpu halive ht hcl
      have hcall := callOf_trap hcpu halive ht
      have hc := honly _ _ _ hcall
      cases c with
      | envSetStatus envid status =>
          obtain ⟨e, he, ⟨k', _, hk'⟩, _⟩ := hcl
          have hran := hi.ran k' e hk'
          rw [hc e he] at hran
          cases hran
      | ipcTrySend envid value srcva perm =>
          obtain ⟨e, _, hother, hrec⟩ := hcl
          have hne := hi.excl.ne_cur hcpu hother
          rw [saveFrame_envs, Function.update_of_ne hne] at hrec
          have hbusy := hi.excl.busy_other hother
          have hst := ((hi.hist e).waiting hbusy.ne_free hrec).1
          rcases hbusy with hb | hb <;> rw [hst] at hb <;> cases hb
      | envDestroy envid =>
          obtain ⟨e, he, _, hdying⟩ := hcl
          exact hdes _ _ _ e hcall he hdying
      | envSetTrapframe envid tf => exact hc
      | _ => exact hcl

/-- After an entry of CPU `k`, from the state before the scheduler. -/
theorem IpcInv.after {ev : SmpEvent n} {s1 : Kernel} (hi : IpcInv m h)
    (hexcl : ExclInv (m.after k (s', cpu)))
    (hev : ∀ e, chosen ev (m.after k (s', cpu)) e = decide (cpu = .running e))
    (hh : HistsOk s1 h (ipcEventOf m ev)) (hsw : Switched s1 cpunum curenv forced s' cpu)
    (hlive : ∀ e, curenv = some e → (s1.envs e).envStatus ≠ .free)
    (hforced : forced → ∀ e, curenv = some e → (s1.envs e).envStatus = .running) :
    IpcInv (m.after k (s', cpu)) (Hist.next m ev (m.after k (s', cpu)) h) := by
  have hnext : ∀ e, Hist.next m ev (m.after k (s', cpu)) h e =
      if cpu = .running e then
        { (h e).push (s1.envs e) (ipcEventOf m ev e) with ran := true }
      else (h e).push (s1.envs e) (ipcEventOf m ev e) := by
    intro e
    have hkern : (m.after k (s', cpu)).kern = s' := rfl
    simp only [Hist.next, hev, decide_eq_true_eq]
    rw [hkern, Hist.push_congr (hsw.free_iff hlive e)]
  refine ⟨hexcl, fun e => ?_, fun k' e hk' => ?_⟩
  · rw [hnext]
    exact hsw.histOk hh hforced e
  · rw [hnext]
    by_cases heq : cpu = .running e
    · rw [if_pos heq]
    · rw [if_neg heq]
      have hne : k' ≠ k := by
        rintro rfl
        exact heq ((Function.update_self ..).symm.trans hk')
      have hold : m.cpus k' = .running e := (Function.update_of_ne hne ..).symm.trans hk'
      have hbusy : Busy s' e := hexcl.excl.status k' e hk'
      have hlive1 : (s1.envs e).envStatus ≠ .free := fun hfree =>
        hbusy.ne_free ((hsw.free_iff hlive e).mpr hfree)
      rw [Hist.push, if_neg hlive1]
      exact hi.ran k' e hold

/-- An internal step leaves the CPUs alone and adds nothing to the histories. -/
theorem IpcInv.internal (hi : IpcInv m h) (hexcl : ExclInv m') (hcpus : m'.cpus = m.cpus)
    (hh : HistsOk m'.kern h fun _ => none) :
    IpcInv m' (Hist.next m .internal m' h) := by
  refine ⟨hexcl, hh, fun k e hk => ?_⟩
  have hbusy : Busy m'.kern e := hexcl.excl.status k e hk
  rw [hcpus] at hk
  have hpush : Hist.next m .internal m' h e = (h e).push (m'.kern.envs e) none := rfl
  rw [hpush, Hist.push, if_neg hbusy.ne_free]
  exact hi.ran k e hk

theorem histsOk_of (hh : ∀ e, HistOk (s'.envs e) (h e)) : HistsOk s' h fun _ => none :=
  histsOk_same hh rfl fun _ => rfl

theorem ipcEventOf_eq_none {ev : SmpEvent n} (hcall : callOf m ev = none) (e : EnvIx) :
    ipcEventOf m ev e = none := by
  rw [ipcEventOf, hcall]
  rfl

theorem ipcEventOf_call {ev : SmpEvent n} {s1 : Kernel} (hcall : callOf m ev = some (s, cur, c))
    (hrun : syscall s cur c = some (s1, o)) : ipcEventOf m ev = ipcEvent s cur c o := by
  funext e
  simp only [ipcEventOf, hcall, Option.bind_some, hrun]

theorem IpcInv.saveFrame (hi : IpcInv m h) (e : EnvIx) :
    HistOk ((Kern.saveFrame m.kern cur tf).envs e) (h e) := by
  rw [saveFrame_envs, Function.update_apply]
  split
  · rename_i heq
    rw [heq]
    exact (hi.hist cur).congr rfl rfl rfl rfl
  · exact hi.hist e

/-- The histories between the dispatch and the scheduler. -/
theorem IpcInv.dispatched {faultVa : BitVec 32} {console : Int} {s1 : Kernel} (hi : IpcInv m h)
    (hcpu : m.cpus k = .running cur) (hst : (m.kern.envs cur).envStatus = .running)
    (honly : IpcOnly m h (.trap k tf faultVa console))
    (hd : Dispatched (Kern.saveFrame m.kern cur tf) cur (.ofFrame tf faultVa console) next s1) :
    HistsOk s1 h (ipcEventOf m (.trap k tf faultVa console)) := by
  have hh : ∀ e, HistOk ((Kern.saveFrame m.kern cur tf).envs e) (h e) := hi.saveFrame
  have hfree : FreeEnvs (Kern.saveFrame m.kern cur tf) :=
    hi.excl.free.update saveFrame_envs rfl Iff.rfl rfl
  have hst0 : ((Kern.saveFrame m.kern cur tf).envs cur).envStatus = .running := by
    rw [saveFrame_envs, Function.update_self]
    exact hst
  have hcall : ∀ {c o s2}, Trap.ofFrame tf faultVa console = .syscall c →
      syscall (Kern.saveFrame m.kern cur tf) cur c = some (s2, o) →
        HistsOk s2 h (ipcEventOf m (.trap k tf faultVa console)) := by
    intro c o s2 ht hrun
    have hcallOf := callOf_trap hcpu (by simp [hst]) ht
    have hc := honly _ _ _ hcallOf
    rw [ipcEventOf_call hcallOf hrun]
    refine (syscall_envs hrun).histsOk hh hfree hst0 (hi.ran k cur hcpu) ?_ ?_
    · rintro envid st e rfl he
      exact hc e he
    · rintro envid tf' rfl
      exact hc
  generalize ht : Trap.ofFrame tf faultVa console = t at hd
  cases hd with
  | context hnext tf' nocall envs free =>
      have hnone := ipcEventOf_eq_none (callOf_eq_none (m := m) tf faultVa
        console hcpu (Or.inr fun c hc => nocall c (ht.symm.trans hc)))
      refine histsOk_update hh envs (fun e _ => hnone e) ?_
      have hok : HistOk { (Kern.saveFrame m.kern cur tf).envs cur with envTf := tf' } (h cur) :=
        (hh cur).congr rfl rfl rfl rfl
      rw [hnone, Hist.push_none hok]
      exact hok
  | fault nocall hdes =>
      exact hdes.histsOk hh (ipcEventOf_eq_none (callOf_eq_none _ _ _ hcpu
        (Or.inr fun c hc => nocall c (ht.symm.trans hc))))
  | @ret c r s2 _ tf' run envs free =>
      intro e
      have h2 := hcall ht run e
      rw [envs, Function.update_apply]
      split
      · rename_i heq
        subst heq
        exact h2.congr rfl rfl rfl rfl
      · exact h2
  | yield run => exact hcall ht run
  | gone run => exact hcall ht run

theorem IpcInv.step {ev : SmpEvent n} (hi : IpcInv m h) (hstep : SmpStep m ev m')
    (honly : IpcOnly m h ev) (hdes : NoSecondDestroy m ev) :
    IpcInv m' (Hist.next m ev m' h) := by
  have hexcl : ExclInv m' := hi.excl.step hstep (hi.careful honly hdes)
  cases hstep with
  | @trap k cur tf faultVa console r cpu run =>
      obtain ⟨s', c⟩ := r
      have hev : ∀ e, chosen (.trap k tf faultVa console) (m.after k (s', c)) e =
          decide (c = .running e) := by
        intro e
        simp only [chosen, Smp.after, Function.update_self]
      have hbusy : Busy m.kern cur := hi.excl.excl.status k cur cpu
      cases entered_trap run with
      | @zombie s1 _ _ dying envs free hswitch =>
          refine hi.after hexcl hev ?_ hswitch (by simp) (by simp)
          have hnone := ipcEventOf_eq_none (m := m) (callOf_eq_none tf faultVa
            console cpu (Or.inl dying))
          exact histsOk_update hi.hist envs (fun e _ => hnone e) (HistOk.push_free rfl)
      | @dispatch s1 _ _ next alive hdispatch hswitch =>
          have hst := hbusy.resolve_right alive
          have hk : DispatchKept m k (Kern.saveFrame m.kern cur tf) cur next s1 := by
            refine hdispatch.kept (hi.excl.free.update saveFrame_envs rfl Iff.rfl rfl) ?_ fun c hc =>
              hi.careful honly hdes cur c cpu alive hc
            rw [saveFrame_envs, Function.update_self]
            exact hbusy.ne_free
          refine hi.after hexcl hev (hi.dispatched cpu hst honly hdispatch) hswitch hk.cur_live ?_
          rintro rfl e he
          obtain ⟨rfl, _⟩ := Next.eq_of_curenv he
          generalize Trap.ofFrame tf faultVa console = t at hdispatch
          cases hdispatch with
          | context _ _ _ envs _ =>
              rw [envs, Function.update_self, saveFrame_envs, Function.update_self]
              exact hst
  | @wake k t r cpu run =>
      obtain ⟨s', c⟩ := r
      refine hi.after hexcl (fun e => ?_) ?_ (switched_trapHalted run) (by simp) (by simp)
      · simp only [chosen, Smp.after, Function.update_self]
      · exact histsOk_same hi.hist rfl fun _ => rfl
  | store c cpu dir grants => exact hi.internal hexcl rfl (histsOk_of hi.hist)
  | create idle run =>
      refine hi.internal hexcl rfl ?_
      rcases envAlloc_envs run with ⟨hsame, _⟩ | ⟨e, p, _, hhead, henvs, hfree⟩
      · exact histsOk_same hi.hist hsame.1 fun _ => rfl
      · exact histsOk_update hi.hist henvs (fun _ _ => rfl)
          ((hi.hist e).alloc (hi.excl.free.head hhead) (by simp [newEnv]) rfl)
  | region idle dir low alloc insert =>
      exact hi.internal hexcl rfl (histsOk_same hi.hist
        ((sameEnvs_pageAlloc alloc).trans (sameEnvs_pageInsert insert)).1 fun _ => rfl)
  | load c idle dir grants => exact hi.internal hexcl rfl (histsOk_of hi.hist)
  | @setup e idle tf ty =>
      refine hi.internal hexcl rfl (histsOk_update hi.hist rfl (fun _ _ => rfl) ?_)
      have hok : HistOk { m.kern.envs e with envTf := tf, envType := ty } (h e) :=
        (hi.hist e).congr rfl rfl rfl rfl
      rw [Hist.push_none hok]
      exact hok

theorem SmpBooted.ipcInv (hb : SmpBooted R m) : IpcInv m fun _ => .none :=
  ⟨hb.exclInv, fun e => histOk_free (hb.kern.envs e).1, fun k e hk => by
    rw [hb.cpus k] at hk
    cases hk⟩

theorem IpcRun.ipcInv (hrun : IpcRun R (fun m h ev => IpcOnly m h ev ∧ NoSecondDestroy m ev) m h) :
    IpcInv m h := by
  induction hrun with
  | boot hb => exact hb.ipcInv
  | step _ hstep hok ih => exact ih.step hstep hok.1 hok.2

/-- In a run in which no zombie is destroyed a second time, every message is delivered exactly
once. -/
theorem ipc_exactly_once {n : Nat} {R : Nat → Prop} {m : Smp n} {h : EnvIx → Hist}
    (hrun : IpcRun R (fun m h ev => IpcOnly m h ev ∧ NoSecondDestroy m ev) m h) :
    IpcExact m h := by
  have hi := hrun.ipcInv
  refine ⟨fun e h1 h2 => ((hi.hist e).waiting h1 h2).2.2, fun e => (hi.hist e).complete,
    fun k e hk => ?_, fun e => (hi.hist e).message⟩
  have hbusy : Busy m.kern e := hi.excl.excl.status k e hk
  refine (hi.hist e).complete hbusy.ne_free ((hi.hist e).not_recving hbusy.ne_free ?_)
  rcases hbusy with hb | hb <;> simp [hb]

end

/-! ## Two runs of the small machine -/

section

variable {m : Smp n} {h : EnvIx → Hist} {c : SmpCmd n}

/-- `IpcOnly` as a test. -/
def ipcOnlyTest (m : Smp n) (h : EnvIx → Hist) (c : SmpCmd n) : Bool :=
  match callOf m c.event with
  | some (s, cur, .envSetStatus envid _) =>
      match envid2env s cur envid true with
      | some e => !(h e).ran
      | none => true
  | some (_, _, .envSetTrapframe _ _) => false
  | _ => true

theorem ipcOnly_of_test (htest : ipcOnlyTest m h c) : IpcOnly m h c.event := by
  intro s cur call hcall
  simp only [ipcOnlyTest, hcall] at htest
  cases call with
  | envSetStatus envid st =>
      intro e he
      simpa [he] using htest
  | envSetTrapframe envid tf => cases htest
  | _ => trivial

/-- `NoSecondDestroy` as a test. -/
def noSecondDestroyTest (m : Smp n) (c : SmpCmd n) : Bool :=
  match callOf m c.event with
  | some (s, cur, .envDestroy envid) =>
      match envid2env s cur envid true with
      | some e => (s.envs e).envStatus ≠ .dying
      | none => true
  | _ => true

theorem noSecondDestroy_of_test (htest : noSecondDestroyTest m c) : NoSecondDestroy m c.event := by
  intro s cur envid e hcall he
  simpa [noSecondDestroyTest, hcall, he] using htest

def ipcExec (test : Smp n → (EnvIx → Hist) → SmpCmd n → Bool) (x : Smp n × (EnvIx → Hist))
    (c : SmpCmd n) : Option (Smp n × (EnvIx → Hist)) :=
  if test x.1 x.2 c then (smpExec x.1 c).map fun m' => (m', Hist.next x.1 c.event m' x.2) else none

theorem IpcRun.execAll {R : Nat → Prop} {ok : Smp n → (EnvIx → Hist) → SmpEvent n → Prop}
    {test : Smp n → (EnvIx → Hist) → SmpCmd n → Bool} {l : List (SmpCmd n)}
    {x x' : Smp n × (EnvIx → Hist)} (htest : ∀ m h c, test m h c → ok m h c.event)
    (hrun : IpcRun R ok x.1 x.2) (hexec : l.foldlM (ipcExec test) x = some x') :
    IpcRun R ok x'.1 x'.2 := by
  induction l generalizing x with
  | nil =>
      cases hexec
      exact hrun
  | cons c l ih =>
      simp only [List.foldlM_cons, Option.bind_eq_bind, Option.bind_eq_some_iff] at hexec
      obtain ⟨x1, hx1, hrest⟩ := hexec
      simp only [ipcExec] at hx1
      split at hx1
      · rename_i hc
        obtain ⟨m', hm', rfl⟩ := Option.map_eq_some_iff.mp hx1
        exact ih (.step hrun (smpStep_of_exec hm') (htest _ _ c hc)) hrest
      · cases hx1

end

/-- The state and the histories of the small machine after commands that pass a test. -/
def smallIpcAfter (test : Smp 2 → (EnvIx → Hist) → SmpCmd 2 → Bool) (l : List (SmpCmd 2)) :
    Smp 2 × (EnvIx → Hist) :=
  (l.foldlM (ipcExec test) (smallSmp, fun _ => .none)).getD (smallSmp, fun _ => .none)

theorem smallIpcAfter_run {α : Type} {ok : Smp 2 → (EnvIx → Hist) → SmpEvent 2 → Prop}
    {test : Smp 2 → (EnvIx → Hist) → SmpCmd 2 → Bool} {l : List (SmpCmd 2)}
    {f : Smp 2 × (EnvIx → Hist) → α} {a : α}
    (hl : (l.foldlM (ipcExec test) (smallSmp, fun _ => .none)).map f = some a)
    (htest : ∀ m h c, test m h c → ok m h c.event) :
    IpcRun smallReserved ok (smallIpcAfter test l).1 (smallIpcAfter test l).2 ∧
      f (smallIpcAfter test l) = a := by
  obtain ⟨x, hx, ha⟩ := Option.map_eq_some_iff.mp hl
  rw [smallIpcAfter, hx]
  exact ⟨IpcRun.execAll htest (x := (smallSmp, fun _ => .none)) (.boot smallSmp_booted) hx, ha⟩

def ipcTest (m : Smp n) (h : EnvIx → Hist) (c : SmpCmd n) : Bool :=
  ipcOnlyTest m h c && noSecondDestroyTest m c

/-- The child waits for a message, the parent sends 42, the child runs again. -/
def sendOnce : List (SmpCmd 2) :=
  startChild ++ [.trap cpu1 (callFrame 13 utop 0 0 0 0),
    .trap cpu0 (callFrame 12 0x1001 42 utop 0 0), .wake cpu1]

theorem ipc_exactly_once_message :
    ((smallIpcAfter ipcTest sendOnce).2 ⟨1, by decide⟩).log = [.sent 0x1000 42, .recv] ∧
      IpcExact (smallIpcAfter ipcTest sendOnce).1 (smallIpcAfter ipcTest sendOnce).2 := by
  have hview : (sendOnce.foldlM (ipcExec ipcTest) (smallSmp, fun _ => .none)).map
      (fun x => (x.2 ⟨1, by decide⟩).log) = some [.sent 0x1000 42, .recv] := by decide +kernel
  have htest : ∀ (m : Smp 2) h c, ipcTest m h c →
      IpcOnly m h c.event ∧ NoSecondDestroy m c.event := by
    intro m h c hc
    rw [ipcTest, Bool.and_eq_true] at hc
    exact ⟨ipcOnly_of_test hc.1, noSecondDestroy_of_test hc.2⟩
  obtain ⟨hrun, hlog⟩ := @smallIpcAfter_run _ (fun m h ev => IpcOnly m h ev ∧ NoSecondDestroy m ev)
    _ _ _ _ hview htest
  exact ⟨hlog, ipc_exactly_once hrun⟩

/-- The parent destroys the running child twice and makes another child, which gets the same
slot. The first child, still on its CPU, begins a receive in the name of the second one. When
the parent sets that one running, the receive returns without a message. -/
def destroyTwice : List (SmpCmd 2) :=
  startChild ++ [.trap cpu0 (callFrame 3 0x1001 0 0 0 0), .trap cpu0 (callFrame 3 0x1001 0 0 0 0),
    .trap cpu0 (callFrame 7 0 0 0 0 0), .trap cpu1 (callFrame 13 utop 0 0 0 0),
    .trap cpu0 (callFrame 8 0x2001 2 0 0 0), .wake cpu1]

theorem recv_returns_without_send :
    ∃ (m : Smp 2) (h : EnvIx → Hist), IpcRun smallReserved IpcOnly m h ∧ ¬ IpcExact m h := by
  have hexec : (destroyTwice.foldlM (ipcExec ipcOnlyTest) (smallSmp, fun _ => .none)).map
      (fun x => (x.1.cpus 1, (x.2 ⟨1, by decide⟩).log)) =
        some (.running ⟨1, by decide⟩, [.recv]) := by
    unfold ipcExec smpExec trap trapDispatch syscall sysEnvDestroy envDestroy
    rw [envFree_eq_byte]
    decide +kernel
  obtain ⟨x, hx, heq⟩ := Option.map_eq_some_iff.mp hexec
  obtain ⟨hcpu, hlog⟩ := Prod.mk.inj heq
  refine ⟨x.1, x.2, IpcRun.execAll (x := (smallSmp, fun _ => .none)) (fun _ _ _ => ipcOnly_of_test)
    (.boot smallSmp_booted) hx, fun hexact => ?_⟩
  have hcomplete := hexact.resumed 1 ⟨1, by decide⟩ hcpu
  rw [hlog] at hcomplete
  cases hcomplete

end Jos.Kern
