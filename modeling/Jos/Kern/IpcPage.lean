import Jos.Kern.Machine

/-!
# Page transfer by IPC

A receiver says where it wants a page in `env_ipc_dstva`, and `sys_ipc_recv` leaves the
field as it was when the receiver wants none. The runs of this module carry the address
that each environment passed to its pending `sys_ipc_recv`, and the theorem compares what
a successful send does with what both sides asked for.

Main results:
* `ipc_transfer_iff`: when a send does what both sides asked for;
* `ipc_transfer_stale`: a page that nobody asked for.
-/

namespace Jos.Kern

open Jos.Lib Kernel

/-- Note the address passed to a `sys_ipc_recv` that blocks. -/
def record : Event → (EnvIx → BitVec 32) → EnvIx → BitVec 32
  | .call cur c .yield, w =>
      match c with
      | .ipcRecv dstva => Function.update w cur dstva
      | _ => w
  | _, w => w

/-- A reachable state, with the address each environment passed to its last
`sys_ipc_recv`. -/
inductive IpcReachable (R : Nat → Prop) : Kernel → (EnvIx → BitVec 32) → Prop
  | boot {s : Kernel} (h : Booted R s) (w : EnvIx → BitVec 32) : IpcReachable R s w
  | step {s s' : Kernel} {w : EnvIx → BitVec 32} {ev : Event} (h : IpcReachable R s w)
      (hstep : Step s ev s') (hb : Bounded s') : IpcReachable R s' (record ev w)

/-- What a successful `sys_ipc_try_send` from `cur` to `e` should do: when both sides ask
for a page it is mapped where the receiver wants it, and otherwise nothing is mapped. -/
structure TransferOk (s : Kernel) (w : EnvIx → BitVec 32) (cur e : EnvIx) (srcva perm : BitVec 32)
    (s' : Kernel) : Prop where
  asked : ∀ (hsrc : srcva < utop) (hdst : w e < utop),
    (∃ f, entryTarget (pteOf s (slotOf cur srcva hsrc)) = some f ∧
      pteOf s' (slotOf e (w e) hdst) = page2pa f ||| perm ||| pteP) ∧
    (s'.envs e).envIpcPerm ≠ 0#32
  not_asked : ¬ (srcva < utop ∧ w e < utop) →
    (∀ k : Slot, k.1 = e → pteOf s' k = pteOf s k) ∧ (s'.envs e).envIpcPerm = 0#32

/-- The page of `cur` at `srcva` is already mapped, without rights, where `e` last wanted
a page. -/
def AlreadyMapped (s : Kernel) (cur e : EnvIx) (srcva : BitVec 32) : Prop :=
  ∃ (hsrc : srcva < utop) (hdst : (s.envs e).envIpcDstva < utop) (f : Nat),
    entryTarget (pteOf s (slotOf cur srcva hsrc)) = some f ∧
      pteOf s (slotOf e _ hdst) = page2pa f ||| pteP

section

variable {R : Nat → Prop} {s s' : Kernel} {w : EnvIx → BitVec 32} {cur e : EnvIx} {ev : Event}

/-- A waiting environment was waiting before, for the same page, or has just asked. -/
def StillWaiting (s : Kernel) (w : EnvIx → BitVec 32) (ev : Event) (s' : Kernel) (e : EnvIx) : Prop :=
  ((s.envs e).envIpcRecving = true ∧ (s'.envs e).envIpcDstva = (s.envs e).envIpcDstva ∧
    record ev w e = w e) ∨
  (record ev w e < utop → (s'.envs e).envIpcDstva = record ev w e)

/-- Changing one environment in a way that does not make it wait. -/
theorem stillWaiting_update {env : Env} {e' : EnvIx} (hrecord : record ev w = w)
    (henvs : s'.envs = Function.update s.envs e' env)
    (hrec : env.envIpcRecving = true → (s.envs e').envIpcRecving = true)
    (hdst : env.envIpcDstva = (s.envs e').envIpcDstva) (h : (s'.envs e).envIpcRecving = true) :
    StillWaiting s w ev s' e := by
  left
  rw [henvs, Function.update_apply] at h
  rw [hrecord, henvs, Function.update_apply]
  by_cases he : e = e'
  · subst he
    rw [if_pos rfl] at h ⊢
    exact ⟨hrec h, hdst, rfl⟩
  · rw [if_neg he] at h ⊢
    exact ⟨h, rfl, rfl⟩

theorem stillWaiting_same (hrecord : record ev w = w) (henvs : s'.envs = s.envs)
    (h : (s'.envs e).envIpcRecving = true) : StillWaiting s w ev s' e := by
  left
  rw [henvs] at h
  rw [hrecord, henvs]
  exact ⟨h, rfl, rfl⟩

theorem Destroyed.stillWaiting {f : Bool} {e' : EnvIx} (hdes : Destroyed s cur e' s' f)
    (hrecord : record ev w = w) (h : (s'.envs e).envIpcRecving = true) :
    StillWaiting s w ev s' e := by
  cases hdes with
  | mark _ _ envs => exact stillWaiting_update hrecord envs id rfl h
  | free _ envs => exact stillWaiting_update hrecord envs id rfl h

theorem EnvChange.stillWaiting {c : Call} {o : Outcome} (hch : EnvChange s cur c o s')
    (h : (s'.envs e).envIpcRecving = true) : StillWaiting s w (.call cur c o) s' e := by
  cases hch with
  | same hsame => exact stillWaiting_same rfl hsame.1 h
  | yield => exact stillWaiting_same rfl rfl h
  | fault hdes => exact hdes.stillWaiting rfl h
  | @destroy envid e' f _ target hdes =>
      refine hdes.stillWaiting ?_ h
      cases f <;> rfl
  | @trapframe envid tf e' s1 _ envTf target hs1 envs free =>
      have h1 : (s1.envs e).envIpcRecving = true := by
        rw [envs, Function.update_apply] at h
        split at h
        · rename_i he
          rw [he]
          exact h
        · exact h
      have hdst : (s'.envs e).envIpcDstva = (s1.envs e).envIpcDstva := by
        rw [envs, Function.update_apply]
        split
        · rename_i he
          rw [he]
        · rfl
      have hw1 : StillWaiting s w (.call cur (.envSetTrapframe envid tf) (.ret 0)) s1 e := by
        rcases hs1 with hsame | ⟨_, hdes⟩
        · exact stillWaiting_same rfl hsame.1 h1
        · exact hdes.stillWaiting rfl h1
      rw [StillWaiting, hdst]
      exact hw1
  | @exofork e' p r s1 _ head alloc envs free =>
      rw [alloc, Function.update_idem, Function.update_self] at envs
      refine stillWaiting_update rfl envs ?_ rfl h
      intro hrec
      cases hrec
  | status target hst envs => exact stillWaiting_update rfl envs id rfl h
  | upcall target envs => exact stillWaiting_update rfl envs id rfl h
  | deliver target recving envs =>
      refine stillWaiting_update rfl envs ?_ rfl h
      intro hrec
      cases hrec
  | @recv dstva _ envs free =>
      by_cases he : e = cur
      · subst he
        right
        simp only [record, Function.update_self, envs]
        intro hlt
        rw [if_pos hlt]
      · left
        rw [envs, Function.update_of_ne he] at h
        simp only [record, envs, Function.update_of_ne he]
        exact ⟨h, trivial, trivial⟩

theorem Step.stillWaiting (hstep : Step s ev s') (h : (s'.envs e).envIpcRecving = true) :
    StillWaiting s w ev s' e := by
  cases hstep with
  | call _ _ run => exact (syscall_envs run).stillWaiting h
  | create run =>
      rcases envAlloc_envs run with ⟨hsame, _⟩ | ⟨e', p, _, _, envs, _⟩
      · exact stillWaiting_same rfl hsame.1 h
      · refine stillWaiting_update rfl envs ?_ rfl h
        intro hrec
        cases hrec
  | region _ _ alloc insert =>
      exact stillWaiting_same rfl ((sameEnvs_pageAlloc alloc).trans (sameEnvs_pageInsert insert)).1 h
  | free _ run => exact stillWaiting_update rfl (envFree_envs run).1 id rfl h
  | store => exact stillWaiting_same rfl rfl h
  | context => exact stillWaiting_update rfl rfl id rfl h

/-- While an environment waits for a page, `env_ipc_dstva` is where it wants it. -/
theorem IpcReachable.dstva_eq (h : IpcReachable R s w) :
    ∀ e, (s.envs e).envIpcRecving = true → w e < utop → (s.envs e).envIpcDstva = w e := by
  induction h with
  | boot h =>
      intro e hrec
      rw [(h.envs e).2.2.2.1] at hrec
      cases hrec
  | step _ hstep _ ih =>
      intro e hrec hlt
      rcases hstep.stillWaiting hrec with ⟨hrec', hdst, hw⟩ | hnew
      · rw [hw] at hlt ⊢
        rw [hdst]
        exact ih e hrec' hlt
      · exact hnew hlt

theorem IpcReachable.reachable (h : IpcReachable R s w) : Reachable R s := by
  induction h with
  | boot h => exact .boot h
  | step _ hstep hb ih => exact .step ih hstep hb

/-- A successful send does what both sides asked for exactly when the sender sends no page,
or the receiver asked for one and `perm` is not zero, or, by accident, the mapping that the
receiver did not ask for is there already. -/
theorem ipc_transfer_iff {envid value srcva perm : BitVec 32} (h : IpcReachable R s w)
    (hcur : (s.envs cur).envStatus ≠ .free) (he : envid2env s cur envid false = some e)
    (hsend : syscall s cur (.ipcTrySend envid value srcva perm) = some (s', .ret 0)) :
    TransferOk s w cur e srcva perm s' ↔
      ¬ srcva < utop ∨ (w e < utop ∧ perm ≠ 0#32) ∨
        (¬ w e < utop ∧ perm = 0#32 ∧ AlreadyMapped s cur e srcva) := by
  obtain ⟨hinv, hb⟩ := h.reachable.inv
  rcases hinv.sysIpcTrySend hcur envid value srcva perm
    fun _ _ _ => hb.dropOk _ with ⟨r, hr, hrun⟩ | ⟨e', hrun, hsrc, he', _⟩ |
      ⟨s1, e', pg, hrun, hop, he', hrec, _, hsrc, hdst, hsh⟩
  · rw [syscall, hrun] at hsend
    cases hsend
    exact absurd rfl hr
  · -- no page is sent
    rw [he] at he'
    cases he'
    rw [syscall, hrun] at hsend
    cases hsend
    refine ⟨fun _ => Or.inl hsrc, fun _ => ⟨fun hlt => absurd hlt hsrc, fun _ => ⟨fun k _ => ?_, ?_⟩⟩⟩
    · rw [ipcDeliver, (target_setEnv (e := e) rfl).2]
    · simp [ipcDeliver]
  · -- a page is sent, to the address in `env_ipc_dstva`
    rw [he] at he'
    cases he'
    rw [syscall, hrun] at hsend
    cases hsend
    have hpte : pteOf (ipcDeliver s1 cur e value perm) = Function.update (pteOf s)
        (slotOf e _ hdst) (page2pa pg ||| perm ||| pteP) := by
      rw [ipcDeliver, (target_setEnv (e := e) rfl).2, hsh.pte]
    have hperm : ((ipcDeliver s1 cur e value perm).envs e).envIpcPerm = perm := by
      simp [ipcDeliver]
    by_cases hw : w e < utop
    · have hdstva := h.dstva_eq e hrec hw
      constructor
      · intro hok
        refine Or.inr (Or.inl ⟨hw, ?_⟩)
        rw [← hperm]
        exact (hok.asked hsrc hw).2
      · rintro (hno | ⟨_, hne⟩ | ⟨hno, _⟩)
        · exact absurd hsrc hno
        · refine ⟨fun _ _ => ⟨⟨pg, hsh.source, ?_⟩, by rw [hperm]; exact hne⟩, fun hno => ?_⟩
          · have hslot : slotOf e (w e) hw = slotOf e _ hdst := by
              simp only [slotOf, hdstva]
            rw [hpte, hslot, Function.update_self]
          · exact absurd ⟨hsrc, hw⟩ hno
        · exact absurd hw hno
    · constructor
      · intro hok
        obtain ⟨hkeep, hzero⟩ := hok.not_asked fun hboth => hw hboth.2
        rw [hperm] at hzero
        refine Or.inr (Or.inr ⟨hw, hzero, hsrc, hdst, pg, hsh.source, ?_⟩)
        have hk := hkeep (slotOf e _ hdst) rfl
        rw [hpte, Function.update_self, hzero, BitVec.or_zero] at hk
        exact hk.symm
      · rintro (hno | ⟨hlt, _⟩ | ⟨_, hzero, _, _, f, hf, hmapped⟩)
        · exact absurd hsrc hno
        · exact absurd hlt hw
        · have hfpg : f = pg := by
            have hsource := hsh.source
            rw [hf] at hsource
            exact Option.some.inj hsource
          refine ⟨fun _ hlt => absurd hlt hw, fun _ => ⟨fun k _ => ?_, by rw [hperm, hzero]⟩⟩
          rw [hpte, hzero, BitVec.or_zero, ← hfpg, ← hmapped, Function.update_eq_self]

end

/-! ## A receiver that asks for no page -/

/-- Execute a command and note what receivers ask for. -/
def execIpc (x : Kernel × (EnvIx → BitVec 32)) (m : Cmd) :
    Option (Kernel × (EnvIx → BitVec 32)) :=
  (execEvent x.1 m).map fun y => (y.2, record y.1 x.2)

theorem ipcReachable_of_exec {R : Nat → Prop} {n : Nat} {x y : Kernel × (EnvIx → BitVec 32)}
    {l : List Cmd} (hr : ReachedIn R n x.1) (h : IpcReachable R x.1 x.2) (hn : n + l.length < 2 ^ 15)
    (hrun : l.foldlM execIpc x = some y) : IpcReachable R y.1 y.2 := by
  induction l generalizing n x with
  | nil =>
      cases hrun
      exact h
  | cons m l ih =>
      simp only [List.foldlM_cons, Option.bind_eq_bind, Option.bind_eq_some_iff] at hrun
      obtain ⟨x1, hx1, hrest⟩ := hrun
      obtain ⟨⟨ev, s1⟩, hev, rfl⟩ := Option.map_eq_some_iff.mp hx1
      have hstep := step_of_exec hev
      have hr1 := hr.step hstep
      simp only [List.length_cons] at hn
      exact ih hr1 (h.step hstep (hr1.reachable (by omega)).1.inv.2) (by omega) hrest

/-- The small machine after some commands, with what receivers asked for. -/
def ipcAfter (l : List Cmd) : Kernel × (EnvIx → BitVec 32) :=
  (l.foldlM execIpc (small, fun _ => utop)).getD (small, fun _ => utop)

theorem ipcAfter_reachable {l : List Cmd} (h : (l.foldlM execIpc (small, fun _ => utop)).isSome)
    (hl : l.length < 2 ^ 15) : IpcReachable smallReserved (ipcAfter l).1 (ipcAfter l).2 := by
  obtain ⟨y, hy⟩ := Option.isSome_iff_exists.mp h
  have := ipcReachable_of_exec (x := (small, fun _ => utop)) (.boot small_booted)
    (.boot small_booted _) (by omega) hy
  rw [ipcAfter, hy]
  exact this

/-- A parent with a page at `0x1000` and a child that waits for a page at `0x2000`. -/
def waitRun : List Cmd :=
  [.create, .call env0 .exofork,
    .call env0 (.pageAlloc 0#32 0x1000#32 7#32),
    .call env0 (.envSetStatus 0x1001#32 2#32),
    .call env1 (.ipcRecv 0x2000#32)]

/-- The child gets a value without a page and then waits for a value only. -/
def staleRun : List Cmd := waitRun ++
  [.call env0 (.ipcTrySend 0x1001#32 1#32 utop 0#32),
    .call env1 (.ipcRecv utop)]

/-- The child asked for a page and gets it. -/
theorem ipc_transfer_page :
    ∃ s', syscall (ipcAfter waitRun).1 ⟨0, by decide⟩
        (.ipcTrySend 0x1001#32 2#32 0x1000#32 7#32) = some (s', .ret 0) ∧
      TransferOk (ipcAfter waitRun).1 (ipcAfter waitRun).2 ⟨0, by decide⟩ ⟨1, by decide⟩
        0x1000#32 7#32 s' := by
  have hout : (syscall (ipcAfter waitRun).1 ⟨0, by decide⟩
      (.ipcTrySend 0x1001#32 2#32 0x1000#32 7#32)).map (·.2) = some (.ret 0) := by
    decide +kernel
  obtain ⟨⟨s', o⟩, hs', rfl⟩ := Option.map_eq_some_iff.mp hout
  exact ⟨s', hs', (ipc_transfer_iff (ipcAfter_reachable (by decide +kernel) (by decide))
    (by decide +kernel) (by decide +kernel) hs').mpr
      (Or.inr (Or.inl ⟨by decide +kernel, by decide⟩))⟩

/-- The page arrives at `0x2000` although the child asked for none. -/
theorem ipc_transfer_stale :
    IpcReachable smallReserved (ipcAfter staleRun).1 (ipcAfter staleRun).2 ∧
    (ipcAfter staleRun).2 ⟨1, by decide⟩ = utop ∧
    envid2env (ipcAfter staleRun).1 ⟨0, by decide⟩ 0x1001#32 false = some ⟨1, by decide⟩ ∧
    ∃ s', syscall (ipcAfter staleRun).1 ⟨0, by decide⟩
        (.ipcTrySend 0x1001#32 2#32 0x1000#32 7#32) = some (s', .ret 0) ∧
      ¬ TransferOk (ipcAfter staleRun).1 (ipcAfter staleRun).2 ⟨0, by decide⟩ ⟨1, by decide⟩
        0x1000#32 7#32 s' := by
  refine ⟨ipcAfter_reachable (by decide +kernel) (by decide), by decide +kernel,
    by decide +kernel, ?_⟩
  have hout : (syscall (ipcAfter staleRun).1 ⟨0, by decide⟩
      (.ipcTrySend 0x1001#32 2#32 0x1000#32 7#32)).map
        (fun x => (x.2, (x.1.envs ⟨1, by decide⟩).envIpcPerm)) = some (.ret 0, 7#32) := by
    decide +kernel
  obtain ⟨⟨s', o⟩, hs', heq⟩ := Option.map_eq_some_iff.mp hout
  obtain ⟨rfl, hperm⟩ := Prod.mk.inj heq
  refine ⟨s', hs', fun hok => ?_⟩
  have := (hok.not_asked (by decide +kernel)).2
  simp only at hperm
  rw [hperm] at this
  exact absurd this (by decide)

end Jos.Kern
