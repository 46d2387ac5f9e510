import Jos.Kern.IpcPage
import Jos.Kern.PteChange

/-!
# A new environment in a used slot

`env_alloc` takes the first slot of `env_free_list`, and some environment may have used it
before. It sets most fields of `struct Env`; of the fields for IPC it sets only
`env_ipc_recving`, and leaves `env_ipc_dstva` and the last message to the next
`sys_ipc_recv` and `sys_ipc_try_send`.

Two machines with the same first free slot are compared here, each with a history of its
own. `CommonRun` drives both: the environment in the slot receives at the same addresses,
and it is sent the same pages, while anything else may happen that leaves it alone.

Main results:
* `slot_reuse_alike`: what two machines with the same slot have in common;
* `slot_reuse_differs`: what they do not.
-/

namespace Jos.Kern

open Jos.Lib Kernel

/-! ## Address spaces of two machines -/

/-- Both entries are absent, or they map the same page with the same rights. The frames of
a page in the two machines are related by `ρ`. -/
def SameEntry (ρ : Nat → Nat → Prop) (w₁ w₂ : BitVec 32) : Prop :=
  (entryTarget w₁ = none ∧ entryTarget w₂ = none) ∨
    ∃ f₁ f₂, entryTarget w₁ = some f₁ ∧ entryTarget w₂ = some f₂ ∧ ρ f₁ f₂ ∧
      w₁ &&& 0xFFF#32 = w₂ &&& 0xFFF#32

/-- Environment `e` has the same address space below `UTOP` in both machines. -/
def SameSpace (ρ : Nat → Nat → Prop) (e : EnvIx) (s₁ s₂ : Kernel) : Prop :=
  ∀ k : Slot, k.1 = e → SameEntry ρ (pteOf s₁ k) (pteOf s₂ k)

section

variable {ρ : Nat → Nat → Prop} {w₁ w₂ perm : BitVec 32} {f₁ f₂ : Nat}

theorem page2pa_low (f : Nat) : page2pa f &&& 0xFFF#32 = 0#32 := by
  unfold page2pa
  ext i hi
  have hmask : (0xFFF#32)[i] = decide (i < 12) := by
    revert i
    decide
  rw [BitVec.getElem_and, BitVec.getElem_shiftLeft, hmask]
  by_cases h : i < 12
  · simp [h]
  · simp [h]

/-- The entries that `page_insert` writes for one page and one `perm`. -/
theorem sameEntry_inserted (hρ : ρ f₁ f₂)
    (h₁ : entryTarget (page2pa f₁ ||| perm ||| pteP) = some f₁)
    (h₂ : entryTarget (page2pa f₂ ||| perm ||| pteP) = some f₂) :
    SameEntry ρ (page2pa f₁ ||| perm ||| pteP) (page2pa f₂ ||| perm ||| pteP) := by
  have hlow : ∀ f, (page2pa f ||| perm ||| pteP) &&& 0xFFF#32 = (perm ||| pteP) &&& 0xFFF#32 := by
    intro f
    rw [BitVec.or_assoc, BitVec.and_or_distrib_right, page2pa_low, BitVec.zero_or]
  right
  refine ⟨f₁, f₂, h₁, h₂, hρ, ?_⟩
  rw [hlow, hlow]

/-- The flags decide whether a page may be passed on for writing. -/
theorem grantsWrite_congr (h : w₁ &&& 0xFFF#32 = w₂ &&& 0xFFF#32) :
    grantsWrite perm w₁ = grantsWrite perm w₂ := by
  have hw : ∀ w : BitVec 32, w &&& pteW = w &&& 0xFFF#32 &&& pteW := by
    intro w
    rw [BitVec.and_assoc]
    rfl
  unfold grantsWrite
  rw [hw w₁, hw w₂, h]

end

/-! ## The new environment -/

/-- Both machines have set up slot `e`: with `env_alloc`, or with `sys_exofork` by callers
that have saved the same registers. -/
inductive SetUpBoth (e : EnvIx) (s₁ s₂ : Kernel) : Kernel → Kernel → Prop
  | envAlloc {parent₁ parent₂ : BitVec 32} {t₁ t₂ : Kernel}
      (run₁ : envAlloc s₁ parent₁ = some (t₁, .ok e))
      (run₂ : envAlloc s₂ parent₂ = some (t₂, .ok e)) : SetUpBoth e s₁ s₂ t₁ t₂
  | exofork {cur₁ cur₂ : EnvIx} {r₁ r₂ : Int} {t₁ t₂ : Kernel}
      (live₁ : (s₁.envs cur₁).envStatus ≠ .free) (live₂ : (s₂.envs cur₂).envStatus ≠ .free)
      (caller : (s₁.envs cur₁).envTf = (s₂.envs cur₂).envTf)
      (run₁ : syscall s₁ cur₁ .exofork = some (t₁, .ret r₁)) (made₁ : 0 ≤ r₁)
      (run₂ : syscall s₂ cur₂ .exofork = some (t₂, .ret r₂)) (made₂ : 0 ≤ r₂) :
      SetUpBoth e s₁ s₂ t₁ t₂

/-- What `env_alloc` leaves of the previous occupant's IPC. -/
structure SameMessage (env env' : Env) : Prop where
  envIpcDstva : env'.envIpcDstva = env.envIpcDstva
  envIpcValue : env'.envIpcValue = env.envIpcValue
  envIpcFrom : env'.envIpcFrom = env.envIpcFrom
  envIpcPerm : env'.envIpcPerm = env.envIpcPerm

/-- The new environments look the same, apart from what their slots were used for. -/
structure NewAlike (e : EnvIx) (s₁ s₂ t₁ t₂ : Kernel) : Prop where
  envTf : (t₁.envs e).envTf = (t₂.envs e).envTf
  envStatus : (t₁.envs e).envStatus = (t₂.envs e).envStatus
  envType : (t₁.envs e).envType = (t₂.envs e).envType
  envPgfaultUpcall : (t₁.envs e).envPgfaultUpcall = (t₂.envs e).envPgfaultUpcall
  recving₁ : (t₁.envs e).envIpcRecving = false
  recving₂ : (t₂.envs e).envIpcRecving = false
  message₁ : SameMessage (s₁.envs e) (t₁.envs e)
  message₂ : SameMessage (s₂.envs e) (t₂.envs e)

/-- Environment `e` is in use under an id that `envid2env` finds. -/
structure HasId (R : Nat → Prop) (e : EnvIx) (s : Kernel) : Prop where
  inv : Inv R s
  status : (s.envs e).envStatus ≠ .free
  envId : (s.envs e).envId ≠ 0#32
  envx : envx (s.envs e).envId = e

/-- Environment `e` has no page. -/
def NoPages (s : Kernel) (e : EnvIx) : Prop := ∀ k : Slot, k.1 = e → entryTarget (pteOf s k) = none

section

variable {R R₁ R₂ : Nat → Prop} {ρ : Nat → Nat → Prop} {s s₁ s₂ t t₁ t₂ : Kernel} {e cur : EnvIx}

theorem HasId.found (h : HasId R e s) (cur : EnvIx) :
    envid2env s cur (s.envs e).envId false = some e := by
  simp [envid2env, h.envId, h.envx, h.status]

theorem noPages_of_free (h : Inv R s) (hfree : (s.envs e).envStatus = .free) : NoPages s e := by
  rintro ⟨e', i, j⟩ rfl
  have hdir := (h.envs.pgdir_iff e').mpr hfree
  rw [pteOf_of_none (by simp [target, hdir]), entryTarget_zero]

theorem NoPages.sameSpace (h₁ : NoPages s₁ e) (h₂ : NoPages s₂ e) : SameSpace ρ e s₁ s₂ :=
  fun k hk => Or.inl ⟨h₁ k hk, h₂ k hk⟩

/-- A new environment: `newEnv` and what the caller of `env_alloc` makes of it. -/
structure Fresh (R : Nat → Prop) (s : Kernel) (e : EnvIx) (envTf : Trapframe) (st : EnvStatus)
    (t : Kernel) : Prop where
  hasId : HasId R e t
  empty : NoPages t e
  envTf : (t.envs e).envTf = envTf
  envStatus : (t.envs e).envStatus = st
  envType : (t.envs e).envType = .user
  envPgfaultUpcall : (t.envs e).envPgfaultUpcall = 0#32
  recving : (t.envs e).envIpcRecving = false
  message : SameMessage (s.envs e) (t.envs e)

theorem nextEnvId_ne_zero (e : EnvIx) (envId : BitVec 32) : nextEnvId e envId ≠ 0#32 := by
  intro h
  have hpos := nextEnvId_pos e envId
  rw [h] at hpos
  exact absurd hpos (by decide)

theorem fresh_of_envAlloc {parent : BitVec 32} (h : Inv R s)
    (hrun : envAlloc s parent = some (t, .ok e)) : Fresh R s e initTf .runnable t := by
  rcases h.envAlloc_cases hrun with ⟨_, _, hno⟩ | ⟨e', heq, hal⟩
  · cases hno
  · cases heq
    obtain ⟨p, hp⟩ := hal.envs
    have henv : t.envs e = newEnv e p parent (s.envs e) := by rw [hp, setEnv_self]
    refine ⟨⟨hal.inv, ?_, ?_, ?_⟩, ?_, ?_, ?_, ?_, ?_, ?_, ?_⟩
    · rw [hal.status]
      simp
    · rw [henv]
      exact nextEnvId_ne_zero e (s.envs e).envId
    · rw [henv]
      exact envx_nextEnvId e (s.envs e).envId
    · unfold NoPages
      rw [hal.pte]
      exact noPages_of_free h hal.was_free
    all_goals rw [henv]
    · rfl
    · rfl
    · rfl
    · rfl
    · rfl
    · exact ⟨rfl, rfl, rfl, rfl⟩

theorem fresh_of_exofork {r : Int} (h : Inv R s) (hcur : (s.envs cur).envStatus ≠ .free)
    (hhead : s.envFreeList = some e) (hrun : syscall s cur .exofork = some (t, .ret r))
    (hr : 0 ≤ r) :
    Fresh R s e { (s.envs cur).envTf with
      tfRegs := { (s.envs cur).envTf.tfRegs with regEax := 0#32 } } .notRunnable t := by
  simp only [syscall, sysExofork, Option.bind_eq_bind, Option.bind_eq_some_iff] at hrun
  obtain ⟨⟨s1, q⟩, hal, hrun⟩ := hrun
  rcases envAlloc_envs hal with ⟨_, n, hn, rfl⟩ | ⟨e', p, rfl, hfl, henvs, _⟩
  · cases hrun
    omega
  · rw [hhead] at hfl
    cases hfl
    have hfresh := fresh_of_envAlloc h hal
    have hne : cur ≠ e := by
      rintro rfl
      rcases h.envAlloc_cases hal with ⟨_, _, hno⟩ | ⟨e', heq, hal'⟩
      · cases hno
      · cases heq
        exact hcur hal'.was_free
    cases hrun
    have hcaller : s1.envs cur = s.envs cur := by rw [henvs, Function.update_of_ne hne]
    have hkept : Inv R (s1.setEnv e (exoforkEnv (s1.envs cur))) :=
      hfresh.hasId.inv.setEnv rfl rfl (by simp [exoforkEnv, hfresh.hasId.status])
        (hfresh.hasId.inv.envs.dstva_ok e)
    have hpte := (target_setEnv (s := s1) (e := e) (g := exoforkEnv (s1.envs cur)) rfl).2
    refine ⟨⟨hkept, ?_, ?_, ?_⟩, ?_, ?_, ?_, ?_, ?_, ?_, ?_⟩
    · simp [exoforkEnv]
    · rw [setEnv_self]
      exact hfresh.hasId.envId
    · rw [setEnv_self]
      exact hfresh.hasId.envx
    · unfold NoPages
      rw [hpte]
      exact hfresh.empty
    all_goals rw [setEnv_self]
    · simp [exoforkEnv, hcaller]
    · rfl
    · exact hfresh.envType
    · exact hfresh.envPgfaultUpcall
    · exact hfresh.recving
    · exact ⟨hfresh.message.1, hfresh.message.2, hfresh.message.3, hfresh.message.4⟩

/-- Both new environments are as `env_alloc` and `sys_exofork` set them up. -/
theorem SetUpBoth.fresh (h : SetUpBoth e s₁ s₂ t₁ t₂) (h₁ : Inv R₁ s₁) (h₂ : Inv R₂ s₂)
    (head₁ : s₁.envFreeList = some e) (head₂ : s₂.envFreeList = some e) :
    ∃ tf st, Fresh R₁ s₁ e tf st t₁ ∧ Fresh R₂ s₂ e tf st t₂ := by
  cases h with
  | envAlloc run₁ run₂ => exact ⟨_, _, fresh_of_envAlloc h₁ run₁, fresh_of_envAlloc h₂ run₂⟩
  | exofork live₁ live₂ caller run₁ made₁ run₂ made₂ =>
      refine ⟨_, _, fresh_of_exofork h₁ live₁ head₁ run₁ made₁, ?_⟩
      rw [caller]
      exact fresh_of_exofork h₂ live₂ head₂ run₂ made₂

theorem Fresh.newAlike {tf : Trapframe} {st : EnvStatus} (h₁ : Fresh R₁ s₁ e tf st t₁)
    (h₂ : Fresh R₂ s₂ e tf st t₂) : NewAlike e s₁ s₂ t₁ t₂ where
  envTf := h₁.envTf.trans h₂.envTf.symm
  envStatus := h₁.envStatus.trans h₂.envStatus.symm
  envType := h₁.envType.trans h₂.envType.symm
  envPgfaultUpcall := h₁.envPgfaultUpcall.trans h₂.envPgfaultUpcall.symm
  recving₁ := h₁.recving
  recving₂ := h₂.recving
  message₁ := h₁.message
  message₂ := h₂.message

end

/-! ## Common continuations -/

/-- A step that does nothing to environment `e` but run it, or block it, or fault it. -/
structure LeavesAlone (e : EnvIx) (u t : Kernel) : Prop where
  envId : (t.envs e).envId = (u.envs e).envId
  inUse : (t.envs e).envStatus ≠ .free
  recving : (t.envs e).envIpcRecving = (u.envs e).envIpcRecving
  dstva : (t.envs e).envIpcDstva = (u.envs e).envIpcDstva
  pte : ∀ k : Slot, k.1 = e → pteOf t k = pteOf u k

/-- Two runs in which environment `e` calls `sys_ipc_recv` with the same arguments, and is
sent the same values and pages. `asked` says that it has asked for a page, and no page is
sent to it before. Out of memory is the only failure that depends on the rest of the machine. -/
inductive CommonRun (ρ : Nat → Nat → Prop) (e : EnvIx) (s₁ s₂ : Kernel) : Prop → Kernel → Kernel → Prop
  | start (b₁ : Bounded s₁) (b₂ : Bounded s₂) : CommonRun ρ e s₁ s₂ False s₁ s₂
  | recv {asked : Prop} {u₁ u₂ t₁ t₂ : Kernel} {dstva : BitVec 32} {o₁ o₂ : Outcome}
      (h : CommonRun ρ e s₁ s₂ asked u₁ u₂)
      (step₁ : Step u₁ (.call e (.ipcRecv dstva) o₁) t₁) (b₁ : Bounded t₁)
      (step₂ : Step u₂ (.call e (.ipcRecv dstva) o₂) t₂) (b₂ : Bounded t₂) :
      CommonRun ρ e s₁ s₂ (asked ∨ (dstva < utop ∧ pgoff dstva = 0)) t₁ t₂
  | send {asked : Prop} {u₁ u₂ t₁ t₂ : Kernel} {cur₁ cur₂ : EnvIx} {value srcva perm : BitVec 32}
      {o₁ o₂ : Outcome} (h : CommonRun ρ e s₁ s₂ asked u₁ u₂)
      (wanted : srcva < utop → (u₁.envs e).envIpcRecving = true → asked)
      (source : ∀ low : srcva < utop,
        SameEntry ρ (pteOf u₁ (slotOf cur₁ srcva low)) (pteOf u₂ (slotOf cur₂ srcva low)))
      (memory : o₁ = .ret (-eNoMem) ↔ o₂ = .ret (-eNoMem))
      (step₁ : Step u₁ (.call cur₁ (.ipcTrySend (u₁.envs e).envId value srcva perm) o₁) t₁)
      (b₁ : Bounded t₁)
      (step₂ : Step u₂ (.call cur₂ (.ipcTrySend (u₂.envs e).envId value srcva perm) o₂) t₂)
      (b₂ : Bounded t₂) : CommonRun ρ e s₁ s₂ asked t₁ t₂
  | other₁ {asked : Prop} {u₁ u₂ t₁ : Kernel} {ev : Event} (h : CommonRun ρ e s₁ s₂ asked u₁ u₂)
      (step : Step u₁ ev t₁) (b : Bounded t₁) (alone : LeavesAlone e u₁ t₁) :
      CommonRun ρ e s₁ s₂ asked t₁ u₂
  | other₂ {asked : Prop} {u₁ u₂ t₂ : Kernel} {ev : Event} (h : CommonRun ρ e s₁ s₂ asked u₁ u₂)
      (step : Step u₂ ev t₂) (b : Bounded t₂) (alone : LeavesAlone e u₂ t₂) :
      CommonRun ρ e s₁ s₂ asked u₁ t₂

/-- What later receives and sends can see of environment `e` is the same in both machines,
except `env_ipc_dstva` before it has asked for a page. -/
structure Alike (ρ : Nat → Nat → Prop) (e : EnvIx) (asked : Prop) (u₁ u₂ : Kernel) : Prop where
  recving : (u₁.envs e).envIpcRecving = (u₂.envs e).envIpcRecving
  dstva : asked → (u₁.envs e).envIpcDstva = (u₂.envs e).envIpcDstva
  space : SameSpace ρ e u₁ u₂

/-- The checks of `sys_ipc_try_send` to a receiver, for a page with entry `w`. -/
def SendOk (env : Env) (srcva perm w : BitVec 32) : Prop :=
  env.envIpcRecving = true ∧ (srcva < utop → pgoff srcva = 0 ∧ (entryTarget w).isSome ∧
    badPerm perm = false ∧ grantsWrite perm w = false)

/-- The entry of `cur` at `srcva`, if that is an address for a page. -/
def sourceEntry (s : Kernel) (cur : EnvIx) (srcva : BitVec 32) : BitVec 32 :=
  if low : srcva < utop then pteOf s (slotOf cur srcva low) else 0#32

/-- Environment `e` has its message. -/
structure Woken (e : EnvIx) (u t : Kernel) : Prop where
  envId : (t.envs e).envId = (u.envs e).envId
  status : (t.envs e).envStatus = .runnable
  recving : (t.envs e).envIpcRecving = false
  dstva : (t.envs e).envIpcDstva = (u.envs e).envIpcDstva

/-- The effect of a send to `e`: nothing, or the message arrives, with the page. -/
inductive SendEffect (u : Kernel) (cur e : EnvIx) (srcva perm : BitVec 32) : Outcome → Kernel → Prop
  | refused {r : Int} (hr : r ≠ 0)
      (why : r = -eNoMem ∨ ¬ SendOk (u.envs e) srcva perm (sourceEntry u cur srcva)) :
      SendEffect u cur e srcva perm (.ret r) u
  | value {t : Kernel} (ok : SendOk (u.envs e) srcva perm (sourceEntry u cur srcva))
      (high : ¬ srcva < utop) (woken : Woken e u t) (pte : pteOf t = pteOf u) :
      SendEffect u cur e srcva perm (.ret 0) t
  | page {t : Kernel} {f : Nat} (ok : SendOk (u.envs e) srcva perm (sourceEntry u cur srcva))
      (low : srcva < utop) (woken : Woken e u t) (hdst : (u.envs e).envIpcDstva < utop)
      (source : entryTarget (sourceEntry u cur srcva) = some f)
      (target : entryTarget (page2pa f ||| perm ||| pteP) = some f)
      (pte : pteOf t = Function.update (pteOf u) (slotOf e _ hdst) (page2pa f ||| perm ||| pteP)) :
      SendEffect u cur e srcva perm (.ret 0) t

/-- The effect of `sys_ipc_recv`: nothing, or `e` waits. -/
inductive RecvEffect (u : Kernel) (e : EnvIx) (dstva : BitVec 32) : Kernel → Prop
  | refused (bad : dstva < utop ∧ pgoff dstva ≠ 0) : RecvEffect u e dstva u
  | waits {t : Kernel} (ok : ¬ (dstva < utop ∧ pgoff dstva ≠ 0))
      (envId : (t.envs e).envId = (u.envs e).envId) (status : (t.envs e).envStatus = .notRunnable)
      (recving : (t.envs e).envIpcRecving = true)
      (hdst : (t.envs e).envIpcDstva = if dstva < utop then dstva else (u.envs e).envIpcDstva)
      (pte : pteOf t = pteOf u) : RecvEffect u e dstva t

section

variable {R R₁ R₂ : Nat → Prop} {ρ : Nat → Nat → Prop} {asked : Prop} {u u₁ u₂ t t₁ t₂ : Kernel}
  {e cur cur₁ cur₂ : EnvIx} {o o₁ o₂ : Outcome} {value dstva srcva perm : BitVec 32} {ev : Event}

theorem sourceEntry_of_lt (low : srcva < utop) :
    sourceEntry u cur srcva = pteOf u (slotOf cur srcva low) := dif_pos low

theorem woken_ipcDeliver (henvs : t.envs = u.envs) :
    Woken e u (ipcDeliver t cur e value perm) := by
  refine ⟨?_, ?_, ?_, ?_⟩
  · simp [ipcDeliver, henvs]
  · simp [ipcDeliver]
  · simp [ipcDeliver]
  · simp [ipcDeliver, henvs]

/-- When the checks pass, only the memory for a page table can be missing. -/
theorem HasId.ipcTrySend_of_ok (h : HasId R e u) (hcur : (u.envs cur).envStatus ≠ .free)
    (hok : SendOk (u.envs e) srcva perm (sourceEntry u cur srcva))
    (hrun : sysIpcTrySend u cur (u.envs e).envId value srcva perm = some (t, o)) :
    o = .ret 0 ∨ o = .ret (-eNoMem) := by
  obtain ⟨hrec, hpage⟩ := hok
  unfold sysIpcTrySend at hrun
  simp only [h.found cur, hrec, Bool.not_true, Bool.false_eq_true, if_false] at hrun
  by_cases low : srcva < utop
  · obtain ⟨hoff, hsome, hperm, hw⟩ := hpage low
    rw [sourceEntry_of_lt low] at hsome hw
    obtain ⟨hdst, _⟩ := h.inv.envs.dstva_ok e
    obtain ⟨sd, hsd⟩ := h.inv.envs.exists_pgdir hcur
    rcases h.inv.pages.pageLookup hsd low with ⟨hnone, _⟩ | ⟨pg, pte, _, hlook, hpte⟩
    · rw [hnone] at hsome
      cases hsome
    · rw [← hpte] at hw
      simp only [low, hdst, and_self, if_true, hoff, ne_eq, not_true_eq_false, if_false, hsd, hlook,
        hperm, hw, Bool.false_eq_true, Option.bind_eq_bind, Option.bind_some,
        Option.bind_eq_some_iff] at hrun
      obtain ⟨dd, _, ⟨s1, r⟩, _, hrun⟩ := hrun
      split at hrun
      · cases hrun
        exact Or.inr rfl
      · cases hrun
        exact Or.inl rfl
  · rw [if_neg fun hboth => low hboth.1] at hrun
    cases hrun
    exact Or.inl rfl

/-- What `sys_ipc_try_send` to `e` does. -/
theorem HasId.sendEffect (h : HasId R e u) (hb : Bounded u) (hcur : (u.envs cur).envStatus ≠ .free)
    (hrun : syscall u cur (.ipcTrySend (u.envs e).envId value srcva perm) = some (t, o)) :
    SendEffect u cur e srcva perm o t := by
  rw [syscall] at hrun
  rcases h.inv.sysIpcTrySend hcur (u.envs e).envId value srcva perm
    fun _ _ _ => hb.dropOk _ with ⟨r, hr, hrun'⟩ | ⟨e', hrun', high, he', hrec⟩ |
      ⟨s1, e', pg, hrun', hop, he', hrec, hoff, low, hdst, hsh⟩
  · have hcases := fun hok => h.ipcTrySend_of_ok hcur hok hrun'
    rw [hrun'] at hrun
    cases hrun
    refine .refused hr ?_
    by_cases hok : SendOk (u.envs e) srcva perm (sourceEntry u cur srcva)
    · rcases hcases hok with h0 | hmem
      · cases h0
        exact absurd rfl hr
      · cases hmem
        exact Or.inl rfl
    · exact Or.inr hok
  · rw [h.found cur] at he'
    cases he'
    rw [hrun'] at hrun
    cases hrun
    exact .value ⟨hrec, fun low => absurd low high⟩ high (woken_ipcDeliver rfl)
      (target_setEnv (e := e) rfl).2
  · rw [h.found cur] at he'
    cases he'
    rw [hrun'] at hrun
    cases hrun
    have hsource : entryTarget (sourceEntry u cur srcva) = some pg := by
      rw [sourceEntry_of_lt low]
      exact hsh.source
    have hw : grantsWrite perm (sourceEntry u cur srcva) = false := by
      rw [sourceEntry_of_lt low]
      exact hsh.write_ok
    have hpte : pteOf (ipcDeliver s1 cur e value perm) = pteOf s1 := (target_setEnv (e := e) rfl).2
    have hok : SendOk (u.envs e) srcva perm (sourceEntry u cur srcva) :=
      ⟨hrec, fun _ => ⟨hoff, by rw [hsource, Option.isSome_some], hsh.perm_ok, hw⟩⟩
    exact .page hok low (woken_ipcDeliver hop.envs) hdst hsource hsh.target_eq (hpte.trans hsh.pte)

theorem recvEffect (hrun : syscall u e (.ipcRecv dstva) = some (t, o)) : RecvEffect u e dstva t := by
  simp only [syscall, sysIpcRecv, Option.some.injEq] at hrun
  split at hrun
  · rename_i hbad
    cases hrun
    exact .refused hbad
  · rename_i hok
    cases hrun
    refine .waits hok ?_ ?_ ?_ ?_ (target_setEnv (e := e) rfl).2
    all_goals rw [setEnv_self]

/-! ### One step of both machines -/

theorem HasId.step (h : HasId R e u) (hb : Bounded u) (hstep : Step u ev t)
    (hid : (t.envs e).envId = (u.envs e).envId) (hlive : (t.envs e).envStatus ≠ .free) :
    HasId R e t := by
  refine ⟨(h.inv.step hb hstep).inv, hlive, ?_, ?_⟩
  · rw [hid]
    exact h.envId
  · rw [hid]
    exact h.envx

theorem HasId.recv (h : HasId R e u) (hb : Bounded u)
    (hstep : Step u (.call e (.ipcRecv dstva) o) t) : HasId R e t ∧ RecvEffect u e dstva t := by
  cases hstep with
  | call live safe run =>
      have heff := recvEffect run
      refine ⟨?_, heff⟩
      cases heff with
      | refused => exact h
      | waits _ hid hst =>
          refine h.step hb (.call live safe run) hid ?_
          rw [hst]
          simp

theorem HasId.send (h : HasId R e u) (hb : Bounded u)
    (hstep : Step u (.call cur (.ipcTrySend (u.envs e).envId value srcva perm) o) t) :
    HasId R e t ∧ SendEffect u cur e srcva perm o t := by
  cases hstep with
  | call live safe run =>
      have heff := h.sendEffect hb live run
      refine ⟨?_, heff⟩
      have hwoken : ∀ {t : Kernel}, Woken e u t → (t.envs e).envStatus ≠ .free := by
        intro t hw
        rw [hw.status]
        simp
      cases heff with
      | refused => exact h
      | value _ _ hw => exact h.step hb (.call live safe run) hw.envId (hwoken hw)
      | page _ _ hw => exact h.step hb (.call live safe run) hw.envId (hwoken hw)

theorem Alike.recv (h : Alike ρ e asked u₁ u₂) (h₁ : RecvEffect u₁ e dstva t₁)
    (h₂ : RecvEffect u₂ e dstva t₂) :
    Alike ρ e (asked ∨ (dstva < utop ∧ pgoff dstva = 0)) t₁ t₂ := by
  cases h₁ with
  | refused bad =>
      cases h₂ with
      | refused =>
          refine ⟨h.recving, ?_, h.space⟩
          rintro (hasked | ⟨_, hoff⟩)
          · exact h.dstva hasked
          · exact absurd hoff bad.2
      | waits ok => exact absurd bad ok
  | waits ok _ _ hrec₁ hdst₁ hpte₁ =>
      cases h₂ with
      | refused bad => exact absurd bad ok
      | waits _ _ _ hrec₂ hdst₂ hpte₂ =>
          refine ⟨hrec₁.trans hrec₂.symm, ?_, ?_⟩
          · intro hasked
            rw [hdst₁, hdst₂]
            by_cases hlt : dstva < utop
            · rw [if_pos hlt, if_pos hlt]
            · rw [if_neg hlt, if_neg hlt]
              exact h.dstva (hasked.resolve_right fun hnew => hlt hnew.1)
          · unfold SameSpace
            rw [hpte₁, hpte₂]
            exact h.space

/-- The checks of a send see the same in both machines. -/
theorem SendOk.congr {env₁ env₂ : Env} {w₁ w₂ : BitVec 32} (h : SendOk env₁ srcva perm w₁)
    (hrec : env₁.envIpcRecving = env₂.envIpcRecving)
    (hw : srcva < utop → SameEntry ρ w₁ w₂) : SendOk env₂ srcva perm w₂ := by
  obtain ⟨hwait, hpage⟩ := h
  refine ⟨hrec ▸ hwait, fun low => ?_⟩
  obtain ⟨hoff, hsome, hperm, hgrant⟩ := hpage low
  rcases hw low with ⟨hnone, _⟩ | ⟨f₁, f₂, _, hf₂, _, hflags⟩
  · rw [hnone] at hsome
    cases hsome
  · refine ⟨hoff, by rw [hf₂, Option.isSome_some], hperm, ?_⟩
    rw [← grantsWrite_congr hflags]
    exact hgrant

theorem SameEntry.symm {w₁ w₂ : BitVec 32} (h : SameEntry ρ w₁ w₂) :
    SameEntry (fun f g => ρ g f) w₂ w₁ := by
  rcases h with ⟨h₁, h₂⟩ | ⟨f₁, f₂, h₁, h₂, hρ, hflags⟩
  · exact Or.inl ⟨h₂, h₁⟩
  · exact Or.inr ⟨f₂, f₁, h₂, h₁, hρ, hflags.symm⟩

/-- With memory for a page table, a send succeeds when its checks pass. -/
theorem SendEffect.ret_zero_iff (h : SendEffect u cur e srcva perm o t) (hmem : o ≠ .ret (-eNoMem)) :
    o = .ret 0 ↔ SendOk (u.envs e) srcva perm (sourceEntry u cur srcva) := by
  cases h with
  | refused hr why =>
      constructor
      · intro h0
        cases h0
        exact absurd rfl hr
      · intro hok
        rcases why with rfl | hno
        · exact absurd rfl hmem
        · exact absurd hok hno
  | value ok => exact ⟨fun _ => ok, fun _ => rfl⟩
  | page ok => exact ⟨fun _ => ok, fun _ => rfl⟩

/-- The send succeeds in both machines or in none. -/
theorem Alike.ret_zero_iff (h : Alike ρ e asked u₁ u₂)
    (source : srcva < utop → SameEntry ρ (sourceEntry u₁ cur₁ srcva) (sourceEntry u₂ cur₂ srcva))
    (memory : o₁ = .ret (-eNoMem) ↔ o₂ = .ret (-eNoMem))
    (h₁ : SendEffect u₁ cur₁ e srcva perm o₁ t₁) (h₂ : SendEffect u₂ cur₂ e srcva perm o₂ t₂) :
    o₁ = .ret 0 ↔ o₂ = .ret 0 := by
  by_cases hmem : o₁ = .ret (-eNoMem)
  · rw [hmem, memory.mp hmem]
  · rw [h₁.ret_zero_iff hmem, h₂.ret_zero_iff fun hmem' => hmem (memory.mpr hmem')]
    exact ⟨fun hok => hok.congr h.recving source,
      fun hok => hok.congr h.recving.symm fun low => (source low).symm⟩

theorem Alike.send (h : Alike ρ e asked u₁ u₂)
    (wanted : srcva < utop → (u₁.envs e).envIpcRecving = true → asked)
    (source : ∀ low : srcva < utop,
      SameEntry ρ (pteOf u₁ (slotOf cur₁ srcva low)) (pteOf u₂ (slotOf cur₂ srcva low)))
    (memory : o₁ = .ret (-eNoMem) ↔ o₂ = .ret (-eNoMem))
    (h₁ : SendEffect u₁ cur₁ e srcva perm o₁ t₁) (h₂ : SendEffect u₂ cur₂ e srcva perm o₂ t₂) :
    Alike ρ e asked t₁ t₂ := by
  have hsource : srcva < utop →
      SameEntry ρ (sourceEntry u₁ cur₁ srcva) (sourceEntry u₂ cur₂ srcva) := by
    intro low
    rw [sourceEntry_of_lt low, sourceEntry_of_lt low]
    exact source low
  have hboth := h.ret_zero_iff hsource memory h₁ h₂
  have hwoken : ∀ {t₁ t₂ : Kernel}, Woken e u₁ t₁ → Woken e u₂ t₂ → SameSpace ρ e t₁ t₂ →
      Alike ρ e asked t₁ t₂ := by
    intro t₁ t₂ hw₁ hw₂ hspace
    refine ⟨hw₁.recving.trans hw₂.recving.symm, fun hasked => ?_, hspace⟩
    rw [hw₁.dstva, hw₂.dstva]
    exact h.dstva hasked
  cases h₁ with
  | refused hr =>
      cases h₂ with
      | refused => exact h
      | value | page => exact absurd (Outcome.ret.inj (hboth.mpr rfl)) hr
  | value ok high hw₁ hpte₁ =>
      cases h₂ with
      | refused hr => exact absurd (Outcome.ret.inj (hboth.mp rfl)) hr
      | value _ _ hw₂ hpte₂ =>
          refine hwoken hw₁ hw₂ ?_
          unfold SameSpace
          rw [hpte₁, hpte₂]
          exact h.space
      | page _ low => exact absurd low high
  | page ok low hw₁ hdst₁ hs₁ ht₁ hpte₁ =>
      cases h₂ with
      | refused hr => exact absurd (Outcome.ret.inj (hboth.mp rfl)) hr
      | value _ high => exact absurd low high
      | page _ _ hw₂ hdst₂ hs₂ ht₂ hpte₂ =>
          refine hwoken hw₁ hw₂ ?_
          -- both receivers have asked, so the page goes to the same address
          have hdst := h.dstva (wanted low ok.1)
          have hslot : slotOf e _ hdst₁ = slotOf e _ hdst₂ := by simp only [slotOf, hdst]
          intro k hk
          rw [hpte₁, hpte₂, hslot, Function.update_apply, Function.update_apply]
          split
          · rcases hsource low with ⟨hnone, _⟩ | ⟨f₁, f₂, hf₁, hf₂, hρ, _⟩
            · rw [hnone] at hs₁
              cases hs₁
            · rw [hf₁] at hs₁
              rw [hf₂] at hs₂
              cases hs₁
              cases hs₂
              exact sameEntry_inserted hρ ht₁ ht₂
          · exact h.space k hk

theorem Alike.symm (h : Alike ρ e asked u₁ u₂) : Alike (fun f g => ρ g f) e asked u₂ u₁ :=
  ⟨h.recving.symm, fun hasked => (h.dstva hasked).symm, fun k hk => (h.space k hk).symm⟩

theorem Alike.other (h : Alike ρ e asked u₁ u₂) (alone : LeavesAlone e u₁ t₁) :
    Alike ρ e asked t₁ u₂ := by
  refine ⟨alone.recving.trans h.recving, fun hasked => ?_, fun k hk => ?_⟩
  · rw [alone.dstva]
    exact h.dstva hasked
  · rw [alone.pte k hk]
    exact h.space k hk

/-! ### Runs of both machines -/

/-- In a common run both environments stay alike, and both machines keep their invariants. -/
theorem CommonRun.alike {s₁ s₂ : Kernel} (h : CommonRun ρ e s₁ s₂ asked u₁ u₂)
    (h₁ : HasId R₁ e s₁) (h₂ : HasId R₂ e s₂) (halike : Alike ρ e False s₁ s₂) :
    Alike ρ e asked u₁ u₂ ∧ (HasId R₁ e u₁ ∧ Bounded u₁) ∧ HasId R₂ e u₂ ∧ Bounded u₂ := by
  induction h with
  | start b₁ b₂ => exact ⟨halike, ⟨h₁, b₁⟩, h₂, b₂⟩
  | recv _ step₁ b₁ step₂ b₂ ih =>
      obtain ⟨ih, ⟨hid₁, hb₁⟩, hid₂, hb₂⟩ := ih
      obtain ⟨hid₁', heff₁⟩ := hid₁.recv hb₁ step₁
      obtain ⟨hid₂', heff₂⟩ := hid₂.recv hb₂ step₂
      exact ⟨ih.recv heff₁ heff₂, ⟨hid₁', b₁⟩, hid₂', b₂⟩
  | send _ wanted source memory step₁ b₁ step₂ b₂ ih =>
      obtain ⟨ih, ⟨hid₁, hb₁⟩, hid₂, hb₂⟩ := ih
      obtain ⟨hid₁', heff₁⟩ := hid₁.send hb₁ step₁
      obtain ⟨hid₂', heff₂⟩ := hid₂.send hb₂ step₂
      exact ⟨ih.send wanted source memory heff₁ heff₂, ⟨hid₁', b₁⟩, hid₂', b₂⟩
  | other₁ _ step b alone ih =>
      obtain ⟨ih, ⟨hid₁, hb₁⟩, hrest⟩ := ih
      exact ⟨ih.other alone, ⟨hid₁.step hb₁ step alone.envId alone.inUse, b⟩, hrest⟩
  | other₂ _ step b alone ih =>
      obtain ⟨ih, hrest, hid₂, hb₂⟩ := ih
      exact ⟨(ih.symm.other alone).symm, hrest, hid₂.step hb₂ step alone.envId alone.inUse, b⟩

/-- A new environment looks the same whatever its slot was used for, except for the message
that the previous occupant has left in it, and from then on its address space is the same in
both machines, if it is sent no page before it asks for one. -/
theorem slot_reuse_alike {s₁ s₂ : Kernel} (h₁ : Reachable R₁ s₁) (h₂ : Reachable R₂ s₂)
    (head₁ : s₁.envFreeList = some e) (head₂ : s₂.envFreeList = some e)
    (hset : SetUpBoth e s₁ s₂ t₁ t₂) :
    NewAlike e s₁ s₂ t₁ t₂ ∧ ∀ (ρ : Nat → Nat → Prop) (asked : Prop) (u₁ u₂ : Kernel),
      CommonRun ρ e t₁ t₂ asked u₁ u₂ → SameSpace ρ e u₁ u₂ := by
  obtain ⟨tf, st, hf₁, hf₂⟩ := hset.fresh h₁.inv.1 h₂.inv.1 head₁ head₂
  refine ⟨hf₁.newAlike hf₂, fun ρ asked u₁ u₂ hrun => ?_⟩
  have halike : Alike ρ e False t₁ t₂ :=
    ⟨hf₁.recving.trans hf₂.recving.symm, False.elim, hf₁.empty.sameSpace hf₂.empty⟩
  exact (hrun.alike hf₁.hasId hf₂.hasId halike).1.space

end

/-! ## Two histories of one slot -/

/-- A first child that has waited for a page at `0x2000`, and is destroyed. -/
def receiverGone : List Cmd :=
  [.create, .call env0 .exofork, .call env1 (.ipcRecv 0x2000#32),
    .call env0 (.envDestroy 0x1001#32), .call env0 (.pageAlloc 0#32 0x1000#32 7#32)]

/-- A first child that has done nothing, and is destroyed. -/
def idlerGone : List Cmd :=
  [.create, .call env0 .exofork, .call env0 (.envDestroy 0x1001#32),
    .call env0 (.pageAlloc 0#32 0x1000#32 7#32)]

theorem page1_low : (0x1000#32 : BitVec 32) < utop := by decide

theorem page2_low : (0x2000#32 : BitVec 32) < utop := by decide

theorem page3_low : (0x3000#32 : BitVec 32) < utop := by decide

/-- The message of the parent to its second child: the page at `0x1000`. -/
def secondSend : Call := .ipcTrySend 0x2001#32 2#32 0x1000#32 7#32

/-- The second child waits, and the parent sends the page in frame 3. -/
structure ChildRun (t : Kernel) (dstva : BitVec 32) (u w : Kernel) : Prop where
  recv : syscall t env1 (.ipcRecv dstva) = some (u, .yield)
  envId : (u.envs env1).envId = 0x2001#32
  live : (u.envs env0).envStatus ≠ .free
  source : pteOf u (slotOf env0 0x1000#32 page1_low) = 0x3007#32
  send : syscall u env0 secondSend = some (w, .ret 0)

/-- The frame that the child then has in page `k`. -/
def childView (t : Kernel) (dstva : BitVec 32) (k : Slot) : Option (Option Nat) := do
  let (u, o) ← syscall t env1 (.ipcRecv dstva)
  let (w, o') ← syscall u env0 secondSend
  if o = .yield ∧ o' = .ret 0 ∧ (u.envs env1).envId = 0x2001#32 ∧ (u.envs env0).envStatus ≠ .free ∧
      pteOf u (slotOf env0 0x1000#32 page1_low) = 0x3007#32 then
    some (entryTarget (pteOf w k))
  else none

theorem childRun_of_view {t : Kernel} {dstva : BitVec 32} {k : Slot} {x : Option Nat}
    (h : childView t dstva k = some x) :
    ∃ u w, ChildRun t dstva u w ∧ entryTarget (pteOf w k) = x := by
  simp only [childView, Option.bind_eq_bind, Option.bind_eq_some_iff] at h
  obtain ⟨⟨u, o⟩, hrecv, ⟨w, o'⟩, hsend, h⟩ := h
  simp only [Option.ite_none_right_eq_some, Option.some.injEq] at h
  obtain ⟨⟨rfl, rfl, hid, hlive, hsource⟩, hx⟩ := h
  exact ⟨u, w, ⟨hrecv, hid, hlive, hsource, hsend⟩, hx⟩

/-- After the commands slot 1 is free, and the parent makes its second child there. -/
structure SlotRun (l : List Cmd) (s t : Kernel) : Prop where
  run : l.foldlM exec small = some s
  head : s.envFreeList = some env1
  live : (s.envs env0).envStatus ≠ .free
  parentTf : (s.envs env0).envTf = initTf
  exofork : syscall s env0 .exofork = some (t, .ret 0x2001)
  made : (t.envs env1).envStatus ≠ .free

/-- What the slot holds for `env_ipc_dstva`, and where the message arrives if the child waits
for a value, and for a page at `0x3000`. -/
def slotView (l : List Cmd) : Option (BitVec 32 × Option Nat × Option Nat) := do
  let s ← l.foldlM exec small
  let (t, o) ← syscall s env0 .exofork
  let value ← childView t utop (slotOf env1 0x2000#32 page2_low)
  let page ← childView t 0x3000#32 (slotOf env1 0x3000#32 page3_low)
  if s.envFreeList = some env1 ∧ (s.envs env0).envStatus ≠ .free ∧ (s.envs env0).envTf = initTf ∧
      o = .ret 0x2001 ∧ (t.envs env1).envStatus ≠ .free then
    some ((t.envs env1).envIpcDstva, value, page)
  else none

theorem slotRun_of_view {l : List Cmd} {dstva : BitVec 32} {value page : Option Nat}
    (h : slotView l = some (dstva, value, page)) :
    ∃ s t, SlotRun l s t ∧ (t.envs env1).envIpcDstva = dstva ∧
      childView t utop (slotOf env1 0x2000#32 page2_low) = some value ∧
      childView t 0x3000#32 (slotOf env1 0x3000#32 page3_low) = some page := by
  simp only [slotView, Option.bind_eq_bind, Option.bind_eq_some_iff] at h
  obtain ⟨s, hs, ⟨t, o⟩, ht, v, hv, p, hp, h⟩ := h
  simp only [Option.ite_none_right_eq_some, Option.some.injEq, Prod.mk.injEq] at h
  obtain ⟨⟨hhead, hlive, htf, rfl, hmade⟩, hdst, rfl, rfl⟩ := h
  exact ⟨s, t, ⟨hs, hhead, hlive, htf, ht, hmade⟩, hdst, hv, hp⟩

theorem slotView_receiverGone : slotView receiverGone = some (0x2000#32, some 3, some 3) := by
  unfold slotView exec execEvent syscall sysEnvDestroy envDestroy
  rw [envFree_eq_byte]
  decide +kernel

theorem slotView_idlerGone : slotView idlerGone = some (0#32, none, some 3) := by
  unfold slotView exec execEvent syscall sysEnvDestroy envDestroy
  rw [envFree_eq_byte]
  decide +kernel

section

variable {l l₁ l₂ : List Cmd} {s s₁ s₂ t t₁ t₂ u w : Kernel} {dstva : BitVec 32}

theorem SlotRun.reachedIn (h : SlotRun l s t) : ReachedIn smallReserved l.length s := by
  rw [← Nat.zero_add l.length]
  exact (ReachedIn.boot small_booted).execAll h.run

theorem SlotRun.setUpBoth (h₁ : SlotRun l₁ s₁ t₁) (h₂ : SlotRun l₂ s₂ t₂) :
    SetUpBoth env1 s₁ s₂ t₁ t₂ :=
  .exofork h₁.live h₂.live (h₁.parentTf.trans h₂.parentTf.symm) h₁.exofork (by decide) h₂.exofork
    (by decide)

theorem SlotRun.stepExofork (h : SlotRun l s t) :
    Step s (.call env0 .exofork (.ret 0x2001)) t := .call h.live trivial h.exofork

theorem ChildRun.stepRecv (h : ChildRun t dstva u w) (hmade : (t.envs env1).envStatus ≠ .free) :
    Step t (.call env1 (.ipcRecv dstva) .yield) u := .call hmade trivial h.recv

theorem ChildRun.stepSend (h : ChildRun t dstva u w) :
    Step u (.call env0 secondSend (.ret 0)) w := .call h.live trivial h.send

/-- The counters stay small in such short runs. -/
theorem SlotRun.bounded (h : SlotRun l s t) (hc : ChildRun t dstva u w) (hl : l.length < 100) :
    Bounded t ∧ Bounded u ∧ Bounded w := by
  have hs := h.reachedIn
  have ht := hs.step h.stepExofork
  have hu := ht.step (hc.stepRecv h.made)
  have hw := hu.step hc.stepSend
  exact ⟨(ht.reachable (by omega)).1.inv.2, (hu.reachable (by omega)).1.inv.2,
    (hw.reachable (by omega)).1.inv.2⟩

end

/-- The child asks for a page in both machines and gets it at the same address. -/
theorem slot_reuse_alike_asked :
    ∃ s₁ s₂ t₁ t₂ u₁ u₂ w₁ w₂, SlotRun receiverGone s₁ t₁ ∧ SlotRun idlerGone s₂ t₂ ∧
      ChildRun t₁ 0x3000#32 u₁ w₁ ∧ ChildRun t₂ 0x3000#32 u₂ w₂ ∧
      NewAlike env1 s₁ s₂ t₁ t₂ ∧ SameSpace (fun f g => f = g) env1 w₁ w₂ ∧
      entryTarget (pteOf w₁ (slotOf env1 0x3000#32 page3_low)) = some 3 := by
  obtain ⟨s₁, t₁, hs₁, _, _, hview₁⟩ := slotRun_of_view slotView_receiverGone
  obtain ⟨s₂, t₂, hs₂, _, _, hview₂⟩ := slotRun_of_view slotView_idlerGone
  obtain ⟨u₁, w₁, hc₁, hpage⟩ := childRun_of_view hview₁
  obtain ⟨u₂, w₂, hc₂, _⟩ := childRun_of_view hview₂
  obtain ⟨bt₁, bu₁, bw₁⟩ := hs₁.bounded hc₁ (by decide)
  obtain ⟨bt₂, bu₂, bw₂⟩ := hs₂.bounded hc₂ (by decide)
  have hrecv : CommonRun (fun f g => f = g) env1 t₁ t₂ (False ∨ _) u₁ u₂ :=
    .recv (.start bt₁ bt₂) (hc₁.stepRecv hs₁.made) bu₁ (hc₂.stepRecv hs₂.made) bu₂
  have hsource : SameEntry (fun f g => f = g) (pteOf u₁ (slotOf env0 0x1000#32 page1_low))
      (pteOf u₂ (slotOf env0 0x1000#32 page1_low)) := by
    rw [hc₁.source, hc₂.source]
    exact Or.inr ⟨3, 3, by decide, by decide, rfl, rfl⟩
  have hsend₁ := hc₁.stepSend
  have hsend₂ := hc₂.stepSend
  rw [secondSend, ← hc₁.envId] at hsend₁
  rw [secondSend, ← hc₂.envId] at hsend₂
  have hrun := hrecv.send (fun _ _ => Or.inr (by decide)) (fun _ => hsource) Iff.rfl hsend₁ bw₁
    hsend₂ bw₂
  obtain ⟨hnew, hspace⟩ := slot_reuse_alike (hs₁.reachedIn.reachable (by decide)).1
    (hs₂.reachedIn.reachable (by decide)).1 hs₁.head hs₂.head (hs₁.setUpBoth hs₂)
  exact ⟨s₁, s₂, t₁, t₂, u₁, u₂, w₁, w₂, hs₁, hs₂, hc₁, hc₂, hnew, hspace _ _ _ _ hrun, hpage⟩

/-- The child waits for a value only and is sent the same page by the same calls. Where the
page arrives, and what the slot holds before, depends on the previous occupant. -/
theorem slot_reuse_differs :
    ∃ s₁ s₂ t₁ t₂ u₁ u₂ w₁ w₂, Reachable smallReserved s₁ ∧ Reachable smallReserved s₂ ∧
      s₁.envFreeList = some env1 ∧ s₂.envFreeList = some env1 ∧ SetUpBoth env1 s₁ s₂ t₁ t₂ ∧
      (t₁.envs env1).envIpcDstva ≠ (t₂.envs env1).envIpcDstva ∧
      Step t₁ (.call env1 (.ipcRecv utop) .yield) u₁ ∧
      Step t₂ (.call env1 (.ipcRecv utop) .yield) u₂ ∧
      pteOf u₁ (slotOf env0 0x1000#32 page1_low) = pteOf u₂ (slotOf env0 0x1000#32 page1_low) ∧
      Step u₁ (.call env0 (.ipcTrySend (u₁.envs env1).envId 2#32 0x1000#32 7#32) (.ret 0)) w₁ ∧
      Step u₂ (.call env0 (.ipcTrySend (u₂.envs env1).envId 2#32 0x1000#32 7#32) (.ret 0)) w₂ ∧
      ∀ ρ, ¬ SameSpace ρ env1 w₁ w₂ := by
  obtain ⟨s₁, t₁, hs₁, hdst₁, hview₁, _⟩ := slotRun_of_view slotView_receiverGone
  obtain ⟨s₂, t₂, hs₂, hdst₂, hview₂, _⟩ := slotRun_of_view slotView_idlerGone
  obtain ⟨u₁, w₁, hc₁, hmapped⟩ := childRun_of_view hview₁
  obtain ⟨u₂, w₂, hc₂, hnone⟩ := childRun_of_view hview₂
  refine ⟨s₁, s₂, t₁, t₂, u₁, u₂, w₁, w₂, (hs₁.reachedIn.reachable (by decide)).1,
    (hs₂.reachedIn.reachable (by decide)).1, hs₁.head, hs₂.head, hs₁.setUpBoth hs₂, ?_,
    hc₁.stepRecv hs₁.made, hc₂.stepRecv hs₂.made, hc₁.source.trans hc₂.source.symm, ?_, ?_, ?_⟩
  · rw [hdst₁, hdst₂]
    decide
  · rw [hc₁.envId]
    exact hc₁.stepSend
  · rw [hc₂.envId]
    exact hc₂.stepSend
  · intro ρ hspace
    rcases hspace (slotOf env1 0x2000#32 page2_low) rfl with ⟨h, _⟩ | ⟨_, _, _, h, _⟩
    · rw [hmapped] at h
      cases h
    · rw [hnone] at h
      cases h

end Jos.Kern
