import Jos.Kern.Syscall
import Jos.Lib.Loop

/-!
# What a system call does to the environments

The page functions and the accesses to user memory leave the `envs` array and its free list
alone, whatever the state of the page tables. `EnvChange s cur c o s'` says, for a system
call `c` of `cur` that ends with `o`, how the array and the free list of `s'` differ from
those of `s`. Every invariant of the environments is a case analysis over it.
-/

namespace Jos.Kern

open Jos.Lib Kernel

/-- The two states have the same environments and the same free list of environments. -/
def SameEnvs (s s' : Kernel) : Prop := s'.envs = s.envs ∧ s'.envFreeList = s.envFreeList

/-! ## Environment ids -/

/-- An id is a positive generation with the slot in its low bits. -/
theorem nextEnvId_eq (e : EnvIx) (envId : BitVec 32) :
    ∃ g : BitVec 32, 0 < g.toInt ∧ g &&& 1023#32 = 0#32 ∧
      nextEnvId e envId = g ||| BitVec.ofNat 32 e.val := by
  refine ⟨_, ?_, ?_, rfl⟩
  · split
    · decide
    · rename_i h
      omega
  · split
    · decide
    · rw [BitVec.and_assoc, show ~~~(1023#32) &&& 1023#32 = 0#32 by decide, BitVec.and_zero]

/-- The ids of environments are positive. -/
theorem nextEnvId_pos (e : EnvIx) (envId : BitVec 32) : 0 < (nextEnvId e envId).toInt := by
  obtain ⟨g, hpos, _, heq⟩ := nextEnvId_eq e envId
  have hg : g.toNat < 2 ^ 31 := by
    by_contra hlt
    rw [BitVec.toInt_eq_toNat_cond, if_neg (by omega)] at hpos
    have := g.isLt
    omega
  have hg0 : 0 < g.toNat := by
    rw [BitVec.toInt_eq_toNat_of_lt (by omega)] at hpos
    omega
  have he : (BitVec.ofNat 32 e.val).toNat < 2 ^ 31 := by
    have : e.val < 1024 := e.isLt
    rw [BitVec.toNat_ofNat]
    omega
  have hor : (nextEnvId e envId).toNat < 2 ^ 31 := by
    rw [heq, BitVec.toNat_or]
    exact Nat.or_lt_two_pow hg he
  have hle : g.toNat ≤ (nextEnvId e envId).toNat := by
    rw [heq, BitVec.toNat_or]
    exact Nat.left_le_or
  rw [BitVec.toInt_eq_toNat_of_lt (by omega)]
  omega

/-- `ENVX` gives back the slot. -/
theorem envx_nextEnvId (e : EnvIx) (envId : BitVec 32) : envx (nextEnvId e envId) = e := by
  obtain ⟨g, _, hlow, heq⟩ := nextEnvId_eq e envId
  have hmask : BitVec.ofNat 32 e.val &&& 1023#32 = BitVec.ofNat 32 e.val := by
    have he : e.val < 1024 := e.isLt
    apply BitVec.eq_of_toNat_eq
    rw [show (1023#32) = BitVec.ofNat 32 (2 ^ 10 - 1) from rfl, toNat_and_low _ (by omega),
      BitVec.toNat_ofNat]
    omega
  apply Fin.ext
  rw [envx, heq]
  simp only
  have hdist : (g ||| BitVec.ofNat 32 e.val) &&& 1023#32 =
      (g &&& 1023#32) ||| (BitVec.ofNat 32 e.val &&& 1023#32) := by
    ext i
    simp [Bool.and_or_distrib_right]
  rw [hdist, hlow, hmask, BitVec.zero_or, BitVec.toNat_ofNat]
  have he : e.val < 1024 := e.isLt
  omega
section

variable {s s' s'' : Kernel} {cur e : EnvIx} {d pp pte : Nat} {va perm : BitVec 32} {r : Int}

theorem SameEnvs.refl (s : Kernel) : SameEnvs s s := ⟨rfl, rfl⟩

theorem SameEnvs.trans (h : SameEnvs s s') (h' : SameEnvs s' s'') : SameEnvs s s'' :=
  ⟨h'.1.trans h.1, h'.2.trans h.2⟩

/-! ## Functions that leave the environments alone -/

theorem sameEnvs_pageAlloc {zero : Bool} {p : Option Nat}
    (h : pageAlloc s zero = some (s', p)) : SameEnvs s s' := by
  rw [pageAlloc] at h
  split at h
  · cases h
    exact SameEnvs.refl s
  · cases zero with
    | false =>
        cases h
        exact ⟨rfl, rfl⟩
    | true =>
        simp only [if_true, Option.bind_eq_bind, Option.bind_eq_some_iff] at h
        obtain ⟨kva, _, h⟩ := h
        cases h
        exact ⟨rfl, rfl⟩

theorem sameEnvs_pageFree (h : pageFree s pp = some s') : SameEnvs s s' := by
  rw [pageFree] at h
  split at h
  · cases h
  · cases h
    exact ⟨rfl, rfl⟩

theorem sameEnvs_pageDecref (h : pageDecref s pp = some s') : SameEnvs s s' := by
  simp only [pageDecref] at h
  split at h
  · obtain ⟨h1, h2⟩ := sameEnvs_pageFree h
    exact ⟨h1, h2⟩
  · cases h
    exact ⟨rfl, rfl⟩

theorem sameEnvs_pgdirWalk {create : Bool} {p : Option Nat}
    (h : pgdirWalk s d va create = some (s', p)) : SameEnvs s s' := by
  simp only [pgdirWalk] at h
  split at h
  · simp only [Option.bind_eq_bind, Option.bind_eq_some_iff] at h
    obtain ⟨_, _, h⟩ := h
    cases h
    exact SameEnvs.refl s
  · split at h
    · simp only [Option.bind_eq_bind, Option.bind_eq_some_iff] at h
      obtain ⟨⟨s1, q⟩, hal, h⟩ := h
      cases q with
      | none =>
          cases h
          exact sameEnvs_pageAlloc hal
      | some q =>
          simp only [Option.bind_eq_some_iff] at h
          obtain ⟨_, _, h⟩ := h
          cases h
          exact (sameEnvs_pageAlloc hal).trans ⟨rfl, rfl⟩
    · cases h
      exact SameEnvs.refl s

theorem sameEnvs_pageRemove (h : pageRemove s d va = some s') : SameEnvs s s' := by
  simp only [pageRemove, Option.bind_eq_bind, Option.bind_eq_some_iff] at h
  obtain ⟨q, _, h⟩ := h
  cases q with
  | none =>
      cases h
      exact SameEnvs.refl s
  | some q =>
      obtain ⟨s1, hdec, h⟩ := Option.bind_eq_some_iff.mp h
      cases h
      split
      · exact (sameEnvs_pageDecref hdec).trans ⟨rfl, rfl⟩
      · exact sameEnvs_pageDecref hdec

theorem sameEnvs_insertEntry (h : insertEntry s d pp va perm pte = some s') : SameEnvs s s' := by
  simp only [insertEntry] at h
  split at h
  · simp only [Option.bind_eq_bind, Option.bind_eq_some_iff] at h
    obtain ⟨s1, hrem, h⟩ := h
    cases h
    obtain ⟨h1, h2⟩ := sameEnvs_pageRemove hrem
    exact ⟨h1, h2⟩
  · cases h
    exact ⟨rfl, rfl⟩

theorem sameEnvs_pageInsert (h : pageInsert s d pp va perm = some (s', r)) : SameEnvs s s' := by
  simp only [pageInsert, Option.bind_eq_bind, Option.bind_eq_some_iff] at h
  obtain ⟨⟨s1, q⟩, hwalk, h⟩ := h
  cases q with
  | none =>
      cases h
      exact sameEnvs_pgdirWalk hwalk
  | some q =>
      obtain ⟨s2, hins, h⟩ := Option.bind_eq_some_iff.mp h
      cases h
      exact (sameEnvs_pgdirWalk hwalk).trans (sameEnvs_insertEntry hins)

theorem sameEnvs_storeByte {c : BitVec 8} (h : storeByte s d va c = some s') : SameEnvs s s' := by
  rw [storeByte] at h
  split at h
  · cases h
    exact ⟨rfl, rfl⟩
  · cases h

theorem sameEnvs_store16 {c : BitVec 16} (h : store16 s d va c = some s') : SameEnvs s s' := by
  simp only [store16, Option.bind_eq_bind, Option.bind_eq_some_iff] at h
  obtain ⟨s1, h1, h2⟩ := h
  exact (sameEnvs_storeByte h1).trans (sameEnvs_storeByte h2)

theorem sameEnvs_store32 {c : BitVec 32} (h : store32 s d va c = some s') : SameEnvs s s' := by
  simp only [store32, Option.bind_eq_bind, Option.bind_eq_some_iff] at h
  obtain ⟨s1, h1, h2⟩ := h
  exact (sameEnvs_store16 h1).trans (sameEnvs_store16 h2)

/-! ## Allocating and freeing -/

/-- The environment that `env_alloc` makes in slot `e`. -/
def newEnv (e : EnvIx) (p : Nat) (parentId : BitVec 32) (env : Env) : Env :=
  { env with
    envPgdir := some p
    envId := nextEnvId e env.envId
    envParentId := parentId
    envType := .user
    envStatus := .runnable
    envRuns := 0#32
    envTf := initTf
    envPgfaultUpcall := 0#32
    envIpcRecving := false }

theorem envAlloc_envs {parentId : BitVec 32} {q : Except Int EnvIx}
    (h : envAlloc s parentId = some (s', q)) :
    (SameEnvs s s' ∧ ∃ n < 0, q = .error n) ∨ ∃ e p, q = .ok e ∧ s.envFreeList = some e ∧
      s'.envs = Function.update s.envs e (newEnv e p parentId (s.envs e)) ∧
      s'.envFreeList = (s.envs e).envLink := by
  rw [envAlloc] at h
  split at h
  · cases h
    exact Or.inl ⟨SameEnvs.refl s, -eNoFreeEnv, by decide, rfl⟩
  · rename_i e hfl
    simp only [Option.bind_eq_bind, Option.bind_eq_some_iff] at h
    obtain ⟨⟨s1, n⟩, hvm, h⟩ := h
    simp only [envSetupVm, Option.bind_eq_bind, Option.bind_eq_some_iff] at hvm
    obtain ⟨⟨s2, p⟩, hal, hvm⟩ := hvm
    have hsame := sameEnvs_pageAlloc hal
    cases p with
    | none =>
        cases hvm
        rw [if_pos (by decide : -eNoMem < 0)] at h
        cases h
        exact Or.inl ⟨hsame, -eNoMem, by decide, rfl⟩
    | some p =>
        simp only [Option.bind_eq_some_iff] at hvm
        obtain ⟨kva, _, hvm⟩ := hvm
        cases hvm
        rw [if_neg (by decide : ¬ (0 : Int) < 0)] at h
        cases h
        refine Or.inr ⟨e, p, rfl, hfl, ?_, ?_⟩
        · simp only [Kernel.setEnv, Kernel.writePte, Kernel.incRef, hsame.1, Function.update_self,
            Function.update_idem]
          rfl
        · simp [Kernel.setEnv, Kernel.writePte, Kernel.incRef, hsame.1]

theorem sameEnvs_freePde {i : Nat} (h : freePde d s i = some s') : SameEnvs s s' := by
  simp only [freePde] at h
  split at h
  · simp only [Option.bind_eq_bind, Option.bind_eq_some_iff] at h
    obtain ⟨pt, _, s1, hloop, page, _, hdec⟩ := h
    have h1 : SameEnvs s s1 := by
      refine foldlM_inv (SameEnvs s) ?_ hloop (SameEnvs.refl s)
      intro j s2 s3 hstep h2
      rw [freePte] at hstep
      split at hstep
      · exact h2.trans (sameEnvs_pageRemove hstep)
      · cases hstep
        exact h2
    obtain ⟨h2, h3⟩ := sameEnvs_pageDecref hdec
    exact h1.trans ⟨h2, h3⟩
  · cases h
    exact SameEnvs.refl s

/-- A freed slot, linked in front of the free list. -/
def freedEnv (link : Option EnvIx) (env : Env) : Env :=
  { env with envPgdir := none, envStatus := .free, envLink := link }

theorem envFree_envs (h : envFree s e = some s') :
    s'.envs = Function.update s.envs e (freedEnv s.envFreeList (s.envs e)) ∧
      s'.envFreeList = some e := by
  simp only [envFree, Option.bind_eq_bind, Option.bind_eq_some_iff] at h
  obtain ⟨d, _, s1, hloop, page, _, s2, hdec, h⟩ := h
  have h1 : SameEnvs s s1 := foldlM_inv (SameEnvs s)
    (fun _ _ _ hstep h2 => h2.trans (sameEnvs_freePde hstep)) hloop (SameEnvs.refl s)
  have h2 := sameEnvs_pageDecref hdec
  cases h
  refine ⟨?_, rfl⟩
  simp only [Kernel.setEnv, h2.1, h2.2, h1.1, h1.2, Function.update_self, Function.update_idem]
  rfl

/-- The effect of `env_destroy`: a mark, or a free slot. The flag says that the current
environment is gone. -/
inductive Destroyed (s : Kernel) (cur e : EnvIx) : Kernel → Bool → Prop
  | mark {s' : Kernel} (running : (s.envs e).envStatus = .running) (other : cur ≠ e)
      (envs : s'.envs = Function.update s.envs e { s.envs e with envStatus := .dying })
      (free : s'.envFreeList = s.envFreeList) : Destroyed s cur e s' false
  | free {s' : Kernel} (now : ¬ ((s.envs e).envStatus = .running ∧ cur ≠ e))
      (envs : s'.envs = Function.update s.envs e (freedEnv s.envFreeList (s.envs e)))
      (free : s'.envFreeList = some e) : Destroyed s cur e s' (decide (cur = e))

theorem envDestroy_envs {f : Bool} (h : envDestroy s cur e = some (s', f)) :
    Destroyed s cur e s' f := by
  rw [envDestroy] at h
  split at h
  · rename_i hrun
    cases h
    exact .mark hrun.1 hrun.2 rfl rfl
  · rename_i hrun
    simp only [Option.bind_eq_bind, Option.bind_eq_some_iff] at h
    obtain ⟨s1, hfree, h⟩ := h
    cases h
    obtain ⟨h1, h2⟩ := envFree_envs hfree
    exact .free hrun h1 h2

end

/-! ## System calls -/

/-- How a system call of `cur` changes the environments. -/
inductive EnvChange (s : Kernel) (cur : EnvIx) : Call → Outcome → Kernel → Prop
  /-- No change; a send that ends so has failed. -/
  | same {c : Call} {r : Int} {s' : Kernel} (h : SameEnvs s s')
      (failed : ∀ envid value srcva perm, c = .ipcTrySend envid value srcva perm → r ≠ 0) :
      EnvChange s cur c (.ret r) s'
  | yield : EnvChange s cur .yield .yield s
  /-- A bad pointer ends the caller. -/
  | fault {c : Call} {s' : Kernel} (h : Destroyed s cur cur s' true) : EnvChange s cur c .gone s'
  | destroy {envid : BitVec 32} {e : EnvIx} {f : Bool} {s' : Kernel}
      (target : envid2env s cur envid true = some e) (h : Destroyed s cur e s' f) :
      EnvChange s cur (.envDestroy envid) (.ofDestroy f 0) s'
  /-- The frame of `e` is set, even when `e` has just been destroyed. -/
  | trapframe {envid tf : BitVec 32} {e : EnvIx} {s1 s' : Kernel} {envTf : Trapframe}
      (target : envid2env s cur envid true = some e)
      (h : SameEnvs s s1 ∨
        (∃ x, userMemCheck s e tf trapframeSize (pteW ||| pteP ||| pteU) = some (.error x)) ∧
          Destroyed s cur e s1 false)
      (envs : s'.envs = Function.update s1.envs e { s1.envs e with envTf })
      (free : s'.envFreeList = s1.envFreeList) :
      EnvChange s cur (.envSetTrapframe envid tf) (.ret 0) s'
  | exofork {e : EnvIx} {p : Nat} {r : Int} {s1 s' : Kernel} (head : s.envFreeList = some e)
      (alloc : s1.envs =
        Function.update s.envs e (newEnv e p (s.envs cur).envId (s.envs e)))
      (envs : s'.envs = Function.update s1.envs e (exoforkEnv (s1.envs cur) (s1.envs e)))
      (free : s'.envFreeList = (s.envs e).envLink) : EnvChange s cur .exofork (.ret r) s'
  | status {envid status : BitVec 32} {st : EnvStatus} {e : EnvIx} {s' : Kernel}
      (target : envid2env s cur envid true = some e) (hst : statusOf status = some st)
      (envs : s'.envs = Function.update s.envs e { s.envs e with envStatus := st })
      (free : s'.envFreeList = s.envFreeList) :
      EnvChange s cur (.envSetStatus envid status) (.ret 0) s'
  | upcall {envid func : BitVec 32} {e : EnvIx} {s' : Kernel}
      (target : envid2env s cur envid true = some e)
      (envs : s'.envs = Function.update s.envs e { s.envs e with envPgfaultUpcall := func })
      (free : s'.envFreeList = s.envFreeList) :
      EnvChange s cur (.envSetPgfaultUpcall envid func) (.ret 0) s'
  | deliver {envid value srcva perm q : BitVec 32} {e : EnvIx} {s' : Kernel}
      (target : envid2env s cur envid false = some e)
      (recving : (s.envs e).envIpcRecving = true)
      (envs : s'.envs = Function.update s.envs e { s.envs e with
        envIpcPerm := q
        envIpcRecving := false
        envIpcFrom := (s.envs cur).envId
        envIpcValue := value
        envStatus := .runnable })
      (free : s'.envFreeList = s.envFreeList) :
      EnvChange s cur (.ipcTrySend envid value srcva perm) (.ret 0) s'
  | recv {dstva : BitVec 32} {s' : Kernel}
      (envs : s'.envs = Function.update s.envs cur { s.envs cur with
        envIpcDstva := if dstva < utop then dstva else (s.envs cur).envIpcDstva
        envIpcRecving := true
        envStatus := .notRunnable
        envTf := { (s.envs cur).envTf with
          tfRegs := { (s.envs cur).envTf.tfRegs with regEax := 0#32 } } })
      (free : s'.envFreeList = s.envFreeList) : EnvChange s cur (.ipcRecv dstva) .yield s'

section

variable {s s' : Kernel} {cur e : EnvIx} {o : Outcome} {c : Call}

theorem userMemAssert_envs {va len perm : BitVec 32} {f : Bool}
    (h : userMemAssert s cur e va len perm = some (s', f)) :
    (s' = s ∧ f = false) ∨
      (∃ x, userMemCheck s e va len (perm ||| pteU) = some (.error x)) ∧
        Destroyed s cur e s' f := by
  simp only [userMemAssert, Option.bind_eq_bind, Option.bind_eq_some_iff] at h
  obtain ⟨r, hr, h⟩ := h
  cases r with
  | ok =>
      cases h
      exact Or.inl ⟨rfl, rfl⟩
  | error x => exact Or.inr ⟨⟨x, hr⟩, envDestroy_envs h⟩

/-- A destroyed current environment is the one the flag speaks of. -/
theorem Destroyed.eq_cur (h : Destroyed s cur e s' true) : cur = e := by
  generalize hf : true = f at h
  cases h with
  | mark => cases hf
  | free => simpa using hf.symm

theorem trapframeStore_envs {tf : BitVec 32} (h : trapframeStore s cur e tf = some s') :
    ∃ envTf, s'.envs = Function.update s.envs e { s.envs e with envTf } ∧
      s'.envFreeList = s.envFreeList := by
  simp only [trapframeStore, Option.bind_eq_bind, Option.bind_eq_some_iff] at h
  obtain ⟨d, _, s1, h1, s2, h2, s3, h3, s4, h4, s5, h5, _, _, s6, h6, envTf, _, h⟩ := h
  have hsame : SameEnvs s s6 :=
    ((((((sameEnvs_store16 h1).trans (sameEnvs_store16 h2)).trans (sameEnvs_store16 h3)).trans
      (sameEnvs_store16 h4)).trans (sameEnvs_store32 h5)).trans (sameEnvs_store32 h6))
  cases h
  refine ⟨envTf, ?_, hsame.2⟩
  simp only [Kernel.setEnv, hsame.1]

theorem sysPageAlloc_envs {envid va perm : BitVec 32}
    (h : sysPageAlloc s cur envid va perm = some (s', o)) : ∃ r, o = .ret r ∧ SameEnvs s s' := by
  simp only [sysPageAlloc] at h
  split at h
  · cases h
    exact ⟨_, rfl, SameEnvs.refl s⟩
  split at h
  · cases h
    exact ⟨_, rfl, SameEnvs.refl s⟩
  split at h
  · cases h
    exact ⟨_, rfl, SameEnvs.refl s⟩
  simp only [Option.bind_eq_bind, Option.bind_eq_some_iff] at h
  obtain ⟨⟨s1, q⟩, hal, h⟩ := h
  cases q with
  | none =>
      cases h
      exact ⟨_, rfl, sameEnvs_pageAlloc hal⟩
  | some q =>
      simp only [Option.bind_eq_some_iff] at h
      obtain ⟨d, _, ⟨s2, r⟩, hins, h⟩ := h
      have h2 := (sameEnvs_pageAlloc hal).trans (sameEnvs_pageInsert hins)
      simp only at h
      split at h
      · simp only [Option.bind_eq_some_iff] at h
        obtain ⟨s3, hfree, h⟩ := h
        cases h
        exact ⟨_, rfl, h2.trans (sameEnvs_pageFree hfree)⟩
      · cases h
        exact ⟨_, rfl, h2⟩

theorem sysPageMap_envs {srcenvid srcva dstenvid dstva perm : BitVec 32}
    (h : sysPageMap s cur srcenvid srcva dstenvid dstva perm = some (s', o)) :
    ∃ r, o = .ret r ∧ SameEnvs s s' := by
  simp only [sysPageMap] at h
  split at h
  swap
  · cases h
    exact ⟨_, rfl, SameEnvs.refl s⟩
  split at h
  · cases h
    exact ⟨_, rfl, SameEnvs.refl s⟩
  simp only [Option.bind_eq_bind, Option.bind_eq_some_iff] at h
  obtain ⟨d, _, q, _, h⟩ := h
  cases q with
  | none =>
      cases h
      exact ⟨_, rfl, SameEnvs.refl s⟩
  | some q =>
      simp only at h
      split at h
      · cases h
        exact ⟨_, rfl, SameEnvs.refl s⟩
      split at h
      · cases h
        exact ⟨_, rfl, SameEnvs.refl s⟩
      simp only [Option.bind_eq_some_iff] at h
      obtain ⟨d', _, ⟨s2, r⟩, hins, h⟩ := h
      simp only at h
      split at h <;> cases h <;> exact ⟨_, rfl, sameEnvs_pageInsert hins⟩

theorem sysPageUnmap_envs {envid va : BitVec 32} (h : sysPageUnmap s cur envid va = some (s', o)) :
    ∃ r, o = .ret r ∧ SameEnvs s s' := by
  simp only [sysPageUnmap] at h
  split at h
  · cases h
    exact ⟨_, rfl, SameEnvs.refl s⟩
  split at h
  · cases h
    exact ⟨_, rfl, SameEnvs.refl s⟩
  simp only [Option.bind_eq_bind, Option.bind_eq_some_iff] at h
  obtain ⟨d, _, s1, hrem, h⟩ := h
  cases h
  exact ⟨_, rfl, sameEnvs_pageRemove hrem⟩

theorem sysIpcTrySend_envs {envid value srcva perm : BitVec 32}
    (h : sysIpcTrySend s cur envid value srcva perm = some (s', o)) :
    EnvChange s cur (.ipcTrySend envid value srcva perm) o s' := by
  simp only [sysIpcTrySend] at h
  split at h
  · cases h
    exact .same (SameEnvs.refl s) fun _ _ _ _ _ => by decide
  rename_i e he
  split at h
  · cases h
    exact .same (SameEnvs.refl s) fun _ _ _ _ _ => by decide
  rename_i hrec
  have hrec' : (s.envs e).envIpcRecving = true := by simpa using hrec
  split at h
  · split at h
    · cases h
      exact .same (SameEnvs.refl s) fun _ _ _ _ _ => by decide
    simp only [Option.bind_eq_bind, Option.bind_eq_some_iff] at h
    obtain ⟨d, _, q, _, h⟩ := h
    cases q with
    | none =>
        cases h
        exact .same (SameEnvs.refl s) fun _ _ _ _ _ => by decide
    | some q =>
        simp only at h
        split at h
        · cases h
          exact .same (SameEnvs.refl s) fun _ _ _ _ _ => by decide
        split at h
        · cases h
          exact .same (SameEnvs.refl s) fun _ _ _ _ _ => by decide
        simp only [Option.bind_eq_some_iff] at h
        obtain ⟨d', _, ⟨s2, r⟩, hins, h⟩ := h
        have h2 := sameEnvs_pageInsert hins
        simp only at h
        split at h
        · cases h
          exact .same h2 fun _ _ _ _ _ => by decide
        · cases h
          refine .deliver he hrec' (q := perm) ?_ h2.2
          simp only [ipcDeliver, Kernel.setEnv, h2.1]
  · cases h
    exact .deliver he hrec' (q := 0#32) rfl rfl

theorem sysCputs_envs {va len : BitVec 32} (h : sysCputs s cur va len = some (s', o)) :
    EnvChange s cur (.cputs va len) o s' := by
  simp only [sysCputs, Option.bind_eq_bind, Option.bind_eq_some_iff] at h
  obtain ⟨⟨s1, f⟩, h1, h2⟩ := h
  cases h2
  rcases userMemAssert_envs h1 with ⟨rfl, rfl⟩ | ⟨_, hdes⟩
  · exact .same (SameEnvs.refl _) (by simp)
  cases f with
  | true => exact .fault hdes
  | false =>
      generalize hf : false = f at hdes
      cases hdes with
      | mark _ other => exact absurd rfl other
      | free => simp at hf

theorem sysEnvDestroy_envs {envid : BitVec 32} (h : sysEnvDestroy s cur envid = some (s', o)) :
    EnvChange s cur (.envDestroy envid) o s' := by
  simp only [sysEnvDestroy] at h
  split at h
  · cases h
    exact .same (SameEnvs.refl s) (by simp)
  · rename_i e he
    simp only [Option.bind_eq_bind, Option.bind_eq_some_iff] at h
    obtain ⟨⟨s1, f⟩, h1, h2⟩ := h
    cases h2
    exact .destroy he (envDestroy_envs h1)

theorem sysExofork_envs (h : sysExofork s cur = some (s', o)) : EnvChange s cur .exofork o s' := by
  simp only [sysExofork, Option.bind_eq_bind, Option.bind_eq_some_iff] at h
  obtain ⟨⟨s1, q⟩, hal, h⟩ := h
  rcases envAlloc_envs hal with ⟨hsame, n, _, rfl⟩ | ⟨e, p, rfl, hfl, henvs, hfree⟩
  · cases h
    exact .same hsame (by simp)
  · cases h
    exact .exofork hfl henvs rfl hfree

theorem sysEnvSetStatus_envs {envid status : BitVec 32}
    (h : sysEnvSetStatus s cur envid status = (s', o)) :
    EnvChange s cur (.envSetStatus envid status) o s' := by
  simp only [sysEnvSetStatus] at h
  split at h
  · cases h
    exact .same (SameEnvs.refl s) (by simp)
  rename_i e he
  split at h
  · cases h
    exact .same (SameEnvs.refl s) (by simp)
  · rename_i st hst
    cases h
    exact .status he hst rfl rfl

/-- The check of the pointer may destroy the target, and only its own failure ends the call. -/
theorem sysEnvSetTrapframe_envs {envid tf : BitVec 32}
    (h : sysEnvSetTrapframe s cur envid tf = some (s', o)) :
    EnvChange s cur (.envSetTrapframe envid tf) o s' := by
  simp only [sysEnvSetTrapframe, Option.bind_eq_bind, Option.bind_eq_some_iff] at h
  obtain ⟨⟨s1, x⟩, h1, h2⟩ := h
  simp only [trapframeCheck] at h1
  split at h1
  · cases h1
    cases h2
    exact .same (SameEnvs.refl s) (by simp)
  rename_i e he
  simp only [Option.bind_eq_bind, Option.bind_eq_some_iff] at h1
  obtain ⟨⟨s2, f⟩, h3, h4⟩ := h1
  simp only [Option.some.injEq, Prod.mk.injEq] at h4
  obtain ⟨rfl, rfl⟩ := h4
  cases f with
  | true =>
      cases h2
      rcases userMemAssert_envs h3 with ⟨_, hf⟩ | ⟨_, hdes⟩
      · cases hf
      · obtain rfl := hdes.eq_cur
        exact .fault hdes
  | false =>
      simp only [Bool.false_eq_true, if_false, Option.bind_eq_some_iff] at h2
      obtain ⟨s3, hst, h2⟩ := h2
      cases h2
      obtain ⟨envTf, henvs, hfree⟩ := trapframeStore_envs hst
      refine .trapframe he ?_ henvs hfree
      rcases userMemAssert_envs h3 with ⟨rfl, _⟩ | hdes
      · exact Or.inl (SameEnvs.refl _)
      · exact Or.inr hdes

theorem sysEnvSetPgfaultUpcall_envs {envid func : BitVec 32}
    (h : sysEnvSetPgfaultUpcall s cur envid func = (s', o)) :
    EnvChange s cur (.envSetPgfaultUpcall envid func) o s' := by
  simp only [sysEnvSetPgfaultUpcall] at h
  split at h
  · cases h
    exact .same (SameEnvs.refl s) (by simp)
  · rename_i e he
    cases h
    exact .upcall he rfl rfl

theorem sysIpcRecv_envs {dstva : BitVec 32} (h : sysIpcRecv s cur dstva = (s', o)) :
    EnvChange s cur (.ipcRecv dstva) o s' := by
  simp only [sysIpcRecv] at h
  split at h
  · cases h
    exact .same (SameEnvs.refl s) (by simp)
  · cases h
    exact .recv rfl rfl

/-- Every system call that ends changes the environments in one of these ways. -/
theorem syscall_envs (h : syscall s cur c = some (s', o)) : EnvChange s cur c o s' := by
  cases c with
  | cputs va len => exact sysCputs_envs h
  | cgetc ch =>
      cases h
      exact .same (SameEnvs.refl s) (by simp)
  | getenvid =>
      cases h
      exact .same (SameEnvs.refl s) (by simp)
  | envDestroy envid => exact sysEnvDestroy_envs h
  | pageAlloc envid va perm =>
      obtain ⟨r, rfl, hsame⟩ := sysPageAlloc_envs h
      exact .same hsame (by simp)
  | pageMap srcenvid srcva dstenvid dstva perm =>
      obtain ⟨r, rfl, hsame⟩ := sysPageMap_envs h
      exact .same hsame (by simp)
  | pageUnmap envid va =>
      obtain ⟨r, rfl, hsame⟩ := sysPageUnmap_envs h
      exact .same hsame (by simp)
  | exofork => exact sysExofork_envs h
  | envSetStatus envid status => exact sysEnvSetStatus_envs (Option.some.inj h)
  | envSetTrapframe envid tf => exact sysEnvSetTrapframe_envs h
  | envSetPgfaultUpcall envid func => exact sysEnvSetPgfaultUpcall_envs (Option.some.inj h)
  | yield =>
      cases h
      exact .yield
  | ipcTrySend envid value srcva perm => exact sysIpcTrySend_envs h
  | ipcRecv dstva => exact sysIpcRecv_envs (Option.some.inj h)
  | invalid =>
      cases h
      exact .same (SameEnvs.refl s) (by simp)

end

end Jos.Kern
