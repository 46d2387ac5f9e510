import Jos.Kern.Machine

/-!
# What a step does to the page table entries

`PteChange s cur c o s'` says, for a system call `c` of `cur` that ends with `o`, how the page table entries below
`UTOP` of `s'` differ from those of `s`. Together with `EnvChange` it is all that a system call
does to the environments; what follows about rights and about whose memory a call can reach is
a case analysis over the two.
-/

namespace Jos.Kern

open Jos.Lib Kernel

/-- Environment `e` has lost its entries and the others have kept theirs. -/
structure PtesGone (s : Kernel) (e : EnvIx) (s' : Kernel) : Prop where
  pte : ∀ k : Slot, k.1 ≠ e → pteOf s' k = pteOf s k
  gone : ∀ k : Slot, k.1 = e → entryTarget (pteOf s' k) = none

/-- How a system call of `cur` changes the page table entries. -/
inductive PteChange (s : Kernel) (cur : EnvIx) : Call → Outcome → Kernel → Prop
  | same {c : Call} {o : Outcome} {s' : Kernel} (pte : pteOf s' = pteOf s) : PteChange s cur c o s'
  /-- An environment has been freed, which no send does. -/
  | freed {c : Call} {o : Outcome} {e : EnvIx} {envid : BitVec 32} {s' : Kernel}
      (nosend : ∀ envid value srcva perm, c ≠ .ipcTrySend envid value srcva perm)
      (target : envid2env s cur envid true = some e) (h : PtesGone s e s') : PteChange s cur c o s'
  | alloc {envid va perm : BitVec 32} {e : EnvIx} {pg : Nat} {s' : Kernel} (low : va < utop)
      (target : envid2env s cur envid true = some e)
      (h : PageAllocated s (slotOf e va low) perm pg s') :
      PteChange s cur (.pageAlloc envid va perm) (.ret 0) s'
  | map {srcenvid srcva dstenvid dstva perm : BitVec 32} {srcE dstE : EnvIx} {pg : Nat}
      {s' : Kernel} (srclow : srcva < utop) (low : dstva < utop)
      (source : envid2env s cur srcenvid true = some srcE)
      (target : envid2env s cur dstenvid true = some dstE)
      (h : PageShared s (slotOf srcE srcva srclow) (slotOf dstE dstva low) perm pg s') :
      PteChange s cur (.pageMap srcenvid srcva dstenvid dstva perm) (.ret 0) s'
  | unmap {envid va : BitVec 32} {e : EnvIx} {s' : Kernel} (low : va < utop)
      (target : envid2env s cur envid true = some e)
      (gone : entryTarget (pteOf s' (slotOf e va low)) = none)
      (pte : ∀ k ≠ slotOf e va low, pteOf s' k = pteOf s k) :
      PteChange s cur (.pageUnmap envid va) (.ret 0) s'
  /-- A message with a page. -/
  | send {envid value srcva perm : BitVec 32} {e : EnvIx} {pg : Nat} {s' : Kernel}
      (srclow : srcva < utop) (low : (s.envs e).envIpcDstva < utop)
      (target : envid2env s cur envid false = some e) (recving : (s.envs e).envIpcRecving = true)
      (h : PageShared s (slotOf cur srcva srclow) (slotOf e _ low) perm pg s') :
      PteChange s cur (.ipcTrySend envid value srcva perm) (.ret 0) s'

section

variable {R : Nat → Prop} {s s' s1 : Kernel} {cur e : EnvIx} {o : Outcome} {c : Call}

theorem envid2env_self (s : Kernel) (cur : EnvIx) (checkperm : Bool) :
    envid2env s cur 0#32 checkperm = some cur := by
  simp [envid2env]

theorem EnvFreed.ptesGone (h : EnvFreed R [] s e s') : PtesGone s e s' := by
  refine ⟨h.pte, fun k hk => ?_⟩
  have hdir : (s'.envs k.1).envPgdir = none := by
    rw [hk, h.envs, Function.update_self]
  rw [← target_placeOf]
  simp [placeOf, target, hdir]

theorem PtesGone.congr (h : PtesGone s e s1) (hpte : pteOf s' = pteOf s1) : PtesGone s e s' :=
  ⟨fun k hk => by rw [hpte, h.pte k hk], fun k hk => by rw [hpte, h.gone k hk]⟩

/-- `env_destroy` takes an environment's entries, or leaves all as they are. -/
theorem Inv.envDestroy_pte {f : Bool} (h : Inv R s) (hb : Bounded s)
    (he : (s.envs e).envStatus ≠ .free) (hrun : Kern.envDestroy s cur e = some (s', f)) :
    pteOf s' = pteOf s ∨ PtesGone s e s' := by
  rcases h.envDestroy cur he hb with ⟨_, _, hrun', _⟩ | ⟨_, s1, hrun', _, hfreed⟩
  · rw [hrun'] at hrun
    cases hrun
    exact Or.inl (target_setEnv (e := e) rfl).2
  · rw [hrun'] at hrun
    cases hrun
    exact Or.inr hfreed.ptesGone

theorem Inv.userMemAssert_pte {va len perm : BitVec 32} {f : Bool} (h : Inv R s) (hb : Bounded s)
    (he : (s.envs e).envStatus ≠ .free)
    (hrun : userMemAssert s cur e va len perm = some (s', f)) :
    pteOf s' = pteOf s ∨ PtesGone s e s' := by
  rcases userMemAssert_cases hrun with ⟨rfl, _⟩ | ⟨_, hdes⟩
  · exact Or.inl rfl
  · exact h.envDestroy_pte hb he hdes

theorem pteChange_of_destroy {envid : BitVec 32}
    (hc : ∀ envid value srcva perm, c ≠ .ipcTrySend envid value srcva perm)
    (henv : envid2env s cur envid true = some e)
    (h : pteOf s' = pteOf s ∨ PtesGone s e s') : PteChange s cur c o s' := by
  rcases h with h | h
  · exact .same h
  · exact .freed hc henv h

/-- `sys_env_set_trapframe` may destroy its target; what it then writes are no tables. -/
theorem Inv.sysEnvSetTrapframe_pte {envid tf : BitVec 32} (h : Inv R s) (hb : Bounded s)
    (hcur : (s.envs cur).envStatus ≠ .free) (hsafe : SafeCall s cur (.envSetTrapframe envid tf))
    (hrun : sysEnvSetTrapframe s cur envid tf = some (s', o)) :
    PteChange s cur (.envSetTrapframe envid tf) o s' := by
  simp only [sysEnvSetTrapframe, Option.bind_eq_bind, Option.bind_eq_some_iff] at hrun
  obtain ⟨⟨s1, x⟩, h1, h2⟩ := hrun
  have hcheck := h1
  simp only [trapframeCheck] at h1
  split at h1
  · cases h1
    cases h2
    exact .same rfl
  · rename_i e he
    simp only [Option.bind_eq_bind, Option.bind_eq_some_iff] at h1
    obtain ⟨⟨s2, f⟩, h3, h4⟩ := h1
    have hlive := envid2env_live hcur he
    have hpte := h.userMemAssert_pte hb hlive h3
    have hinv := (h.userMemAssert_kept hb hlive h3).inv
    cases h4
    cases f
    · obtain ⟨d, hd, hgrants⟩ := hsafe _ _ hcheck
      simp only [Bool.false_eq_true, if_false, Option.bind_eq_some_iff] at h2
      obtain ⟨s3, hst, h2⟩ := h2
      cases h2
      obtain ⟨_, _, hsame⟩ := Writing.trapframeStore ⟨hinv, hd, hgrants⟩ hst
      refine pteChange_of_destroy (by simp) he (hpte.imp (fun h => ?_) fun h => ?_)
      · rw [hsame, h]
      · exact h.congr hsame
    · cases h2
      exact pteChange_of_destroy (by simp) he hpte

theorem Inv.sysEnvDestroy_pte {envid : BitVec 32} (h : Inv R s) (hb : Bounded s)
    (hcur : (s.envs cur).envStatus ≠ .free) (hrun : sysEnvDestroy s cur envid = some (s', o)) :
    PteChange s cur (.envDestroy envid) o s' := by
  simp only [sysEnvDestroy] at hrun
  split at hrun
  · cases hrun
    exact .same rfl
  · rename_i e he
    simp only [Option.bind_eq_bind, Option.bind_eq_some_iff] at hrun
    obtain ⟨⟨s1, f⟩, h1, h2⟩ := hrun
    cases h2
    exact pteChange_of_destroy (by simp) he (h.envDestroy_pte hb (envid2env_live hcur he) h1)

theorem Inv.sysPageAlloc_pte {envid va perm : BitVec 32} (h : Inv R s) (hb : Bounded s)
    (hcur : (s.envs cur).envStatus ≠ .free)
    (hrun : Kern.sysPageAlloc s cur envid va perm = some (s', o)) :
    PteChange s cur (.pageAlloc envid va perm) o s' := by
  rcases h.sysPageAlloc hcur envid va perm fun _ _ _ => hb.dropOk _ with
    ⟨s1, r, _, hrun', _, hpte⟩ | ⟨s1, e, pg, hrun', _, he, _, _, hva, hal⟩
  · rw [hrun'] at hrun
    cases hrun
    exact .same hpte
  · rw [hrun'] at hrun
    cases hrun
    exact .alloc hva he hal

theorem Inv.sysPageMap_pte {srcenvid srcva dstenvid dstva perm : BitVec 32} (h : Inv R s)
    (hb : Bounded s) (hcur : (s.envs cur).envStatus ≠ .free)
    (hrun : Kern.sysPageMap s cur srcenvid srcva dstenvid dstva perm = some (s', o)) :
    PteChange s cur (.pageMap srcenvid srcva dstenvid dstva perm) o s' := by
  rcases h.sysPageMap hcur srcenvid srcva dstenvid dstva perm fun _ _ _ => hb.dropOk _ with
    ⟨r, _, hrun'⟩ | ⟨s1, srcE, dstE, pg, hrun', _, hsrcE, hdstE, _, _, hsrc, hdst, hsh⟩
  · rw [hrun'] at hrun
    cases hrun
    exact .same rfl
  · rw [hrun'] at hrun
    cases hrun
    exact .map hsrc hdst hsrcE hdstE hsh

theorem Inv.sysPageUnmap_pte {envid va : BitVec 32} (h : Inv R s) (hb : Bounded s)
    (hcur : (s.envs cur).envStatus ≠ .free)
    (hrun : Kern.sysPageUnmap s cur envid va = some (s', o)) :
    PteChange s cur (.pageUnmap envid va) o s' := by
  rcases h.sysPageUnmap hcur envid va fun _ _ _ => hb.dropOk _ with
    ⟨r, _, hrun'⟩ | ⟨s1, e, hrun', _, he, hva, hnone, hpte⟩
  · rw [hrun'] at hrun
    cases hrun
    exact .same rfl
  · rw [hrun'] at hrun
    cases hrun
    exact .unmap hva he hnone hpte

/-- The receiver gets the page of the message, and no other entry changes. -/
theorem Inv.sysIpcTrySend_pte {envid value srcva perm : BitVec 32} (h : Inv R s) (hb : Bounded s)
    (hcur : (s.envs cur).envStatus ≠ .free)
    (hrun : Kern.sysIpcTrySend s cur envid value srcva perm = some (s', o)) :
    PteChange s cur (.ipcTrySend envid value srcva perm) o s' := by
  rcases h.sysIpcTrySend hcur envid value srcva perm fun _ _ _ => hb.dropOk _ with
    ⟨r, _, hrun'⟩ | ⟨e, hrun', _⟩ | ⟨s1, e, pg, hrun', _, he, hrec, _, hsrc, hdst, hsh⟩
  · rw [hrun'] at hrun
    cases hrun
    exact .same rfl
  · rw [hrun'] at hrun
    cases hrun
    exact .same (target_setEnv rfl).2
  · rw [hrun'] at hrun
    cases hrun
    have hpte : pteOf (Kern.ipcDeliver s1 cur e value perm) = pteOf s1 := (target_setEnv rfl).2
    exact .send hsrc hdst he hrec
      ⟨hsh.source, hsh.perm_ok, hsh.write_ok, hsh.target_eq, hpte.trans hsh.pte⟩

theorem Inv.sysExofork_pte (h : Inv R s) (hrun : sysExofork s cur = some (s', o)) :
    pteOf s' = pteOf s := by
  simp only [sysExofork, Option.bind_eq_bind, Option.bind_eq_some_iff] at hrun
  obtain ⟨⟨s1, r⟩, h1, h2⟩ := hrun
  rcases h.envAlloc_cases h1 with ⟨rfl, n, rfl⟩ | ⟨e, rfl, hal⟩
  · cases h2
    rfl
  · cases h2
    exact (target_setEnv (e := e) rfl).2.trans hal.pte

/-- What a system call does to the entries. -/
theorem Inv.syscall_pte (h : Inv R s) (hb : Bounded s) (hcur : (s.envs cur).envStatus ≠ .free)
    (hsafe : SafeCall s cur c) (hrun : Kern.syscall s cur c = some (s', o)) :
    PteChange s cur c o s' := by
  cases c with
  | cputs va len =>
      simp only [Kern.syscall, sysCputs, Option.bind_eq_bind, Option.bind_eq_some_iff] at hrun
      obtain ⟨⟨s1, f⟩, h1, h2⟩ := hrun
      cases h2
      exact pteChange_of_destroy (by simp) (envid2env_self s cur true) (h.userMemAssert_pte hb hcur h1)
  | envDestroy envid => exact h.sysEnvDestroy_pte hb hcur hrun
  | pageAlloc envid va perm => exact h.sysPageAlloc_pte hb hcur hrun
  | pageMap srcenvid srcva dstenvid dstva perm => exact h.sysPageMap_pte hb hcur hrun
  | pageUnmap envid va => exact h.sysPageUnmap_pte hb hcur hrun
  | exofork => exact .same (h.sysExofork_pte hrun)
  | envSetStatus envid status =>
      simp only [Kern.syscall, sysEnvSetStatus, Option.some.injEq] at hrun
      split at hrun
      · cases hrun
        exact .same rfl
      split at hrun
      · cases hrun
        exact .same rfl
      · cases hrun
        exact .same (target_setEnv rfl).2
  | envSetTrapframe envid tf => exact h.sysEnvSetTrapframe_pte hb hcur hsafe hrun
  | envSetPgfaultUpcall envid func =>
      simp only [Kern.syscall, sysEnvSetPgfaultUpcall, Option.some.injEq] at hrun
      split at hrun
      · cases hrun
        exact .same rfl
      · cases hrun
        exact .same (target_setEnv rfl).2
  | ipcTrySend envid value srcva perm => exact h.sysIpcTrySend_pte hb hcur hrun
  | ipcRecv dstva =>
      simp only [Kern.syscall, sysIpcRecv, Option.some.injEq] at hrun
      split at hrun
      · cases hrun
        exact .same rfl
      · cases hrun
        exact .same (target_setEnv rfl).2
  | cgetc _ | getenvid | yield | invalid =>
      cases hrun
      exact .same rfl

end

end Jos.Kern
