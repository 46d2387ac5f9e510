import Jos.Kern.RefWrap
import Jos.Kern.Trapframe

/-!
# Whom a system call can affect

Every system call that takes the id of an environment looks it up with `envid2env`, and all but
`sys_ipc_try_send` ask for permission. So a call changes the `struct Env` or the page table entries
of the caller, of its children and of the environment it creates; and of a receiver, if that is
waiting for a message, what belongs to the message.

Main results:
* `call_family`: who is affected by a call;
* `stranger_affected`: what a counter that has wrapped around does to somebody else.
-/

namespace Jos.Kern

open Jos.Lib Kernel

/-- Environment `x` is the caller or an immediate child of the caller. -/
def InFamily (s : Kernel) (cur x : EnvIx) : Prop :=
  x = cur ∨ (s.envs x).envParentId = (s.envs cur).envId

/-- The `struct Env` or an entry of the page tables of `x` has changed. -/
def Affected (s s' : Kernel) (x : EnvIx) : Prop :=
  s'.envs x ≠ s.envs x ∨ ∃ k : Slot, k.1 = x ∧ pteOf s' k ≠ pteOf s k

/-- Nothing of `x` has changed but the message, the status and the mapping at `env_ipc_dstva`. -/
structure OnlyMessage (s s' : Kernel) (x : EnvIx) : Prop where
  env : ∃ value sender perm, s'.envs x = { s.envs x with
    envIpcPerm := perm
    envIpcRecving := false
    envIpcFrom := sender
    envIpcValue := value
    envStatus := .runnable }
  pte : ∀ k : Slot, k.1 = x → pteOf s' k ≠ pteOf s k →
    ∃ low : (s.envs x).envIpcDstva < utop, k = slotOf x (s.envs x).envIpcDstva low

/-- The call is a successful send to `x`, which is waiting for a message. -/
def SentTo (s : Kernel) (cur x : EnvIx) (c : Call) (o : Outcome) : Prop :=
  ∃ envid value srcva perm, c = .ipcTrySend envid value srcva perm ∧ o = .ret 0 ∧
    envid2env s cur envid false = some x ∧ (s.envs x).envIpcRecving = true

section

variable {R : Nat → Prop} {s s' : Kernel} {cur e x : EnvIx} {c : Call} {o : Outcome}
  {envid : BitVec 32}

/-- `envid2env` with `checkperm` finds only the family. -/
theorem envid2env_family (h : envid2env s cur envid true = some e) : InFamily s cur e := by
  unfold envid2env at h
  split at h
  · cases h
    exact Or.inl rfl
  · simp only at h
    split at h
    · cases h
    · split at h
      · cases h
      · rename_i hperm
        cases h
        by_cases he : envx envid = cur
        · exact Or.inl he
        · right
          by_contra hpar
          exact hperm ⟨trivial, he, hpar⟩

theorem Destroyed.envs_of_ne {f : Bool} (h : Destroyed s cur e s' f) (hx : x ≠ e) :
    s'.envs x = s.envs x := by
  cases h with
  | mark _ _ envs _ => rw [envs, Function.update_of_ne hx]
  | free _ envs _ => rw [envs, Function.update_of_ne hx]

/-- Whose `struct Env` a system call changes. -/
theorem EnvChange.affects (h : EnvChange s cur c o s') (hx : s'.envs x ≠ s.envs x) :
    InFamily s cur x ∨ (c = .exofork ∧ s.envFreeList = some x) ∨ SentTo s cur x c o := by
  cases h with
  | same h => exact absurd (by rw [h.1]) hx
  | yield => exact absurd rfl hx
  | fault h =>
      left
      by_contra hne
      exact hx (h.envs_of_ne fun hxe => hne (Or.inl hxe))
  | destroy target h =>
      left
      by_contra hne
      exact hx (h.envs_of_ne fun hxe => hne (hxe ▸ envid2env_family target))
  | trapframe target h envs free =>
      rename_i envid tf e s1 envTf
      left
      by_contra hne
      have hxe : x ≠ e := fun hxe => hne (hxe ▸ envid2env_family target)
      apply hx
      rw [envs, Function.update_of_ne hxe]
      rcases h with h | ⟨_, h⟩
      · rw [h.1]
      · exact h.envs_of_ne hxe
  | exofork head alloc envs free =>
      rename_i e p r s1
      right
      left
      refine ⟨rfl, ?_⟩
      by_contra hne
      have hxe : x ≠ e := fun hxe => hne (hxe ▸ head)
      apply hx
      rw [envs, Function.update_of_ne hxe, alloc, Function.update_of_ne hxe]
  | status target hst envs free =>
      rename_i envid status st e
      left
      by_contra hne
      have hxe : x ≠ e := fun hxe => hne (hxe ▸ envid2env_family target)
      exact hx (by rw [envs, Function.update_of_ne hxe])
  | upcall target envs free =>
      rename_i envid func e
      left
      by_contra hne
      have hxe : x ≠ e := fun hxe => hne (hxe ▸ envid2env_family target)
      exact hx (by rw [envs, Function.update_of_ne hxe])
  | deliver target recving envs free =>
      rename_i envid value srcva perm q e
      by_cases hxe : x = e
      · subst hxe
        exact Or.inr (Or.inr ⟨envid, value, srcva, perm, rfl, rfl, target, recving⟩)
      · exact absurd (by rw [envs, Function.update_of_ne hxe]) hx
  | recv envs free =>
      left
      by_contra hne
      have hxe : x ≠ cur := fun hxe => hne (Or.inl hxe)
      exact hx (by rw [envs, Function.update_of_ne hxe])

/-- Whose entries a system call changes. -/
theorem PteChange.affects {k : Slot} (h : PteChange s cur c o s')
    (hk : pteOf s' k ≠ pteOf s k) : InFamily s cur k.1 ∨ SentTo s cur k.1 c o := by
  cases h with
  | same pte => exact absurd (by rw [pte]) hk
  | freed _ target h =>
      left
      by_contra hne
      exact hk (h.pte k fun hke => hne (hke ▸ envid2env_family target))
  | alloc low target h =>
      rename_i envid va perm e pg
      left
      by_contra hne
      have hke : k ≠ slotOf e va low := fun hke => hne (hke ▸ envid2env_family target)
      exact hk (by rw [h.pte, Function.update_of_ne hke])
  | map srclow low source target h =>
      rename_i srcenvid srcva dstenvid dstva perm srcE dstE pg
      left
      by_contra hne
      have hke : k ≠ slotOf dstE dstva low := fun hke => hne (hke ▸ envid2env_family target)
      exact hk (by rw [h.pte, Function.update_of_ne hke])
  | unmap low target gone pte =>
      left
      by_contra hne
      exact hk (pte k fun hke => hne (hke ▸ envid2env_family target))
  | send srclow low target recving h =>
      rename_i envid value srcva perm e pg
      have hke : k = slotOf e _ low := by
        by_contra hke
        exact hk (by rw [h.pte, Function.update_of_ne hke])
      subst hke
      exact Or.inr ⟨envid, value, srcva, perm, rfl, rfl, target, recving⟩

/-- A message changes its receiver as it should. -/
theorem onlyMessage (henv : EnvChange s cur c o s') (hpte : PteChange s cur c o s')
    (hsent : SentTo s cur x c o) : OnlyMessage s s' x := by
  obtain ⟨envid, value, srcva, perm, rfl, rfl, htarget, _⟩ := hsent
  refine ⟨?_, fun k hk hne => ?_⟩
  · cases henv with
    | same _ failed => exact absurd rfl (failed envid value srcva perm rfl)
    | deliver target recving envs free =>
        rename_i q e
        rw [htarget] at target
        cases target
        exact ⟨value, (s.envs cur).envId, q, by rw [envs, Function.update_self]⟩
  · cases hpte with
    | same pte => exact absurd (by rw [pte]) hne
    | freed nosend _ _ => exact absurd rfl (nosend envid value srcva perm)
    | send srclow low target recving h =>
        rename_i e pg
        rw [htarget] at target
        cases target
        refine ⟨low, ?_⟩
        by_contra hke
        exact hne (by rw [h.pte, Function.update_of_ne hke])

/-- A frame that the caller may write is what the steps of a run ask for. -/
theorem Inv.safeCall (h : Inv R s) (hb : Bounded s) (hcur : (s.envs cur).envStatus ≠ .free)
    (htf : ∀ envid tf, c = .envSetTrapframe envid tf → FrameWritable s cur tf) :
    SafeCall s cur c := by
  cases c with
  | envSetTrapframe envid tf =>
      intro s1 e hcheck
      have hw := htf envid tf rfl
      cases henv : envid2env s cur envid true with
      | none => simp [trapframeCheck, henv] at hcheck
      | some x =>
          by_cases hx : x = cur
          · subst hx
            simp only [trapframeCheck, henv, Option.bind_eq_bind, Option.bind_eq_some_iff] at hcheck
            obtain ⟨⟨s2, f⟩, hassert, hcheck⟩ := hcheck
            rcases userMemAssert_envs hassert with ⟨rfl, rfl⟩ | ⟨_, hdes⟩
            · cases hcheck
              exact hw.2
            · have hgone : f = true := by
                cases hdes with
                | mark _ other => exact absurd rfl other
                | free => simp
              rw [hgone] at hcheck
              cases hcheck
          · obtain ⟨s2, hcheck', hiff⟩ := h.trapframeCheck_other tf hb hcur henv hx
            rw [hcheck'] at hcheck
            cases hcheck
            exact (hiff.mpr hw).2
  | _ => trivial

/-- A system call changes only the caller's family and, by a message, its receiver. -/
theorem call_family (h : Reachable R s) (hcur : (s.envs cur).envStatus ≠ .free)
    (htf : ∀ envid tf, c = .envSetTrapframe envid tf → FrameWritable s cur tf)
    (hrun : syscall s cur c = some (s', o)) (hx : Affected s s' x) :
    InFamily s cur x ∨ (c = .exofork ∧ s.envFreeList = some x) ∨
      (SentTo s cur x c o ∧ OnlyMessage s s' x) := by
  obtain ⟨hinv, hb⟩ := h.inv
  have henv := syscall_envs hrun
  have hpte := hinv.syscall_pte hb hcur (hinv.safeCall hb hcur htf) hrun
  rcases hx with hx | ⟨k, rfl, hk⟩
  · rcases henv.affects hx with hfam | hnew | hsent
    · exact Or.inl hfam
    · exact Or.inr (Or.inl hnew)
    · exact Or.inr (Or.inr ⟨hsent, onlyMessage henv hpte hsent⟩)
  · rcases hpte.affects hk with hfam | hsent
    · exact Or.inl hfam
    · exact Or.inr (Or.inr ⟨hsent, onlyMessage henv hpte hsent⟩)

end

/-- A stranger waits for a message. -/
def strangerRun : List Cmd := [.create, .create, .call env1 (.ipcRecv 0x2000#32)]

theorem call_family_message : ∃ s',
    syscall (smallAfter strangerRun) env0 (.ipcTrySend 0x1001#32 5#32 utop 0#32) =
      some (s', .ret 0) ∧ OnlyMessage (smallAfter strangerRun) s' env1 := by
  have hreach : Reachable smallReserved (smallAfter strangerRun) :=
    smallAfter_reachable (by decide +kernel) (by decide)
  have hout : (syscall (smallAfter strangerRun) env0 (.ipcTrySend 0x1001#32 5#32 utop 0#32)).map
      (fun x => (x.2, (x.1.envs env1).envIpcValue)) = some (.ret 0, 5#32) := by decide +kernel
  obtain ⟨⟨s', o⟩, hcall, heq⟩ := Option.map_eq_some_iff.mp hout
  simp only [Prod.mk.injEq] at heq
  obtain ⟨rfl, hvalue⟩ := heq
  have hold : ((smallAfter strangerRun).envs env1).envIpcValue = 0#32 := by decide +kernel
  have haff : Affected (smallAfter strangerRun) s' env1 := by
    left
    intro heq
    rw [heq, hold] at hvalue
    cases hvalue
  have hfam : ¬ InFamily (smallAfter strangerRun) env0 env1 := by
    rw [InFamily]
    decide +kernel
  have hnot : ∀ envid tf, Call.ipcTrySend 0x1001#32 5#32 utop 0#32 = .envSetTrapframe envid tf →
      FrameWritable (smallAfter strangerRun) env0 tf := by
    intro envid tf heq
    cases heq
  rcases call_family hreach (by decide +kernel) hnot hcall haff with h | ⟨h, _⟩ | ⟨_, h⟩
  · exact absurd h hfam
  · cases h
  · exact ⟨s', hcall, h⟩

/-! ## A page table in a mapped frame

The run of `Jos.Kern.RefWrap` goes on: the second environment gets the freed frame as a page table,
the first one unmaps and so frees it once more, and then gets it as a new page. -/

section

variable {s : Kernel} {d p pp t : Nat} {va perm : BitVec 32}

theorem insertEntry_empty {pte : Nat} (hpres : isPresent (s.mem.read32 pte) = false) :
    insertEntry s d pp va perm pte =
      some ((s.incRef pp).writePte pte (page2pa pp ||| perm ||| pteP)) := by
  have hpres' : isPresent ((s.incRef pp).mem.read32 pte) = false := hpres
  simp [insertEntry, hpres']

/-- `page_insert` where a page table is and no page. -/
theorem pageInsert_of_entry (hn : s.npages ≤ 65536) (hent : s.entry d (pdx va) = tableEntry t)
    (htn : t < s.npages) (hpres : isPresent (s.entry t (ptx va)) = false) :
    pageInsert s d pp va perm =
      some ((s.incRef pp).writePte (entryAddr t (ptx va)) (page2pa pp ||| perm ||| pteP), 0) := by
  simp only [pageInsert, pgdirWalk_of_entry hn hent htn, Option.bind_eq_bind, Option.bind_some,
    insertEntry_empty hpres]

/-- `page_insert` where no page table is. -/
theorem pageInsert_create (hn : s.npages ≤ 65536) (hzero : s.entry d (pdx va) = 0#32)
    (hp : p < s.npages) (hfree : s.pageFreeList = some p) (hd : d ≠ p) :
    pageInsert s d pp va perm = some (((((takenPage s p).incRef p).writePte (entryAddr d (pdx va))
      (tableEntry p)).incRef pp).writePte (entryAddr p (ptx va)) (page2pa pp ||| perm ||| pteP), 0) := by
  have hwalk := pgdirWalk_taken hn hzero hp hfree
  have hpres : isPresent ((((takenPage s p).incRef p).writePte (entryAddr d (pdx va))
      (tableEntry p)).mem.read32 (entryAddr p (ptx va))) = false := by
    have hz := entry_fill_zero s (f := p) (ptx_lt va)
    have hother := entry_writePte_of_ne ((takenPage s p).incRef p) (tableEntry p) (pdx_lt va)
      (ptx_lt va) (Or.inl (Ne.symm hd))
    have hsame : ((takenPage s p).incRef p).entry p (ptx va) = 0#32 := hz
    rw [hsame] at hother
    rw [Kernel.entry] at hother
    rw [hother, isPresent_zero]
  simp only [pageInsert, hwalk, Option.bind_eq_bind, Option.bind_some, insertEntry_empty hpres]

end

/-- What does not change in the run: the tables of the first environment for its pages 0 and
65537, and that nothing is at page 65537. -/
structure Reuse (t0 t1 : Nat) (s : Kernel) : Prop where
  npages : s.npages = 2048
  envs : s.envs = wideStart.envs
  lt0 : t0 < 2048
  lt1 : t1 < 2048
  ne0 : t0 ≠ 2 ∧ t0 ≠ 3 ∧ t0 ≠ 6
  ne1 : t1 ≠ 3 ∧ t1 ≠ 6 ∧ t1 ≠ t0
  pde0 : s.entry 2 0 = tableEntry t0
  pde1 : s.entry 2 64 = tableEntry t1
  empty : isPresent (s.entry t1 1) = false

section

variable {s s' : Kernel} {t0 t1 : Nat}

theorem Reuse.congr (h : Reuse t0 t1 s) (hn : s'.npages = s.npages) (he : s'.envs = s.envs)
    (hentry : ∀ f i, i < 1024 → f ≠ 3 → f ≠ 6 → f ≠ t0 → s'.entry f i = s.entry f i) :
    Reuse t0 t1 s' where
  npages := hn.trans h.npages
  envs := he.trans h.envs
  lt0 := h.lt0
  lt1 := h.lt1
  ne0 := h.ne0
  ne1 := h.ne1
  pde0 := by rw [hentry 2 0 (by decide) (by decide) (by decide) (Ne.symm h.ne0.1), h.pde0]
  pde1 := by rw [hentry 2 64 (by decide) (by decide) (by decide) (Ne.symm h.ne0.1), h.pde1]
  empty := by rw [hentry t1 1 (by decide) h.ne1.1 h.ne1.2.1 h.ne1.2.2, h.empty]

theorem Reuse.npages_le (h : Reuse t0 t1 s) : s.npages ≤ 65536 := by
  rw [h.npages]
  decide

theorem Reuse.live (h : Reuse t0 t1 s) :
    (s.envs env0).envStatus ≠ .free ∧ (s.envs env1).envStatus ≠ .free := by
  rw [h.envs]
  exact ⟨by decide +kernel, by decide +kernel⟩

theorem Reuse.pgdir (h : Reuse t0 t1 s) :
    (s.envs env0).envPgdir = some 2 ∧ (s.envs env1).envPgdir = some 3 := by
  rw [h.envs]
  exact ⟨wideStart_pgdir env0, wideStart_pgdir env1⟩

/-- Frame 6 is free and mapped. -/
structure FreeMapped (t0 t1 : Nat) (s : Kernel) : Prop extends Reuse t0 t1 s where
  free : s.pageFreeList = some 6
  ref : s.ppRef 6 = 0#16
  maps : entryTarget (s.entry t0 1) = some 6
  table : s.entry 3 0 = tableEntry 5
  page : entryTarget (s.entry 5 1) = some 4
  noTable : s.entry 3 1 = 0#32

/-- Frame 6 is a page table of the second environment, and mapped. -/
structure TableMapped (t0 t1 : Nat) (s : Kernel) : Prop extends Reuse t0 t1 s where
  ref : s.ppRef 6 = 1#16
  link : s.ppLink 6 = none
  maps : entryTarget (s.entry t0 1) = some 6
  table : s.entry 3 1 = tableEntry 6
  page : s.entry 6 0 = page2pa 4 ||| 5#32 ||| pteP

/-- Frame 6 is a page table of the second environment, and free. -/
structure TableFree (t0 t1 : Nat) (s : Kernel) : Prop extends Reuse t0 t1 s where
  free : s.pageFreeList = some 6
  table : s.entry 3 1 = tableEntry 6
  page : s.entry 6 0 = page2pa 4 ||| 5#32 ||| pteP

/-- The tables when frame 6 is mapped 65537 times. -/
theorem MappedTo.tables (h : MappedTo 65536 s) : ∃ t0 t1, Reuse t0 t1 s ∧
    target s (.pde env0 ⟨0, by decide⟩) = some t0 ∧ entryTarget (s.entry t0 1) = some 6 := by
  have hshape := h.inv.pages.shape
  have hd : (s.envs env0).envPgdir = some 2 := by
    rw [h.envs]
    exact wideStart_pgdir env0
  have hd1 : (s.envs env1).envPgdir = some 3 := by
    rw [h.envs]
    exact wideStart_pgdir env1
  have hmapped : ∀ (i : Fin pdxUtop) (j : Fin nptentries), 1024 * i.val + j ≤ 65536 →
      target s (.pte env0 i j) = some 6 := by
    intro i j hle
    rw [target_pte_eq]
    exact h.low _ rfl hle
  obtain ⟨t0, ht0, hmaps⟩ := exists_pde_of_pte
    (hmapped ⟨0, by decide⟩ ⟨1, by decide⟩ (show 1024 * 0 + 1 ≤ 65536 by omega))
  obtain ⟨t1, ht1, _⟩ := exists_pde_of_pte
    (hmapped ⟨64, by decide⟩ ⟨0, by decide⟩ (show 1024 * 64 + 0 ≤ 65536 by omega))
  obtain ⟨hent0, hlt0⟩ := hshape.pde_eq hd ht0
  obtain ⟨hent1, hlt1⟩ := hshape.pde_eq hd ht1
  have hno : NoTable s 6 := h.inv.pages.noTable_of_mapped ⟨(env0, ⟨0, by decide⟩, ⟨1, by decide⟩),
    h.low _ rfl (show 1024 * 0 + 1 ≤ 65536 by omega)⟩
  have hne : ∀ i t, target s (.pde env0 i) = some t → t ≠ 2 ∧ t ≠ 3 ∧ t ≠ 6 := by
    refine fun i t ht => ⟨?_, ?_, ?_⟩
    · rintro rfl
      cases hshape.table_unique (.pde env0 i) (.pgdir env0) 2 rfl ht hd
    · rintro rfl
      cases hshape.table_unique (.pde env0 i) (.pgdir env1) 3 rfl ht hd1
    · rintro rfl
      exact hno _ rfl ht
  have hdistinct : t1 ≠ t0 := by
    rintro rfl
    have := hshape.table_unique (.pde env0 ⟨0, by decide⟩) (.pde env0 ⟨64, by decide⟩) t1 rfl ht0 ht1
    simp at this
  have hempty : entryTarget (s.entry t1 1) = none := by
    have hrest := h.rest (env0, ⟨64, by decide⟩, ⟨1, by decide⟩) fun hlow =>
      absurd hlow.2 (show ¬ 1024 * 64 + 1 ≤ 65536 by omega)
    rw [pteOf_eq ht1, wideStart_pteOf] at hrest
    · rw [hrest, entryTarget_zero]
    · intro heq
      exact absurd (congrArg (fun k => k.2.1.val) heq) (by decide)
    · intro heq
      exact absurd (congrArg (fun k => k.2.1.val) heq) (by decide)
  refine ⟨t0, t1, ⟨h.npages, h.envs, h.npages ▸ hlt0, h.npages ▸ hlt1, hne _ _ ht0,
    ⟨(hne _ _ ht1).2.1, (hne _ _ ht1).2.2, hdistinct⟩, hent0, hent1, ?_⟩, ht0, hmaps⟩
  by_contra hpres
  rw [entryTarget, if_pos (by simpa using hpres)] at hempty
  cases hempty

theorem MappedTo.step1 (h : MappedTo 65536 s) : ∃ t0 t1 s',
    syscall s env0 (.pageUnmap 0#32 0#32) = some (s', .ret 0) ∧ FreeMapped t0 t1 s' := by
  obtain ⟨t0, t1, hre, ht0, hmaps⟩ := h.tables
  obtain ⟨t, free, ht, _, _, hrun⟩ := h.unmap (i := ⟨0, by decide⟩) rfl
  rw [ht0] at ht
  cases ht
  have hshape := h.inv.pages.shape
  have hd1 := hre.pgdir.2
  have hpde : target s (.pde env1 ⟨0, by decide⟩) = some 5 := by
    rw [h.pde]
    decide +kernel
  have hpde1 : target s (.pde env1 ⟨1, by decide⟩) = none := by
    rw [h.pde]
    decide +kernel
  have hpage : entryTarget (s.entry 5 1) = some 4 := by
    have hrest := h.rest (env1, ⟨0, by decide⟩, ⟨1, by decide⟩) fun hlow =>
      absurd hlow.1 (by decide)
    rw [pteOf_eq hpde] at hrest
    rw [hrest]
    decide +kernel
  have hnone := hshape.pde_zero hd1 hpde1
  have hentry : ∀ f i, i < 1024 → f ≠ t0 ∨ i ≠ 0 →
      ((freedPage s 6).writePte (entryAddr t0 0) 0#32).entry f i = s.entry f i := by
    intro f i hi hne
    rw [entry_writePte_of_ne _ _ (by decide) hi hne]
    rfl
  refine ⟨t0, t1, _, hrun, hre.congr rfl rfl fun f i hi _ _ hf => hentry f i hi (Or.inl hf), rfl,
    ?_, ?_, ?_, ?_, ?_⟩
  · simp [Kernel.writePte, freedPage]
  · exact (congrArg entryTarget (hentry t0 1 (by decide) (Or.inr Nat.one_ne_zero))).trans hmaps
  · exact (hentry 3 0 (by decide) (Or.inl (Ne.symm hre.ne0.2.1))).trans (hshape.pde_eq hd1 hpde).1
  · exact (congrArg entryTarget (hentry 5 1 (by decide) (Or.inr Nat.one_ne_zero))).trans hpage
  · exact (hentry 3 1 (by decide) (Or.inr Nat.one_ne_zero)).trans hnone

/-- `sys_page_map` of the second environment takes frame 6 as the page table that it needs. -/
theorem FreeMapped.step2 (h : FreeMapped t0 t1 s) : ∃ s',
    syscall s env1 (.pageMap 0#32 0x1000#32 0#32 0x400000#32 5#32) = some (s', .ret 0) ∧
      TableMapped t0 t1 s' := by
  have hd := h.pgdir.2
  have hn := h.npages_le
  have hlook : pageLookup s 3 0x1000#32 = some (some (4, entryAddr 5 (ptx 0x1000#32))) :=
    pageLookup_of_entry hn h.table (by rw [h.npages]; decide) h.page (by rw [h.npages]; decide)
  have hins : pageInsert s 3 4 0x400000#32 5#32 = _ :=
    pageInsert_create hn h.noTable (by rw [h.npages]; decide) h.free (by decide)
  have hpdx : pdx 0x400000#32 = 1 := by decide
  have hptx : ptx 0x400000#32 = 0 := by decide
  rw [hpdx, hptx] at hins
  have hbad : badVa 0x1000#32 = false := by decide
  have hbad' : badVa 0x400000#32 = false := by decide
  have hperm : badPerm 5#32 = false := by decide
  have hw : ∀ w, grantsWrite 5#32 w = false := fun _ => rfl
  have hrun : syscall s env1 (.pageMap 0#32 0x1000#32 0#32 0x400000#32 5#32) = some
      (((((takenPage s 6).incRef 6).writePte (entryAddr 3 1) (tableEntry 6)).incRef 4).writePte
        (entryAddr 6 0) (page2pa 4 ||| 5#32 ||| pteP), .ret 0) := by
    simp [syscall, sysPageMap, envid2env_self, hbad, hbad', hperm, hw, hd, hlook, hins]
  have hentry : ∀ f i, i < 1024 → f ≠ 3 → f ≠ 6 →
      ((((((takenPage s 6).incRef 6).writePte (entryAddr 3 1) (tableEntry 6)).incRef 4).writePte
        (entryAddr 6 0) (page2pa 4 ||| 5#32 ||| pteP))).entry f i = s.entry f i := by
    intro f i hi h3 h6
    rw [entry_writePte_of_ne _ _ (by decide) hi (Or.inl h6)]
    refine (entry_writePte_of_ne ((takenPage s 6).incRef 6) _ (by decide) hi (Or.inl h3)).trans ?_
    exact entry_takenPage_of_ne h6 hi
  refine ⟨_, hrun, h.toReuse.congr rfl rfl fun f i hi h3 h6 _ => hentry f i hi h3 h6, ?_, ?_, ?_, ?_,
    entry_writePte_self ..⟩
  · have hzero : (takenPage s 6).ppRef 6 = 0#16 := h.ref
    simp [Kernel.writePte, Kernel.incRef, hzero]
  · simp [Kernel.writePte, Kernel.incRef, takenPage]
  · rw [hentry t0 1 (by decide) h.ne0.2.1 h.ne0.2.2, h.maps]
  · rw [entry_writePte_of_ne _ _ (by decide) (by decide) (Or.inl (by decide))]
    exact entry_writePte_self ..

/-- `sys_page_unmap` of the first environment frees the page table. -/
theorem TableMapped.step3 (h : TableMapped t0 t1 s) : ∃ s',
    syscall s env0 (.pageUnmap 0#32 0x1000#32) = some (s', .ret 0) ∧ TableFree t0 t1 s' := by
  have hd := h.pgdir.1
  have hrem : pageRemove s 2 0x1000#32 =
      some ((freedPage s 6).writePte (entryAddr t0 (ptx 0x1000#32)) 0#32) :=
    pageRemove_last h.npages_le h.pde0 (h.npages.symm ▸ h.lt0) h.maps (by rw [h.npages]; decide)
      h.ref h.link
  have hbad : badVa 0x1000#32 = false := by decide
  have hentry : ∀ f i, i < 1024 → f ≠ t0 →
      ((freedPage s 6).writePte (entryAddr t0 (ptx 0x1000#32)) 0#32).entry f i = s.entry f i := by
    intro f i hi hne
    rw [entry_writePte_of_ne _ _ (by decide) hi (Or.inl hne)]
    rfl
  have hrun : syscall s env0 (.pageUnmap 0#32 0x1000#32) =
      some ((freedPage s 6).writePte (entryAddr t0 (ptx 0x1000#32)) 0#32, .ret 0) := by
    simp [syscall, sysPageUnmap, envid2env_self, hbad, hd, hrem]
  refine ⟨_, hrun, h.toReuse.congr rfl rfl fun f i hi _ _ hf => hentry f i hi hf, rfl, ?_, ?_⟩
  · rw [hentry 3 1 (by decide) (Ne.symm h.ne0.2.1), h.table]
  · rw [hentry 6 0 (by decide) (Ne.symm h.ne0.2.2), h.page]

/-- `sys_page_alloc` of the first environment clears it. -/
theorem TableFree.step4 (h : TableFree t0 t1 s) : ∃ s',
    syscall s env0 (.pageAlloc 0#32 0x10001000#32 7#32) = some (s', .ret 0) ∧
      s'.envs = s.envs ∧ s'.entry 3 1 = tableEntry 6 ∧ s'.entry 6 0 = 0#32 := by
  have hal := pageAlloc_taken h.npages_le (by rw [h.npages]; decide) h.free
  have hd : ((takenPage s 6).envs env0).envPgdir = some 2 := h.pgdir.1
  have hpdx : pdx 0x10001000#32 = 64 := by decide
  have hptx : ptx 0x10001000#32 = 1 := by decide
  have hent : (takenPage s 6).entry 2 (pdx 0x10001000#32) = tableEntry t1 := by
    rw [hpdx, entry_takenPage_of_ne (by decide) (by decide), h.pde1]
  have hpres : isPresent ((takenPage s 6).entry t1 (ptx 0x10001000#32)) = false := by
    rw [hptx, entry_takenPage_of_ne h.ne1.2.1 (by decide), h.empty]
  have hlt : t1 < (takenPage s 6).npages := h.npages.symm ▸ h.lt1
  have hins : pageInsert (takenPage s 6) 2 6 0x10001000#32 7#32 = some (((takenPage s 6).incRef 6).writePte
      (entryAddr t1 (ptx 0x10001000#32)) (page2pa 6 ||| 7#32 ||| pteP), 0) :=
    pageInsert_of_entry h.npages_le hent hlt hpres
  have hbad : badVa 0x10001000#32 = false := by decide
  have hperm : badPerm 7#32 = false := by decide
  have hrun : syscall s env0 (.pageAlloc 0#32 0x10001000#32 7#32) = some (((takenPage s 6).incRef
      6).writePte (entryAddr t1 (ptx 0x10001000#32)) (page2pa 6 ||| 7#32 ||| pteP), .ret 0) := by
    simp [syscall, sysPageAlloc, envid2env_self, hbad, hperm, hal, hd, hins]
  refine ⟨_, hrun, rfl, ?_, ?_⟩
  · rw [entry_writePte_of_ne _ _ (ptx_lt _) (by decide) (Or.inl (Ne.symm h.ne1.1))]
    exact (entry_takenPage_of_ne (by decide) (by decide)).trans h.table
  · rw [entry_writePte_of_ne _ _ (ptx_lt _) (by decide) (Or.inl (Ne.symm h.ne1.2.1))]
    exact entry_fill_zero s (by decide)

end

theorem ReachedIn.pageRun {R : Nat → Prop} {n : Nat} {s s' : Kernel} (h : ReachedIn R n s)
    (hrun : Relation.ReflTransGen (PageStep fun _ _ _ => True) s s') : ∃ m, ReachedIn R m s' := by
  induction hrun with
  | refl => exact ⟨n, h⟩
  | tail _ hstep ih =>
      obtain ⟨m, hm⟩ := ih
      obtain ⟨cur, c, o, hcur, hc, _, hcall⟩ := hstep
      exact ⟨m + 1, .step hm (.call hcur (safeCall_of_isPageCall hc) hcall)⟩

/-- The page table of an environment that is not in the caller's family is cleared. -/
theorem stranger_affected : ∃ n s s', ReachedIn smallReserved n s ∧
    (s.envs env0).envStatus ≠ .free ∧
    syscall s env0 (.pageAlloc 0#32 0x10001000#32 7#32) = some (s', .ret 0) ∧
    Affected s s' env1 ∧ ¬ InFamily s env0 env1 := by
  obtain ⟨s, h⟩ := exists_mappedTo 65536 (Nat.le_refl _)
  obtain ⟨n, hn⟩ := wideStart_reached.pageRun h.run
  have hlive : (s.envs env0).envStatus ≠ .free := by
    rw [h.envs]
    decide +kernel
  obtain ⟨t0, t1, s1, hrun1, h1⟩ := h.step1
  obtain ⟨s2, hrun2, h2⟩ := h1.step2
  obtain ⟨s3, hrun3, h3⟩ := h2.step3
  obtain ⟨s4, hrun4, henvs, htable, hpage⟩ := h3.step4
  have hreach := (((hn.step (.call hlive (safeCall_of_isPageCall rfl) hrun1)).step
    (.call h1.live.2 (safeCall_of_isPageCall rfl) hrun2)).step
    (.call h2.live.1 (safeCall_of_isPageCall rfl) hrun3))
  refine ⟨_, s3, s4, hreach, h3.live.1, hrun4,
    Or.inr ⟨(env1, ⟨1, by decide⟩, ⟨0, by decide⟩), rfl, ?_⟩, ?_⟩
  · have hpte : ∀ s', (s'.envs env1).envPgdir = some 3 → s'.entry 3 1 = tableEntry 6 →
        pteOf s' (env1, ⟨1, by decide⟩, ⟨0, by decide⟩) = s'.entry 6 0 := by
      intro s' hd hent
      refine pteOf_eq ?_ _
      rw [target_pde hd]
      exact (congrArg entryTarget hent).trans (entryTarget_tableEntry (by decide))
    rw [hpte s4 (henvs ▸ h3.pgdir.2) htable, hpte s3 h3.pgdir.2 h3.table, hpage, h3.page]
    decide
  · rw [InFamily, h3.envs]
    decide +kernel

end Jos.Kern
