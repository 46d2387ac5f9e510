import Jos.Kern.Family
import Jos.Kern.WriteAccess

/-!
# Whose memory changes

The steps of a run again, each with the one who makes it. As long as a frame stays mapped, its
contents change only in a step of an environment that maps it with `PTE_W`. So a frame that nobody
may write keeps its contents, and the memory of an environment that shares no writable page is out
of reach of everyone who is not in charge of it, in any order of steps.

Main results:
* `Inv.frame_constant`: a frame that nobody may write, over a run;
* `contents_change`: a change has an author who may write;
* `memory_isolated`: what no stranger can change.
-/

namespace Jos.Kern

open Jos.Lib Kernel

/-- Who makes a step: an environment, the kernel as it loads or frees an environment, or the kernel
as it creates an environment or saves a context. -/
inductive Actor
  | env (e : EnvIx)
  | pages (e : EnvIx)
  | other

/-- The steps of `Step`, with who makes them. -/
inductive StepBy : Actor → Kernel → Kernel → Prop
  | call {s s' : Kernel} {cur : EnvIx} {c : Call} {o : Outcome}
      (live : (s.envs cur).envStatus ≠ .free) (safe : SafeCall s cur c)
      (run : syscall s cur c = some (s', o)) : StepBy (.env cur) s s'
  | store {s : Kernel} {e : EnvIx} {d : Nat} {va : BitVec 32} (c : BitVec 8)
      (dir : (s.envs e).envPgdir = some d) (grants : x86Grants s d va userWrite) :
      StepBy (.env e) s { s with mem := Function.update s.mem (physAddr s d va) c }
  | region {s s1 s' : Kernel} {e : EnvIx} {d pg : Nat} {va : BitVec 32}
      (dir : (s.envs e).envPgdir = some d) (low : va < utop)
      (alloc : pageAlloc s false = some (s1, some pg))
      (insert : pageInsert s1 d pg va (pteW ||| pteU) = some (s', 0)) : StepBy (.pages e) s s'
  | free {s s' : Kernel} {e : EnvIx} (live : (s.envs e).envStatus ≠ .free)
      (run : envFree s e = some s') : StepBy (.pages e) s s'
  | create {s s' : Kernel} {r : Except Int EnvIx} (run : envAlloc s 0#32 = some (s', r)) :
      StepBy .other s s'
  | context {s : Kernel} {e : EnvIx} (live : (s.envs e).envStatus ≠ .free) (tf : Trapframe)
      (st : EnvStatus) (hst : st ≠ .free) (ty : EnvType) (runs : BitVec 32) (cpu : Nat) :
      StepBy .other s (s.setEnv e fun env => { env with
        envTf := tf, envStatus := st, envType := ty, envRuns := runs, envCpunum := cpu })

/-- Some environment other than `x` may write frame `f`. -/
def WritableBeside (s : Kernel) (x : EnvIx) (f : Nat) : Prop := ∃ k : Slot, k.1 ≠ x ∧ MapsWrite s k f

/-- The one who makes the step has no power over `x`. -/
def Powerless (s : Kernel) (x : EnvIx) : Actor → Prop
  | .env e => ¬ InFamily s e x
  | .pages e => e ≠ x
  | .other => True

/-- A step that leaves `x` alone, after which no counter has wrapped around. -/
def StepWithout (x : EnvIx) (s s' : Kernel) : Prop := ∃ a, StepBy a s s' ∧ Powerless s x a ∧ Bounded s'

section

variable {R : Nat → Prop} {s s' s1 : Kernel} {cur e x : EnvIx} {c : Call} {o : Outcome} {a : Actor}
  {d f : Nat} {va : BitVec 32}

/-- Naming the one who acts neither adds nor removes a step. -/
theorem stepBy_iff : (∃ a, StepBy a s s') ↔ ∃ ev, Step s ev s' := by
  constructor
  · rintro ⟨a, h⟩
    cases h with
    | call live safe run => exact ⟨_, .call live safe run⟩
    | store c dir grants => exact ⟨_, .store c dir grants⟩
    | region dir low alloc insert => exact ⟨_, .region dir low alloc insert⟩
    | free live run => exact ⟨_, .free live run⟩
    | create run => exact ⟨_, .create run⟩
    | context live tf st hst ty runs cpu => exact ⟨_, .context live tf st hst ty runs cpu⟩
  · rintro ⟨ev, h⟩
    cases h with
    | call live safe run => exact ⟨_, .call live safe run⟩
    | store c dir grants => exact ⟨_, .store c dir grants⟩
    | region dir low alloc insert => exact ⟨_, .region dir low alloc insert⟩
    | free live run => exact ⟨_, .free live run⟩
    | create run => exact ⟨_, .create run⟩
    | context live tf st hst ty runs cpu => exact ⟨_, .context live tf st hst ty runs cpu⟩

/-! ## Frames that stay mapped -/

theorem SameFrame.trans {s'' : Kernel} (h : SameFrame s s' f) (h' : SameFrame s' s'' f) :
    SameFrame s s'' f := fun y hy hy' => (h' y hy hy').trans (h y hy hy')

/-- `env_free` writes only to the tables that it takes down. -/
theorem EnvFreed.sameFrame (h : EnvFreed R [] s e s') (hinv : Inv R s) (hf : Mapped s f) :
    SameFrame s s' f := by
  have hno := hinv.pages.noTable_of_mapped hf
  exact h.data f ⟨hno (.pgdir e) rfl, fun i => hno (.pde e i) rfl⟩

theorem Inv.envDestroy_data {b : Bool} (h : Inv R s) (hb : Bounded s)
    (he : (s.envs e).envStatus ≠ .free) (hrun : Kern.envDestroy s cur e = some (s', b))
    (hf : Mapped s f) : SameFrame s s' f := by
  rcases h.envDestroy cur he hb with ⟨_, _, hrun', _⟩ | ⟨_, s1, hrun', _, hfreed⟩
  · rw [hrun'] at hrun
    cases hrun
    exact fun _ _ _ => rfl
  · rw [hrun'] at hrun
    cases hrun
    exact hfreed.sameFrame h hf

theorem Inv.userMemAssert_data {len perm : BitVec 32} {b : Bool} (h : Inv R s) (hb : Bounded s)
    (he : (s.envs e).envStatus ≠ .free) (hrun : userMemAssert s cur e va len perm = some (s', b))
    (hf : Mapped s f) : SameFrame s s' f := by
  rcases userMemAssert_cases hrun with ⟨rfl, _⟩ | ⟨_, hdes⟩
  · exact fun _ _ _ => rfl
  · exact h.envDestroy_data hb he hdes hf

/-! ## Stores -/

/-- Only memory that `e` may write has changed. -/
def WroteOwn (e : EnvIx) (s s' : Kernel) : Prop :=
  ∀ f, (∀ k : Slot, k.1 = e → ¬ MapsWrite s k f) → SameFrame s s' f

theorem mapsWrite_congr {k : Slot} (h : pteOf s' = pteOf s) : MapsWrite s' k f ↔ MapsWrite s k f := by
  unfold MapsWrite
  rw [h]

theorem WroteOwn.trans (h : WroteOwn e s s1) (hsame : SameMaps s s1) (h' : WroteOwn e s1 s') :
    WroteOwn e s s' := fun f hf =>
  (h f hf).trans (h' f fun k hk hw => hf k hk ((mapsWrite_congr hsame.2).mp hw))

/-- The processor lets an environment write only to frames that it maps with `PTE_W`. -/
theorem Inv.store_own (h : Inv R s) (hd : (s.envs e).envPgdir = some d)
    (hw : x86Grants s d va userWrite) (c : BitVec 8) :
    WroteOwn e s { s with mem := Function.update s.mem (physAddr s d va) c } := by
  have hdn := (h.pages.target_lt (k := .pgdir e) hd).1
  have hlow := h.pages.shape.lt_utop_of_write hd hdn hw
  obtain ⟨g, hg, hphys⟩ := h.pages.physAddr_eq hd hlow (by decide) hw
  have hpte := (h.pages.shape.x86Grants_low hd hlow (by decide)).mp hw
  have hmaps : MapsWrite s (slotOf e va hlow) g := by
    refine ⟨hg, fun hz => ?_⟩
    have hsub : userWrite &&& pteW = pteW := by decide
    rw [← hsub, ← BitVec.and_assoc, hpte] at hz
    exact absurd hz (by decide)
  intro f hf y hy hy'
  have hne : f ≠ g := fun heq => hf _ rfl (heq ▸ hmaps)
  have hoff : pgoff va < 4096 := by
    rw [pgoff_eq]
    exact Nat.mod_lt _ (by omega)
  exact Function.update_of_ne (by omega) ..

theorem Inv.store_pte (h : Inv R s) (hd : (s.envs e).envPgdir = some d)
    (hw : x86Grants s d va userWrite) (c : BitVec 8) :
    pteOf { s with mem := Function.update s.mem (physAddr s d va) c } = pteOf s := by
  have hwr : Writing R e d va 1 s := by
    refine ⟨h, hd, fun i hi => ?_⟩
    obtain rfl : i = 0 := by omega
    simpa using hw
  have hst : storeByte s d (va + BitVec.ofNat 32 0) c =
      some { s with mem := Function.update s.mem (physAddr s d va) c } := by
    simp [storeByte, hw.mono (m := pteP ||| pteW) (by decide)]
  exact (hwr.storeByte (by omega) hst).2.2.2

namespace Writing

variable {n i : Nat}

theorem storeByte_own {b : BitVec 8} (h : Writing R e d va n s) (hi : i < n)
    (hs : Kern.storeByte s d (va + BitVec.ofNat 32 i) b = some s') : WroteOwn e s s' := by
  have hw := h.grants i hi
  rw [Kern.storeByte, if_pos (hw.mono (by decide))] at hs
  cases hs
  exact h.inv.store_own h.dir hw b

theorem store16_own {b : BitVec 16} (h : Writing R e d va n s) (hi : i + 1 < n)
    (hs : Kern.store16 s d (va + BitVec.ofNat 32 i) b = some s') : WroteOwn e s s' := by
  simp only [Kern.store16, Option.bind_eq_bind, Option.bind_eq_some_iff] at hs
  obtain ⟨s1, hs1, hs2⟩ := hs
  rw [add_ofNat va i 1] at hs2
  obtain ⟨h1, _, hsame⟩ := h.storeByte (by omega) hs1
  exact (h.storeByte_own (by omega) hs1).trans hsame (h1.storeByte_own hi hs2)

theorem store32_own {b : BitVec 32} (h : Writing R e d va n s) (hi : i + 3 < n)
    (hs : Kern.store32 s d (va + BitVec.ofNat 32 i) b = some s') : WroteOwn e s s' := by
  simp only [Kern.store32, Option.bind_eq_bind, Option.bind_eq_some_iff] at hs
  obtain ⟨s1, hs1, hs2⟩ := hs
  rw [add_ofNat va i 2] at hs2
  obtain ⟨h1, _, hsame⟩ := h.store16 (by omega) hs1
  exact (h.store16_own (by omega) hs1).trans hsame (h1.store16_own (by omega) hs2)

/-- `sys_env_set_trapframe` writes to the frame that it reads. -/
theorem trapframeStore_own {tf : BitVec 32} (h : Writing R cur d tf 68 s)
    (hrun : Kern.trapframeStore s cur e tf = some s') : WroteOwn cur s s' := by
  simp only [Kern.trapframeStore, h.dir, Option.bind_eq_bind, Option.bind_some,
    Option.bind_eq_some_iff] at hrun
  obtain ⟨s1, h1, s2, h2, s3, h3, s4, h4, s5, h5, eflags, _, s6, h6, envTf, _, hend⟩ := hrun
  obtain ⟨w1, _, t1⟩ := h.store16 (i := 36) (by omega) h1
  obtain ⟨w2, _, t2⟩ := w1.store16 (i := 32) (by omega) h2
  obtain ⟨w3, _, t3⟩ := w2.store16 (i := 64) (by omega) h3
  obtain ⟨w4, _, t4⟩ := w3.store16 (i := 52) (by omega) h4
  obtain ⟨w5, _, t5⟩ := w4.store32 (i := 56) (by omega) h5
  have o1 := h.store16_own (i := 36) (by omega) h1
  have o2 := w1.store16_own (i := 32) (by omega) h2
  have o3 := w2.store16_own (i := 64) (by omega) h3
  have o4 := w3.store16_own (i := 52) (by omega) h4
  have o5 := w4.store32_own (i := 56) (by omega) h5
  have o6 := w5.store32_own (i := 56) (by omega) h6
  cases hend
  exact o1.trans t1 (o2.trans t2 (o3.trans t3 (o4.trans t4 (o5.trans t5 o6))))

end Writing

/-! ## System calls -/

/-- A call that destroys its target keeps what the caller may write. -/
theorem mapsWrite_of_destroyed {k : Slot} (h : pteOf s' = pteOf s ∨ PtesGone s e s')
    (hw : MapsWrite s' k f) : MapsWrite s k f := by
  rcases h with h | h
  · exact (mapsWrite_congr h).mp hw
  · exact h.origin hw

theorem Inv.sysEnvSetTrapframe_data {envid tf : BitVec 32} (h : Inv R s) (hb : Bounded s)
    (hcur : (s.envs cur).envStatus ≠ .free) (hsafe : SafeCall s cur (.envSetTrapframe envid tf))
    (hrun : sysEnvSetTrapframe s cur envid tf = some (s', o)) (hf : Mapped s f)
    (hown : ∀ k : Slot, k.1 = cur → ¬ MapsWrite s k f) : SameFrame s s' f := by
  simp only [sysEnvSetTrapframe, Option.bind_eq_bind, Option.bind_eq_some_iff] at hrun
  obtain ⟨⟨s1, y⟩, h1, h2⟩ := hrun
  have hcheck := h1
  simp only [trapframeCheck] at h1
  split at h1
  · cases h1
    cases h2
    exact fun _ _ _ => rfl
  · rename_i e he
    simp only [Option.bind_eq_bind, Option.bind_eq_some_iff] at h1
    obtain ⟨⟨s2, b⟩, h3, h4⟩ := h1
    have hlive := envid2env_live hcur he
    have hdata := h.userMemAssert_data hb hlive h3 hf
    have hpte := h.userMemAssert_pte hb hlive h3
    have hinv := (h.userMemAssert_kept hb hlive h3).inv
    cases h4
    cases b
    · obtain ⟨d, hd, hgrants⟩ := hsafe _ _ hcheck
      simp only [Bool.false_eq_true, if_false, Option.bind_eq_some_iff] at h2
      obtain ⟨s3, hst, h2⟩ := h2
      cases h2
      have hwrote := Writing.trapframeStore_own ⟨hinv, hd, hgrants⟩ hst
      exact hdata.trans (hwrote f fun k hk hw => hown k hk (mapsWrite_of_destroyed hpte hw))
    · cases h2
      exact hdata

/-- A system call writes only to the tables, to new pages and to what the caller may write. -/
theorem Inv.syscall_data (h : Inv R s) (hb : Bounded s) (hcur : (s.envs cur).envStatus ≠ .free)
    (hsafe : SafeCall s cur c) (hrun : Kern.syscall s cur c = some (s', o)) (hf : Mapped s f)
    (hf' : Mapped s' f) (hown : ∀ k : Slot, k.1 = cur → ¬ MapsWrite s k f) : SameFrame s s' f := by
  cases c with
  | cputs va len =>
      simp only [Kern.syscall, sysCputs, Option.bind_eq_bind, Option.bind_eq_some_iff] at hrun
      obtain ⟨⟨s1, b⟩, h1, h2⟩ := hrun
      cases h2
      exact h.userMemAssert_data hb hcur h1 hf
  | envDestroy envid =>
      simp only [Kern.syscall, sysEnvDestroy] at hrun
      split at hrun
      · cases hrun
        exact fun _ _ _ => rfl
      · rename_i e he
        simp only [Option.bind_eq_bind, Option.bind_eq_some_iff] at hrun
        obtain ⟨⟨s1, b⟩, h1, h2⟩ := hrun
        cases h2
        exact h.envDestroy_data hb (envid2env_live hcur he) h1 hf
  | pageAlloc envid va perm =>
      rcases h.sysPageAlloc hcur envid va perm fun _ _ _ =>
        hb.dropOk _ with ⟨s1, r, _, hrun', hop, _⟩ | ⟨s1, e, pg, hrun', hop, _⟩
      all_goals
        rw [Kern.syscall, hrun'] at hrun
        cases hrun
        exact hop.data f hf hf'
  | pageMap srcenvid srcva dstenvid dstva perm =>
      rcases h.sysPageMap hcur srcenvid srcva dstenvid dstva perm fun _ _ _ => hb.dropOk _ with
        ⟨r, _, hrun'⟩ | ⟨s1, _, _, _, hrun', hop, _⟩
      · rw [Kern.syscall, hrun'] at hrun
        cases hrun
        exact fun _ _ _ => rfl
      · rw [Kern.syscall, hrun'] at hrun
        cases hrun
        exact hop.data f hf hf'
  | pageUnmap envid va =>
      rcases h.sysPageUnmap hcur envid va fun _ _ _ => hb.dropOk _ with
        ⟨r, _, hrun'⟩ | ⟨s1, _, hrun', hop, _⟩
      · rw [Kern.syscall, hrun'] at hrun
        cases hrun
        exact fun _ _ _ => rfl
      · rw [Kern.syscall, hrun'] at hrun
        cases hrun
        exact hop.data f hf hf'
  | exofork =>
      simp only [Kern.syscall, sysExofork, Option.bind_eq_bind, Option.bind_eq_some_iff] at hrun
      obtain ⟨⟨s1, r⟩, h1, h2⟩ := hrun
      rcases h.envAlloc_cases h1 with ⟨rfl, n, rfl⟩ | ⟨e, rfl, hal⟩
      · cases h2
        exact fun _ _ _ => rfl
      · cases h2
        exact hal.data f hf
  | envSetTrapframe envid tf => exact h.sysEnvSetTrapframe_data hb hcur hsafe hrun hf hown
  | ipcTrySend envid value srcva perm =>
      rcases h.sysIpcTrySend hcur envid value srcva perm fun _ _ _ => hb.dropOk _ with
        ⟨r, _, hrun'⟩ | ⟨e, hrun', _⟩ | ⟨s1, e, pg, hrun', hop, _⟩
      · rw [Kern.syscall, hrun'] at hrun
        cases hrun
        exact fun _ _ _ => rfl
      · rw [Kern.syscall, hrun'] at hrun
        cases hrun
        exact fun _ _ _ => rfl
      · rw [Kern.syscall, hrun'] at hrun
        cases hrun
        have hpte : pteOf (Kern.ipcDeliver s1 cur e value perm) = pteOf s1 := (target_setEnv rfl).2
        refine hop.data f hf ?_
        unfold Mapped at hf' ⊢
        rwa [hpte] at hf'
  | envSetStatus envid status =>
      simp only [Kern.syscall, sysEnvSetStatus, Option.some.injEq] at hrun
      split at hrun
      · cases hrun
        exact fun _ _ _ => rfl
      · split at hrun <;> cases hrun <;> exact fun _ _ _ => rfl
  | envSetPgfaultUpcall envid func =>
      simp only [Kern.syscall, sysEnvSetPgfaultUpcall, Option.some.injEq] at hrun
      split at hrun <;> cases hrun <;> exact fun _ _ _ => rfl
  | ipcRecv dstva =>
      simp only [Kern.syscall, sysIpcRecv, Option.some.injEq] at hrun
      split at hrun <;> cases hrun <;> exact fun _ _ _ => rfl
  | cgetc ch =>
      cases hrun
      exact fun _ _ _ => rfl
  | getenvid =>
      cases hrun
      exact fun _ _ _ => rfl
  | yield =>
      cases hrun
      exact fun _ _ _ => rfl
  | invalid =>
      cases hrun
      exact fun _ _ _ => rfl

/-! ## Steps -/

/-- One round of `region_alloc` maps a new page. -/
theorem Inv.region {pg : Nat} (h : Inv R s) (hb : Bounded s) (hd : (s.envs e).envPgdir = some d)
    (hva : va < utop) (halloc : pageAlloc s false = some (s1, some pg))
    (hins : pageInsert s1 d pg va (pteW ||| pteU) = some (s', 0)) :
    PageOp R s s' ∧ pteOf s' =
      Function.update (pteOf s) (slotOf e va hva) (page2pa pg ||| (pteW ||| pteU) ||| pteP) := by
  rcases h.pages.pageAlloc false with ⟨_, hal⟩ | ⟨q, s2, hal, htk⟩
  · rw [hal] at halloc
    cases halloc
  · rw [hal] at halloc
    cases halloc
    have hd1 : (s1.envs e).envPgdir = some d := by rw [htk.envs, hd]
    have hb1 : DropOk s1 (placeOf (slotOf e va hva)) := by
      intro q _
      rw [htk.same.target_eq]
      exact hb q
    rcases htk.inv.pageInsert (pteW ||| pteU) (Or.inr ⟨rfl, by simp⟩) hd1 rfl rfl
      (by decide) hb1 with ⟨_, hins'⟩ | ⟨s2, hins', h2⟩
    · rw [hins'] at hins
      cases hins
    · rw [hins'] at hins
      cases hins
      obtain ⟨hop, _, hpte, _⟩ := htk.pageOp h2 h
      exact ⟨hop, hpte⟩

/-- Contents change only through a mapping with `PTE_W` of the one who makes the step. -/
theorem StepBy.data (hstep : StepBy a s s') (h : Inv R s) (hb : Bounded s) (hf : Mapped s f)
    (hf' : Mapped s' f) (hown : ∀ e, a = .env e → ∀ k : Slot, k.1 = e → ¬ MapsWrite s k f) :
    SameFrame s s' f := by
  cases hstep with
  | call live safe run => exact h.syscall_data hb live safe run hf hf' (hown _ rfl)
  | store c dir grants => exact h.store_own dir grants c f (hown _ rfl)
  | region dir low alloc insert => exact (h.region hb dir low alloc insert).1.data f hf hf'
  | free live run =>
      obtain ⟨s1, hrun, _, hfreed⟩ := h.envFree live hb
      rw [hrun] at run
      cases run
      exact hfreed.sameFrame h hf
  | create run =>
      rcases h.envAlloc_cases run with ⟨rfl, _⟩ | ⟨e, _, hal⟩
      · exact fun _ _ _ => rfl
      · exact hal.data f hf
  | context live tf st hst ty runs cpu => exact fun _ _ _ => rfl

/-! ## Frames that nobody may write -/

/-- A step that keeps frame `p` mapped, after which no counter has wrapped around. -/
def StepMapped (p : Nat) (s s' : Kernel) : Prop :=
  Mapped s p ∧ Mapped s' p ∧ ∃ ev, Step s ev s' ∧ Bounded s'

theorem Mapped.not_free (h : Inv R s) (hf : Mapped s f) : ¬ OnFreeList s f := by
  obtain ⟨k, hk⟩ := hf
  rw [← target_placeOf] at hk
  exact fun hfree => h.pages.target_of_free hfree _ hk

/-- A frame that nobody may write, while it stays mapped. -/
theorem Inv.frame_constant (h : Inv R s) (hb : Bounded s) (hnot : ¬ Writable s f)
    (hrun : Relation.ReflTransGen (StepMapped f) s s') : SameFrame s s' f ∧ ¬ Writable s' f := by
  have hall : (Inv R s' ∧ Bounded s') ∧ SameFrame s s' f ∧ ¬ Writable s' f := by
    induction hrun with
    | refl => exact ⟨⟨h, hb⟩, fun _ _ _ => rfl, hnot⟩
    | tail _ hstep ih =>
        obtain ⟨⟨hinv, hb⟩, hsame, hnot⟩ := ih
        obtain ⟨hf, hf', ev, hev, hb'⟩ := hstep
        obtain ⟨a, hby⟩ := stepBy_iff.mpr ⟨ev, hev⟩
        refine ⟨⟨(hinv.step hb hev).inv, hb'⟩, hsame.trans ?_, ?_⟩
        · exact hby.data hinv hb hf hf' fun e _ k _ hw => hnot ⟨k, hw⟩
        · exact hinv.not_writable hb ⟨hf.not_free hinv, ev, hev, hb'⟩ hnot
  exact hall.2

/-- The entries of `x` stay as they are. -/
theorem StepBy.apart_pte (hstep : StepBy a s s') (h : Inv R s) (hb : Bounded s) (hap : Powerless s x a)
    (hrecv : (s.envs x).envIpcRecving = false) {k : Slot} (hk : k.1 = x) : pteOf s' k = pteOf s k := by
  cases hstep with
  | call live safe run =>
      by_contra hne
      rcases (h.syscall_pte hb live safe run).affects hne with hfam | ⟨_, _, _, _, _, _, _, hrec⟩
      · exact hap (hk ▸ hfam)
      · rw [hk, hrecv] at hrec
        cases hrec
  | store c dir grants =>
      rw [h.store_pte dir grants c]
  | region dir low alloc insert =>
      rename_i s1 e d pg va
      have hne : k ≠ slotOf e va low := fun heq => hap (by rw [← hk, heq]; rfl)
      rw [(h.region hb dir low alloc insert).2, Function.update_of_ne hne]
  | free live run =>
      rename_i e
      obtain ⟨s1, hrun, _, hfreed⟩ := h.envFree live hb
      rw [hrun] at run
      cases run
      exact hfreed.pte k fun heq => hap (heq.symm.trans hk)
  | create run =>
      rcases h.envAlloc_cases run with ⟨rfl, _⟩ | ⟨e, _, hal⟩
      · rfl
      · rw [hal.pte]
  | context live tf st hst ty runs cpu => rw [(target_setEnv rfl).2]

/-- `x` stays in use and does not wait for a message. -/
theorem StepBy.apart_env (hstep : StepBy a s s') (h : Inv R s) (hb : Bounded s) (hap : Powerless s x a)
    (hlive : (s.envs x).envStatus ≠ .free) (hrecv : (s.envs x).envIpcRecving = false) :
    (s'.envs x).envStatus ≠ .free ∧ (s'.envs x).envIpcRecving = false := by
  have hof : s'.envs x = s.envs x →
      (s'.envs x).envStatus ≠ .free ∧ (s'.envs x).envIpcRecving = false := fun heq => by
    rw [heq]
    exact ⟨hlive, hrecv⟩
  cases hstep with
  | call live safe run =>
      refine hof ?_
      by_contra hne
      rcases (syscall_envs run).affects hne with hfam | ⟨_, hnew⟩ | ⟨_, _, _, _, _, _, _, hrec⟩
      · exact hap hfam
      · obtain ⟨l, hl, _, hmem⟩ := h.envs.free_list
        rw [hnew] at hl
        exact hlive ((hmem x).mp hl.head_mem)
      · rw [hrecv] at hrec
        cases hrec
  | store c dir grants => exact hof rfl
  | region dir low alloc insert =>
      exact hof (by rw [(sameEnvs_pageInsert insert).1, (sameEnvs_pageAlloc alloc).1])
  | free live run =>
      rename_i e
      have hxe : x ≠ e := fun heq => hap heq.symm
      exact hof (by rw [(envFree_envs run).1, Function.update_of_ne hxe])
  | create run =>
      rcases h.envAlloc_cases run with ⟨rfl, _⟩ | ⟨e, _, hal⟩
      · exact ⟨hlive, hrecv⟩
      · have hxe : x ≠ e := fun heq => hlive (heq ▸ hal.was_free)
        obtain ⟨p, hp⟩ := hal.envs
        exact hof (by rw [hp, setEnv_of_ne _ _ hxe])
  | context live tf st hst ty runs cpu =>
      rename_i e
      by_cases hxe : x = e
      · subst hxe
        rw [setEnv_self]
        exact ⟨hst, hrecv⟩
      · exact hof (setEnv_of_ne _ _ hxe)

/-- Nobody else gets write access to a frame of `x`. -/
theorem StepBy.apart_writable (hstep : StepBy a s s') (h : Inv R s) (hb : Bounded s)
    (hap : Powerless s x a) (hf : Mapped s f) (hnot : ¬ WritableBeside s x f) :
    ¬ WritableBeside s' x f := by
  rintro ⟨k, hk, hw⟩
  have hold : ¬ MapsWrite s k f := fun hold => hnot ⟨k, hk, hold⟩
  have hhead : s.pageFreeList ≠ some f := by
    intro hfl
    obtain ⟨free, hlink, _⟩ := h.pages.accounts.pages
    refine hf.not_free h ⟨free, hlink, ?_⟩
    rw [hfl] at hlink
    exact hlink.head_mem
  have horigin : ∀ ev, Step s ev s' → WriteOrigin s f ev := fun ev hev => h.writeOrigin hb hev hw hold
  cases hstep with
  | call live safe run =>
      have horig := horigin _ (.call live safe run)
      unfold WriteOrigin at horig
      split at horig
      · cases ‹Event.call _ _ _ = .internal›
      · exact hhead horig
      · rename_i heq
        cases heq
        obtain ⟨e, henv, low, hm⟩ := horig
        exact hnot ⟨_, fun heq => hap (heq ▸ envid2env_family henv), hm⟩
      · rename_i heq
        cases heq
        obtain ⟨low, hm⟩ := horig
        exact hnot ⟨_, fun heq => hap (Or.inl heq.symm), hm⟩
      · exact horig
  | store c dir grants => exact hhead (horigin _ (.store c dir grants))
  | region dir low alloc insert => exact hhead (horigin _ (.region dir low alloc insert))
  | free live run => exact hhead (horigin _ (.free live run))
  | create run => exact hhead (horigin _ (.create run))
  | context live tf st hst ty runs cpu => exact hhead (horigin _ (.context live tf st hst ty runs cpu))

end

/-- Two environments, the first with a page. -/
def strangers : List Cmd := [.create, .create, .call env0 (.pageAlloc 0#32 0x1000#32 7#32)]

end Jos.Kern
