import Jos.Kern.PmapSpec
import Jos.Lib.Loop

/-!
# What the environment functions do

`env_setup_vm` gives an environment an empty address space and `env_free` takes the whole
address space down again, page by page and table by table. Both keep the invariant of the
page tables. `EnvsOk` is the invariant of the `envs` array itself.
-/

namespace Jos.Kern

open Jos.Lib Kernel

/-- The invariant of `envs`: exactly the environments in use have a directory, the others
are on the free list, and the address of the last receive is a page below `UTOP`. -/
structure EnvsOk (s : Kernel) : Prop where
  pgdir_iff : ∀ e, (s.envs e).envPgdir = none ↔ (s.envs e).envStatus = .free
  free_list : ∃ l, Linked (fun e => (s.envs e).envLink) s.envFreeList l ∧ l.Nodup ∧
    ∀ e, e ∈ l ↔ (s.envs e).envStatus = .free
  dstva_ok : ∀ e, (s.envs e).envIpcDstva < utop ∧ pgoff (s.envs e).envIpcDstva = 0

section

variable {R : Nat → Prop} {held : List Nat} {s s' : Kernel} {e : EnvIx} {d p t : Nat}
  {i : Fin pdxUtop} {j : Fin nptentries}

theorem EnvsOk.exists_pgdir (h : EnvsOk s) (he : (s.envs e).envStatus ≠ .free) :
    ∃ d, (s.envs e).envPgdir = some d := by
  cases hd : (s.envs e).envPgdir with
  | none => exact absurd ((h.pgdir_iff e).mp hd) he
  | some d => exact ⟨d, rfl⟩

/-- Updates of fields that the invariant does not mention, or that keep it, are harmless. -/
theorem EnvsOk.setEnv (h : EnvsOk s) {f : Env → Env}
    (hdir : (f (s.envs e)).envPgdir = (s.envs e).envPgdir)
    (hlink : (f (s.envs e)).envLink = (s.envs e).envLink)
    (hfree : (f (s.envs e)).envStatus = .free ↔ (s.envs e).envStatus = .free)
    (hdst : (f (s.envs e)).envIpcDstva < utop ∧ pgoff (f (s.envs e)).envIpcDstva = 0) :
    EnvsOk (s.setEnv e f) := by
  have hcases : ∀ e', (s.setEnv e f).envs e' = if e' = e then f (s.envs e) else s.envs e' := by
    intro e'
    by_cases he : e' = e
    · subst he
      simp
    · rw [if_neg he, setEnv_of_ne _ _ he]
  have hlinks : (fun e' => ((s.setEnv e f).envs e').envLink) = fun e' => (s.envs e').envLink := by
    funext e'
    rw [hcases]
    split
    · rename_i he
      rw [he, hlink]
    · rfl
  have hst : ∀ e', ((s.setEnv e f).envs e').envStatus = .free ↔ (s.envs e').envStatus = .free := by
    intro e'
    rw [hcases]
    split
    · rename_i he
      rw [he, hfree]
    · rfl
  refine ⟨?_, ?_, ?_⟩
  · intro e'
    rw [hst, ← h.pgdir_iff, hcases]
    split
    · rename_i he
      rw [he, hdir]
    · rfl
  · obtain ⟨l, hl, hnd, hmem⟩ := h.free_list
    refine ⟨l, ?_, hnd, fun e' => ?_⟩
    · rw [hlinks]
      exact hl
    · rw [hst, hmem]
  · intro e'
    rw [hcases]
    split
    · exact hdst
    · exact h.dstva_ok e'

/-- Operations on pages do not change the environments. -/
theorem EnvsOk.congr (h : EnvsOk s) (henvs : s'.envs = s.envs)
    (hfree : s'.envFreeList = s.envFreeList) : EnvsOk s' where
  pgdir_iff := by rw [henvs]; exact h.pgdir_iff
  free_list := by rw [henvs, hfree]; exact h.free_list
  dstva_ok := by rw [henvs]; exact h.dstva_ok

/-! ## A new address space -/

/-- The result of giving an environment the directory in frame `p`. -/
structure VmSet (R : Nat → Prop) (held : List Nat) (s : Kernel) (e : EnvIx) (p : Nat)
    (s' : Kernel) : Prop where
  inv : PageInv R held s'
  npages : s'.npages = s.npages
  fresh : ∀ k, target s k ≠ some p
  target_eq : target s' = Function.update (target s) (.pgdir e) (some p)
  pte : pteOf s' = pteOf s
  envs : s'.envs = (s.setEnv e fun env => { env with envPgdir := some p }).envs
  envFree : s'.envFreeList = s.envFreeList
  mem : ∀ x, x < 4096 * p ∨ 4096 * p + 4096 ≤ x → s'.mem x = s.mem x

/-- The entries of a directory that was copied from `kern_pgdir` and maps itself. -/
theorem entry_selfMap (s : Kernel) {p k i : Nat} (w : BitVec 32) (hi : i < 1024) :
    Kernel.entry { s with
      mem := (s.mem.move (4096 * p) (4096 * k) pgsize).write32 (entryAddr p pdxUvpt) w } p i =
      if i = pdxUvpt then w else s.entry k i := by
  simp only [Kernel.entry]
  by_cases hiu : i = pdxUvpt
  · rw [if_pos hiu, hiu, Mem.read32_write32_self]
  · rw [if_neg hiu, Mem.read32_write32_of_disjoint _ _ (by
      simp only [entryAddr]
      omega), Mem.read32_move_of_mem _ (by simp only [entryAddr]; omega) (by
      simp only [entryAddr, pgsize]
      omega)]
    congr 1
    simp only [entryAddr]
    omega

/-- `env_setup_vm` fails only when no page is free. -/
theorem PageInv.envSetupVm (h : PageInv R held s) (hnone : (s.envs e).envPgdir = none) :
    (s.pageFreeList = none ∧ envSetupVm s e = some (s, -eNoMem)) ∨
      ∃ p s', envSetupVm s e = some (s', 0) ∧ VmSet R held s e p s' := by
  rcases h.pageAlloc true with ⟨hfree, hal⟩ | ⟨p, s1, hal, htk⟩
  · refine Or.inl ⟨hfree, ?_⟩
    simp only [Kern.envSetupVm, hal, Option.bind_eq_bind, Option.bind_some]
  · right
    obtain ⟨hpn, hpR⟩ := htk.lt
    have hs1 : Shape R s1 := htk.inv.shape
    have hpn1 : p < s1.npages := by rw [htk.same.npages]; exact hpn
    set w := page2pa p ||| pteP ||| pteU with hw
    -- the final state
    let s2 : Kernel := { s1 with
      envs := (s1.setEnv e fun env => { env with envPgdir := some p }).envs
      ppRef := (s1.incRef p).ppRef
      mem := (s1.mem.move (4096 * p) (4096 * s1.kernPgdir) pgsize).write32
        (entryAddr p pdxUvpt) w }
    have hrun : Kern.envSetupVm s e = some (s2, 0) := by
      simp only [Kern.envSetupVm, hal, Option.bind_eq_bind, Option.bind_some,
        kaddr_page2pa hs1.npages_le hpn1]
      rfl
    have hmem : ∀ x, x < 4096 * p ∨ 4096 * p + 4096 ≤ x → s2.mem x = s1.mem x := by
      intro x hx
      have huvpt : pdxUvpt = 957 := rfl
      refine (Mem.write32_of_disjoint _ _ ?_).trans (Mem.move_of_disjoint _ hx)
      simp only [entryAddr]
      omega
    have hentry : ∀ f ≠ p, ∀ i < 1024, s2.entry f i = s1.entry f i := by
      intro f hf i hi
      refine entry_congr hi fun x hx hx' => hmem x ?_
      omega
    have hself : ∀ i < 1024, s2.entry p i =
        if i = pdxUvpt then w else s1.entry s1.kernPgdir i := fun i hi =>
      entry_selfMap s1 w hi
    have hlow : ∀ i < pdxUtop, s2.entry p i = 0#32 := by
      intro i hi
      have hne : i ≠ pdxUvpt := by
        have : pdxUvpt = 957 := rfl
        have : pdxUtop = 955 := rfl
        omega
      rw [hself i (pdxUtop_lt hi), if_neg hne, hs1.kern_low i hi]
    have hdir : ∀ e', (s2.envs e').envPgdir =
        if e' = e then some p else (s1.envs e').envPgdir := by
      intro e'
      by_cases he : e' = e
      · subst he
        simp [s2]
      · rw [if_neg he]
        exact congrArg Env.envPgdir (setEnv_of_ne s1 (fun env => { env with envPgdir := some p }) he)
    have hnone1 : (s1.envs e).envPgdir = none := by rw [htk.envs, hnone]
    have hfresh1 : ∀ k, target s1 k ≠ some p := by rw [htk.same.target_eq]; exact htk.fresh
    obtain ⟨htar, hpte⟩ := target_setDir hnone1 hdir hentry hlow hfresh1
    rw [htk.same.target_eq] at htar
    rw [htk.same.pteOf_eq] at hpte
    refine ⟨p, s2, hrun, ⟨?_, ?_⟩, htk.same.npages, htk.fresh, htar, hpte, ?_, htk.envFree, ?_⟩
    · exact hs1.setDir rfl rfl hnone1 hdir hentry hlow (fun i _ hi => hself i hi) hfresh1 hpR
    · rw [htar]
      have hacc := htk.inv.accounts
      rw [htk.same.target_eq] at hacc
      have hinc := hacc.incRef_held htk.notHeld (k := .pgdir e) hnone
      exact ⟨hinc.pages, hinc.held_ok⟩
    · simp only [s2, Kernel.setEnv, htk.envs]
    · intro x hx
      rw [hmem x hx, htk.mem x hx]

/-! ## Taking an address space down -/

/-- No counter has wrapped around. -/
def Bounded (s : Kernel) : Prop := ∀ p, refCount (target s) p < 2 ^ 16

theorem Bounded.of_le (h : Bounded s)
    (hle : ∀ p, refCount (target s') p ≤ refCount (target s) p) : Bounded s' := fun p =>
  Nat.lt_of_le_of_lt (hle p) (h p)

theorem Bounded.dropOk (h : Bounded s) (k : Place) : DropOk s k := fun q _ => h q

/-- The state in the inner loop of `env_free`: the entries below `n` of one page table are
gone and nothing else has changed. -/
structure PtesFreed (R : Nat → Prop) (held : List Nat) (s : Kernel) (e : EnvIx)
    (i : Fin pdxUtop) (n : Nat) (s' : Kernel) : Prop where
  inv : PageInv R held s'
  target_table : ∀ k, k.isTable → target s' k = target s k
  gone : ∀ j : Fin nptentries, j < n → target s' (.pte e i j) = none
  pte : ∀ k : Slot, (k.1, k.2.1) ≠ (e, i) → pteOf s' k = pteOf s k
  tables : TablesOnly s s'
  count_le : ∀ p, refCount (target s') p ≤ refCount (target s) p
  own : ∀ f, target s (.pde e i) ≠ some f → SameFrame s s' f

theorem NoTable.of_target_eq {f : Nat} (htar : ∀ k, k.isTable → target s' k = target s k)
    (h : NoTable s f) : NoTable s' f := fun k hk => by
  rw [htar k hk]
  exact h k hk

/-- The inner loop of `env_free`. -/
theorem PageInv.freePtes (h : PageInv R held s) (hd : (s.envs e).envPgdir = some d)
    (ht : target s (.pde e i) = some t) (hb : Bounded s) :
    ∃ s', (List.range nptentries).foldlM (freePte d (4096 * t) i) s = some s' ∧
      PtesFreed R held s e i nptentries s' := by
  refine foldlM_range_inv (PtesFreed R held s e i) ?_ ?_
  · exact ⟨h, fun _ _ => rfl, fun j hj => absurd hj (Nat.not_lt_zero _), fun _ _ => rfl,
      TablesOnly.refl s, fun _ => Nat.le_refl _, fun _ _ _ _ _ => rfl⟩
  · intro n hn s1 h1
    have hd1 : (s1.envs e).envPgdir = some d := by rw [h1.tables.envs, hd]
    have hb1 := (hb.of_le h1.count_le).dropOk
    have ht1 : target s1 (.pde e i) = some t := by rw [h1.target_table _ rfl, ht]
    have hi1024 := pdxUtop_lt i.isLt
    have hi' : pdx (pgaddr i n) = i := pdx_pgaddr hi1024 hn
    have hj' : ptx (pgaddr i n) = (⟨n, hn⟩ : Fin nptentries) := ptx_pgaddr hi1024 hn
    by_cases hp : isPresent (s1.mem.read32 (4096 * t + 4 * n)) = true
    · obtain ⟨s2, hrem, h2, htar2, _, hpte2, htab2, hown2⟩ := h1.inv.pageRemove hd1 hi' hj' (hb1 _)
      have htable : ∀ k, k.isTable → target s2 k = target s1 k := by
        intro k hk
        rw [htar2, Function.update_of_ne]
        rintro rfl
        cases hk
      refine ⟨s2, by simp only [freePte, hp, if_true, hrem], h2, ?_, ?_, ?_, ?_, ?_, ?_⟩
      · intro k hk
        rw [htable k hk, h1.target_table k hk]
      · intro j hj
        rw [htar2]
        by_cases hjn : j = ⟨n, hn⟩
        · rw [hjn, Function.update_self]
        · rw [Function.update_of_ne (by simpa using hjn)]
          refine h1.gone j ?_
          have : j.val ≠ n := fun hv => hjn (Fin.ext hv)
          omega
      · intro k hk
        rw [hpte2 k (by rintro rfl; exact hk rfl), h1.pte k hk]
      · exact h1.tables.trans htab2 fun f hf _ => NoTable.of_target_eq h1.target_table hf
      · intro p
        rw [htar2]
        exact Nat.le_trans (refCount_update_none_le ..) (h1.count_le p)
      · intro f hf x hx hx'
        rw [hown2 f (by rwa [h1.target_table _ rfl]) x hx hx', h1.own f hf x hx hx']
    · refine ⟨s1, by simp only [freePte, hp]; rfl, h1.inv, h1.target_table, ?_, h1.pte, h1.tables,
        h1.count_le, h1.own⟩
      intro j hj
      by_cases hjn : j.val = n
      · rw [target_pte ht1, entryTarget, if_neg]
        rw [hjn]
        exact hp
      · exact h1.gone j (by omega)

/-- Frame `f` is not a directory or page table of `e`. -/
def NoTableOf (s : Kernel) (e : EnvIx) (f : Nat) : Prop :=
  target s (.pgdir e) ≠ some f ∧ ∀ i, target s (.pde e i) ≠ some f

/-- The state in the outer loop of `env_free`: the tables below `n` are gone. -/
structure PdesFreed (R : Nat → Prop) (held : List Nat) (s : Kernel) (e : EnvIx)
    (n : Nat) (s' : Kernel) : Prop where
  inv : PageInv R held s'
  table : ∀ k p, k.isTable → target s' k = some p → target s k = some p
  gone : ∀ i : Fin pdxUtop, i < n → target s' (.pde e i) = none
  pte : ∀ k : Slot, k.1 ≠ e → pteOf s' k = pteOf s k
  tables : TablesOnly s s'
  count_le : ∀ p, refCount (target s') p ≤ refCount (target s) p
  own : ∀ f, NoTableOf s e f → SameFrame s s' f

theorem PdesFreed.noTable {n f : Nat} (h : PdesFreed R held s e n s') (hf : NoTable s f) :
    NoTable s' f := fun k hk hkf => hf k hk (h.table k f hk hkf)

/-- The body of the outer loop of `env_free` on a page table. -/
theorem PageInv.freePde (h : PageInv R held s) (hd : (s.envs e).envPgdir = some d)
    (ht : target s (.pde e i) = some t) (hb : Bounded s) :
    ∃ s', freePde d s i = some s' ∧ PageInv R held s' ∧
      (∀ k, k.isTable → target s' k = Function.update (target s) (.pde e i) none k) ∧
      (∀ k : Slot, k.1 ≠ e → pteOf s' k = pteOf s k) ∧ TablesOnly s s' ∧
      (∀ p, refCount (target s') p ≤ refCount (target s) p) ∧
      ∀ f, NoTableOf s e f → SameFrame s s' f := by
  obtain ⟨hent, htn⟩ := h.shape.pde_eq hd ht
  have hlt := h.shape.lt_two_pow htn
  obtain ⟨hpres, haddr⟩ := pteAddr_of_target (entryTarget_tableEntry hlt) hlt
  obtain ⟨s1, hloop, h1⟩ := h.freePtes hd ht hb
  have hd1 : (s1.envs e).envPgdir = some d := by rw [h1.tables.envs, hd]
  have ht1 : target s1 (.pde e i) = some t := by rw [h1.target_table _ rfl, ht]
  have hdR : ¬ R d := (h.target_lt (k := .pgdir e) hd).2.1
  have hgone : ∀ j, target s1 (.pte e i j) = none := fun j => h1.gone j j.isLt
  have hnew : ∀ t, entryTarget 0#32 = some t → t ≠ d ∧ ∀ j < nptentries, s1.entry t j = 0#32 :=
    fun t ht => by cases ht
  have htar2 := h1.inv.shape.target_writePde hd1 i 0#32 hgone hnew
  have hshape2 := h1.inv.shape.writePde hd1 hdR i 0#32 hgone (Or.inl rfl)
  -- the table is given up after its entry has been cleared
  have hacc2 : Accounts R held (s1.writePte (entryAddr d i) 0#32) (target s1) :=
    ⟨h1.inv.accounts.pages, h1.inv.accounts.held_ok⟩
  obtain ⟨s3, hdec, hsame, _, hacc3⟩ := hacc2.pageDecref ht1 (hb.of_le h1.count_le t)
  have hst : SameTables R (s1.writePte (entryAddr d i) 0#32) s3 := hsame.sameTables
  have hn1 : (s1.writePte (entryAddr d i) 0#32).npages = s.npages := h1.tables.npages
  have htar3 : target s3 = Function.update (target s1) (.pde e i) none := by
    rw [hst.target_eq, htar2, entryTarget_zero]
  refine ⟨s3, ?_, ⟨hst.shape hshape2, ?_⟩, ?_, ?_, ?_, ?_, ?_⟩
  · simp only [Kern.freePde, hent, hpres, if_true, haddr, kaddr_page2pa h.shape.npages_le htn,
      Option.bind_eq_bind, Option.bind_some, hloop]
    rw [pa2page_page2pa (by rw [hn1]; exact h.shape.npages_le) (by rw [hn1]; exact htn)]
    exact hdec
  · rw [htar3]
    exact hacc3
  · intro k hk
    rw [htar3]
    by_cases hki : k = .pde e i
    · subst hki
      simp
    · rw [Function.update_of_ne hki, Function.update_of_ne hki, h1.target_table k hk]
  · intro ⟨e', i', j'⟩ hk
    have hne : (Place.pde e' i') ≠ .pde e i := by
      rintro h
      cases h
      exact hk rfl
    rw [hst.pteOf_eq, ← h1.pte _ (by rintro h; cases h; exact hk rfl)]
    have hpde : target (s1.writePte (entryAddr d i) 0#32) (.pde e' i') = target s1 (.pde e' i') := by
      rw [htar2, Function.update_of_ne hne]
    cases ht' : target s1 (.pde e' i') with
    | none => rw [pteOf_of_none (hpde.trans ht'), pteOf_of_none ht']
    | some t' =>
        have htd : t' ≠ d := by
          rintro rfl
          have := h1.inv.shape.table_unique (.pgdir e) (.pde e' i') t' rfl hd1 ht'
          cases this
        rw [pteOf_eq (hpde.trans ht'), pteOf_eq ht',
          entry_writePte_of_ne _ _ (pdxUtop_lt i.isLt) j'.isLt (Or.inl htd)]
  · refine ⟨hsame.npages.trans hn1, hsame.kern.trans h1.tables.kern,
      hsame.envs.trans h1.tables.envs, hsame.envFree.trans h1.tables.envFree, ?_⟩
    intro f hf _ x hx hx'
    have hfd : f ≠ d := by
      rintro rfl
      exact hf (.pgdir e) rfl hd
    have hil := pdxUtop_lt i.isLt
    have hf1 : NoTable s1 f := NoTable.of_target_eq h1.target_table hf
    rw [hsame.mem, ← h1.tables.data f hf hf1 x hx hx']
    refine Mem.write32_of_disjoint _ _ ?_
    simp only [entryAddr]
    omega
  · intro p
    rw [htar3]
    exact Nat.le_trans (refCount_update_none_le ..) (h1.count_le p)
  · intro f hf x hx hx'
    have hfd : f ≠ d := by
      rintro rfl
      exact hf.1 hd
    have hil := pdxUtop_lt i.isLt
    rw [hsame.mem, ← h1.own f (hf.2 i) x hx hx']
    refine Mem.write32_of_disjoint _ _ ?_
    simp only [entryAddr]
    omega

/-- The outer loop of `env_free`. -/
theorem PageInv.freePdes (h : PageInv R held s) (hd : (s.envs e).envPgdir = some d)
    (hb : Bounded s) :
    ∃ s', (List.range pdxUtop).foldlM (Kern.freePde d) s = some s' ∧
      PdesFreed R held s e pdxUtop s' := by
  refine foldlM_range_inv (PdesFreed R held s e) ?_ ?_
  · exact ⟨h, fun _ _ _ hk => hk, fun j hj => absurd hj (Nat.not_lt_zero _), fun _ _ => rfl,
      TablesOnly.refl s, fun _ => Nat.le_refl _, fun _ _ _ _ _ => rfl⟩
  · intro n hn s1 h1
    have hd1 : (s1.envs e).envPgdir = some d := by rw [h1.tables.envs, hd]
    cases ht : target s1 (.pde e ⟨n, hn⟩) with
    | none =>
        have hz := h1.inv.shape.pde_zero hd1 ht
        refine ⟨s1, ?_, h1.inv, h1.table, ?_, h1.pte, h1.tables, h1.count_le,
          h1.own⟩
        · have hz' : s1.entry d n = 0#32 := hz
          simp [Kern.freePde, hz']
        · intro i hi
          by_cases hin : i.val = n
          · rw [← ht]
            congr
            exact Fin.ext hin
          · exact h1.gone i (by omega)
    | some t =>
        obtain ⟨s2, hrun, h2, htar2, hpte2, htab2, hle2, hown2⟩ :=
          h1.inv.freePde hd1 ht (hb.of_le h1.count_le)
        refine ⟨s2, hrun, h2, ?_, ?_, ?_, ?_, fun p => Nat.le_trans (hle2 p) (h1.count_le p), ?_⟩
        · intro k p hk hkp
          rw [htar2 k hk] at hkp
          by_cases hki : k = .pde e ⟨n, hn⟩
          · subst hki
            rw [Function.update_self] at hkp
            cases hkp
          · rw [Function.update_of_ne hki] at hkp
            exact h1.table k p hk hkp
        · intro i hi
          rw [htar2 _ rfl]
          by_cases hin : i = ⟨n, hn⟩
          · rw [hin, Function.update_self]
          · rw [Function.update_of_ne (by simpa using hin)]
            refine h1.gone i ?_
            have : i.val ≠ n := fun hv => hin (Fin.ext hv)
            omega
        · intro k hk
          rw [hpte2 k hk, h1.pte k hk]
        · exact h1.tables.trans htab2 fun f hf _ => h1.noTable hf
        · intro f hf x hx hx'
          have hf1 : NoTableOf s1 e f :=
            ⟨fun hk => hf.1 (h1.table _ f rfl hk), fun i hk => hf.2 i (h1.table _ f rfl hk)⟩
          rw [hown2 f hf1 x hx hx', h1.own f hf x hx hx']

/-- The result of `env_free`. -/
structure EnvFreed (R : Nat → Prop) (held : List Nat) (s : Kernel) (e : EnvIx)
    (s' : Kernel) : Prop where
  inv : PageInv R held s'
  table : ∀ k p, k.isTable → target s' k = some p → target s k = some p
  pte : ∀ k : Slot, k.1 ≠ e → pteOf s' k = pteOf s k
  npages : s'.npages = s.npages
  kern : s'.kernPgdir = s.kernPgdir
  envs : s'.envs = Function.update s.envs e { s.envs e with
    envPgdir := none, envStatus := .free, envLink := s.envFreeList }
  envFree : s'.envFreeList = some e
  count_le : ∀ p, refCount (target s') p ≤ refCount (target s) p
  data : ∀ f, NoTableOf s e f → SameFrame s s' f

/-- `env_free` does not panic on an environment that has a directory. -/
theorem PageInv.envFree (h : PageInv R held s) (hd : (s.envs e).envPgdir = some d)
    (hb : Bounded s) :
    ∃ s', envFree s e = some s' ∧ EnvFreed R held s e s' := by
  obtain ⟨s1, hloop, h1⟩ := h.freePdes hd hb
  have hdn := (h.target_lt (k := .pgdir e) hd).1
  have hd1 : target s1 (.pgdir e) = some d := by
    have : (s1.envs e).envPgdir = some d := by rw [h1.tables.envs, hd]
    exact this
  have hempty : ∀ i, target s1 (.pde e i) = none := fun i => h1.gone i i.isLt
  let s2 := s1.setEnv e fun env => { env with envPgdir := none }
  have hdir : ∀ e', (s2.envs e').envPgdir = if e' = e then none else (s1.envs e').envPgdir := by
    intro e'
    by_cases he : e' = e
    · subst he
      simp [s2]
    · rw [if_neg he]
      exact congrArg Env.envPgdir (setEnv_of_ne s1 _ he)
  obtain ⟨htar2, hpte2⟩ := target_clearDir hempty hdir rfl
  have hshape2 : Shape R s2 := h1.inv.shape.clearDir rfl rfl hempty hdir rfl
  have hacc2 : Accounts R held s2 (target s1) :=
    ⟨h1.inv.accounts.pages, h1.inv.accounts.held_ok⟩
  obtain ⟨s3, hdec, hsame, _, hacc3⟩ := hacc2.pageDecref hd1 (hb.of_le h1.count_le d)
  have hn2 : s2.npages = s.npages := h1.tables.npages
  -- returning the environment to the free list touches no page
  let s4 : Kernel := { s3.setEnv e fun env =>
      { env with envStatus := .free, envLink := s3.envFreeList } with envFreeList := some e }
  have hst : SameTables R s2 s4 := by
    refine ⟨hsame.npages, hsame.kern, ?_, ?_⟩
    · intro e'
      by_cases he : e' = e
      · subst he
        have : (s4.envs e').envPgdir = (s3.envs e').envPgdir := by simp [s4]
        rw [this, hsame.envs]
      · have : s4.envs e' = s3.envs e' := Function.update_of_ne he ..
        rw [this, hsame.envs]
    · intro f _ i _
      have : s4.entry f i = s3.entry f i := rfl
      rw [this, Kernel.entry, hsame.mem, Kernel.entry]
  have htar4 : target s4 = Function.update (target s1) (.pgdir e) none := by
    rw [hst.target_eq, htar2]
  have henvFree3 : s3.envFreeList = s.envFreeList := hsame.envFree.trans h1.tables.envFree
  refine ⟨s4, ?_, ⟨hst.shape hshape2, ?_⟩, ?_, ?_, hst.npages.trans hn2,
    hst.kern.trans h1.tables.kern, ?_, rfl, ?_, ?_⟩
  · have hpa : s2.pa2page (page2pa d) = some d :=
      pa2page_page2pa (by rw [hn2]; exact h.shape.npages_le) (by rw [hn2]; exact hdn)
    simp only [Kern.envFree, hd, Option.bind_eq_bind, Option.bind_some, hloop]
    rw [hpa, Option.bind_some, hdec, Option.bind_some]
  · rw [htar4]
    exact ⟨hacc3.pages, hacc3.held_ok⟩
  · intro k p hk hkp
    rw [htar4] at hkp
    by_cases hke : k = .pgdir e
    · subst hke
      rw [Function.update_self] at hkp
      cases hkp
    · rw [Function.update_of_ne hke] at hkp
      exact h1.table k p hk hkp
  · intro k hk
    rw [hst.pteOf_eq, hpte2, h1.pte k hk]
  · have h3 : s3.envs = Function.update s.envs e { s.envs e with envPgdir := none } := by
      rw [hsame.envs]
      simp only [s2, Kernel.setEnv, h1.tables.envs]
    simp only [s4, Kernel.setEnv, henvFree3, h3, Function.update_self, Function.update_idem]
  · intro p
    rw [htar4]
    exact Nat.le_trans (refCount_update_none_le ..) (h1.count_le p)
  · intro f hf x hx hx'
    have hmem : s4.mem x = s1.mem x := congrFun hsame.mem x
    rw [hmem]
    exact h1.own f hf x hx hx'

end

end Jos.Kern
