import Jos.Kern.Contents
import Jos.User.ForkSpec

/-!
# A fork is a snapshot

After `fork` nobody maps a private page of the parent with `PTE_W`. So the frame holds what it held
when the parent called `fork`, for the parent and for the child, whatever these two and all other
environments do afterwards, for as long as the frame is mapped at all.

Main results:
* `fork_ends`: what `fork` leaves in the page tables and in the memory, when it returns;
* `Snapshot.not_writable`: nobody writes to a private page;
* `fork_snapshot`: it holds what it held, over any run of later steps.

The stack of the parent is aside, as in `Forked`: the parent writes on it while `fork` runs, and has
another page there in the end.
-/

namespace Jos.User

open Jos.Lib Jos.Kern Kernel

section

variable {R : Nat → Prop} {s s' s0 s1 : Kernel} {cur c e : EnvIx} {i : Fin pdxUtop}
  {j : Fin nptentries} {k : Slot} {envid w upcall id : BitVec 32} {n f p : Nat} {installed : Bool}

/-! ## Contents, call by call -/

/-- `duppage` writes to no frame that someone beside the child maps. -/
theorem duppage_data (h : Inv R s) (hlive : (s.envs cur).envStatus ≠ .free)
    (hc : envid2env s cur envid true = some c) (hne : cur ≠ c) (hw : pteOf s (cur, i, j) = w)
    (hp : isPresent w = true) (hzero : pteOf s (c, i, j) = 0#32)
    (hdrop : ∀ s1, Inv R s1 → s1.envs = s.envs →
      pteOf s1 = Function.update (pteOf s) (c, i, j) (dupPte w) →
      DropOk s1 (placeOf (cur, i, j)))
    (hrun : duppage cur envid s (pgnum (pgaddr i j)) = some s') (hk : k.1 ≠ c)
    (hf : entryTarget (pteOf s k) = some f) : SameFrame s s' f := by
  have hok : DupOk w := by
    by_contra hok
    rw [duppage_refused h hlive hc hw hp hok] at hrun
    cases hrun
  obtain ⟨d, hd⟩ := h.envs.exists_pgdir hlive
  have htarget : entryTarget (pteOf s (cur, i, j)) = some (pteFrame w) := by
    rw [hw, entryTarget, if_pos hp]
  have ht := pde_of_pteOf (by rw [htarget]; simp)
  have hlow := pgaddr_lt i j
  have hvas : (badVa (pgaddr i j) || badVa (pgaddr i j)) = false := by rw [badVa_pgaddr]; rfl
  have hslot := slotOf_pgaddr cur i j
  have hslotc := slotOf_pgaddr c i j
  have hgrant := (grantsWrite_dupPerm w).mpr hok
  have hdropc : DropOk s (placeOf (c, i, j)) := by
    intro q hq
    rw [target_placeOf, hzero] at hq
    cases hq
  simp only [duppage, hd, ofNat_pgnum, uvptEntry_eq h hd ht, hw, Option.bind_eq_bind,
    Option.bind_some, Option.bind_eq_some_iff] at hrun
  obtain ⟨s1, hrun1, hrun2⟩ := hrun
  -- The page in the child.
  rcases h.sysPageMap_checked hlive (envid2env_zero s cur true) hc hvas hlow hlow
      (by rw [hslot]; exact htarget) (badPerm_dupPerm w) (by rw [hslot, hw]; exact hgrant)
      (by rw [hslotc]; exact hdropc) with ⟨_, hfail⟩ | ⟨s2, hcall, hop, hsh, _⟩
  · simp [hfail, orPanic, eNoMem] at hrun1
  have hs2 : s2 = s1 := by simpa [hcall, orPanic] using hrun1
  subst hs2
  have hpte2 : pteOf s2 = Function.update (pteOf s) (c, i, j) (dupPte w) := by
    rw [hsh.pte, hslotc, dupPte_of_present hp]
  have hold : ∀ k : Slot, k.1 ≠ c → pteOf s2 k = pteOf s k := by
    rintro k hk
    rw [hpte2]
    apply Function.update_of_ne
    rintro rfl
    exact hk rfl
  have hf2 : entryTarget (pteOf s2 k) = some f := by rw [hold k hk, hf]
  have hsame := hop.data f ⟨k, hf⟩ ⟨k, hf2⟩
  split at hrun2
  · -- The page in the parent again.
    have hw2 : pteOf s2 (cur, i, j) = w := by rw [hold _ hne, hw]
    have htarget2 : entryTarget (pteOf s2 (cur, i, j)) = some (pteFrame w) := by
      rw [hold _ hne, htarget]
    have hlive2 : (s2.envs cur).envStatus ≠ .free := by
      rw [hop.envs]
      exact hlive
    rcases hop.inv.sysPageMap_checked hlive2 (envid2env_zero s2 cur true)
        (envid2env_zero s2 cur true) hvas hlow hlow (by rw [hslot]; exact htarget2)
        (badPerm_dupPerm w) (by rw [hslot, hw2]; exact hgrant)
        (by rw [hslot]; exact hdrop s2 hop.inv hop.envs hpte2) with
      ⟨_, hfail⟩ | ⟨s3, hcall3, hop3, hsh3, _⟩
    · simp [hfail, orPanic, eNoMem] at hrun2
    have hs3 : s3 = s' := by simpa [hcall3, orPanic] using hrun2
    subst hs3
    refine hsame.trans (hop3.data f ⟨k, hf2⟩ ⟨k, ?_⟩)
    rw [hsh3.pte, hslot]
    by_cases hkc : k = (cur, i, j)
    · subst hkc
      rw [Function.update_self, hsh3.target_eq, ← htarget2, hf2]
    · rw [Function.update_of_ne hkc, hf2]
  · cases hrun2
    exact hsame

/-- A page of the loop: what `forkPage` leaves, and the contents. -/
theorem forkPage_next (hf : Forking R s0 cur c envid) (h : Copied R s0 cur c n s)
    (hn : n = 1024 * i.val + j.val) (hrow : RowSpare c i s) (ht : target s (.pde cur i) ≠ none)
    (hrun : forkPage cur envid i s j = some s') (hk : k.1 ≠ c)
    (hkf : entryTarget (pteOf s0 k) = some f) :
    Copied R s0 cur c (n + 1) s' ∧
      (n + 1 < userPages → RowSpare c i s' ∧ target s' (.pde cur i) ≠ none) ∧
      SameFrame s s' f := by
  have hlive : (s.envs cur).envStatus ≠ .free := by
    rw [h.envs]
    exact hf.live
  have hchild : envid2env s cur envid true = some c := by
    rw [envid2env_congr h.envs]
    exact hf.child
  have hkf1 : entryTarget (pteOf s k) = some f := by rw [h.target_other k hk, hkf]
  by_cases hux : (cur, i, j) = uxSlot cur
  · obtain ⟨s1, hrun1, hcop⟩ := forkPage_stack hf h hn hux hrow
    have hs1 : s1 = s' := Option.some.inj (hrun1.symm.trans hrun)
    subst hs1
    have hlast := uxSlot_last hux
    refine ⟨hcop, fun hlt => by omega, ?_⟩
    have huxc := uxSlot_congr hux c
    have haddr : pgaddr i j = uxstack := pgaddr_eq_uxstack.mpr hux
    have hdrop : DropOk s (placeOf (slotOf c uxstack uxstack_lt)) := by
      intro q hq
      rw [target_placeOf, show slotOf c uxstack uxstack_lt = uxSlot c from rfl,
        h.stack_before (by omega)] at hq
      cases hq
    have htab : (⟨pdx uxstack, pdx_lt_of_lt_utop uxstack_lt⟩ : Fin pdxUtop) = i :=
      (congrArg (fun k : Slot => k.2.1) huxc).symm
    obtain ⟨s2, pg, hcall, hop, hal⟩ := sysPageAlloc_ok h.inv hlive hchild (by decide) uxstack_lt
      (by decide : badPerm (pteP ||| pteU ||| pteW) = false) hdrop (by rw [htab]; exact hrow.two)
    have hs2 : s2 = s1 := by
      rw [forkPage, if_pos haddr, haddr, hcall] at hrun
      exact Option.some.inj hrun
    subst hs2
    refine hop.data f ⟨k, hkf1⟩ ⟨k, ?_⟩
    rw [hal.pte, Function.update_of_ne, hkf1]
    rintro rfl
    exact hk rfl
  · have hlt : n < userPages := by
      have hi := i.isLt
      have hj := j.isLt
      have hall : userPages = 1024 * 955 := by decide
      simp only [pdxUtop, nptentries] at hi hj
      omega
    rcases forkPage_copy hf h hn hux hrow ht with ⟨hnone, _⟩ | ⟨s1, hrun1, hcop, hrow1, ht1, _⟩
    · rw [hnone] at hrun
      cases hrun
    have hs1 : s1 = s' := Option.some.inj (hrun1.symm.trans hrun)
    subst hs1
    refine ⟨hcop, fun _ => ⟨hrow1, ht1⟩, ?_⟩
    obtain ⟨d, hd⟩ := h.inv.envs.exists_pgdir hlive
    have hw : pteOf s (cur, i, j) = pteOf s0 (cur, i, j) := by
      rw [h.parent i j hux, if_neg (by omega)]
    have hzero : pteOf s (c, i, j) = 0#32 := by
      rw [h.child i j fun heq => hux (uxSlot_congr heq cur), if_neg (by omega)]
    rw [forkPage, if_neg (fun heq => hux (pgaddr_eq_uxstack.mp heq)), hd, Option.bind_eq_bind,
      Option.bind_some, uvptEntry_eq h.inv hd ht, hw] at hrun
    split at hrun
    · cases hrun
      exact fun _ _ _ => rfl
    · rename_i hpres
      have hp : isPresent (pteOf s0 (cur, i, j)) = true := by simpa [isPresent] using hpres
      exact duppage_data h.inv hlive hchild hf.ne hw hp hzero
        (fun s1 h1 _ hpte => h.dropOk hf hlt hux hp h1 hpte) hrun hk hkf1

/-- A page table of the loop. -/
theorem forkTable_data (hf : Forking R s0 cur c envid) (h : Copied R s0 cur c (1024 * i.val) s)
    (hspare : Spare s (956 - i.val)) (hrun : forkTable cur envid s i = some s') (hk : k.1 ≠ c)
    (hkf : entryTarget (pteOf s0 k) = some f) : SameFrame s s' f := by
  have hlive : (s.envs cur).envStatus ≠ .free := by
    rw [h.envs]
    exact hf.live
  have hi := i.isLt
  simp only [pdxUtop] at hi
  have hall : userPages = 1024 * 955 := by decide
  obtain ⟨d, hd⟩ := h.inv.envs.exists_pgdir hlive
  simp only [forkTable, hd, Option.bind_eq_bind, Option.bind_some, uvpdEntry_iff hd] at hrun
  split at hrun
  · cases hrun
    exact fun _ _ _ => rfl
  · rename_i ht
    have hend := foldlM_range_of_some (fun m s1 => (Copied R s0 cur c (1024 * i.val + m) s1 ∧
      (1024 * i.val + m < userPages → RowSpare c i s1 ∧ target s1 (.pde cur i) ≠ none)) ∧
        SameFrame s s1 f) hrun ⟨⟨h, fun _ => ⟨Or.inl hspare, ht⟩⟩, fun _ _ _ => rfl⟩ ?_
    · exact hend.2
    · rintro m hm s1 s2 hrun1 ⟨⟨hcop, hmore⟩, hsame⟩
      have hm' : m < 1024 := hm
      obtain ⟨hrow, ht1⟩ := hmore (by omega)
      obtain ⟨hcop2, hmore2, hsame2⟩ :=
        forkPage_next (j := ⟨m, hm⟩) hf hcop rfl hrow ht1 hrun1 hk hkf
      exact ⟨⟨hcop2, hmore2⟩, hsame.trans hsame2⟩

/-- The whole loop: the frames that the parent maps hold what they held. -/
theorem forkLoop_data (hf : Forking R s0 cur c envid) (htop : TopMapped s0 cur)
    (hspare : Spare s0 956)
    (hrun : forkLoop cur envid (List.range userPages) 0 true s0 = some s') (hk : k.1 ≠ c)
    (hkf : entryTarget (pteOf s0 k) = some f) : SameFrame s0 s' f := by
  have hall : userPages = 1024 * 955 := by decide
  have hrows : forkLoop cur envid (List.range' (1024 * 0) (1024 * 955)) 0 true s0 =
      (List.range' 0 955).foldlM (forkTable cur envid) s0 := forkLoop_eq (by omega) (by simp)
  have hstart : Copied R s0 cur c (1024 * 0) s0 := by
    refine ⟨hf.inv, rfl, fun i j _ => ?_, rfl, fun i j _ => ?_, fun _ _ _ => rfl, fun _ => ?_,
      fun hle => ?_⟩
    · rw [if_neg (by omega)]
    · rw [if_neg (by omega), hf.empty]
    · exact hf.empty _ _
    · rw [hall] at hle
      omega
  rw [hall, List.range_eq_range'] at hrun
  have hrun' : (List.range pdxUtop).foldlM (forkTable cur envid) s0 = some s' := by
    rw [List.range_eq_range']
    exact hrows.symm.trans hrun
  have hend := foldlM_range_of_some (fun i s1 => (Copied R s0 cur c (1024 * i) s1 ∧
    (i < 955 → Spare s1 (956 - i))) ∧ SameFrame s0 s1 f) hrun'
    ⟨⟨hstart, fun _ => hspare⟩, fun _ _ _ => rfl⟩ ?_
  · exact hend.2
  · rintro i hi s1 s2 hrun1 ⟨⟨hcop, hmore⟩, hsame⟩
    have hsame2 := forkTable_data (i := ⟨i, hi⟩) hf hcop (hmore hi) hrun1 hk hkf
    rcases forkTable_cases (i := ⟨i, hi⟩) hf htop hcop (hmore hi) with
      ⟨hnone, _⟩ | ⟨s3, hrun3, hcop3, _⟩
    · rw [hnone] at hrun1
      cases hrun1
    · have hs3 : s3 = s2 := Option.some.inj (hrun3.symm.trans hrun1)
      subst hs3
      exact ⟨hcop3, hsame.trans hsame2⟩

/-! ## Before and after the loop -/

/-- `set_pgfault_handler` writes to no frame that is mapped beside the exception stack, and the
exception stack is the old one or a new page. -/
theorem setPgfaultHandler_data (h : Inv R s) (hlive : (s.envs cur).envStatus ≠ .free)
    (hid : envx (s.envs cur).envId = cur) (hdrop : DropOk s (placeOf (uxSlot cur)))
    (hs : Spare s 2) (hrun : setPgfaultHandler installed upcall s cur = some s1) :
    (∀ k f, k ≠ uxSlot cur → entryTarget (pteOf s k) = some f → SameFrame s s1 f) ∧
      (pteOf s1 (uxSlot cur) = pteOf s (uxSlot cur) ∨
        ∃ p, entryTarget (pteOf s1 (uxSlot cur)) = some p ∧ ¬ Mapped s p) := by
  cases installed with
  | true =>
      cases hrun
      exact ⟨fun _ _ _ _ _ _ _ => rfl, Or.inl rfl⟩
  | false =>
      have hself : envid2env s cur (s.envs cur).envId true = some cur := by
        rw [envid2env]
        split
        · rfl
        · simp [hid, hlive]
      obtain ⟨s2, pg, hcall, hop, hal⟩ := sysPageAlloc_ok h hlive hself (by decide) uxstack_lt
        (by decide : badPerm (pteP ||| pteW ||| pteU) = false) hdrop (Or.inl hs)
      have hself2 : envid2env s2 cur (s2.envs cur).envId true = some cur := by
        rw [hop.envs, envid2env_congr hop.envs]
        exact hself
      have hset : setPgfaultHandler false upcall s cur =
          some (s2.setEnv cur fun env => { env with envPgfaultUpcall := upcall }) := by
        simp [setPgfaultHandler, orPanic, hcall, sysEnvSetPgfaultUpcall, hself2]
      rw [hset] at hrun
      cases hrun
      have hpte : pteOf (s2.setEnv cur fun env => { env with envPgfaultUpcall := upcall }) =
          pteOf s2 := (target_setEnv rfl).2
      refine ⟨fun k f hk hf => hop.data f ⟨k, hf⟩ ⟨k, ?_⟩, Or.inr ⟨pg, ?_, hal.fresh⟩⟩
      · rw [hal.pte, show slotOf cur uxstack uxstack_lt = uxSlot cur from rfl,
          Function.update_of_ne hk, hf]
      · rw [hpte, hal.pte, show slotOf cur uxstack uxstack_lt = uxSlot cur from rfl,
          Function.update_self, hal.target_eq]

theorem sysExofork_data {o : Kern.Outcome} (h : Inv R s) (hrun : sysExofork s cur = some (s0, o))
    (hf : Mapped s f) : SameFrame s s0 f := by
  rcases h.envAlloc (s.envs cur).envId with ⟨r, _, hfail⟩ | ⟨s1, c, hcall, hal⟩
  · simp [sysExofork, hfail] at hrun
    rw [hrun.1]
    exact fun _ _ _ => rfl
  · simp [sysExofork, hcall] at hrun
    rw [← hrun.1]
    exact hal.data f hf

/-- The end of `fork` sets fields of the child only. -/
theorem forkEnd_data (h : Inv R s1) (hlive : (s1.envs cur).envStatus ≠ .free)
    (hrun : forkEnd s1 cur envid = some (s', id)) : Inv R s' ∧ s'.mem = s1.mem := by
  simp only [forkEnd, Option.bind_eq_bind, Option.bind_eq_some_iff] at hrun
  obtain ⟨s2, h2, s3, h3, heq⟩ := hrun
  cases heq
  rw [sysEnvSetPgfaultUpcall] at h2
  split at h2
  · simp [orPanic, eBadEnv] at h2
  rename_i e he
  simp only [orPanic] at h2
  cases h2
  have hinv : Inv R (s1.setEnv e fun env =>
      { env with envPgfaultUpcall := (s1.envs cur).envPgfaultUpcall }) :=
    h.setEnv rfl rfl Iff.rfl (h.envs.dstva_ok e)
  have hlive2 : ((s1.setEnv e fun env =>
      { env with envPgfaultUpcall := (s1.envs cur).envPgfaultUpcall }).envs cur).envStatus ≠ .free := by
    by_cases hce : cur = e
    · subst hce
      rwa [setEnv_self]
    · rwa [setEnv_of_ne _ _ hce]
  rw [sysEnvSetStatus] at h3
  split at h3
  · simp [orPanic, eBadEnv] at h3
  rename_i e' he'
  simp only [statusOf, orPanic] at h3
  cases h3
  have hstat := envid2env_live hlive2 he'
  exact ⟨hinv.setEnv rfl rfl (iff_of_false (by simp) hstat) (hinv.envs.dstva_ok e'), rfl⟩

/-! ## The whole of fork -/

/-- What `fork` leaves of the state `s`, with the child `c`. -/
structure Snapshot (R : Nat → Prop) (s : Kernel) (cur c : EnvIx) (s' : Kernel) : Prop where
  inv : Inv R s'
  parent : ∀ i j, (cur, i, j) ≠ uxSlot cur → pteOf s' (cur, i, j) = keptPte (pteOf s (cur, i, j))
  parent_stack : pteOf s' (uxSlot cur) = pteOf s (uxSlot cur) ∨
    ∃ p, entryTarget (pteOf s' (uxSlot cur)) = some p ∧ ¬ Mapped s p
  child : ∀ i j, (c, i, j) ≠ uxSlot c → pteOf s' (c, i, j) = dupPte (pteOf s (cur, i, j))
  child_stack : ∃ pg, OwnStack s' c pg
  others : ∀ k : Slot, k.1 ≠ cur → k.1 ≠ c → pteOf s' k = pteOf s k
  fine : ∀ i j, PageFine s cur i j
  data : ∀ k f, k.1 = cur → k ≠ uxSlot cur → entryTarget (pteOf s k) = some f → SameFrame s s' f

theorem fork_ends (h : ForkReady R s cur installed)
    (hrun : fork installed upcall s cur = some (s', id)) :
    ∃ c, Forked s cur s' c ∧ Snapshot R s cur c s' := by
  have hdrop : DropOk s (placeOf (uxSlot cur)) := fun q _ =>
    Nat.lt_of_le_of_lt (Nat.le_add_right _ _) (h.refs q)
  obtain ⟨s1, hset, h1⟩ := setPgfaultHandler_ok installed upcall h.inv
    h.live h.id hdrop h.top (h.mem.mono (by decide))
  obtain ⟨hdata1, hstack1⟩ := setPgfaultHandler_data h.inv h.live h.id hdrop
    (h.mem.mono (by decide)) hset
  obtain ⟨s0, c, hfork, hnn, hf, hpte, hcur, hspare⟩ := sysExofork_ok h1 h.live h.env h.refs
    ((h1.spare 959 h.mem).mono (by decide))
  have hpte0 : ∀ k ≠ uxSlot cur, pteOf s0 k = pteOf s k := by
    intro k hk
    rw [hpte, h1.pte k hk]
  have htop0 : TopMapped s0 cur := by
    rw [TopMapped, hpte]
    exact h1.top
  have hpos : 0 < (s0.envs c).envId.toInt := by
    have hz : (s0.envs c).envId ≠ 0#32 := by
      intro hz
      have hchild := hf.child
      rw [hz, envid2env_zero] at hchild
      cases hchild
      exact hf.ne rfl
    have hz' : (s0.envs c).envId.toInt ≠ 0 := fun heq => hz (BitVec.eq_of_toInt_eq heq)
    omega
  have hnot : ¬ (s0.envs c).envId.toInt < 0 := by omega
  simp only [fork, hset, hfork, Option.bind_eq_bind, Option.bind_some, hnot, if_false,
    BitVec.ofInt_toInt, Option.bind_eq_some_iff] at hrun
  obtain ⟨s2, hloop, hend⟩ := hrun
  have hspare0 := hspare 956 ((h1.spare 959 h.mem).mono (by decide))
  rcases forkLoop_cases hf htop0 hspare0 with ⟨hnone, _⟩ | ⟨s3, hsome, hcop, hfine⟩
  · rw [hnone] at hloop
    cases hloop
  have hs3 : s3 = s2 := Option.some.inj (hsome.symm.trans hloop)
  subst hs3
  obtain ⟨s4, hend4, hpte', hid', hstat, hparent⟩ := forkEnd_ok hf hpos hcop
  have hs4 : s4 = s' := (Prod.mk.inj (Option.some.inj (hend4.symm.trans hend))).1
  subst hs4
  have hlive3 : (s3.envs cur).envStatus ≠ .free := by
    rw [hcop.envs]
    exact hf.live
  obtain ⟨hinv, hmem⟩ := forkEnd_data hcop.inv hlive3 hend
  have hlt : ∀ (i : Fin pdxUtop) (j : Fin nptentries), 1024 * i.val + j.val < userPages := by
    intro i j
    have hi := i.isLt
    have hj := j.isLt
    have hall : userPages = 1024 * 955 := by decide
    simp only [pdxUtop, nptentries] at hi hj
    omega
  refine ⟨c, hcop.forked hf.ne hpte0 hpte' hfine ⟨hstat, by rw [hparent, hcur]⟩, hinv,
    fun i j hux => ?_, ?_, fun i j hux => ?_, ?_, fun k hk hk' => ?_, (pageFine_iff hpte0).mp hfine,
    fun k f hk hux hkf => ?_⟩
  · rw [hpte', hcop.parent i j hux, if_pos (hlt i j), hpte0 _ hux]
  · rw [hpte', hcop.parent_stack, hpte]
    exact hstack1
  · rw [hpte', hcop.child i j hux, if_pos (hlt i j), hpte0 _ fun heq => hux (uxSlot_congr heq c)]
  · obtain ⟨pg, hstack⟩ := hcop.stack_after (Nat.le_refl _)
    refine ⟨pg, ?_, ?_, fun k => ?_⟩
    · rw [hpte']
      exact hstack.target_eq
    · rw [hpte']
      exact hstack.perm
    · rw [hpte']
      exact hstack.own k
  · rw [hpte', hcop.others k hk hk', hpte0]
    rintro rfl
    exact hk rfl
  · have hkf0 : entryTarget (pteOf s0 k) = some f := by rw [hpte0 k hux, hkf]
    have hkf1 : entryTarget (pteOf s1 k) = some f := by rw [h1.pte k hux, hkf]
    have hkc : k.1 ≠ c := by
      rw [hk]
      exact hf.ne
    have hsame := (hdata1 k f hux hkf).trans ((sysExofork_data h1.inv hfork ⟨k, hkf1⟩).trans
      (forkLoop_data hf htop0 hspare0 hloop hkc hkf0))
    intro x hx hx'
    rw [hmem]
    exact hsame x hx hx'

/-- An entry with `PTE_W` of the parent or the child is the copy of an entry with `PTE_SHARE`. -/
theorem share_of_write (hp : isPresent w = true) (hok : DupOk w)
    (h : dupPte w &&& pteW ≠ 0#32 ∨ keptPte w &&& pteW ≠ 0#32) :
    w &&& pteShare ≠ 0#32 ∧ w &&& pteW ≠ 0#32 := by
  by_contra hno
  have hs : w &&& pteShare = 0#32 := by
    by_contra hs
    exact hno ⟨hs, hok hs⟩
  have hdup : dupPte w &&& pteW = 0#32 := by
    rw [dupPte_of_present hp, dupEntry_and _ (by decide), dupPerm_write, if_neg (by simp [hs])]
    decide
  have hkept : keptPte w &&& pteW = 0#32 := by
    by_cases hcow : dupPerm w &&& pteCow ≠ 0#32
    · rw [keptPte_eq_dupPte hp hcow, hdup]
    · rw [keptPte, if_neg fun hboth => hcow hboth.2]
      by_contra hw
      exact hcow ((dupPerm_cow w).mpr (Or.inr ⟨hs, hw⟩))
  rcases h with hw | hw
  · exact hw hdup
  · exact hw hkept

theorem isPresent_of_target (h : entryTarget w = some p) : isPresent w = true :=
  (entryTarget_eq_some.mp h).1

/-- Nobody maps a private page with `PTE_W` when `fork` returns. -/
theorem Snapshot.not_writable (h : Snapshot R s cur c s') (hux : (cur, i, j) ≠ uxSlot cur)
    (hf : entryTarget (pteOf s (cur, i, j)) = some f)
    (hshare : pteOf s (cur, i, j) &&& pteShare = 0#32)
    (honly : ∀ k, MapsWrite s k f → k = (cur, i, j)) : ¬ Writable s' f := by
  -- A page of the parent that is still writable is shared, so it is another one.
  have hcopy : ∀ i' j', (cur, i', j') ≠ uxSlot cur → entryTarget (pteOf s (cur, i', j')) = some f →
      dupPte (pteOf s (cur, i', j')) &&& pteW ≠ 0#32 ∨
        keptPte (pteOf s (cur, i', j')) &&& pteW ≠ 0#32 → False := by
    intro i' j' hux' hf' hw
    have hp := isPresent_of_target hf'
    obtain ⟨hs, hw'⟩ := share_of_write hp (h.fine i' j' hux' hp) hw
    rw [honly _ ⟨hf', hw'⟩] at hs
    exact hs hshare
  rintro ⟨⟨e, i', j'⟩, hk, hw⟩
  by_cases hec : e = c
  · subst hec
    by_cases huxc : (e, i', j') = uxSlot e
    · obtain ⟨pg, hstack⟩ := h.child_stack
      have hpg : f = pg := by
        rw [huxc, hstack.target_eq] at hk
        exact (Option.some.inj hk).symm
      have hmap : entryTarget (pteOf s' (cur, i, j)) = some pg := by
        rw [h.parent i j hux, entryTarget_keptPte, hf, hpg]
      exact hstack.own _ (fun heq => hux (by
        have he : cur = e := congrArg Prod.fst heq
        rw [he] at heq ⊢
        exact heq)) hmap
    · rw [h.child i' j' huxc] at hk hw
      rw [entryTarget_dupPte] at hk
      exact hcopy i' j' (fun heq => huxc (uxSlot_congr heq e)) hk (Or.inl hw)
  by_cases hecur : e = cur
  · subst hecur
    by_cases hux' : (e, i', j') = uxSlot e
    · rw [hux'] at hk hw
      rcases h.parent_stack with heq | ⟨p, hp, hnew⟩
      · rw [heq] at hk hw
        exact hux (honly _ ⟨hk, hw⟩).symm
      · rw [hp] at hk
        cases hk
        exact hnew ⟨_, hf⟩
    · rw [h.parent i' j' hux'] at hk hw
      rw [entryTarget_keptPte] at hk
      exact hcopy i' j' hux' hk (Or.inr hw)
  · rw [h.others (e, i', j') hecur hec] at hk hw
    exact hecur (congrArg Prod.fst (honly _ ⟨hk, hw⟩))

/-- No count of references has wrapped around. -/
theorem Snapshot.bounded (h : Snapshot R s cur c s')
    (hrefs : ∀ p, refCount (target s) p + mapCount s cur p < 2 ^ 16) : Bounded s' := by
  intro p
  have hone : (∀ k k', target s' k = some p → target s' k' = some p → k = k') →
      refCount (target s') p < 2 ^ 16 := fun huniq =>
    Nat.lt_of_le_of_lt (refCount_le_one huniq) (by decide)
  by_cases hm : Mapped s' p
  swap
  · -- Only tables are left, and a table has one place.
    refine hone fun k k' hk hk' => ?_
    cases k with
    | pgdir e => exact (h.inv.pages.shape.table_unique _ _ p rfl hk hk').symm
    | pde e i => exact (h.inv.pages.shape.table_unique _ _ p rfl hk hk').symm
    | pte e i j =>
        have hpte : entryTarget (pteOf s' (e, i, j)) = some p := by
          rw [← target_placeOf]
          exact hk
        exact absurd ⟨_, hpte⟩ hm
  have hnot := h.inv.pages.noTable_of_mapped hm
  have hslot : ∀ k, target s' k = some p → ∃ e i j, k = Place.pte e i j ∧
      entryTarget (pteOf s' (e, i, j)) = some p := by
    intro k hk
    cases k with
    | pgdir e => exact absurd hk (hnot (.pgdir e) rfl)
    | pde e i => exact absurd hk (hnot (.pde e i) rfl)
    | pte e i j =>
        refine ⟨e, i, j, rfl, ?_⟩
        rw [← target_placeOf]
        exact hk
  have hat : ∀ q : Slot, (∀ k, entryTarget (pteOf s' k) = some p → k = q) →
      refCount (target s') p < 2 ^ 16 := by
    intro q hq
    refine hone fun k k' hk hk' => ?_
    obtain ⟨e, i, j, rfl, he⟩ := hslot k hk
    obtain ⟨e', i', j', rfl, he'⟩ := hslot k' hk'
    have heq := (hq _ he).trans (hq _ he').symm
    cases heq
    rfl
  obtain ⟨pg, hstack⟩ := h.child_stack
  by_cases hpg : p = pg
  · subst hpg
    refine hat (uxSlot c) fun k hk => ?_
    by_contra hne
    exact hstack.own k hne hk
  -- The other pages of the child are pages of the parent.
  have hchild : ∀ i j, entryTarget (pteOf s' (c, i, j)) = some p →
      entryTarget (pteOf s (cur, i, j)) = some p := by
    intro i j hk
    by_cases hux : (c, i, j) = uxSlot c
    · rw [hux, hstack.target_eq] at hk
      exact absurd (Option.some.inj hk).symm hpg
    · rwa [h.child i j hux, entryTarget_dupPte] at hk
  have hold : ∀ k : Slot, k.1 ≠ c → k ≠ uxSlot cur → entryTarget (pteOf s' k) = some p →
      entryTarget (pteOf s k) = some p := by
    rintro ⟨e, i, j⟩ hec hux hk
    by_cases he : e = cur
    · subst he
      rwa [h.parent i j hux, entryTarget_keptPte] at hk
    · rwa [h.others (e, i, j) he hec] at hk
  by_cases hs : Mapped s p
  · refine Nat.lt_of_le_of_lt (refCount_le_add (fun ij => Place.pte c ij.1 ij.2) fun k hk => ?_)
      (hrefs p)
    obtain ⟨e, i, j, rfl, he⟩ := hslot k hk
    by_cases hec : e = c
    · subst hec
      exact Or.inr ⟨(i, j), rfl, hchild i j he⟩
    · refine Or.inl ?_
      rw [show Place.pte e i j = placeOf (e, i, j) from rfl, target_placeOf]
      by_cases hux : (e, i, j) = uxSlot cur
      · rw [hux] at he ⊢
        rcases h.parent_stack with heq | ⟨q, hq, hnew⟩
        · rwa [heq] at he
        · rw [hq] at he
          cases he
          exact absurd hs hnew
      · exact hold _ hec hux he
  · refine hat (uxSlot cur) ?_
    rintro ⟨e, i, j⟩ hk
    by_contra hux
    by_cases hec : e = c
    · subst hec
      exact hs ⟨_, hchild i j hk⟩
    · exact hs ⟨_, hold _ hec hux hk⟩

end

end Jos.User
