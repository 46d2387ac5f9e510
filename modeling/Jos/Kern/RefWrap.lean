import Jos.Kern.PteChange
import Jos.Kern.Accounting

/-!
# Reference counts of sixteen bits

`pp_ref` is a `uint16_t` and nothing on the way from `sys_page_map` to `page_insert` looks at its
value. As long as no call maps a frame for the 65536th time, the counters hold the numbers of
mappings and no mapped frame is freed. The run at the end of this module maps one frame 65537
times; the next `sys_page_unmap` frees it.

Main results:
* `pp_ref_never_wraps`: the counters are right while no call finds 65535 mappings;
* `pp_ref_wraps`: a run of 65537 calls.
-/

namespace Jos.Kern

open Jos.Lib Kernel

def Call.isPageCall : Call → Bool
  | .pageAlloc _ _ _ | .pageMap _ _ _ _ _ | .pageUnmap _ _ => true
  | _ => false

/-- The call maps frame `p` at a page that does not map it yet. -/
def AddsMapping (s : Kernel) (cur : EnvIx) (c : Call) (p : Nat) : Prop :=
  ∃ srcenvid srcva dstenvid dstva perm srcE dstE, ∃ (hsrc : srcva < utop) (hdst : dstva < utop),
    c = .pageMap srcenvid srcva dstenvid dstva perm ∧
      envid2env s cur srcenvid true = some srcE ∧ envid2env s cur dstenvid true = some dstE ∧
      entryTarget (pteOf s (slotOf srcE srcva hsrc)) = some p ∧
      entryTarget (pteOf s (slotOf dstE dstva hdst)) ≠ some p

/-- There is room in the counter of the frame that a call maps once more. -/
def CountFits (s : Kernel) (cur : EnvIx) (c : Call) : Prop :=
  ∀ p, AddsMapping s cur c p → pteCount s p < 65535

/-- One of the three calls on pages, by an environment in use. -/
def PageStep (ok : Kernel → EnvIx → Call → Prop) (s s' : Kernel) : Prop :=
  ∃ cur c o, (s.envs cur).envStatus ≠ .free ∧ c.isPageCall = true ∧ ok s cur c ∧
    syscall s cur c = some (s', o)

section

variable {R : Nat → Prop} {s s' : Kernel} {cur : EnvIx} {c : Call} {o : Outcome} {k : Slot}
  {p q : Nat} {w : BitVec 32}

/-! ## Counting mappings -/

theorem pteCount_eq_refCount (s : Kernel) (p : Nat) :
    pteCount s p = refCount (fun k => entryTarget (pteOf s k)) p := rfl

/-- Changing one entry changes the counts of the frame it referred to and of the new one. -/
theorem pteCount_update (h : pteOf s' = Function.update (pteOf s) k w) (p : Nat) :
    pteCount s' p + (if entryTarget (pteOf s k) = some p then 1 else 0) =
      pteCount s p + if entryTarget w = some p then 1 else 0 := by
  have hcomp : (fun k' => entryTarget (pteOf s' k')) =
      Function.update (fun k' => entryTarget (pteOf s k')) k (entryTarget w) := by
    funext k'
    rw [h]
    by_cases hk : k' = k
    · rw [hk, Function.update_self, Function.update_self]
    · rw [Function.update_of_ne hk, Function.update_of_ne hk]
  rw [pteCount_eq_refCount, hcomp]
  exact refCount_update _ k (entryTarget w) p

theorem pteCount_eq_zero : pteCount s p = 0 ↔ ¬ Mapped s p := by
  rw [pteCount_eq_refCount, refCount_eq_zero, Mapped, not_exists]

theorem pteCount_mono
    (h : ∀ k, entryTarget (pteOf s' k) = some p → entryTarget (pteOf s k) = some p) :
    pteCount s' p ≤ pteCount s p :=
  Finset.card_le_card (Finset.monotone_filter_right _ fun k _ => h k)

/-- A frame used as a table has one reference, any other its mappings. -/
theorem Shape.bounded (h : Shape R s) (hc : ∀ p, pteCount s p < 2 ^ 16) : Bounded s := by
  intro p
  by_cases htab : ∃ k : Place, k.isTable ∧ target s k = some p
  · obtain ⟨k, hk, hkp⟩ := htab
    have hone : refCount (target s) p ≤ 1 := refCount_le_one fun k1 k2 h1 h2 => by
      rw [h.table_unique k k1 p hk hkp h1, h.table_unique k k2 p hk hkp h2]
    omega
  · have hpde : pdeCount s p = 0 := by
      rw [pdeCount, Finset.card_eq_zero, Finset.filter_eq_empty_iff]
      exact fun k _ hk => htab ⟨.pde k.1 k.2, rfl, hk⟩
    have hdir : ¬ IsPgdir s p := by
      intro h
      obtain ⟨e, he⟩ := h
      exact htab ⟨.pgdir e, rfl, he⟩
    have hp := hc p
    rw [h.refCount_eq p, hpde, if_neg hdir]
    omega

/-- No frame gets more than 65535 mappings by a call that leaves room. -/
theorem PteChange.pteCount_lt (h : PteChange s cur c o s') (hc : c.isPageCall = true)
    (hfit : CountFits s cur c) (hlt : ∀ p, pteCount s p < 2 ^ 16) (p : Nat) :
    pteCount s' p < 2 ^ 16 := by
  have hp := hlt p
  have hle : ∀ k w, pteOf s' = Function.update (pteOf s) k w → entryTarget w ≠ some p →
      pteCount s' p < 2 ^ 16 := by
    intro k w hpte hw
    have hcount := pteCount_update hpte p
    rw [if_neg hw] at hcount
    omega
  cases h with
  | same pte => rwa [pteCount, pte]
  | freed nosend target h =>
      rename_i e envid
      refine Nat.lt_of_le_of_lt (pteCount_mono fun k hk => ?_) hp
      by_cases hke : k.1 = e
      · rw [h.gone k hke] at hk
        cases hk
      · rwa [← h.pte k hke]
  | alloc low target h =>
      rename_i envid va perm e pg
      by_cases hpg : pg = p
      · subst hpg
        have hcount := pteCount_update h.pte pg
        have hz := pteCount_eq_zero.mpr h.fresh
        have hone : (if entryTarget (page2pa pg ||| perm ||| pteP) = some pg then 1 else 0) ≤ 1 := by
          split <;> omega
        omega
      · refine hle _ _ h.pte ?_
        rw [h.target_eq]
        exact fun heq => hpg (Option.some.inj heq)
  | map srclow low source target h =>
      rename_i srcenvid srcva dstenvid dstva perm srcE dstE pg
      by_cases hpg : pg = p
      · subst hpg
        have hcount := pteCount_update h.pte pg
        rw [if_pos h.target_eq] at hcount
        by_cases hold : entryTarget (pteOf s (slotOf dstE dstva low)) = some pg
        · rw [if_pos hold] at hcount
          omega
        · have hroom := hfit pg ⟨srcenvid, srcva, dstenvid, dstva, perm, srcE, dstE, srclow, low, rfl,
            source, target, h.source, hold⟩
          omega
      · refine hle _ _ h.pte ?_
        rw [h.target_eq]
        exact fun heq => hpg (Option.some.inj heq)
  | unmap low target gone pte =>
      rename_i envid va e
      refine Nat.lt_of_le_of_lt (pteCount_mono fun k hk => ?_) hp
      by_cases hke : k = slotOf e va low
      · rw [hke, gone] at hk
        cases hk
      · rwa [← pte k hke]
  | send => cases hc

/-! ## Runs that leave room -/

theorem safeCall_of_isPageCall (hc : c.isPageCall = true) : SafeCall s cur c := by
  cases c with
  | envSetTrapframe envid tf => cases hc
  | _ => trivial

theorem Reachable.pteCount_lt (h : Reachable R s) (p : Nat) : pteCount s p < 2 ^ 16 := by
  obtain ⟨hinv, hb⟩ := h.inv
  have hp := hb p
  rw [hinv.pages.shape.refCount_eq p] at hp
  omega

theorem Reachable.pageStep (h : Reachable R s) (hstep : PageStep CountFits s s') :
    Reachable R s' := by
  obtain ⟨hinv, hb⟩ := h.inv
  obtain ⟨cur, c, o, hcur, hc, hfit, hrun⟩ := hstep
  have hsafe : SafeCall s cur c := safeCall_of_isPageCall hc
  have hinv' := (hinv.syscall hb hcur hsafe hrun).inv
  have hpte := hinv.syscall_pte hb hcur hsafe hrun
  exact .step h (.call hcur hsafe hrun)
    (hinv'.pages.shape.bounded (hpte.pteCount_lt hc hfit h.pteCount_lt))

theorem Reachable.pageRun (h : Reachable R s)
    (hrun : Relation.ReflTransGen (PageStep CountFits) s s') : Reachable R s' := by
  induction hrun with
  | refl => exact h
  | tail _ hstep ih => exact ih.pageStep hstep

/-- A mapped frame is no table, so its references are its mappings. -/
theorem Shape.refCount_of_mapped (h : Shape R s) (hp : Mapped s p) :
    refCount (target s) p = pteCount s p := by
  have hpos : pteCount s p ≠ 0 := fun hz => pteCount_eq_zero.mp hz hp
  have hpde : pdeCount s p = 0 := by
    by_contra hne
    exact hpos (h.pteCount_of_table (Or.inl (Nat.pos_of_ne_zero hne)))
  have hdir : ¬ IsPgdir s p := fun hdir => hpos (h.pteCount_of_table (Or.inr hdir))
  have hcount := h.refCount_eq p
  rw [hpde, if_neg hdir] at hcount
  omega

/-- The counter of a mapped frame holds the number of its mappings, modulo `2 ^ 16`. -/
theorem Inv.ppRef_of_mapped (h : Inv R s) (hp : Mapped s p) :
    s.ppRef p = BitVec.ofNat 16 (pteCount s p) := by
  obtain ⟨free, _, hled, _⟩ := h.pages.accounts.pages
  rw [← h.pages.shape.refCount_of_mapped hp]
  obtain ⟨k, hk⟩ := hp
  rw [← target_placeOf] at hk
  exact hled.ref_eq p (hled.target_own _ p hk)

theorem Reachable.ppRef_of_mapped (h : Reachable R s) (hp : Mapped s p) :
    (s.ppRef p).toNat = pteCount s p := by
  rw [h.inv.1.ppRef_of_mapped hp, BitVec.toNat_ofNat, Nat.mod_eq_of_lt (h.pteCount_lt p)]

/-- As long as every call leaves room in the counter, the counters are right and no frame is on
the free list while a page table maps it. -/
theorem pp_ref_never_wraps (h : Reachable R s)
    (hrun : Relation.ReflTransGen (PageStep CountFits) s s') :
    (∀ p, pteCount s' p ≤ 65535) ∧ ∀ p, Mapped s' p →
      ¬ OnFreeList s' p ∧ (s'.ppRef p).toNat = pteCount s' p := by
  have h' := h.pageRun hrun
  refine ⟨fun p => Nat.le_of_lt_succ (h'.pteCount_lt p), fun p hp => ⟨?_, h'.ppRef_of_mapped hp⟩⟩
  obtain ⟨k, hk⟩ := hp
  rw [← target_placeOf] at hk
  exact fun hfree => h'.inv.1.pages.target_of_free hfree _ hk

end

theorem pp_ref_never_wraps_shared : ∃ s',
    syscall (smallAfter onePageRun) env0 (.pageMap 0#32 0x1000#32 0#32 0x2000#32 7#32) =
      some (s', .ret 0) ∧ Mapped s' 3 ∧ ¬ OnFreeList s' 3 := by
  have hreach : Reachable smallReserved (smallAfter onePageRun) :=
    smallAfter_reachable (by decide +kernel) (by decide)
  have hout : (syscall (smallAfter onePageRun) env0
      (.pageMap 0#32 0x1000#32 0#32 0x2000#32 7#32)).map
        (fun x => (x.2, entryTarget (pteOf x.1 (slotOf env0 0x2000#32 (by decide))))) =
      some (.ret 0, some 3) := by decide +kernel
  obtain ⟨⟨s', o⟩, hcall, heq⟩ := Option.map_eq_some_iff.mp hout
  simp only [Prod.mk.injEq] at heq
  obtain ⟨rfl, hmaps⟩ := heq
  have hfit : CountFits (smallAfter onePageRun) env0
      (.pageMap 0#32 0x1000#32 0#32 0x2000#32 7#32) := by
    rintro p ⟨_, _, _, _, _, srcE, _, hsrc, _, hc, hsrcE, _, hp, _⟩
    cases hc
    rw [envid2env_self] at hsrcE
    cases hsrcE
    have hp3 : entryTarget (pteOf (smallAfter onePageRun) (slotOf env0 0x1000#32 (by decide))) =
        some 3 := by decide +kernel
    cases hp3.symm.trans hp
    rw [← hreach.ppRef_of_mapped ⟨_, hp3⟩]
    decide +kernel
  have hstep : PageStep CountFits (smallAfter onePageRun) s' :=
    ⟨env0, _, _, by decide +kernel, rfl, hfit, hcall⟩
  have hmapped : Mapped s' 3 := ⟨_, hmaps⟩
  exact ⟨s', hcall, hmapped, ((pp_ref_never_wraps hreach (.single hstep)).2 3 hmapped).1⟩

/-! ## A frame mapped 65537 times -/

/-- The small machine with more memory. -/
def wide : Kernel := { small with
  npages := 2048
  ppLink p := if 2 ≤ p ∧ p < 2047 then some (p + 1) else none }

theorem wide_booted : Booted smallReserved wide where
  kern := by
    have h := small_booted.kern
    refine ⟨by decide, h.kern_reserved, by decide, h.kern_low, fun i hi hi' hne => ?_⟩
    rcases h.kern_high i hi hi' hne with hz | ⟨t, hR, ht, hent⟩
    · exact Or.inl hz
    · exact Or.inr ⟨t, hR, Nat.lt_trans ht (by decide), hent⟩
  free := by
    refine ⟨List.range' 2 2046, ?_, List.nodup_range', fun p => ?_⟩
    · refine Linked.range' 2046 fun i hi => ?_
      simp only [wide]
      split
      · rw [if_pos (by omega)]
      · rw [if_neg (by omega)]
    simp only [List.mem_range'_1, wide, smallReserved]
    omega
  unref p hp := if_neg hp
  envs e := ⟨rfl, rfl, rfl, rfl, rfl⟩
  envFree := rfl

/-- Two environments, a page of the second at 0x1000 in frame 4 and one of the first at 0 in
frame 6. -/
def wideRun : List Cmd :=
  [.create, .create, .call env1 (.pageAlloc 0#32 0x1000#32 7#32),
    .call env0 (.pageAlloc 0#32 0#32 7#32)]

def wideStart : Kernel := (wideRun.foldlM exec wide).getD wide

/-- One evaluation gives all that is used of this state. -/
theorem wideStart_eval : (wideRun.foldlM exec wide).isSome ∧
    (∀ e : EnvIx, (wideStart.envs e).envPgdir =
      if e = env0 then some 2 else if e = env1 then some 3 else none) ∧
    (wideStart.envs env0).envStatus ≠ .free ∧ wideStart.npages = 2048 ∧
    (wideStart.ppRef 6).toNat = 1 ∧
    entryTarget (pteOf wideStart (slotOf env0 0#32 (by decide))) = some 6 ∧
    entryTarget (pteOf wideStart (slotOf env1 0x1000#32 (by decide))) = some 4 := by
  decide +kernel

theorem wideStart_reached : ReachedIn smallReserved 4 wideStart := by
  obtain ⟨hrun, -⟩ := wideStart_eval
  obtain ⟨s, hs⟩ := Option.isSome_iff_exists.mp hrun
  rw [wideStart, hs]
  exact (ReachedIn.boot wide_booted).execAll hs

theorem wideStart_reachable : Reachable smallReserved wideStart :=
  (wideStart_reached.reachable (by decide)).1

theorem wideStart_pgdir : ∀ e : EnvIx, (wideStart.envs e).envPgdir =
    if e = env0 then some 2 else if e = env1 then some 3 else none :=
  wideStart_eval.2.1

theorem wideStart_live : (wideStart.envs env0).envStatus ≠ .free := wideStart_eval.2.2.1

theorem Inv.exec_create {R : Nat → Prop} {s s' : Kernel} (h : Inv R s)
    (hrun : exec s .create = some s') : pteOf s' = pteOf s := by
  simp only [exec, execEvent, Option.map_map, Option.map_eq_some_iff] at hrun
  obtain ⟨⟨s1, r⟩, hal, rfl⟩ := hrun
  rcases h.envAlloc_cases hal with ⟨rfl, _⟩ | ⟨e, _, hnew⟩
  · rfl
  · exact hnew.pte

theorem Inv.exec_pageAlloc {R : Nat → Prop} {s s' : Kernel} {cur : EnvIx} {va perm : BitVec 32}
    {k : Slot} (h : Inv R s) (hb : Bounded s)
    (hrun : exec s (.call cur (.pageAlloc 0#32 va perm)) = some s')
    (hk : ∀ low, k ≠ slotOf cur va low) : pteOf s' k = pteOf s k := by
  have hlive : (s.envs cur).envStatus ≠ .free := by
    intro hfree
    simp [exec, execEvent, hfree] at hrun
  rcases h.sysPageAlloc hlive 0#32 va perm fun _ _ _ => hb.dropOk _ with
    ⟨s1, r, _, hcall, _, hpte⟩ | ⟨s1, e, pg, hcall, _, he, _, _, low, hal⟩
  · rw [exec_call (c := .pageAlloc 0#32 va perm) hlive rfl hcall] at hrun
    cases hrun
    rw [hpte]
  · rw [exec_call (c := .pageAlloc 0#32 va perm) hlive rfl hcall] at hrun
    cases hrun
    rw [envid2env_self] at he
    cases he
    rw [hal.pte, Function.update_of_ne (hk low)]

theorem wideStart_pteOf {k : Slot} (h0 : k ≠ slotOf env0 0#32 (by decide))
    (h1 : k ≠ slotOf env1 0x1000#32 (by decide)) : pteOf wideStart k = 0#32 := by
  obtain ⟨hrun, -⟩ := wideStart_eval
  obtain ⟨s, hs⟩ := Option.isSome_iff_exists.mp hrun
  rw [wideStart, hs, Option.getD_some]
  simp only [wideRun, List.foldlM_cons, List.foldlM_nil, Option.bind_eq_bind,
    Option.bind_eq_some_iff] at hs
  obtain ⟨s1, hs1, s2, hs2, s3, hs3, s4, hs4, hs⟩ := hs
  cases hs
  have hreach : ∀ (l : List Cmd) s', l.foldlM exec wide = some s' → l.length < 2 ^ 15 →
      Reachable smallReserved s' := fun l s' hl hlen =>
    (((ReachedIn.boot wide_booted).execAll hl).reachable (by omega)).1
  have r2 := hreach [.create, .create] s2 (by simp [hs1, hs2]) (by decide)
  have r3 := hreach [.create, .create, .call env1 (.pageAlloc 0#32 0x1000#32 7#32)] s3
    (by simp [hs1, hs2, hs3]) (by decide)
  have r1 := hreach [.create] s1 (by simp [hs1]) (by decide)
  rw [r3.inv.1.exec_pageAlloc r3.inv.2 hs4 fun _ => h0,
    r2.inv.1.exec_pageAlloc r2.inv.2 hs3 fun _ => h1, r1.inv.1.exec_create hs2,
    wide_booted.inv.exec_create hs1]
  exact pteOf_of_none (target_of_booted wide_booted _) _

/-- The pages 0 to `n` of the first environment map frame 6; nothing else has changed but the page
tables for that. -/
structure MappedTo (n : Nat) (s : Kernel) : Prop where
  run : Relation.ReflTransGen (PageStep fun _ _ _ => True) wideStart s
  inv : Inv smallReserved s
  npages : s.npages = 2048
  envs : s.envs = wideStart.envs
  low : ∀ k : Slot, k.1 = env0 → 1024 * k.2.1.val + k.2.2 ≤ n → entryTarget (pteOf s k) = some 6
  rest : ∀ k : Slot, ¬ (k.1 = env0 ∧ 1024 * k.2.1.val + k.2.2 ≤ n) →
    pteOf s k = pteOf wideStart k
  pde : ∀ i, target s (.pde env1 i) = target wideStart (.pde env1 i)
  count : pteCount s 6 = n + 1

theorem slotOf_page {n : Nat} {e : EnvIx} (hn : n ≤ 65536) :
    ∃ hva : BitVec.ofNat 32 (4096 * n) < utop, pgoff (BitVec.ofNat 32 (4096 * n)) = 0 ∧
      ∀ k : Slot, k = slotOf e _ hva ↔ k.1 = e ∧ 1024 * k.2.1.val + k.2.2 = n := by
  have hnat : (BitVec.ofNat 32 (4096 * n)).toNat = 4096 * n := by
    rw [BitVec.toNat_ofNat]
    omega
  have hva : BitVec.ofNat 32 (4096 * n) < utop := by
    rw [BitVec.lt_def, hnat]
    exact Nat.lt_of_le_of_lt (Nat.mul_le_mul_left 4096 hn) (by decide)
  refine ⟨hva, ?_, fun k => ?_⟩
  · rw [pgoff_eq, hnat]
    omega
  · obtain ⟨e', i, j⟩ := k
    have hj := j.isLt
    simp only [nptentries] at hj
    simp only [slotOf, Prod.mk.injEq, Fin.ext_iff, pdx_eq, ptx_eq, hnat]
    omega

theorem mappedTo_zero : MappedTo 0 wideStart := by
  obtain ⟨-, -, -, hnpages, hcount, hfirst, -⟩ := wideStart_eval
  have hlow : ∀ k : Slot, k.1 = env0 → 1024 * k.2.1.val + k.2.2 ≤ 0 →
      entryTarget (pteOf wideStart k) = some 6 := by
    intro k hk hle
    obtain ⟨_, _, hslot⟩ := slotOf_page (n := 0) (e := env0) (by omega)
    rw [(hslot k).mpr ⟨hk, by omega⟩]
    exact hfirst
  refine ⟨.refl, wideStart_reachable.inv.1, hnpages, rfl, hlow, fun _ _ => rfl, fun _ => rfl, ?_⟩
  rw [← wideStart_reachable.ppRef_of_mapped ⟨_, hfirst⟩]
  exact hcount

section

variable {n : Nat} {s : Kernel}

/-- Two directories with their page tables and two pages do not fill the memory. -/
theorem MappedTo.free (h : MappedTo n s) : s.pageFreeList ≠ none := by
  intro hnone
  obtain ⟨free, hlink, hled, _⟩ := h.inv.pages.accounts.pages
  rw [hnone] at hlink
  have hnil := hlink.eq_nil
  subst hnil
  have hdir : ∀ e d, (s.envs e).envPgdir = some d → (e = env0 ∧ d = 2) ∨ (e = env1 ∧ d = 3) := by
    intro e d hd
    rw [h.envs, wideStart_pgdir] at hd
    split at hd
    · cases hd
      exact Or.inl ⟨‹_›, rfl⟩
    split at hd
    · cases hd
      exact Or.inr ⟨‹_›, rfl⟩
    · cases hd
  let tables := (({env0, env1} : Finset EnvIx) ×ˢ (Finset.univ : Finset (Fin pdxUtop))).image
    fun x => (target s (.pde x.1 x.2)).getD 0
  have hused : Finset.Ico 2 2048 ⊆ {2, 3, 4, 6} ∪ tables := by
    intro p hp
    rw [Finset.mem_Ico] at hp
    have hown : Owned smallReserved [] s p := by
      refine ⟨h.npages ▸ hp.2, ?_, by simp⟩
      simp only [smallReserved]
      omega
    obtain ⟨k, hk⟩ := refCount_pos.mp (hled.used p hown (by simp))
    rw [Finset.mem_union]
    cases k with
    | pgdir e =>
        left
        rcases hdir e p hk with ⟨_, rfl⟩ | ⟨_, rfl⟩
        · decide
        · decide
    | pde e i =>
        right
        obtain ⟨d, hd, _⟩ := exists_pgdir_of_pde hk
        refine Finset.mem_image.mpr ⟨(e, i), ?_, by rw [hk]; rfl⟩
        rw [Finset.mem_product]
        rcases hdir e d hd with ⟨rfl, _⟩ | ⟨rfl, _⟩
        · exact ⟨by simp, Finset.mem_univ _⟩
        · exact ⟨by simp, Finset.mem_univ _⟩
    | pte e i j =>
        left
        rw [target_pte_eq] at hk
        by_cases hlow : e = env0 ∧ 1024 * i.val + j ≤ n
        · rw [h.low (e, i, j) hlow.1 hlow.2] at hk
          cases hk
          decide
        · rw [h.rest (e, i, j) hlow] at hk
          by_cases h1 : (e, i, j) = slotOf env1 0x1000#32 (by decide)
          · rw [h1] at hk
            have h4 : entryTarget (pteOf wideStart (slotOf env1 0x1000#32 (by decide))) = some 4 :=
              wideStart_eval.2.2.2.2.2.2
            rw [h4] at hk
            cases hk
            decide
          · have h0 : (e, i, j) ≠ slotOf env0 0#32 (by decide) := by
              obtain ⟨_, _, hslot⟩ := slotOf_page (n := 0) (e := env0) (by omega)
              rw [Ne, hslot]
              intro heq
              exact hlow ⟨heq.1, heq.2 ▸ Nat.zero_le n⟩
            rw [wideStart_pteOf h0 h1] at hk
            cases hk
  have hcard := Finset.card_le_card hused
  have htab : tables.card ≤ 2 * 955 := by
    refine Nat.le_trans Finset.card_image_le ?_
    rw [Finset.card_product, Finset.card_univ, Fintype.card_fin]
    exact Nat.mul_le_mul Finset.card_le_two (Nat.le_refl _)
  have hunion := Finset.card_union_le ({2, 3, 4, 6} : Finset Nat) tables
  have hfour : ({2, 3, 4, 6} : Finset Nat).card = 4 := by decide
  rw [Nat.card_Ico] at hcard
  omega

theorem MappedTo.succ (h : MappedTo n s) (hn : n < 65536) : ∃ s', MappedTo (n + 1) s' := by
  obtain ⟨hva, hoff, hslot⟩ := slotOf_page (n := n + 1) (e := env0) hn
  obtain ⟨hva0, hoff0, hslot0⟩ := slotOf_page (n := 0) (e := env0) (by omega)
  have hcur : (s.envs env0).envStatus ≠ .free := by
    rw [h.envs]
    exact wideStart_live
  have hsrc : entryTarget (pteOf s (slotOf env0 _ hva0)) = some 6 := by
    obtain ⟨h1, h2⟩ := (hslot0 _).mp rfl
    exact h.low _ h1 (by omega)
  have hself := (hslot (slotOf env0 _ hva)).mp rfl
  have hempty : entryTarget (pteOf s (slotOf env0 _ hva)) = none := by
    rw [h.rest _ (by omega), wideStart_pteOf, entryTarget_zero]
    · intro heq
      have := (hslot0 _).mp heq
      omega
    · intro heq
      rw [heq] at hself
      exact absurd hself.1 (by decide)
  have hdrop : DropOk s (placeOf (slotOf env0 _ hva)) := by
    intro q hq
    rw [target_placeOf, hempty] at hq
    cases hq
  have hbad : (badVa (BitVec.ofNat 32 (4096 * 0)) || badVa (BitVec.ofNat 32 (4096 * (n + 1)))) =
      false := by
    simp only [badVa, hoff, hoff0, Bool.or_eq_false_iff, decide_eq_false_iff_not, BitVec.not_le,
      bne_self_eq_false]
    exact ⟨⟨hva0, trivial⟩, hva, trivial⟩
  rcases h.inv.sysPageMap_checked hcur (envid2env_self s env0 true) (envid2env_self s env0 true) hbad
    hva0 hva hsrc (by decide : badPerm 5#32 = false) rfl hdrop with
    ⟨hnone, _⟩ | ⟨s', hrun, hop, hsh, hpde⟩
  · exact absurd hnone h.free
  have hpte : ∀ k, k ≠ slotOf env0 _ hva → pteOf s' k = pteOf s k := by
    intro k hk
    rw [hsh.pte, Function.update_of_ne hk]
  have hstep : PageStep (fun _ _ _ => True) s s' :=
    ⟨env0, .pageMap 0#32 (BitVec.ofNat 32 (4096 * 0)) 0#32 (BitVec.ofNat 32 (4096 * (n + 1))) 5#32,
      .ret 0, hcur, rfl, trivial, by rw [syscall, hrun]⟩
  refine ⟨s', h.run.tail hstep, hop.inv, hop.npages.trans h.npages, hop.envs.trans h.envs, fun k hk hle => ?_, fun k hk => ?_,
    fun i => (hpde env1 i (by decide)).trans (h.pde i), ?_⟩
  · by_cases heq : k = slotOf env0 _ hva
    · rw [heq, hsh.pte, Function.update_self, hsh.target_eq]
    · rw [hpte k heq]
      refine h.low k hk ?_
      have hne : 1024 * k.2.1.val + k.2.2 ≠ n + 1 := fun h' => heq ((hslot k).mpr ⟨hk, h'⟩)
      omega
  · rw [hpte k fun heq => hk ⟨((hslot k).mp heq).1, Nat.le_of_eq ((hslot k).mp heq).2⟩]
    exact h.rest k fun hlow => hk ⟨hlow.1, Nat.le_succ_of_le hlow.2⟩
  · have hcount := pteCount_update hsh.pte 6
    rw [if_pos hsh.target_eq, hempty, h.count] at hcount
    simpa using hcount

theorem exists_mappedTo (n : Nat) (hn : n ≤ 65536) : ∃ s, MappedTo n s := by
  induction n with
  | zero => exact ⟨wideStart, mappedTo_zero⟩
  | succ n ih =>
      obtain ⟨s, h⟩ := ih (by omega)
      exact h.succ hn

end

/-! ## The mapped frame is freed -/

section

variable {s : Kernel} {d t q : Nat} {va : BitVec 32}

/-- The page with its reference gone and on the free list. -/
def freedPage (s : Kernel) (q : Nat) : Kernel := { s with
  ppRef := Function.update s.ppRef q 0#16
  ppLink := Function.update s.ppLink q s.pageFreeList
  pageFreeList := some q }

/-- `page_decref` looks only at the counter. -/
theorem pageDecref_last (href : s.ppRef q = 1#16) (hlink : s.ppLink q = none) :
    pageDecref s q = some (freedPage s q) := by
  have hz : s.ppRef q - 1#16 = 0#16 := by rw [href]; decide
  simp [pageDecref, pageFree, freedPage, hz, hlink]

/-- The last reference, if one believes the counter, is removed. -/
theorem pageRemove_last (hn : s.npages ≤ 65536) (hent : s.entry d (pdx va) = tableEntry t)
    (htn : t < s.npages) (hq : entryTarget (s.entry t (ptx va)) = some q) (hqn : q < s.npages)
    (href : s.ppRef q = 1#16) (hlink : s.ppLink q = none) :
    pageRemove s d va = some ((freedPage s q).writePte (entryAddr t (ptx va)) 0#32) := by
  have hlook := pageLookup_of_entry hn hent htn hq hqn
  obtain ⟨hpres, _⟩ := pteAddr_of_target hq (show q < 2 ^ 20 by omega)
  have hpres' : isPresent ((freedPage s q).mem.read32 (entryAddr t (ptx va))) = true := hpres
  simp [pageRemove, hlook, pageDecref_last href hlink, hpres']

/-- With 65537 mappings the counter is 1. -/
theorem MappedTo.ppRef {s : Kernel} (h : MappedTo 65536 s) : s.ppRef 6 = 1#16 := by
  have hmapped : Mapped s 6 :=
    ⟨slotOf env0 0#32 (by decide), h.low _ rfl (show 1024 * 0 + 0 ≤ 65536 by omega)⟩
  rw [h.inv.ppRef_of_mapped hmapped, h.count]
  decide

/-- `sys_page_unmap` of the first page. -/
theorem MappedTo.unmap {s : Kernel} {i : Fin pdxUtop} (h : MappedTo 65536 s) (hi : i.val = 0) :
    ∃ t free, target s (.pde env0 i) = some t ∧ Linked s.ppLink s.pageFreeList free ∧ 6 ∉ free ∧
      syscall s env0 (.pageUnmap 0#32 0#32) =
        some ((freedPage s 6).writePte (entryAddr t 0) 0#32, .ret 0) := by
  have hq : target s (.pte env0 i ⟨0, by decide⟩) = some 6 := by
    rw [target_pte_eq]
    exact h.low _ rfl (show 1024 * i.val + 0 ≤ 65536 by omega)
  obtain ⟨t, ht, _⟩ := exists_pde_of_pte hq
  obtain ⟨free, hlink, hled, hnone⟩ := h.inv.pages.accounts.pages
  obtain ⟨hn, hR, _⟩ := h.inv.pages.target_lt hq
  have hfree : 6 ∉ free := hled.target_notMem hq
  refine ⟨t, free, ht, hlink, hfree, ?_⟩
  have hd : (s.envs env0).envPgdir = some 2 := by
    rw [h.envs]
    exact wideStart_pgdir env0
  have hpdx : pdx 0#32 = i := by rw [hi]; decide
  have hptx : ptx 0#32 = 0 := by decide
  obtain ⟨hent, htn⟩ := h.inv.pages.shape.pde_eq hd ht
  rw [← hpdx] at hent
  have hq' : entryTarget (s.entry t (ptx 0#32)) = some 6 := by
    rw [target_pte ht] at hq
    rw [hptx]
    exact hq
  have hrem := pageRemove_last h.inv.pages.shape.npages_le hent htn hq' hn h.ppRef
    (hnone 6 hn hR hfree)
  rw [hptx] at hrem
  have hbad : badVa 0#32 = false := by decide
  simp only [syscall, sysPageUnmap, envid2env_self, hbad, Bool.false_eq_true, if_false, hd, hrem,
    Option.bind_eq_bind, Option.bind_some]

/-- The counter wraps around, and a frame is freed while 65536 entries map it. -/
theorem pp_ref_wraps : ∃ s s' s'', Reachable smallReserved s ∧
    Relation.ReflTransGen (PageStep fun _ _ _ => True) s s' ∧ pteCount s' 6 = 65537 ∧
    PageStep (fun _ _ _ => True) s' s'' ∧ Mapped s'' 6 ∧ OnFreeList s'' 6 := by
  obtain ⟨s, h⟩ := exists_mappedTo 65536 (Nat.le_refl _)
  obtain ⟨t, free, ht, hlink, hfree, hrun⟩ := h.unmap (i := ⟨0, by decide⟩) rfl
  have hlive : (s.envs env0).envStatus ≠ .free := by
    rw [h.envs]
    exact wideStart_live
  refine ⟨wideStart, s, _, wideStart_reachable, h.run, h.count,
    ⟨env0, .pageUnmap 0#32 0#32, .ret 0, hlive, rfl, trivial, hrun⟩,
    ⟨(env0, ⟨0, by decide⟩, ⟨1, by decide⟩), ?_⟩,
    6 :: free, hlink.push hfree, List.mem_cons_self⟩
  have hsame : SameButPages s (freedPage s 6) := ⟨rfl, rfl, rfl, rfl, rfl⟩
  have hst : SameTables smallReserved s (freedPage s 6) := hsame.sameTables
  have hpte : pteOf ((freedPage s 6).writePte (entryAddr t 0) 0#32) = _ :=
    (hst.shape h.inv.pages.shape).pteOf_writePte (hst.target_eq ▸ ht) ⟨0, by decide⟩ 0#32
  rw [hpte, Function.update_of_ne (by simp), hst.pteOf_eq]
  exact h.low _ rfl (show 1024 * 0 + 1 ≤ 65536 by omega)

end

end Jos.Kern
