import Jos.Kern.PteChange

/-!
# Write access

A frame can be written by an environment only through a page table entry with `PTE_W`. Such
entries come from two sources: a page taken from the free list, or an entry that has `PTE_W`
itself. So a frame that nobody may write stays so until it is freed.

This rests on `sys_env_set_trapframe` keeping to memory of the caller. When its check fails for a
child it writes all the same, through a pointer that may be one of the kernel's, and so it can
give write access to any frame.

Main results:
* `Inv.writeOrigin`: where a new entry with `PTE_W` comes from;
* `write_access`: write access over a run;
* `trapframe_grants_write`: a read-only page that becomes writable.
-/

namespace Jos.Kern

open Jos.Lib Kernel

/-- Slot `k` maps frame `p` for writing. -/
def MapsWrite (s : Kernel) (k : Slot) (p : Nat) : Prop :=
  entryTarget (pteOf s k) = some p ∧ pteOf s k &&& pteW ≠ 0#32

/-- Some environment may write frame `p`. -/
def Writable (s : Kernel) (p : Nat) : Prop := ∃ k, MapsWrite s k p

/-- Where the right to write `p` may come from in a step: a new page, or a mapping with that right
which the call copies. -/
def WriteOrigin (s : Kernel) (p : Nat) : Event → Prop
  | .internal => s.pageFreeList = some p
  | .call _ (.pageAlloc _ _ _) _ => s.pageFreeList = some p
  | .call cur (.pageMap srcenvid srcva _ _ _) _ => ∃ e, envid2env s cur srcenvid true = some e ∧
      ∃ low : srcva < utop, MapsWrite s (slotOf e srcva low) p
  | .call cur (.ipcTrySend _ _ srcva _) _ => ∃ low : srcva < utop, MapsWrite s (slotOf cur srcva low) p
  | _ => False

/-- One step of a run during which frame `p` is in use and no counter wraps around. -/
def StepInUse (p : Nat) (s s' : Kernel) : Prop :=
  ¬ OnFreeList s p ∧ ∃ ev, Step s ev s' ∧ Bounded s'

section

variable {R : Nat → Prop} {s s' : Kernel} {cur e : EnvIx} {c : Call} {o : Outcome} {k src dst : Slot}
  {p pg : Nat} {perm : BitVec 32} {ev : Event}

theorem flags_and_pteW (pg : Nat) (perm : BitVec 32) :
    (page2pa pg ||| perm ||| pteP) &&& pteW = perm &&& pteW := by
  rw [BitVec.or_assoc, entry_and (by decide)]
  ext i
  simp only [BitVec.getElem_and, BitVec.getElem_or]
  have hbits : pteP &&& pteW = 0#32 := by decide
  have hi : pteP[i] = true → pteW[i] = false := by
    intro h
    have := congrArg (·[i]) hbits
    simpa [h] using this
  cases h : pteP[i]
  · rw [Bool.or_false]
  · rw [hi h, Bool.and_false, Bool.and_false]

/-- A copied mapping may write only if the one it was copied from may. -/
theorem PageShared.origin (h : PageShared s src dst perm pg s') (hw : MapsWrite s' k p)
    (hnot : ¬ MapsWrite s k p) : MapsWrite s src p := by
  by_cases hk : k = dst
  · subst hk
    obtain ⟨hp, hw⟩ := hw
    rw [h.pte, Function.update_self] at hp hw
    rw [h.target_eq] at hp
    cases hp
    rw [flags_and_pteW] at hw
    have hsrc := h.write_ok
    simp only [grantsWrite, Bool.and_eq_false_iff, bne_eq_false_iff_eq, hw, false_or,
      beq_eq_false_iff_ne] at hsrc
    exact ⟨h.source, hsrc⟩
  · unfold MapsWrite at hw
    rw [h.pte, Function.update_of_ne hk] at hw
    exact absurd hw hnot

theorem PtesGone.origin (h : PtesGone s e s') (hw : MapsWrite s' k p) : MapsWrite s k p := by
  by_cases hk : k.1 = e
  · have := hw.1
    rw [h.gone k hk] at this
    cases this
  · unfold MapsWrite at hw
    rwa [h.pte k hk] at hw

/-- A mapping of a new page. -/
theorem mapsWrite_of_update {w : BitVec 32} (hpte : pteOf s' = Function.update (pteOf s) dst w)
    (htar : entryTarget w = some pg) (hw : MapsWrite s' k p) (hnot : ¬ MapsWrite s k p) : pg = p := by
  by_cases hk : k = dst
  · subst hk
    have := hw.1
    rw [hpte, Function.update_self, htar] at this
    cases this
    rfl
  · unfold MapsWrite at hw
    rw [hpte, Function.update_of_ne hk] at hw
    exact absurd hw hnot

/-- Where new write access comes from in a system call. -/
theorem PteChange.origin (h : PteChange s cur c o s') (hw : MapsWrite s' k p)
    (hnot : ¬ MapsWrite s k p) : WriteOrigin s p (.call cur c o) := by
  cases h with
  | same pte =>
      unfold MapsWrite at hw
      rw [pte] at hw
      exact absurd hw hnot
  | freed _ _ h => exact absurd (h.origin hw) hnot
  | alloc low _ h =>
      have := mapsWrite_of_update h.pte h.target_eq hw hnot
      subst this
      exact h.head
  | map srclow low source target h => exact ⟨_, source, srclow, h.origin hw hnot⟩
  | unmap low target gone pte =>
      rename_i envid va e
      exfalso
      by_cases hk : k = slotOf e va low
      · have := hw.1
        rw [hk, gone] at this
        cases this
      · unfold MapsWrite at hw
        rw [pte k hk] at hw
        exact hnot hw
  | send srclow low target recving h => exact ⟨srclow, h.origin hw hnot⟩

/-- Where new write access comes from in any step. -/
theorem Inv.writeOrigin (h : Inv R s) (hb : Bounded s) (hstep : Step s ev s')
    (hw : MapsWrite s' k p) (hnot : ¬ MapsWrite s k p) : WriteOrigin s p ev := by
  have hsame : pteOf s' ≠ pteOf s := by
    intro hpte
    unfold MapsWrite at hw
    rw [hpte] at hw
    exact hnot hw
  cases hstep with
  | call live safe run => exact (h.syscall_pte hb live safe run).origin hw hnot
  | create run =>
      rcases h.envAlloc_cases run with ⟨rfl, _⟩ | ⟨e, _, hal⟩
      · exact absurd rfl hsame
      · exact absurd hal.pte hsame
  | region dir low alloc insert =>
      rename_i s1 e d pg va
      rcases h.pages.pageAlloc false with ⟨_, hal⟩ | ⟨q, s2, hal, htk⟩
      · rw [hal] at alloc
        cases alloc
      · have hhead := pageAlloc_head hal
        rw [hal] at alloc
        cases alloc
        have hd1 : (s1.envs e).envPgdir = some d := by rw [htk.envs, dir]
        have hb1 : DropOk s1 (placeOf (slotOf e va low)) := by
          intro q _
          rw [htk.same.target_eq]
          exact hb q
        rcases htk.inv.pageInsert (pteW ||| pteU) (Or.inr ⟨rfl, by simp⟩) hd1 rfl rfl
          (by decide) hb1 with ⟨_, hins⟩ | ⟨s2, hins, h2⟩
        · rw [hins] at insert
          cases insert
        · rw [hins] at insert
          cases insert
          have hpte := h2.pte
          rw [htk.same.pteOf_eq] at hpte
          have := mapsWrite_of_update hpte h2.target_eq hw hnot
          subst this
          exact hhead
  | free live run =>
      obtain ⟨s1, hrun, _, hfreed⟩ := h.envFree live hb
      rw [hrun] at run
      cases run
      exact absurd (hfreed.ptesGone.origin hw) hnot
  | store c dir grants =>
      rename_i e d va
      have hwr : Writing R e d va 1 s := by
        refine ⟨h, dir, fun i hi => ?_⟩
        obtain rfl : i = 0 := by omega
        simpa using grants
      have hst : storeByte s d (va + BitVec.ofNat 32 0) c =
          some { s with mem := Function.update s.mem (physAddr s d va) c } := by
        simp [storeByte, grants.mono (m := pteP ||| pteW) (by decide)]
      exact absurd (hwr.storeByte (by omega) hst).2.2.2 hsame
  | context live tf st hst ty runs cpu => exact absurd (target_setEnv rfl).2 hsame

/-- A frame in use that nobody may write is still so after a step. -/
theorem Inv.not_writable (h : Inv R s) (hb : Bounded s) (hstep : StepInUse p s s')
    (hnot : ¬ Writable s p) : ¬ Writable s' p := by
  rintro ⟨k, hw⟩
  obtain ⟨hused, ev, hstep, _⟩ := hstep
  have horig := h.writeOrigin hb hstep hw fun hk => hnot ⟨k, hk⟩
  have hhead : s.pageFreeList ≠ some p := by
    intro hfl
    obtain ⟨free, hlink, _⟩ := h.pages.accounts.pages
    refine hused ⟨free, hlink, ?_⟩
    rw [hfl] at hlink
    exact hlink.head_mem
  unfold WriteOrigin at horig
  split at horig
  · exact hhead horig
  · exact hhead horig
  · obtain ⟨e, _, low, hm⟩ := horig
    exact hnot ⟨_, hm⟩
  · obtain ⟨low, hm⟩ := horig
    exact hnot ⟨_, hm⟩
  · exact horig

/-- Write access comes only from new pages and from write access, and a frame that nobody may
write stays so as long as it is in use. -/
theorem write_access (h : Reachable R s) :
    (∀ ev s' k p, Step s ev s' → MapsWrite s' k p → ¬ MapsWrite s k p → WriteOrigin s p ev) ∧
      ∀ p s', ¬ Writable s p → Relation.ReflTransGen (StepInUse p) s s' → ¬ Writable s' p := by
  refine ⟨fun ev s' k p hstep hw hnot => h.inv.1.writeOrigin h.inv.2 hstep hw hnot,
    fun p s' hnot hrun => ?_⟩
  have hall : Reachable R s' ∧ ¬ Writable s' p := by
    induction hrun with
    | refl => exact ⟨h, hnot⟩
    | tail _ hstep ih =>
        obtain ⟨hs, hnot⟩ := ih
        obtain ⟨_, ev, hev, hb⟩ := id hstep
        exact ⟨.step hs hev hb, hs.inv.1.not_writable hs.inv.2 hstep hnot⟩
  exact hall.2

/-- A frame with one reference has one place. -/
theorem Reachable.place_unique {k k' : Place} (h : Reachable R s) (href : s.ppRef p = 1#16)
    (hk : target s k = some p) (hk' : target s k' = some p) : k' = k := by
  obtain ⟨hinv, hb⟩ := h.inv
  obtain ⟨free, _, hled, _⟩ := hinv.pages.accounts.pages
  have hone := hled.toNat_ref (hled.target_own k p hk) (hb p)
  have hcard : refCount (target s) p ≤ 1 := by
    rw [← hone, href]
    decide
  exact Finset.card_le_one.mp hcard k' (by simp [hk']) k (by simp [hk])

/-- The only mapping of a frame is read-only. -/
theorem Reachable.not_writable (h : Reachable R s) (href : s.ppRef p = 1#16)
    (hk : entryTarget (pteOf s k) = some p) (hro : pteOf s k &&& pteW = 0#32) : ¬ Writable s p := by
  rintro ⟨k', hp, hw⟩
  rw [← target_placeOf] at hk hp
  have hplace := h.place_unique href hk hp
  obtain ⟨e, i, j⟩ := k
  obtain ⟨e', i', j'⟩ := k'
  simp only [placeOf, Place.pte.injEq] at hplace
  obtain ⟨rfl, rfl, rfl⟩ := hplace
  exact hw hro

theorem Reachable.not_free (h : Reachable R s) (hk : entryTarget (pteOf s k) = some p) :
    ¬ OnFreeList s p := by
  intro hfree
  rw [← target_placeOf] at hk
  exact h.inv.1.pages.target_of_free hfree _ hk

end

/-- A read-only page in frame 3. -/
def readOnlyRun : List Cmd := [.create, .call env0 (.pageAlloc 0#32 0x1000#32 5#32)]

/-- The page is mapped a second time. -/
theorem write_access_readOnly :
    ∃ s', syscall (smallAfter readOnlyRun) env0 (.pageMap 0#32 0x1000#32 0#32 0x2000#32 5#32) =
      some (s', .ret 0) ∧ ¬ Writable s' 3 := by
  have hrun : (readOnlyRun.foldlM exec small).isSome := by decide +kernel
  have hreach : Reachable smallReserved (smallAfter readOnlyRun) :=
    smallAfter_reachable hrun (by decide)
  have hout : (syscall (smallAfter readOnlyRun) env0
      (.pageMap 0#32 0x1000#32 0#32 0x2000#32 5#32)).map (·.2) = some (.ret 0) := by decide +kernel
  obtain ⟨⟨s', o⟩, hcall, rfl⟩ := Option.map_eq_some_iff.mp hout
  obtain ⟨hstep, hreach'⟩ := smallAfter_call hrun (by decide) (by decide +kernel) rfl hcall
  have hmaps : entryTarget (pteOf (smallAfter readOnlyRun) (slotOf env0 0x1000#32 (by decide))) =
      some 3 := by decide +kernel
  have hnot := hreach.not_writable (by decide +kernel) hmaps (by decide +kernel)
  exact ⟨s', hcall, (write_access hreach).2 3 s' hnot
    (.single ⟨hreach.not_free hmaps, _, hstep, hreach'.inv.2⟩)⟩

/-! ## A pointer of the kernel -/

/-- The kernel's directory in frame 1 has its page table in frame 0 for the addresses from
`KERNBASE` on, where the kernel sees the 32 frames of this machine. -/
def kernWords (n : Nat) : BitVec 32 :=
  if n < 32 then page2pa n ||| (pteP ||| pteW)
  else if n = 1024 + 960 then tableEntry 0
  else if n = 1024 + pdxUvpt then page2pa 1 ||| pteU ||| pteP
  else 0#32

/-- A machine whose kernel has mapped the memory for itself; frames from 14 on are free. -/
def kernMapped : Kernel := { small with
  npages := 32
  ppRef p := if p < 14 then 1#16 else 0#16
  ppLink p := if 14 ≤ p ∧ p < 31 then some (p + 1) else none
  pageFreeList := some 14
  mem := .ofWords kernWords }

def kernMappedReserved (p : Nat) : Prop := p < 14

theorem kernMapped_entry (f i : Nat) : kernMapped.entry f i = kernWords (1024 * f + i) := by
  rw [entry, entryAddr, show 4096 * f + 4 * i = 4 * (1024 * f + i) by omega]
  exact Mem.read32_ofWords ..

theorem kernMapped_zero {i : Nat} (hi : i < 1024) (h1 : i ≠ pdxUvpt) (h2 : i ≠ 960) :
    kernMapped.entry 1 i = 0#32 := by
  rw [kernMapped_entry, kernWords, if_neg (by omega), if_neg (by omega), if_neg (by omega)]

/-- The memory that the kernel has mapped for itself is not the user's. -/
theorem kernMapped_user {j : Nat} (hj : j < 1024) : kernMapped.entry 0 j &&& pteU = 0#32 := by
  rw [kernMapped_entry, kernWords]
  split
  · rw [entry_and (by decide)]
    decide
  · rw [if_neg (by omega), if_neg (by omega)]
    decide

/-- The shape of the kernel's part of the directories, whichever frames are free. -/
theorem kernMapped_shape {R : Nat → Prop} {s : Kernel} (hmem : s.mem = kernMapped.mem)
    (hkern : s.kernPgdir = 1) (h0 : R 0) (h1 : R 1) (hn : 1 < s.npages) (hle : s.npages ≤ 32) :
    KernShape R s := by
  have hentry : ∀ f i, s.entry f i = kernMapped.entry f i := fun f i => by rw [entry, entry, hmem]
  refine ⟨by omega, hkern ▸ h1, hkern ▸ hn, fun i hi => ?_, fun i hi hi' hne => ?_⟩
  · have h1 : pdxUtop < pdxUvpt := by decide
    have h2 : pdxUtop < 960 := by decide
    rw [hkern, hentry]
    exact kernMapped_zero (pdxUtop_lt hi) (by omega) (by omega)
  · rw [hkern, hentry]
    by_cases h : i = 960
    · subst h
      refine Or.inr ⟨0, h0, by omega, kernMapped_entry 1 960, fun j hj => ⟨?_, ?_⟩⟩
      · exact fun hlt => absurd hlt (by decide)
      · rw [hentry]
        exact fun _ => kernMapped_user hj
    · exact Or.inl (kernMapped_zero hi' hne h)

theorem kernMapped_booted : Booted kernMappedReserved kernMapped where
  kern := kernMapped_shape rfl rfl (by decide : 0 < 14) (by decide : 1 < 14) (by decide) (by decide)
  free := by
    refine ⟨List.range' 14 18, by decide +kernel, by decide +kernel, fun p => ?_⟩
    simp only [List.mem_range'_1, kernMapped, kernMappedReserved]
    omega
  unref p hp := if_neg hp
  envs e := ⟨rfl, rfl, rfl, rfl, rfl⟩
  envFree := rfl

/-- A child, and a read-only page at 0x10000 in frame 16 with the page table in frame 17. -/
def kernelPointerRun : List Cmd :=
  [.create, .call env0 .exofork, .call env0 (.pageAlloc 0#32 0x10000#32 5#32)]

def kernelPointer : Kernel := (kernelPointerRun.foldlM exec kernMapped).getD kernMapped

/-- The pointer is the kernel's address of that page table. It is refused for the child, which is
destroyed, and then `tf_ss` is written to the page table entry. -/
theorem trapframe_grants_write :
    Reachable kernMappedReserved kernelPointer ∧ ¬ Writable kernelPointer 16 ∧
      ¬ OnFreeList kernelPointer 16 ∧
      ∃ s', syscall kernelPointer env0 (.envSetTrapframe 0x1001#32 0xF0011000#32) =
          some (s', .ret 0) ∧ ¬ OnFreeList s' 16 ∧ Writable s' 16 := by
  have hrun : (kernelPointerRun.foldlM exec kernMapped).isSome := by decide +kernel
  have hreach : Reachable kernMappedReserved kernelPointer := by
    obtain ⟨s, hs⟩ := Option.isSome_iff_exists.mp hrun
    rw [kernelPointer, hs]
    exact (((ReachedIn.boot kernMapped_booted).execAll hs).reachable (by decide)).1
  have hmaps : entryTarget (pteOf kernelPointer (slotOf env0 0x10000#32 (by decide))) = some 16 := by
    decide +kernel
  refine ⟨hreach, hreach.not_writable (by decide +kernel) hmaps (by decide +kernel),
    hreach.not_free hmaps, ?_⟩
  have hout : (syscall kernelPointer env0 (.envSetTrapframe 0x1001#32 0xF0011000#32)).map
      (fun x => (x.2, pteOf x.1 (slotOf env0 0x10000#32 (by decide)),
        decide (Linked x.1.ppLink x.1.pageFreeList (15 :: List.range' 18 14)))) =
      some (.ret 0, 0x10023#32, true) := by
    unfold syscall sysEnvSetTrapframe trapframeCheck userMemAssert envDestroy
    rw [envFree_eq_byte]
    decide +kernel
  obtain ⟨⟨s', o⟩, hcall, heq⟩ := Option.map_eq_some_iff.mp hout
  simp only [Prod.mk.injEq, decide_eq_true_eq] at heq
  obtain ⟨rfl, hpte, hlist⟩ := heq
  refine ⟨s', hcall, ?_, slotOf env0 0x10000#32 (by decide), ?_⟩
  · rintro ⟨l, hl, hmem⟩
    rw [hl.unique hlist] at hmem
    exact absurd hmem (by decide)
  · rw [MapsWrite, hpte]
    decide

end Jos.Kern
