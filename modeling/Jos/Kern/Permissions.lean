import Jos.Kern.PteChange

/-!
# Permissions of user pages

The page table entries below `UTOP` that the system calls write have the flags of `perm` and
`PTE_P`. The calls refuse flags outside `PTE_SYSCALL`, but not a `perm` without `PTE_U` or without
`PTE_P`, which their comments require. A call without `PTE_U` makes an entry that user code cannot
use; a call without `PTE_P` is accepted although its comment refuses it, and `page_insert` adds the bit.

* `accepted_perm`: a call that maps a page has no flag outside `PTE_SYSCALL`.
* `PteChange.legal`, `LegalPtes.step`: an entry that a step writes is legal if the permissions are.
* `legal_permissions`: in runs in which every mapping is asked for with both bits, the entries are
  legal and the calls that map a page have permissions as the comments say.
* `entry_without_user`: a run in which they are not.
-/

namespace Jos.Kern

open Jos.Lib Kernel

/-- An entry with `PTE_U` and `PTE_P` and no flag outside `PTE_SYSCALL`. -/
structure LegalPte (w : BitVec 32) : Prop where
  user : w &&& pteU ≠ 0#32
  present : w &&& pteP ≠ 0#32
  syscall : w &&& (0xFFF#32 &&& ~~~pteSyscall) = 0#32

/-- Every present entry below `UTOP` is legal. -/
def LegalPtes (s : Kernel) : Prop := ∀ k, isPresent (pteOf s k) = true → LegalPte (pteOf s k)

/-- What the comments of the calls that map a page ask of `perm`: `PTE_U` and `PTE_P` are set, and no
flag outside `PTE_SYSCALL`. -/
structure LegalPerm (perm : BitVec 32) : Prop where
  user : perm &&& pteU ≠ 0#32
  present : perm &&& pteP ≠ 0#32
  syscall : perm &&& ~~~pteSyscall = 0#32

/-- The permissions with which a call asks for a mapping. -/
def askedPerm : Call → Option (BitVec 32)
  | .pageAlloc _ _ perm => some perm
  | .pageMap _ _ _ _ perm => some perm
  | .ipcTrySend _ _ srcva perm => if srcva < utop then some perm else none
  | _ => none

/-- A call that asks for a mapping, with permissions that pass its test, asks for `PTE_U` and for
`PTE_P`. -/
def AsksUser : Event → Prop
  | .call _ c _ => ∀ perm, askedPerm c = some perm → badPerm perm = false →
      perm &&& pteU ≠ 0#32 ∧ perm &&& pteP ≠ 0#32
  | .internal => True

/-- States reached by steps whose events satisfy `ok`, without any counter wrapping around. -/
inductive ReachableBy (R : Nat → Prop) (ok : Event → Prop) : Kernel → Prop
  | boot {s : Kernel} (h : Booted R s) : ReachableBy R ok s
  | step {s s' : Kernel} {ev : Event} (h : ReachableBy R ok s) (hstep : Step s ev s') (hok : ok ev)
      (hb : Bounded s') : ReachableBy R ok s'

section

variable {R : Nat → Prop} {ok : Event → Prop} {s s' : Kernel} {cur e : EnvIx} {c : Call} {o : Outcome}
  {k dst : Slot} {pg : Nat} {perm w : BitVec 32} {r : Int} {ev : Event}

theorem ReachableBy.reachable (h : ReachableBy R ok s) : Reachable R s := by
  induction h with
  | boot h => exact .boot h
  | step _ hstep _ hb ih => exact .step ih hstep hb

/-! ## One entry -/

theorem or_and_distrib (a b m : BitVec 32) : (a ||| b) &&& m = (a &&& m) ||| (b &&& m) := by
  ext i
  simp [Bool.and_or_distrib_right]

/-- What `page_insert` writes for permissions that a system call lets through. -/
theorem legalPte_entry (hbad : badPerm perm = false) (hu : perm &&& pteU ≠ 0#32) :
    LegalPte (page2pa pg ||| perm ||| pteP) := by
  have hperm : perm &&& ~~~pteSyscall = 0#32 := by
    simpa [badPerm] using hbad
  rw [BitVec.or_assoc]
  refine ⟨?_, ?_, ?_⟩
  · rw [entry_and (by decide), or_and_distrib, show pteP &&& pteU = 0#32 by decide, BitVec.or_zero]
    exact hu
  · rw [entry_and (by decide), or_and_distrib]
    intro hzero
    have hbit := congrArg (·.getLsbD 0) hzero
    simp [pteP] at hbit
  · rw [entry_and (by decide), or_and_distrib,
      show pteP &&& (0xFFF#32 &&& ~~~pteSyscall) = 0#32 by decide, BitVec.or_zero,
      BitVec.and_comm 0xFFF#32, ← BitVec.and_assoc, hperm, BitVec.zero_and]

theorem LegalPtes.congr (h : LegalPtes s) (hpte : pteOf s' = pteOf s) : LegalPtes s' := by
  unfold LegalPtes
  rw [hpte]
  exact h

theorem LegalPtes.update (h : LegalPtes s) (hpte : pteOf s' = Function.update (pteOf s) dst w)
    (hw : LegalPte w) : LegalPtes s' := by
  intro k hk
  rw [hpte] at hk ⊢
  by_cases hkd : k = dst
  · rw [hkd, Function.update_self]
    exact hw
  · rw [Function.update_of_ne hkd] at hk ⊢
    exact h k hk

theorem entryTarget_ne_none (h : isPresent w = true) : entryTarget w ≠ none := by
  rw [entryTarget, if_pos h]
  simp

theorem LegalPtes.gone (h : LegalPtes s) (hgone : PtesGone s e s') : LegalPtes s' := by
  intro k hk
  by_cases hke : k.1 = e
  · exact absurd (hgone.gone k hke) (entryTarget_ne_none hk)
  · rw [hgone.pte k hke] at hk ⊢
    exact h k hk

/-! ## System calls -/

/-- A call that maps a page has permissions within `PTE_SYSCALL`. -/
theorem accepted_perm (h : Inv R s) (hb : Bounded s) (hcur : (s.envs cur).envStatus ≠ .free)
    (hrun : Kern.syscall s cur c = some (s', .ret 0)) (hasked : askedPerm c = some perm) :
    badPerm perm = false := by
  cases c with
  | pageAlloc envid va p =>
      cases hasked
      rcases h.sysPageAlloc hcur envid va perm fun _ _ _ => hb.dropOk _ with
        ⟨s1, r, hr, hrun', _⟩ | ⟨s1, e, pg, hrun', _, _, _, hbad, _⟩
      · rw [Kern.syscall, hrun'] at hrun
        cases hrun
        exact absurd rfl hr
      · exact hbad
  | pageMap srcenvid srcva dstenvid dstva p =>
      cases hasked
      rcases h.sysPageMap hcur srcenvid srcva dstenvid dstva perm fun _ _ _ => hb.dropOk _ with
        ⟨r, hr, hrun'⟩ | ⟨s1, srcE, dstE, pg, _, _, _, _, _, _, _, _, hsh⟩
      · rw [Kern.syscall, hrun'] at hrun
        cases hrun
        exact absurd rfl hr
      · exact hsh.perm_ok
  | ipcTrySend envid value srcva p =>
      simp only [askedPerm] at hasked
      split at hasked
      · rename_i hsrc
        cases hasked
        rcases h.sysIpcTrySend hcur envid value srcva perm fun _ _ _ => hb.dropOk _ with
          ⟨r, hr, hrun'⟩ | ⟨e, _, hhigh, _⟩ | ⟨s1, e, pg, _, _, _, _, _, _, _, hsh⟩
        · rw [Kern.syscall, hrun'] at hrun
          cases hrun
          exact absurd rfl hr
        · exact absurd hsrc hhigh
        · exact hsh.perm_ok
      · cases hasked
  | _ => cases hasked

theorem PteChange.legal (h : PteChange s cur c o s') (hl : LegalPtes s)
    (hok : ∀ pg perm, o = .ret 0 → askedPerm c = some perm → LegalPte (page2pa pg ||| perm ||| pteP)) :
    LegalPtes s' := by
  cases h with
  | same pte => exact hl.congr pte
  | freed _ _ h => exact hl.gone h
  | alloc low _ h => exact hl.update h.pte (hok _ _ rfl rfl)
  | map srclow low _ _ h => exact hl.update h.pte (hok _ _ rfl rfl)
  | @unmap envid va e _ low target gone pte =>
      intro k hk
      by_cases hkv : k = slotOf e va low
      · rw [hkv] at hk
        exact absurd gone (entryTarget_ne_none hk)
      · rw [pte k hkv] at hk ⊢
        exact hl k hk
  | send srclow low _ _ h => exact hl.update h.pte (hok _ _ rfl (if_pos srclow))

/-! ## Steps and runs -/

/-- The entry that `region_alloc` makes. -/
theorem LegalPtes.region {s1 : Kernel} {d : Nat} {va : BitVec 32} (hl : LegalPtes s) (h : Inv R s)
    (hb : Bounded s) (dir : (s.envs e).envPgdir = some d) (low : va < utop)
    (alloc : pageAlloc s false = some (s1, some pg))
    (insert : pageInsert s1 d pg va (pteW ||| pteU) = some (s', 0)) : LegalPtes s' := by
  rcases h.pages.pageAlloc false with ⟨_, hal⟩ | ⟨q, s2, hal, htk⟩
  · rw [hal] at alloc
    cases alloc
  · rw [hal] at alloc
    cases alloc
    have hd1 : (s1.envs e).envPgdir = some d := by rw [htk.envs, dir]
    have hdrop : DropOk s1 (placeOf (slotOf e va low)) := by
      intro q _
      rw [htk.same.target_eq]
      exact hb q
    rcases htk.inv.pageInsert (pteW ||| pteU) (Or.inr ⟨rfl, by simp⟩) hd1 rfl rfl
      (by decide) hdrop with ⟨_, hins⟩ | ⟨s2, hins, h2⟩
    · rw [hins] at insert
      cases insert
    · rw [hins] at insert
      cases insert
      have hpte := h2.pte
      rw [htk.same.pteOf_eq] at hpte
      exact hl.update hpte (legalPte_entry (by decide) (by decide))

theorem LegalPtes.step (hl : LegalPtes s) (h : Inv R s) (hb : Bounded s) (hstep : Step s ev s')
    (hok : AsksUser ev) : LegalPtes s' := by
  cases hstep with
  | call live safe run =>
      refine (h.syscall_pte hb live safe run).legal hl ?_
      rintro pg perm rfl hasked
      have hbad := accepted_perm h hb live run hasked
      exact legalPte_entry hbad (hok perm hasked hbad).1
  | create run =>
      rcases h.envAlloc_cases run with ⟨rfl, _⟩ | ⟨e, _, hal⟩
      · exact hl
      · exact hl.congr hal.pte
  | region dir low alloc insert => exact hl.region h hb dir low alloc insert
  | free live run =>
      obtain ⟨s1, hrun, _, hfreed⟩ := h.envFree live hb
      rw [hrun] at run
      cases run
      exact hl.gone hfreed.ptesGone
  | @store e d va c dir grants =>
      have hwr : Writing R e d va 1 s := by
        refine ⟨h, dir, fun i hi => ?_⟩
        obtain rfl : i = 0 := by omega
        simpa using grants
      have hst : storeByte s d (va + BitVec.ofNat 32 0) c =
          some { s with mem := Function.update s.mem (physAddr s d va) c } := by
        simp [storeByte, grants.mono (m := pteP ||| pteW) (by decide)]
      exact hl.congr (hwr.storeByte (by omega) hst).2.2.2
  | context live tf st hst ty runs cpu => exact hl.congr (target_setEnv rfl).2

theorem LegalPtes.boot (h : Booted R s) : LegalPtes s := by
  intro k hk
  refine absurd ?_ (entryTarget_ne_none hk)
  rw [← target_placeOf, target_of_booted h]

/-- A call that meets the condition and maps a page has legal permissions. -/
theorem LegalPerm.of_accepted (h : Inv R s) (hb : Bounded s) (hcur : (s.envs cur).envStatus ≠ .free)
    (hok : AsksUser (.call cur c (.ret 0))) (hrun : Kern.syscall s cur c = some (s', .ret 0))
    (hasked : askedPerm c = some perm) : LegalPerm perm := by
  have hbad := accepted_perm h hb hcur hrun hasked
  obtain ⟨huser, hpresent⟩ := hok perm hasked hbad
  exact ⟨huser, hpresent, by simpa [badPerm] using hbad⟩

/-- In a run in which every mapping is asked for with `PTE_U` and `PTE_P`, the present entries below
`UTOP` are legal; and each call that maps a page has these two bits in its permissions and no flag
outside `PTE_SYSCALL`. -/
theorem legal_permissions {R : Nat → Prop} {s : Kernel} (h : ReachableBy R AsksUser s) :
    LegalPtes s ∧ ∀ cur c perm s', (s.envs cur).envStatus ≠ .free → AsksUser (.call cur c (.ret 0)) →
      Kern.syscall s cur c = some (s', .ret 0) → askedPerm c = some perm → LegalPerm perm := by
  refine ⟨?_, fun cur c perm s' hcur hok hrun hasked => ?_⟩
  · induction h with
    | boot h => exact .boot h
    | step hrun hstep hok _ ih =>
        obtain ⟨hinv, hb⟩ := hrun.reachable.inv
        exact ih.step hinv hb hstep hok
  · obtain ⟨hinv, hb⟩ := h.reachable.inv
    exact .of_accepted hinv hb hcur hok hrun hasked

/-- A short run of commands whose events satisfy `ok`. -/
theorem ReachableBy.execAll {n : Nat} {l : List Cmd} (h : ReachableBy R ok s) (hin : ReachedIn R n s)
    (hn : n + l.length < 2 ^ 15)
    (hok : ∀ m ∈ l, ∀ s ev s', execEvent s m = some (ev, s') → ok ev)
    (hrun : l.foldlM exec s = some s') : ReachableBy R ok s' := by
  induction l generalizing n s with
  | nil =>
      cases hrun
      exact h
  | cons m l ih =>
      simp only [List.foldlM_cons, Option.bind_eq_bind, Option.bind_eq_some_iff] at hrun
      obtain ⟨s1, hs1, hrest⟩ := hrun
      obtain ⟨⟨ev, s2⟩, hev, rfl⟩ := Option.map_eq_some_iff.mp hs1
      rw [List.length_cons] at hn
      have hin1 : ReachedIn R (n + 1) s2 := .step hin (step_of_exec hev)
      have h1 : ReachableBy R ok s2 := .step h (step_of_exec hev)
        (hok m List.mem_cons_self _ _ _ hev) (hin1.reachable (by omega)).1.inv.2
      exact ih h1 hin1 (by omega) (fun m' hm' => hok m' (List.mem_cons_of_mem m hm')) hrest

theorem asksUser_of_exec {m : Cmd} (h : execEvent s m = some (ev, s'))
    (hm : ∀ cur c, m = .call cur c → AsksUser (.call cur c (.ret 0))) : AsksUser ev := by
  cases m with
  | create =>
      obtain ⟨x, _, heq⟩ := Option.map_eq_some_iff.mp h
      cases heq
      trivial
  | call cur c =>
      simp only [execEvent] at h
      split at h
      · cases h
      · obtain ⟨x, _, heq⟩ := Option.map_eq_some_iff.mp h
        cases heq
        exact hm cur c rfl

end

/-- A page that user code may read and write, and the next call, which maps it a second time. -/
theorem legal_permissions_readable : ∃ s s', ReachableBy smallReserved AsksUser s ∧
    isPresent (pteOf s (slotOf env0 0x1000#32 (by decide))) = true ∧ LegalPtes s ∧
    Kern.syscall s env0 (.pageMap 0#32 0x1000#32 0#32 0x2000#32 7#32) = some (s', .ret 0) ∧
    LegalPerm 7#32 := by
  have hmap : (onePageRun.foldlM exec small).map
      (fun s => (pteOf s (slotOf env0 0x1000#32 (by decide)), (s.envs env0).envStatus,
        (Kern.syscall s env0 (.pageMap 0#32 0x1000#32 0#32 0x2000#32 7#32)).map Prod.snd)) =
      some (0x3007#32, .runnable, some (.ret 0)) := by decide +kernel
  obtain ⟨s, hs, hread⟩ := Option.map_eq_some_iff.mp hmap
  obtain ⟨hpte, hst, hcall⟩ : _ ∧ _ ∧ _ := by simpa only [Prod.mk.injEq] using hread
  obtain ⟨⟨s', o⟩, hcall, rfl⟩ := Option.map_eq_some_iff.mp hcall
  have hrun : ReachableBy smallReserved AsksUser s := by
    refine ReachableBy.execAll (.boot small_booted) (.boot small_booted) (by decide) ?_ hs
    intro m hm s ev s' hev
    refine asksUser_of_exec hev ?_
    rintro cur c rfl
    rcases List.mem_cons.mp hm with heq | hm
    · cases heq
    · cases List.mem_singleton.mp hm
      rintro perm hasked _
      cases hasked
      decide
  have hlegal := legal_permissions hrun
  have hok : AsksUser (.call env0 (.pageMap 0#32 0x1000#32 0#32 0x2000#32 7#32) (.ret 0)) := by
    rintro perm hasked _
    cases hasked
    decide
  exact ⟨s, s', hrun, by rw [hpte]; decide, hlegal.1, hcall,
    hlegal.2 env0 _ 7#32 s' (by rw [hst]; decide) hok hcall rfl⟩

/-- The page is asked for with `PTE_P` alone. -/
def noUserRun : List Cmd := [.create, .call env0 (.pageAlloc 0#32 0x1000#32 pteP)]

theorem entry_without_user : Reachable smallReserved (smallAfter noUserRun) ∧
    ¬ LegalPtes (smallAfter noUserRun) := by
  have hpte : pteOf (smallAfter noUserRun) (slotOf env0 0x1000#32 (by decide)) = 0x3001#32 := by
    decide +kernel
  refine ⟨smallAfter_reachable (by decide +kernel) (by decide), fun hlegal => ?_⟩
  have huser := (hlegal _ (by rw [hpte]; decide)).user
  rw [hpte] at huser
  exact huser (by decide)

end Jos.Kern
