import Jos.Kern.RefWrap

/-!
# Page tables implement a map

The page tables of all environments together hold a map from pages below `UTOP` to frames and
permissions. `page_lookup` reads that map, `page_insert` and `page_remove` change it at one page.

That a page may be inserted again where it is mapped rests on the counter: `page_insert` counts one
more reference before it drops the old one. With 65536 mappings the 16-bit counter is zero, so the old
reference looks like the last one, and the page is freed.

Main results:
* `PmapRun.inv`: the page functions keep the page invariant;
* `page_tables_map`: they are lookup, update and delete of the map, over a run;
* `insert_again_frees`: a page that is freed while it is mapped.
-/

namespace Jos.Kern

open Jos.Lib Kernel

/-- The map that the page tables hold: the frame and the permission bits of every mapped page. -/
def mapOf (s : Kernel) (k : Slot) : Option (Nat × BitVec 32) :=
  (entryTarget (pteOf s k)).map fun pp => (pp, pteOf s k &&& 0xFFF#32)

/-- States reached by the kernel and by calls of the page functions, each in a state that satisfies
`ok`. The list has the pages that were taken with `page_alloc` and neither mapped nor freed since. -/
inductive PmapRun (R : Nat → Prop) (ok : Kernel → Prop) : List Nat → Kernel → Prop
  | boot {s : Kernel} (h : Booted R s) : PmapRun R ok [] s
  | kernel {s s' : Kernel} {ev : Event} (h : PmapRun R ok [] s) (hok : ok s) (hstep : Step s ev s') :
      PmapRun R ok [] s'
  | alloc {held : List Nat} {s s' : Kernel} {zero : Bool} {pp : Nat} (h : PmapRun R ok held s)
      (hok : ok s) (run : pageAlloc s zero = some (s', some pp)) : PmapRun R ok (pp :: held) s'
  | free {held : List Nat} {s s' : Kernel} {pp : Nat} (h : PmapRun R ok held s) (hok : ok s)
      (taken : pp ∈ held) (run : pageFree s pp = some s') :
      PmapRun R ok (held.filter (· ≠ pp)) s'
  | insert {held : List Nat} {s s' : Kernel} {e : EnvIx} {d pp : Nat} {va perm : BitVec 32} {r : Int}
      (h : PmapRun R ok held s) (hok : ok s) (dir : (s.envs e).envPgdir = some d) (low : va < utop)
      (page : pp ∈ held ∨ Mapped s pp) (flags : perm.toNat < 4096)
      (run : pageInsert s d pp va perm = some (s', r)) :
      PmapRun R ok (if r = 0 then held.filter (· ≠ pp) else held) s'
  | remove {held : List Nat} {s s' : Kernel} {e : EnvIx} {d : Nat} {va : BitVec 32}
      (h : PmapRun R ok held s) (hok : ok s) (dir : (s.envs e).envPgdir = some d) (low : va < utop)
      (run : pageRemove s d va = some s') : PmapRun R ok held s'

/-- Nothing but page tables below `UTOP` is different: not the environments, the frames that are no
tables, or the frames reserved at boot, where the kernel's own directory is. -/
structure PagesKept (R : Nat → Prop) (s s' : Kernel) : Prop where
  tables : TablesOnly s s'
  reserved : ∀ f, R f → SameFrame s s' f

/-- What the page functions do at the page of `va` in the address space of `e`. -/
structure PageOps (R : Nat → Prop) (held : List Nat) (s : Kernel) (d : Nat) (va : BitVec 32)
    (k : Slot) : Prop where
  lookup : (pageLookup s d va).map (Option.map fun x => (x.1, s.mem.read32 x.2 &&& 0xFFF#32)) =
    some (mapOf s k)
  insert : ∀ pp perm, pp ∈ held ∨ Mapped s pp → perm.toNat < 4096 →
    ∃ s' r, pageInsert s d pp va perm = some (s', r) ∧
      (r = 0 ∧ mapOf s' = Function.update (mapOf s) k (some (pp, perm ||| pteP)) ∧ PagesKept R s s' ∨
        r = -eNoMem ∧ s' = s)
  remove : ∃ s', pageRemove s d va = some s' ∧ mapOf s' = Function.update (mapOf s) k none ∧
    PagesKept R s s'
  again : ∀ pp old perm, mapOf s k = some (pp, old) → perm.toNat < 4096 →
    ∃ s', pageInsert s d pp va perm = some (s', 0) ∧ s'.ppRef = s.ppRef ∧ s'.ppLink = s.ppLink ∧
      s'.pageFreeList = s.pageFreeList

section

variable {R : Nat → Prop} {ok : Kernel → Prop} {held held' : List Nat} {s s' : Kernel} {e : EnvIx}
  {d t p q pp : Nat} {i : Fin pdxUtop} {j : Fin nptentries} {va perm w : BitVec 32} {k : Slot}

/-! ## The map -/

theorem and_low_of_lt (h : w.toNat < 4096) : w &&& 0xFFF#32 = w := by
  apply BitVec.eq_of_toNat_eq
  have hlow : (w &&& 0xFFF#32).toNat = w.toNat % 4096 := pgoff_eq w
  rw [hlow]
  exact Nat.mod_eq_of_lt h

/-- The permissions in the entry that `page_insert` writes. -/
theorem flags_insert (h : perm.toNat < 4096) :
    (page2pa pp ||| perm ||| pteP) &&& 0xFFF#32 = perm ||| pteP := by
  rw [BitVec.or_assoc, entry_and (by decide)]
  exact and_low_of_lt (or_toNat_lt h (by decide))

theorem mapOf_eq_none : mapOf s k = none ↔ entryTarget (pteOf s k) = none := by
  rw [mapOf, Option.map_eq_none_iff]

theorem mapOf_update (h : pteOf s' = Function.update (pteOf s) k w) :
    mapOf s' = Function.update (mapOf s) k ((entryTarget w).map fun pp => (pp, w &&& 0xFFF#32)) := by
  funext k'
  unfold mapOf
  rw [h]
  by_cases hk : k' = k
  · rw [hk, Function.update_self, Function.update_self]
  · rw [Function.update_of_ne hk, Function.update_of_ne hk]

theorem mapOf_remove (hgone : entryTarget (pteOf s' k) = none)
    (hrest : ∀ k' ≠ k, pteOf s' k' = pteOf s k') : mapOf s' = Function.update (mapOf s) k none := by
  funext k'
  by_cases hk : k' = k
  · rw [hk, Function.update_self, mapOf_eq_none, hgone]
  · rw [Function.update_of_ne hk, mapOf, mapOf, hrest k' hk]

/-! ## Reserved frames -/

theorem PageInv.noTable_of_reserved (h : PageInv R held s) {f : Nat} (hf : R f) : NoTable s f :=
  fun _ _ hk => (h.target_lt hk).2.1 hf

theorem TablesOnly.kept (htab : TablesOnly s s') (h : PageInv R held s) (h' : PageInv R held' s') :
    PagesKept R s s' :=
  ⟨htab, fun f hf => htab.data f (h.noTable_of_reserved hf) (h'.noTable_of_reserved hf)⟩

/-! ## Pages taken off the free list -/

theorem PageInv.held_congr (h : PageInv R held s) (hmem : ∀ p, p ∈ held' ↔ p ∈ held) :
    PageInv R held' s := by
  obtain ⟨free, hlink, hled, hnone⟩ := h.accounts.pages
  refine ⟨h.shape, ⟨free, hlink, hled.congr (fun q => ?_) fun _ _ => rfl, hnone⟩, fun p hp => ?_⟩
  · unfold Owned
    rw [hmem]
  · exact h.accounts.held_ok p ((hmem p).mp hp)

theorem mem_cons_filter (hp : pp ∈ held) (q : Nat) : q ∈ pp :: held.filter (· ≠ pp) ↔ q ∈ held := by
  simp only [List.mem_cons, List.mem_filter, decide_eq_true_eq]
  constructor
  · rintro (rfl | ⟨hq, _⟩)
    · exact hp
    · exact hq
  · intro hq
    by_cases hqp : q = pp
    · exact Or.inl hqp
    · exact Or.inr ⟨hq, hqp⟩

/-- A page taken or mapped may be inserted; afterwards it is not among the taken ones. -/
theorem PageInv.insertable (h : PageInv R held s) (hpp : pp ∈ held ∨ Mapped s pp) :
    ∃ before, PageInv R before s ∧ Insertable s before pp (held.filter (· ≠ pp)) := by
  by_cases hmem : pp ∈ held
  · exact ⟨pp :: held.filter (· ≠ pp), h.held_congr (mem_cons_filter hmem), Or.inr ⟨rfl, by simp⟩⟩
  · have hfilter : held.filter (· ≠ pp) = held := by
      rw [List.filter_eq_self]
      intro q hq
      simpa using fun hqp : q = pp => hmem (hqp ▸ hq)
    obtain ⟨k, hk⟩ := hpp.resolve_left hmem
    rw [← target_placeOf] at hk
    exact ⟨held, h, Or.inl ⟨hfilter.symm, placeOf k, rfl, hk⟩⟩

theorem PageInv.pageInsert_page (h : PageInv R held s) (hb : Bounded s)
    (hd : (s.envs e).envPgdir = some d) (hva : va < utop) (hpp : pp ∈ held ∨ Mapped s pp)
    (hperm : perm.toNat < 4096) :
    Kern.pageInsert s d pp va perm = some (s, -eNoMem) ∨
      ∃ s', Kern.pageInsert s d pp va perm = some (s', 0) ∧
        Inserted R (held.filter (· ≠ pp)) s (slotOf e va hva) pp (page2pa pp ||| perm ||| pteP) s' := by
  obtain ⟨before, hbefore, hins⟩ := h.insertable hpp
  rcases hbefore.pageInsert perm hins hd (i := ⟨pdx va, pdx_lt_of_lt_utop hva⟩)
      (j := ⟨ptx va, ptx_lt va⟩) rfl rfl hperm (hb.dropOk _) with ⟨_, hrun⟩ | hrun
  · exact Or.inl hrun
  · exact Or.inr hrun

theorem PageInv.pageRemove_page (h : PageInv R held s) (hb : Bounded s)
    (hd : (s.envs e).envPgdir = some d) (hva : va < utop) :
    ∃ s', Kern.pageRemove s d va = some s' ∧ PageInv R held s' ∧
      entryTarget (pteOf s' (slotOf e va hva)) = none ∧
      (∀ k ≠ slotOf e va hva, pteOf s' k = pteOf s k) ∧ TablesOnly s s' := by
  obtain ⟨s', hrun, hinv, _, hgone, hrest, htab, _⟩ := h.pageRemove hd
    (i := ⟨pdx va, pdx_lt_of_lt_utop hva⟩) (j := ⟨ptx va, ptx_lt va⟩) rfl rfl (hb.dropOk _)
  exact ⟨s', hrun, hinv, hgone, hrest, htab⟩

/-! ## The functions on the map -/

theorem PageInv.pageLookup_map (h : PageInv R held s) (hd : (s.envs e).envPgdir = some d)
    (hva : va < utop) :
    (Kern.pageLookup s d va).map (Option.map fun x => (x.1, s.mem.read32 x.2 &&& 0xFFF#32)) =
      some (mapOf s (slotOf e va hva)) := by
  unfold mapOf
  rcases h.pageLookup hd hva with ⟨hnone, hlook⟩ | ⟨pg, pte, hpg, hlook, hread⟩
  · rw [hlook, hnone]
    rfl
  · rw [hlook, hpg, Option.map_some, Option.map_some, Option.map_some, hread]

theorem Inserted.map (h : Inserted R held s k pp (page2pa pp ||| perm ||| pteP) s')
    (hperm : perm.toNat < 4096) :
    mapOf s' = Function.update (mapOf s) k (some (pp, perm ||| pteP)) := by
  rw [mapOf_update h.pte, h.target_eq, Option.map_some, flags_insert hperm]

/-- The reference that `page_insert` counts first is the one that `page_remove` drops. -/
theorem insertEntry_same (hlook : pageLookup (s.incRef pp) d va = some (some (pp, entryAddr t j)))
    (hpres : isPresent (s.mem.read32 (entryAddr t j)) = true) (href : s.ppRef pp ≠ 0#16) :
    insertEntry s d pp va w (entryAddr t j) =
      some (s.writePte (entryAddr t j) (page2pa pp ||| w ||| pteP)) := by
  have hpres' : isPresent ((s.incRef pp).mem.read32 (entryAddr t j)) = true := hpres
  simp [insertEntry, hpres', pageRemove, hlook, pageDecref_incRef_self href, hpres, Kernel.writePte,
    Mem.write32_write32]

theorem PageInv.ppRef_ne_zero (h : PageInv R held s) (hb : Bounded s) {k : Place}
    (hk : target s k = some p) : s.ppRef p ≠ 0#16 := by
  obtain ⟨free, _, hled, _⟩ := h.accounts.pages
  have hpos := refCount_pos.mpr ⟨_, hk⟩
  rw [← hled.toNat_ref (hled.target_own _ p hk) (hb p)] at hpos
  intro hz
  rw [hz] at hpos
  exact absurd hpos (by decide)

/-- Inserting a page where it is mapped changes its entry only. -/
theorem PageInv.pageInsert_again (h : PageInv R held s) (perm : BitVec 32) (hb : Bounded s)
    (hd : (s.envs e).envPgdir = some d) (hva : va < utop)
    (hk : entryTarget (pteOf s (slotOf e va hva)) = some pp) :
    ∃ pte, Kern.pageInsert s d pp va perm =
      some (s.writePte pte (page2pa pp ||| perm ||| pteP), 0) := by
  rw [← target_placeOf] at hk
  have hsame := sameButPages_incRef s pp
  obtain ⟨t, ht, hpres, hlook⟩ :=
    (hsame.sameTables.shape h.shape).pageLookup_some (s := s.incRef pp) hd rfl rfl
      (by rw [hsame.sameTables.target_eq (R := R)]; exact hk) (h.target_lt hk).1
  rw [hsame.sameTables.target_eq (R := R)] at ht
  refine ⟨entryAddr t (ptx va), ?_⟩
  have hwalk := h.shape.pgdirWalk_table hd rfl (j := ⟨ptx va, ptx_lt va⟩) rfl ht true
  have hins := insertEntry_same (w := perm) hlook hpres (h.ppRef_ne_zero hb hk)
  simp only [slotOf] at hins hwalk
  simp only [Kern.pageInsert, hwalk, Option.bind_eq_bind, Option.bind_some, hins]

theorem PageInv.pageOps (h : PageInv R held s) (hb : Bounded s)
    (hd : (s.envs e).envPgdir = some d) (hva : va < utop) :
    PageOps R held s d va (slotOf e va hva) where
  lookup := h.pageLookup_map hd hva
  insert pp perm hpp hperm := by
    rcases h.pageInsert_page hb hd hva hpp hperm with hrun | ⟨s', hrun, hins⟩
    · exact ⟨s, _, hrun, Or.inr ⟨rfl, rfl⟩⟩
    · exact ⟨s', 0, hrun, Or.inl ⟨rfl, hins.map hperm, hins.tables.kept h hins.inv⟩⟩
  remove := by
    obtain ⟨s', hrun, hinv, hgone, hrest, htab⟩ := h.pageRemove_page hb hd hva
    exact ⟨s', hrun, mapOf_remove hgone hrest, htab.kept h hinv⟩
  again pp old flags hmap _ := by
    obtain ⟨q, hq, heq⟩ := Option.map_eq_some_iff.mp hmap
    cases heq
    obtain ⟨pte, hrun⟩ := h.pageInsert_again flags hb hd hva hq
    exact ⟨_, hrun, rfl, rfl, rfl⟩

/-! ## Runs -/

theorem PmapRun.inv (h : PmapRun R Bounded held s) : PageInv R held s ∧ EnvsOk s := by
  induction h with
  | boot h => exact ⟨h.inv.pages, h.inv.envs⟩
  | kernel h hok hstep ih =>
      have hinv := (Inv.step ⟨ih.1, ih.2⟩ hok hstep).inv
      exact ⟨hinv.pages, hinv.envs⟩
  | @alloc held s s' zero pp h hok run ih =>
      rcases ih.1.pageAlloc zero with ⟨_, hal⟩ | ⟨p, s1, hal, htk⟩
      · rw [hal] at run
        cases run
      · rw [hal] at run
        cases run
        exact ⟨htk.inv, ih.2.congr htk.envs htk.envFree⟩
  | free h hok taken run ih =>
      have hheld := ih.1.held_congr (mem_cons_filter taken)
      obtain ⟨s1, hfr, hsame, _, hinv⟩ := hheld.pageFree (by simp)
      rw [hfr] at run
      cases run
      exact ⟨hinv, ih.2.congr hsame.envs hsame.envFree⟩
  | insert h hok dir low page flags run ih =>
      rcases ih.1.pageInsert_page hok dir low page flags with hrun | ⟨s1, hrun, hins⟩
      · rw [hrun] at run
        cases run
        exact ih
      · rw [hrun] at run
        cases run
        exact ⟨hins.inv, ih.2.congr hins.tables.envs hins.tables.envFree⟩
  | remove h hok dir low run ih =>
      obtain ⟨s1, hrun, hinv, _, _, htab⟩ := ih.1.pageRemove_page hok dir low
      rw [hrun] at run
      cases run
      exact ⟨hinv, ih.2.congr htab.envs htab.envFree⟩

theorem Reachable.pmapRun (h : Reachable R s) (hok : ∀ s, Bounded s → ok s) : PmapRun R ok [] s := by
  induction h with
  | boot h => exact .boot h
  | step h hstep _ ih => exact .kernel ih (hok _ h.inv.2) hstep

/-- As long as no frame has more than 65535 references when a page function runs, the page
functions are update, delete and lookup of the map. -/
theorem page_tables_map {R : Nat → Prop} {held : List Nat} {s : Kernel} {e : EnvIx} {d : Nat}
    {va : BitVec 32} (h : PmapRun R Bounded held s) (hb : Bounded s)
    (hd : (s.envs e).envPgdir = some d) (hva : va < utop) :
    PageOps R held s d va (slotOf e va hva) :=
  h.inv.1.pageOps hb hd hva

end

/-- A page of an environment, found, mapped again read-only, and removed. -/
theorem page_tables_map_onePage : ∃ d, PmapRun smallReserved Bounded [] (smallAfter onePageRun) ∧
    ((smallAfter onePageRun).envs env0).envPgdir = some d ∧
    mapOf (smallAfter onePageRun) (slotOf env0 0x1000#32 (by decide)) = some (3, 7#32) ∧
    PageOps smallReserved [] (smallAfter onePageRun) d 0x1000#32
      (slotOf env0 0x1000#32 (by decide)) := by
  have hreach : Reachable smallReserved (smallAfter onePageRun) :=
    smallAfter_reachable (by decide +kernel) (by decide)
  have hd : ((smallAfter onePageRun).envs env0).envPgdir = some 2 := by decide +kernel
  have hrun : PmapRun smallReserved Bounded [] (smallAfter onePageRun) :=
    hreach.pmapRun fun _ hb => hb
  exact ⟨2, hrun, hd, by decide +kernel, page_tables_map hrun hreach.inv.2 hd (by decide)⟩

/-! ## A page inserted again with 65536 mappings -/

section

variable {s : Kernel} {d t pp : Nat} {va perm : BitVec 32}

/-- The reference that `page_insert` has just counted looks like the last one. -/
theorem insertEntry_wrapped (hn : s.npages ≤ 65536) (hent : s.entry d (pdx va) = tableEntry t)
    (htn : t < s.npages) (hpp : entryTarget (s.entry t (ptx va)) = some pp) (hppn : pp < s.npages)
    (href : s.ppRef pp = 0#16) (hlink : s.ppLink pp = none) :
    insertEntry s d pp va perm (entryAddr t (ptx va)) =
      some ((freedPage s pp).writePte (entryAddr t (ptx va)) (page2pa pp ||| perm ||| pteP)) := by
  have href' : (s.incRef pp).ppRef pp = 1#16 := by
    simp [Kernel.incRef, href]
  have hrem := pageRemove_last (s := s.incRef pp) hn hent htn hpp hppn href' hlink
  obtain ⟨hpres, _⟩ := pteAddr_of_target hpp (show pp < 2 ^ 20 by omega)
  have hpres' : isPresent ((s.incRef pp).mem.read32 (entryAddr t (ptx va))) = true := hpres
  simp only [insertEntry, hpres', if_true, hrem, Option.bind_eq_bind, Option.bind_some]
  simp [freedPage, Kernel.incRef, Kernel.writePte, Mem.write32_write32]

/-- The runs of system calls at the end of the last module are runs. -/
theorem PmapRun.pageRun {s s' : Kernel} (h : PmapRun smallReserved (fun _ => True) [] s)
    (hrun : Relation.ReflTransGen (PageStep fun _ _ _ => True) s s') :
    PmapRun smallReserved (fun _ => True) [] s' := by
  induction hrun with
  | refl => exact h
  | tail _ hstep ih =>
      obtain ⟨cur, c, o, hcur, hc, _, hrun⟩ := hstep
      exact .kernel ih trivial (.call hcur (safeCall_of_isPageCall hc) hrun)

/-- `page_insert` of the first page again, with other permissions. -/
theorem MappedTo.insert_again {i : Fin pdxUtop} (h : MappedTo 65535 s) (hi : i.val = 0) :
    ∃ t free, target s (.pde env0 i) = some t ∧ Linked s.ppLink s.pageFreeList free ∧ 6 ∉ free ∧
      pageInsert s 2 6 0#32 5#32 =
        some ((freedPage s 6).writePte (entryAddr t 0) (page2pa 6 ||| 5#32 ||| pteP), 0) := by
  have hq : target s (.pte env0 i ⟨0, by decide⟩) = some 6 := by
    rw [target_pte_eq]
    exact h.low _ rfl (show 1024 * i.val + 0 ≤ 65535 by omega)
  obtain ⟨t, ht, hent⟩ := exists_pde_of_pte hq
  obtain ⟨free, hlink, hled, hnone⟩ := h.inv.pages.accounts.pages
  obtain ⟨hn, hR, _⟩ := h.inv.pages.target_lt hq
  have hfree : 6 ∉ free := hled.target_notMem hq
  refine ⟨t, free, ht, hlink, hfree, ?_⟩
  have hd : (s.envs env0).envPgdir = some 2 := by
    rw [h.envs]
    exact wideStart_pgdir env0
  have hpdx : pdx 0#32 = i := by rw [hi]; decide
  have hptx : ptx 0#32 = 0 := by decide
  obtain ⟨hpde, htn⟩ := h.inv.pages.shape.pde_eq hd ht
  have hwalk := h.inv.pages.shape.pgdirWalk_table hd hpdx (j := ⟨0, by decide⟩) hptx ht true
  have href : s.ppRef 6 = 0#16 := by
    rw [h.inv.ppRef_of_mapped ⟨(env0, i, ⟨0, by decide⟩), (target_pte_eq ..).symm.trans hq⟩, h.count]
    decide
  rw [← hpdx] at hpde
  have hins := @insertEntry_wrapped s 2 t 6 0#32 5#32 h.inv.pages.shape.npages_le hpde htn
    (by rw [hptx]; exact hent) hn href (hnone 6 hn hR hfree)
  rw [hptx] at hins
  simp only [pageInsert, hwalk, Option.bind_eq_bind, Option.bind_some, hins]

theorem insert_again_frees : ∃ s s' old, PmapRun smallReserved (fun _ => True) [] s ∧
    (s.envs env0).envPgdir = some 2 ∧ mapOf s (slotOf env0 0#32 (by decide)) = some (6, old) ∧
    pageInsert s 2 6 0#32 5#32 = some (s', 0) ∧ Mapped s' 6 ∧ OnFreeList s' 6 := by
  obtain ⟨s, h⟩ := exists_mappedTo 65535 (by decide)
  obtain ⟨t, free, ht, hlink, hfree, hrun⟩ := h.insert_again (i := ⟨0, by decide⟩) rfl
  have hreach : Reachable smallReserved wideStart := wideStart_reachable
  have hd : (s.envs env0).envPgdir = some 2 := by
    rw [h.envs]
    exact wideStart_pgdir env0
  have hpage : entryTarget (pteOf s (slotOf env0 0#32 (by decide))) = some 6 :=
    h.low _ rfl (show 1024 * pdx 0#32 + ptx 0#32 ≤ 65535 by decide)
  refine ⟨s, _, pteOf s (slotOf env0 0#32 (by decide)) &&& 0xFFF#32, (hreach.pmapRun fun _ _ => trivial).pageRun h.run, hd, ?_, hrun,
    ⟨(env0, ⟨0, by decide⟩, ⟨1, by decide⟩), ?_⟩, 6 :: free, hlink.push hfree, List.mem_cons_self⟩
  · rw [mapOf, hpage]
    rfl
  · have hsame : SameButPages s (freedPage s 6) := ⟨rfl, rfl, rfl, rfl, rfl⟩
    have hst : SameTables smallReserved s (freedPage s 6) := hsame.sameTables
    have hpte : pteOf ((freedPage s 6).writePte (entryAddr t 0) (page2pa 6 ||| 5#32 ||| pteP)) = _ :=
      (hst.shape h.inv.pages.shape).pteOf_writePte (hst.target_eq ▸ ht) ⟨0, by decide⟩ _
    rw [hpte, Function.update_of_ne (by simp), hst.pteOf_eq]
    exact h.low _ rfl (show 1024 * 0 + 1 ≤ 65535 by omega)

end

end Jos.Kern
