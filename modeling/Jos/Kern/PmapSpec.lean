import Jos.Kern.PageInv

/-!
# What the page functions do

One lemma for each function of `kern/pmap.c` on a directory of an environment: it does not
panic, keeps the invariant, and changes exactly one page table entry. The reference counts
have 16 bits, so adding a reference needs room in the counter.
-/

namespace Jos.Kern

open Jos.Lib Kernel

section

variable {R : Nat → Prop} {held : List Nat} {s s' : Kernel} {e : EnvIx} {d p q t pp : Nat}
  {i : Fin pdxUtop} {j : Fin nptentries} {va perm : BitVec 32} {k : Place}
  {tar : Place → Option Nat}

/-- The states differ in the reference counts and the free list of pages only. -/
structure SameButPages (s s' : Kernel) : Prop where
  npages : s'.npages = s.npages
  mem : s'.mem = s.mem
  kern : s'.kernPgdir = s.kernPgdir
  envs : s'.envs = s.envs
  envFree : s'.envFreeList = s.envFreeList

theorem SameButPages.sameTables (h : SameButPages s s') : SameTables R s s' where
  npages := h.npages
  kern := h.kern
  dir e := by rw [h.envs]
  entry f _ i _ := by rw [Kernel.entry, h.mem, Kernel.entry]

theorem sameButPages_incRef (s : Kernel) (p : Nat) : SameButPages s (s.incRef p) :=
  ⟨rfl, rfl, rfl, rfl, rfl⟩

theorem PageInv.target_lt (h : PageInv R held s) (hk : target s k = some p) :
    p < s.npages ∧ ¬ R p ∧ p ∉ held := by
  obtain ⟨free, _, hled, _⟩ := h.accounts.pages
  exact hled.target_own k p hk

theorem owned_cons {p q : Nat} : Owned R (p :: held) s q ↔ Owned R held s q ∧ q ≠ p := by
  simp only [Owned, List.mem_cons, not_or]
  tauto

theorem kaddr_page2pa (hn : s.npages ≤ 65536) (hp : p < s.npages) :
    s.kaddr (page2pa p) = some (4096 * p) := by
  have hpa := page2pa_toNat (show p < 2 ^ 20 by omega)
  rw [kaddr, if_pos (by rw [pgnum_eq, hpa]; omega), hpa]

theorem pa2page_page2pa (hn : s.npages ≤ 65536) (hp : p < s.npages) :
    s.pa2page (page2pa p) = some p := by
  have hpg : pgnum (page2pa p) = p := by
    rw [pgnum_eq, page2pa_toNat (show p < 2 ^ 20 by omega)]
    omega
  rw [pa2page, hpg, if_pos hp]

/-- An entry that refers to a frame in memory has the physical address of that frame. -/
theorem pteAddr_of_target {w : BitVec 32} (hw : entryTarget w = some p) (hp : p < 2 ^ 20) :
    isPresent w = true ∧ pteAddr w = page2pa p := by
  rw [entryTarget] at hw
  split at hw
  · rename_i hpres
    refine ⟨hpres, BitVec.eq_of_toNat_eq ?_⟩
    have hfr : pteFrame w = p := Option.some.inj hw
    rw [pteFrame_eq] at hfr
    rw [pteAddr_toNat, page2pa_toNat hp]
    omega
  · cases hw

/-! ## The allocator -/

/-- The result of taking page `p` off the free list. -/
structure Taken (R : Nat → Prop) (held : List Nat) (s : Kernel) (zero : Bool) (p : Nat)
    (s' : Kernel) : Prop where
  inv : PageInv R (p :: held) s'
  same : SameTables R s s'
  envs : s'.envs = s.envs
  envFree : s'.envFreeList = s.envFreeList
  ppRef : s'.ppRef = s.ppRef
  fresh : ∀ k, target s k ≠ some p
  notHeld : p ∉ held
  mem : ∀ x, x < 4096 * p ∨ 4096 * p + 4096 ≤ x → s'.mem x = s.mem x
  zero : zero = true → ∀ x, 4096 * p ≤ x → x < 4096 * p + 4096 → s'.mem x = 0#8

theorem Taken.lt {zero : Bool} (h : Taken R held s zero p s') : p < s.npages ∧ ¬ R p := by
  have := h.inv.accounts.held_ok p List.mem_cons_self
  rw [h.same.npages] at this
  exact ⟨this.1, this.2.1⟩

theorem Taken.entry_zero (h : Taken R held s true p s') {i : Nat} (hi : i < 1024) :
    s'.entry p i = 0#32 := by
  have hz := entry_fill_zero s (f := p) hi
  rw [← hz]
  refine entry_congr (s := { s with mem := s.mem.fill (4096 * p) 0 pgsize }) hi ?_
  intro x hx hx'
  rw [h.zero rfl x hx hx']
  exact (Mem.fill_of_mem _ 0 hx hx').symm

/-- `page_alloc` takes the head of the list. -/
theorem pageAlloc_head {zero : Bool} (h : pageAlloc s zero = some (s', some p)) :
    s.pageFreeList = some p := by
  unfold pageAlloc at h
  split at h
  · cases h
  · rename_i hfl
    split at h
    · simp only [Option.bind_eq_bind, Option.bind_eq_some_iff] at h
      obtain ⟨kva, _, h⟩ := h
      cases h
      exact hfl
    · cases h
      exact hfl

/-- `page_alloc` fails only on an empty free list; otherwise it hands out a page that
nothing refers to. -/
theorem PageInv.pageAlloc (h : PageInv R held s) (zero : Bool) :
    (s.pageFreeList = none ∧ pageAlloc s zero = some (s, none)) ∨
      ∃ p s', pageAlloc s zero = some (s', some p) ∧ Taken R held s zero p s' := by
  obtain ⟨free, hlink, hled, hnone⟩ := h.accounts.pages
  cases hfl : s.pageFreeList with
  | none => exact Or.inl ⟨rfl, by simp [Kern.pageAlloc, hfl]⟩
  | some p =>
      right
      rw [hfl] at hlink
      obtain ⟨free', rfl, hlink'⟩ := hlink.exists_cons
      have hown : Owned R held s p := hled.free_own p List.mem_cons_self
      have hfresh := hled.free_unref p List.mem_cons_self
      -- what the free list looks like afterwards, whatever happens to memory
      have hacc : ∀ s' : Kernel, s'.npages = s.npages → s'.ppRef = s.ppRef →
          s'.ppLink = Function.update s.ppLink p none → s'.pageFreeList = s.ppLink p →
          Accounts R (p :: held) s' (target s) := by
        intro s' hn href hl hf
        refine ⟨⟨free', ?_, ?_, ?_⟩, ?_⟩
        · rw [hl, hf]
          exact hlink.pop hled.nodup
        · rw [href]
          refine hled.alloc.congr (fun q => ?_) fun _ _ => rfl
          rw [owned_cons, Owned, Owned, hn]
        · intro q hq hqR hqf
          rw [hl]
          by_cases hqp : q = p
          · rw [hqp, Function.update_self]
          · rw [Function.update_of_ne hqp]
            exact hnone q (hn ▸ hq) hqR (by simp [hqp, hqf])
        · intro q hq
          rw [hn, href]
          rcases List.mem_cons.mp hq with rfl | hq
          · exact ⟨hown.1, hown.2.1, hled.free_ref List.mem_cons_self⟩
          · exact h.accounts.held_ok q hq
      have hsame : ∀ s' : Kernel, s'.npages = s.npages → s'.kernPgdir = s.kernPgdir →
          s'.envs = s.envs →
          (∀ x, x < 4096 * p ∨ 4096 * p + 4096 ≤ x → s'.mem x = s.mem x) → SameTables R s s' := by
        intro s' hn hk he hm
        refine SameTables.of_mem ?_ hn hk fun e => by rw [he]
        intro f hf x hx hx'
        have hne : f ≠ p := by
          rintro rfl
          rcases hf with hf | ⟨k, _, hk⟩
          · exact hown.2.1 hf
          · exact hfresh k hk
        exact hm x (by omega)
      have hinv : ∀ s', SameTables R s s' → Accounts R (p :: held) s' (target s) →
          PageInv R (p :: held) s' := fun s' hst ha =>
        ⟨hst.shape h.shape, by rw [hst.target_eq]; exact ha⟩
      have hnot : p ∉ held := hown.2.2
      cases zero with
      | false =>
          refine ⟨p, _, by simp only [Kern.pageAlloc, hfl]; rfl, ?_⟩
          have hst := hsame { s with
            pageFreeList := s.ppLink p
            ppLink := Function.update s.ppLink p none } rfl rfl rfl fun _ _ => rfl
          exact ⟨hinv _ hst (hacc _ rfl rfl rfl rfl), hst, rfl, rfl, rfl, hfresh, hnot,
            fun _ _ => rfl, by simp⟩
      | true =>
          have hka : ({ s with
              pageFreeList := s.ppLink p
              ppLink := Function.update s.ppLink p none } : Kernel).kaddr (page2pa p) =
              some (4096 * p) := kaddr_page2pa h.shape.npages_le hown.1
          refine ⟨p, { s with
            pageFreeList := s.ppLink p
            ppLink := Function.update s.ppLink p none
            mem := s.mem.fill (4096 * p) 0 pgsize }, ?_, ?_⟩
          · simp only [Kern.pageAlloc, hfl]
            rw [if_pos trivial, hka]
            rfl
          · have hm : ∀ x, x < 4096 * p ∨ 4096 * p + 4096 ≤ x →
                s.mem.fill (4096 * p) 0 pgsize x = s.mem x := fun x hx =>
              Mem.fill_of_disjoint _ 0 hx
            have hst := hsame { s with
              pageFreeList := s.ppLink p
              ppLink := Function.update s.ppLink p none
              mem := s.mem.fill (4096 * p) 0 pgsize } rfl rfl rfl hm
            exact ⟨hinv _ hst (hacc _ rfl rfl rfl rfl), hst, rfl, rfl, rfl, hfresh, hnot, hm,
              fun _ x hx hx' => Mem.fill_of_mem _ 0 hx hx'⟩

/-- `page_free` gives back a page that was taken and not mapped. -/
theorem PageInv.pageFree (h : PageInv R (p :: held) s) (hp : p ∉ held) :
    ∃ s', pageFree s p = some s' ∧ SameButPages s s' ∧ s'.ppRef = s.ppRef ∧ PageInv R held s' := by
  obtain ⟨free, hlink, hled, hnone⟩ := h.accounts.pages
  obtain ⟨hpn, hpR, hpref⟩ := h.accounts.held_ok p List.mem_cons_self
  have hpf : p ∉ free := fun hf => (owned_cons.mp (hled.free_own p hf)).2 rfl
  have hplink : s.ppLink p = none := hnone p hpn hpR hpf
  have hsame : SameButPages s { s with
      ppLink := Function.update s.ppLink p s.pageFreeList
      pageFreeList := some p } := ⟨rfl, rfl, rfl, rfl, rfl⟩
  refine ⟨_, by simp [Kern.pageFree, hpref, hplink], hsame, rfl, ?_⟩
  refine ⟨hsame.sameTables.shape h.shape, ⟨p :: free, hlink.push hpf, ?_, ?_⟩, ?_⟩
  · rw [hsame.sameTables.target_eq (R := R)]
    refine Ledger.unalloc ?_ ⟨hpn, hpR, hp⟩ hpref
    exact hled.congr (fun q => owned_cons.symm) fun _ _ => rfl
  · intro q hq hqR hqf
    simp only [List.mem_cons, not_or] at hqf
    simp only [Function.update_of_ne hqf.1]
    exact hnone q hq hqR hqf.2
  · intro q hq
    exact h.accounts.held_ok q (List.mem_cons_of_mem _ hq)

/-- The counter of the frame that place `k` refers to has not wrapped around. -/
def DropOk (s : Kernel) (k : Place) : Prop :=
  ∀ q, target s k = some q → refCount (target s) q < 2 ^ 16

/-- `page_decref` drops the reference from one place. -/
theorem Accounts.pageDecref (h : Accounts R held s tar) (hk : tar k = some q)
    (hb : refCount tar q < 2 ^ 16) :
    ∃ s', pageDecref s q = some s' ∧ SameButPages s s' ∧
      (∀ p ≠ q, s'.ppRef p = s.ppRef p) ∧
      Accounts R held s' (Function.update tar k none) := by
  obtain ⟨free, hlink, hled, hnone⟩ := h.pages
  have hown : Owned R held s q := hled.target_own k q hk
  have hqf : q ∉ free := hled.target_notMem hk
  have hqlink : s.ppLink q = none := hnone q hown.1 hown.2.1 hqf
  have hdrop := hled.drop hk hb
  have hheld : ∀ p ∈ held, p ≠ q := fun p hp hpq => hown.2.2 (hpq ▸ hp)
  by_cases hz : s.ppRef q - 1#16 = 0#16
  · rw [if_pos hz] at hdrop
    refine ⟨{ s with
      ppRef := Function.update s.ppRef q (s.ppRef q - 1#16)
      ppLink := Function.update s.ppLink q s.pageFreeList
      pageFreeList := some q }, ?_, ⟨rfl, rfl, rfl, rfl, rfl⟩, ?_, ?_, ?_⟩
    · simp [Kern.pageDecref, hz, Kern.pageFree, hqlink]
    · intro p hp
      exact Function.update_of_ne hp ..
    · refine ⟨q :: free, hlink.push hqf, hdrop, ?_⟩
      intro p hp hpR hpf
      simp only [List.mem_cons, not_or] at hpf
      simp only [Function.update_of_ne hpf.1]
      exact hnone p hp hpR hpf.2
    · intro p hp
      simp only [Function.update_of_ne (hheld p hp)]
      exact h.held_ok p hp
  · rw [if_neg hz] at hdrop
    refine ⟨{ s with ppRef := Function.update s.ppRef q (s.ppRef q - 1#16) }, ?_,
      ⟨rfl, rfl, rfl, rfl, rfl⟩, ?_, ⟨free, hlink, hdrop, hnone⟩, ?_⟩
    · simp [Kern.pageDecref, hz]
    · intro p hp
      exact Function.update_of_ne hp ..
    · intro p hp
      simp only [Function.update_of_ne (hheld p hp)]
      exact h.held_ok p hp

/-- Counting a new reference from a place that had none. -/
theorem Accounts.incRef (h : Accounts R held s tar) (hk : tar k = none) {k' : Place}
    (hk' : tar k' = some p) : Accounts R held (s.incRef p) (Function.update tar k (some p)) := by
  obtain ⟨free, hlink, hled, hnone⟩ := h.pages
  have hown : Owned R held s p := hled.target_own k' p hk'
  refine ⟨⟨free, hlink, hled.add hown (hled.target_notMem hk') hk, hnone⟩, ?_⟩
  intro q hq
  have hne : q ≠ p := fun hqp => hown.2.2 (hqp ▸ hq)
  simp only [Kernel.incRef, Function.update_of_ne hne]
  exact h.held_ok q hq

/-- Counting the first reference to a page that was taken. -/
theorem Accounts.incRef_held (h : Accounts R (p :: held) s tar) (hp : p ∉ held)
    (hk : tar k = none) : Accounts R held (s.incRef p) (Function.update tar k (some p)) := by
  obtain ⟨free, hlink, hled, hnone⟩ := h.pages
  obtain ⟨hpn, hpR, hpref⟩ := h.held_ok p List.mem_cons_self
  refine ⟨⟨free, hlink, ?_, hnone⟩, ?_⟩
  · have hled' := (hled.congr (fun q => (owned_cons (q := q)).symm) fun _ _ => rfl).link (k := k) ⟨hpn, hpR, hp⟩ hk
    simp only [Kernel.incRef, hpref, BitVec.zero_add]
    exact hled'
  · intro q hq
    have hne : q ≠ p := fun hqp => hp (hqp ▸ hq)
    simp only [Kernel.incRef, Function.update_of_ne hne]
    exact h.held_ok q (List.mem_cons_of_mem _ hq)

/-! ## Page tables -/

/-- `pgdir_walk` follows a directory entry that `pgdir_walk` has made. -/
theorem pgdirWalk_of_entry (hn : s.npages ≤ 65536) (hent : s.entry d (pdx va) = tableEntry t)
    (htn : t < s.npages) (create : Bool) :
    pgdirWalk s d va create = some (s, some (entryAddr t (ptx va))) := by
  have hlt : t < 2 ^ 20 := by omega
  obtain ⟨_, haddr⟩ := pteAddr_of_target (entryTarget_tableEntry hlt) hlt
  simp only [pgdirWalk, hent, ne_eq, tableEntry_ne_zero, not_false_eq_true, if_true, haddr,
    kaddr_page2pa hn htn]
  rfl

/-- The first page of the free list, taken and cleared. -/
def takenPage (s : Kernel) (p : Nat) : Kernel := { s with
  pageFreeList := s.ppLink p
  ppLink := Function.update s.ppLink p none
  mem := s.mem.fill (4096 * p) 0 pgsize }

theorem pageAlloc_taken (hn : s.npages ≤ 65536) (hp : p < s.npages)
    (hfree : s.pageFreeList = some p) : pageAlloc s true = some (takenPage s p, some p) := by
  have hka : ({ s with
      pageFreeList := s.ppLink p
      ppLink := Function.update s.ppLink p none } : Kernel).kaddr (page2pa p) = some (4096 * p) :=
    kaddr_page2pa hn hp
  simp only [Kern.pageAlloc, hfree, if_true, hka]
  rfl

theorem entry_takenPage_of_ne {f i : Nat} (hf : f ≠ p) (hi : i < 1024) :
    (takenPage s p).entry f i = s.entry f i := by
  refine entry_congr hi fun x hx hx' => Mem.fill_of_disjoint _ 0 ?_
  simp only [pgsize]
  omega

/-- `pgdir_walk` makes a page table of the first free page. -/
theorem pgdirWalk_taken (hn : s.npages ≤ 65536) (hzero : s.entry d (pdx va) = 0#32)
    (hp : p < s.npages) (hfree : s.pageFreeList = some p) :
    pgdirWalk s d va true = some (((takenPage s p).incRef p).writePte (entryAddr d (pdx va)) (tableEntry p),
      some (entryAddr p (ptx va))) := by
  have hka : (((takenPage s p).incRef p).writePte (entryAddr d (pdx va)) (tableEntry p)).kaddr
      (page2pa p) = some (4096 * p) := kaddr_page2pa hn hp
  rw [tableEntry] at hka ⊢
  simp only [pgdirWalk, hzero, ne_eq, not_true_eq_false, if_false, if_true,
    pageAlloc_taken hn hp hfree, Option.bind_eq_bind, Option.bind_some, hka]
  rfl

theorem Shape.pgdirWalk_table (h : Shape R s) (hd : (s.envs e).envPgdir = some d)
    (hi : pdx va = i) (hj : ptx va = j) (ht : target s (.pde e i) = some t) (create : Bool) :
    pgdirWalk s d va create = some (s, some (entryAddr t j)) := by
  obtain ⟨hent, htn⟩ := h.pde_eq hd ht
  rw [← hi] at hent
  rw [← hj]
  exact pgdirWalk_of_entry h.npages_le hent htn create

/-- Without a page table the directory entry is zero. -/
theorem Shape.pde_zero (h : Shape R s) (hd : (s.envs e).envPgdir = some d)
    (ht : target s (.pde e i) = none) : s.entry d i = 0#32 := by
  rw [target_pde hd] at ht
  rcases h.dir_low e d i hd i.isLt with hz | ⟨t, htn, hent⟩
  · exact hz
  · rw [hent, entryTarget_tableEntry (h.lt_two_pow htn)] at ht
    cases ht

theorem Shape.pgdirWalk_none (h : Shape R s) (hd : (s.envs e).envPgdir = some d)
    (hi : pdx va = i) (ht : target s (.pde e i) = none) :
    pgdirWalk s d va false = some (s, none) := by
  simp [pgdirWalk, hi, h.pde_zero hd ht]

/-- Frame `f` is not used as a directory or page table. -/
def NoTable (s : Kernel) (f : Nat) : Prop := ∀ k : Place, k.isTable → target s k ≠ some f

/-- The contents of frame `f` are the same. -/
def SameFrame (s s' : Kernel) (f : Nat) : Prop :=
  ∀ x, 4096 * f ≤ x → x < 4096 * f + 4096 → s'.mem x = s.mem x

/-- What an operation on page tables leaves alone: environments, and the contents of every
frame that is no table before or after. -/
structure TablesOnly (s s' : Kernel) : Prop where
  npages : s'.npages = s.npages
  kern : s'.kernPgdir = s.kernPgdir
  envs : s'.envs = s.envs
  envFree : s'.envFreeList = s.envFreeList
  data : ∀ f, NoTable s f → NoTable s' f → SameFrame s s' f

theorem TablesOnly.refl (s : Kernel) : TablesOnly s s :=
  ⟨rfl, rfl, rfl, rfl, fun _ _ _ _ _ _ => rfl⟩

/-- `pgdir_walk` with `create` on a missing table: it fails only when no page is free, and
otherwise puts an empty table into the directory. -/
theorem PageInv.pgdirWalk_create (h : PageInv R held s) (hd : (s.envs e).envPgdir = some d)
    (hi : pdx va = i) (hj : ptx va = j) (ht : target s (.pde e i) = none) :
    (s.pageFreeList = none ∧ pgdirWalk s d va true = some (s, none)) ∨
      ∃ t s', pgdirWalk s d va true = some (s', some (entryAddr t j)) ∧ PageInv R held s' ∧
        target s' = Function.update (target s) (.pde e i) (some t) ∧ pteOf s' = pteOf s ∧
        TablesOnly s s' ∧ t ∉ held := by
  have hz := h.shape.pde_zero hd ht
  rcases h.pageAlloc true with ⟨hnone, hal⟩ | ⟨p, s1, hal, htk⟩
  · refine Or.inl ⟨hnone, ?_⟩
    simp only [pgdirWalk, hi, hz, ne_eq, not_true_eq_false, if_false, if_true, hal]
    rfl
  · right
    obtain ⟨hpn, hpR⟩ := htk.lt
    have htar1 : target s1 = target s := htk.same.target_eq
    have hs1 : Shape R s1 := htk.inv.shape
    have hd1 : (s1.envs e).envPgdir = some d := by rw [htk.envs, hd]
    have hdR : ¬ R d := (h.target_lt (k := .pgdir e) hd).2.1
    have hpn1 : p < s1.npages := by rw [htk.same.npages]; exact hpn
    have hfresh1 : ∀ k, target s1 k ≠ some p := by rw [htar1]; exact htk.fresh
    have hold : ∀ j, target s1 (.pte e i j) = none := by
      intro j
      rw [htar1]
      exact target_pte_of_none ht j
    have hold' : ∀ j, pteOf s1 (e, i, j) = 0#32 := by
      intro j
      rw [htk.same.pteOf_eq]
      exact pteOf_of_none ht j
    have hzero : ∀ j < nptentries, s1.entry p j = 0#32 := fun j hj => htk.entry_zero hj
    have htab : entryTarget (tableEntry p) = some p :=
      entryTarget_tableEntry (h.shape.lt_two_pow hpn)
    have hnew : ∀ t, entryTarget (tableEntry p) = some t →
        t ≠ d ∧ ∀ j < nptentries, s1.entry t j = 0#32 := by
      intro t ht'
      rw [htab] at ht'
      cases ht'
      refine ⟨?_, hzero⟩
      rintro rfl
      exact hfresh1 (.pgdir e) hd1
    -- the increment of the count commutes with the write of the entry
    have htarget := hs1.target_writePde hd1 i (tableEntry p) hold hnew
    rw [htab, htar1] at htarget
    have hpte := hs1.pteOf_writePde hd1 i (tableEntry p) hold' hnew
    rw [htk.same.pteOf_eq] at hpte
    have hshape := hs1.writePde hd1 hdR i (tableEntry p) hold
      (Or.inr ⟨p, hpn1, rfl, hzero, hfresh1⟩)
    have hsame : SameButPages (s1.writePte (entryAddr d i) (tableEntry p))
        ((s1.incRef p).writePte (entryAddr d i) (tableEntry p)) := ⟨rfl, rfl, rfl, rfl, rfl⟩
    refine ⟨p, (s1.incRef p).writePte (entryAddr d i) (tableEntry p), ?_, ⟨?_, ?_⟩, ?_, ?_, ?_,
      htk.notHeld⟩
    · have hka : ((s1.incRef p).writePte (entryAddr d i) (tableEntry p)).kaddr (page2pa p) =
          some (4096 * p) := kaddr_page2pa hs1.npages_le hpn1
      rw [tableEntry] at hka
      simp only [pgdirWalk, hi, hj, hz, ne_eq, not_true_eq_false, if_false, if_true, hal]
      simp only [Option.bind_eq_bind, Option.bind_some, hka]
      rfl
    · exact hsame.sameTables.shape hshape
    · rw [hsame.sameTables.target_eq (R := R), htarget]
      have hacc := htk.inv.accounts
      rw [htar1] at hacc
      have hinc := hacc.incRef_held htk.notHeld (k := .pde e i) ht
      exact ⟨hinc.pages, hinc.held_ok⟩
    · rw [hsame.sameTables.target_eq (R := R), htarget]
    · rw [hsame.sameTables.pteOf_eq (R := R), hpte]
    · refine ⟨htk.same.npages, htk.same.kern, htk.envs, htk.envFree, ?_⟩
      intro f hf hf' x hx hx'
      have hfd : f ≠ d := by
        rintro rfl
        exact hf (.pgdir e) rfl hd
      have hfp : f ≠ p := by
        rintro rfl
        refine hf' (.pde e i) rfl ?_
        rw [hsame.sameTables.target_eq (R := R), htarget, Function.update_self]
      have hil := pdxUtop_lt i.isLt
      rw [← htk.mem x (by omega)]
      refine Mem.write32_of_disjoint _ _ ?_
      simp only [entryAddr]
      omega

theorem pageLookup_of_entry (hn : s.npages ≤ 65536) (hent : s.entry d (pdx va) = tableEntry t)
    (htn : t < s.npages) (hq : entryTarget (s.entry t (ptx va)) = some q) (hqn : q < s.npages) :
    pageLookup s d va = some (some (q, entryAddr t (ptx va))) := by
  obtain ⟨hpres, haddr⟩ := pteAddr_of_target hq (show q < 2 ^ 20 by omega)
  rw [Kernel.entry] at hpres haddr
  simp only [pageLookup, pgdirWalk_of_entry hn hent htn, Option.bind_eq_bind, Option.bind_some,
    hpres, if_true, haddr, pa2page_page2pa hn hqn]

/-- `page_lookup` finds the page of a present entry. -/
theorem Shape.pageLookup_some (h : Shape R s) (hd : (s.envs e).envPgdir = some d)
    (hi : pdx va = i) (hj : ptx va = j) (hq : target s (.pte e i j) = some q)
    (hqn : q < s.npages) :
    ∃ t, target s (.pde e i) = some t ∧ isPresent (s.mem.read32 (entryAddr t j)) = true ∧
      pageLookup s d va = some (some (q, entryAddr t j)) := by
  obtain ⟨t, ht, hent⟩ := exists_pde_of_pte hq
  obtain ⟨hpde, htn⟩ := h.pde_eq hd ht
  obtain ⟨hpres, _⟩ := pteAddr_of_target hent (h.lt_two_pow hqn)
  refine ⟨t, ht, hpres, ?_⟩
  rw [← hi] at hpde
  rw [← hj] at hent ⊢
  exact pageLookup_of_entry h.npages_le hpde htn hent hqn

theorem not_isPresent_of_target (ht : target s (.pde e i) = some t)
    (hq : target s (.pte e i j) = none) : isPresent (s.mem.read32 (entryAddr t j)) = false := by
  rw [target_pte ht, entryTarget] at hq
  by_contra hne
  rw [if_pos (by simpa [Kernel.entry] using hne)] at hq
  cases hq

theorem Shape.pageLookup_none (h : Shape R s) (hd : (s.envs e).envPgdir = some d)
    (hi : pdx va = i) (hj : ptx va = j) (hq : target s (.pte e i j) = none) :
    pageLookup s d va = some none := by
  cases ht : target s (.pde e i) with
  | none => simp [pageLookup, h.pgdirWalk_none hd hi ht]
  | some t => simp [pageLookup, h.pgdirWalk_table hd hi hj ht, not_isPresent_of_target ht hq]

/-- Writing an entry of a page table touches only that table. -/
theorem tablesOnly_writePte (ht : target s (.pde e i) = some t) (w : BitVec 32) :
    TablesOnly s (s.writePte (entryAddr t j) w) := by
  refine ⟨rfl, rfl, rfl, rfl, ?_⟩
  intro f hf _ x hx hx'
  have hft : f ≠ t := by
    rintro rfl
    exact hf (.pde e i) rfl ht
  have hjl : j.val < 1024 := j.isLt
  refine Mem.write32_of_disjoint _ _ ?_
  simp only [entryAddr]
  omega

/-- `page_remove` clears one entry. -/
theorem PageInv.pageRemove (h : PageInv R held s) (hd : (s.envs e).envPgdir = some d)
    (hi : pdx va = i) (hj : ptx va = j) (hb : DropOk s (.pte e i j)) :
    ∃ s', pageRemove s d va = some s' ∧ PageInv R held s' ∧
      target s' = Function.update (target s) (.pte e i j) none ∧
      entryTarget (pteOf s' (e, i, j)) = none ∧
      (∀ k ≠ (e, i, j), pteOf s' k = pteOf s k) ∧ TablesOnly s s' ∧
      ∀ f, target s (.pde e i) ≠ some f → SameFrame s s' f := by
  cases hq : target s (.pte e i j) with
  | none =>
      refine ⟨s, ?_, h, ?_, ?_, fun _ _ => rfl, TablesOnly.refl s, fun _ _ _ _ _ => rfl⟩
      · simp [Kern.pageRemove, h.shape.pageLookup_none hd hi hj hq]
      · rw [← hq, Function.update_eq_self]
      · rw [← target_pte_eq, hq]
  | some q =>
      obtain ⟨t, ht, hpres, hlook⟩ :=
        h.shape.pageLookup_some hd hi hj hq (h.target_lt hq).1
      obtain ⟨s1, hdec, hsame, _, hacc⟩ := h.accounts.pageDecref hq (hb q hq)
      have hst : SameTables R s s1 := hsame.sameTables
      have hs1 := hst.shape h.shape
      have htar1 := hst.target_eq
      have ht1 : target s1 (.pde e i) = some t := by rw [htar1, ht]
      have htR : ¬ R t := (h.target_lt ht).2.1
      rw [← hsame.mem] at hpres
      have htarget := hs1.target_writePte ht1 j 0#32
      rw [htar1, entryTarget_zero] at htarget
      have hpte := hs1.pteOf_writePte ht1 j 0#32
      refine ⟨s1.writePte (entryAddr t j) 0#32, ?_, ⟨?_, ?_⟩, htarget, ?_, ?_, ?_, ?_⟩
      · simp [Kern.pageRemove, hlook, hdec, hpres]
      · exact hs1.writePte ht1 htR j 0#32 fun p hp => by cases hp
      · rw [htarget]
        exact ⟨hacc.pages, hacc.held_ok⟩
      · rw [hpte, Function.update_self, entryTarget_zero]
      · intro k hk
        rw [hpte, Function.update_of_ne hk, hst.pteOf_eq]
      · obtain ⟨h1, h2, h3, h4, h5⟩ := tablesOnly_writePte (j := j) ht1 0#32
        refine ⟨h1.trans hsame.npages, h2.trans hsame.kern, h3.trans hsame.envs,
          h4.trans hsame.envFree, ?_⟩
        intro f hf hf' x hx hx'
        rw [h5 f (by rwa [NoTable, htar1]) hf' x hx hx', hsame.mem]
      · intro f hf x hx hx'
        have hft : f ≠ t := by
          rintro rfl
          exact hf ht
        have hjl : j.val < 1024 := j.isLt
        rw [← hsame.mem]
        refine Mem.write32_of_disjoint _ _ ?_
        simp only [entryAddr]
        omega

/-! ## Inserting a page -/

theorem pageDecref_incRef_self (h : s.ppRef p ≠ 0#16) :
    Kern.pageDecref (s.incRef p) p = some s := by
  have hsub : s.ppRef p + 1#16 - 1#16 = s.ppRef p := by bv_omega
  simp [Kern.pageDecref, Kernel.incRef, hsub, h]

theorem pageDecref_incRef_of_ne (hne : q ≠ p) :
    Kern.pageDecref (s.incRef p) q = (Kern.pageDecref s q).map (·.incRef p) := by
  have hcomm : ∀ v, Function.update (Function.update s.ppRef p (s.ppRef p + 1#16)) q v =
      Function.update (Function.update s.ppRef q v) p (s.ppRef p + 1#16) := fun v =>
    Function.update_comm (Ne.symm hne) ..
  by_cases hz : s.ppRef q - 1#16 = 0#16
  · by_cases hl : s.ppLink q = none
    · simp [Kern.pageDecref, Kernel.incRef, hne, Ne.symm hne, hz, Kern.pageFree, hl, hcomm]
    · simp [Kern.pageDecref, Kernel.incRef, hne, hz, Kern.pageFree, hl]
  · simp [Kern.pageDecref, Kernel.incRef, hne, Ne.symm hne, hz, hcomm]

/-- `pp` may be inserted: it is a page some environment maps, or one just taken. -/
def Insertable (s : Kernel) (before : List Nat) (pp : Nat) (after : List Nat) : Prop :=
  (before = after ∧ ∃ k : Place, k.isTable = false ∧ target s k = some pp) ∨
    (before = pp :: after ∧ pp ∉ after)

theorem Insertable.lt {after : List Nat} (hpp : Insertable s held pp after)
    (h : PageInv R held s) : pp < s.npages := by
  rcases hpp with ⟨_, k, _, hk⟩ | ⟨rfl, _⟩
  · exact (h.target_lt hk).1
  · exact (h.accounts.held_ok pp List.mem_cons_self).1

/-- An insertable page is not used as a table. -/
theorem Insertable.not_table {after : List Nat} (hpp : Insertable s held pp after)
    (h : PageInv R held s) (hk : k.isTable) : target s k ≠ some pp := by
  intro hkp
  rcases hpp with ⟨_, k', hk', hkp'⟩ | ⟨rfl, _⟩
  · rw [← h.shape.table_unique k k' pp hk hkp hkp', hk'] at hk
    cases hk
  · exact (h.target_lt hkp).2.2 List.mem_cons_self

/-- Counting the reference from a place that refers to nothing. -/
theorem Insertable.incRef {after : List Nat} (hpp : Insertable s held pp after)
    (h : Accounts R held s' tar) (hk : tar k = none)
    (htar : ∀ k', target s k' = some pp → tar k' = some pp) :
    Accounts R after (s'.incRef pp) (Function.update tar k (some pp)) := by
  rcases hpp with ⟨rfl, k', _, hkp'⟩ | ⟨rfl, hnot⟩
  · exact h.incRef hk (htar k' hkp')
  · exact h.incRef_held hnot hk

/-- The effect of `page_insert` once there is a page table: exactly one entry changes. -/
theorem PageInv.insertEntry {after : List Nat} (h : PageInv R held s)
    (hpp : Insertable s held pp after) (hd : (s.envs e).envPgdir = some d)
    (hi : pdx va = i) (hj : ptx va = j) (ht : target s (.pde e i) = some t)
    (hperm : perm.toNat < 4096) (hb : DropOk s (.pte e i j)) :
    ∃ s', insertEntry s d pp va perm (entryAddr t j) = some s' ∧ PageInv R after s' ∧
      target s' = Function.update (target s) (.pte e i j) (some pp) ∧
      pteOf s' = Function.update (pteOf s) (e, i, j) (page2pa pp ||| perm ||| pteP) ∧
      TablesOnly s s' := by
  have hppn := hpp.lt h
  have htR : ¬ R t := (h.target_lt ht).2.1
  have hw : entryTarget (page2pa pp ||| perm ||| pteP) = some pp :=
    entryTarget_insert (h.shape.lt_two_pow hppn) hperm
  -- it suffices to account for the references before the final write of the entry
  have hfinish : ∀ s1 : Kernel, SameButPages s s1 →
      Accounts R after s1 (Function.update (target s) (.pte e i j) (some pp)) →
      Kern.insertEntry s d pp va perm (entryAddr t j) =
        some (s1.writePte (entryAddr t j) (page2pa pp ||| perm ||| pteP)) →
      ∃ s', Kern.insertEntry s d pp va perm (entryAddr t j) = some s' ∧ PageInv R after s' ∧
        target s' = Function.update (target s) (.pte e i j) (some pp) ∧
        pteOf s' = Function.update (pteOf s) (e, i, j) (page2pa pp ||| perm ||| pteP) ∧
        TablesOnly s s' := by
    intro s1 hsame hacc heq
    have hst : SameTables R s s1 := hsame.sameTables
    have hs1 := hst.shape h.shape
    have ht1 : target s1 (.pde e i) = some t := by rw [hst.target_eq, ht]
    have htarget := hs1.target_writePte ht1 j (page2pa pp ||| perm ||| pteP)
    rw [hst.target_eq, hw] at htarget
    refine ⟨_, heq, ?_, htarget, ?_, ?_⟩
    · refine ⟨hs1.writePte ht1 htR j _ ?_, ?_⟩
      · intro p hp k hk
        rw [hw] at hp
        cases hp
        rw [hst.target_eq]
        exact hpp.not_table h hk
      · rw [htarget]
        exact ⟨hacc.pages, hacc.held_ok⟩
    · rw [hs1.pteOf_writePte ht1, hst.pteOf_eq]
    · obtain ⟨h1, h2, h3, h4, h5⟩ :=
        tablesOnly_writePte (j := j) ht1 (page2pa pp ||| perm ||| pteP)
      refine ⟨h1.trans hsame.npages, h2.trans hsame.kern, h3.trans hsame.envs,
        h4.trans hsame.envFree, ?_⟩
      intro f hf hf' x hx hx'
      rw [h5 f (by rwa [NoTable, hst.target_eq]) hf' x hx hx', hsame.mem]
  have hsame0 := sameButPages_incRef s pp
  cases hq : target s (.pte e i j) with
  | none =>
      refine hfinish (s.incRef pp) hsame0 (hpp.incRef h.accounts hq fun _ hk => hk) ?_
      have hpres : isPresent ((s.incRef pp).mem.read32 (entryAddr t j)) = false :=
        not_isPresent_of_target ht hq
      simp [Kern.insertEntry, hpres]
  | some q =>
      have hqn := (h.target_lt hq).1
      -- the lookup in `page_remove` does not see the incremented count
      obtain ⟨t', ht', hpres, hlook⟩ :=
        (hsame0.sameTables.shape h.shape).pageLookup_some (s := s.incRef pp)
          hd hi hj (by rw [hsame0.sameTables.target_eq (R := R), hq]) hqn
      rw [hsame0.sameTables.target_eq (R := R), ht] at ht'
      cases ht'
      by_cases hqp : q = pp
      · subst hqp
        have href : s.ppRef q ≠ 0#16 := by
          obtain ⟨free, _, hled, _⟩ := h.accounts.pages
          have hpos := refCount_pos.mpr ⟨_, hq⟩
          rw [← hled.toNat_ref (hled.target_own _ q hq) (hb q hq)] at hpos
          intro hz
          rw [hz] at hpos
          exact absurd hpos (by decide)
        have hmapped : held = after := by
          rcases hpp with ⟨rfl, _⟩ | ⟨rfl, _⟩
          · rfl
          · exact absurd List.mem_cons_self (h.target_lt hq).2.2
        subst hmapped
        refine hfinish s ⟨rfl, rfl, rfl, rfl, rfl⟩ ?_ ?_
        · rw [← hq, Function.update_eq_self]
          exact h.accounts
        · have hpres' : isPresent (s.mem.read32 (entryAddr t j)) = true := hpres
          simp [Kern.insertEntry, hpres, Kern.pageRemove, hlook, pageDecref_incRef_self href,
            hpres', Kernel.writePte, Mem.write32_write32]
      · obtain ⟨s1, hdec, hsame, _, hacc⟩ := h.accounts.pageDecref hq (hb q hq)
        have hsame1 : SameButPages s (s1.incRef pp) :=
          ⟨hsame.npages, hsame.mem, hsame.kern, hsame.envs, hsame.envFree⟩
        refine hfinish (s1.incRef pp) hsame1 ?_ ?_
        · have hupd : Function.update (Function.update (target s) (.pte e i j) none)
              (.pte e i j) (some pp) = Function.update (target s) (.pte e i j) (some pp) :=
            Function.update_idem ..
          rw [← hupd]
          refine hpp.incRef hacc (Function.update_self ..) ?_
          intro k' hk'
          rw [Function.update_of_ne, hk']
          rintro rfl
          rw [hq] at hk'
          exact hqp (Option.some.inj hk')
        · have hpres' : isPresent ((s1.incRef pp).mem.read32 (entryAddr t j)) = true := by
            rw [hsame1.mem]
            exact hpres
          simp [Kern.insertEntry, hpres, Kern.pageRemove, hlook, pageDecref_incRef_of_ne hqp, hdec,
            hpres', Kernel.writePte, Mem.write32_write32]

theorem TablesOnly.trans {s'' : Kernel} (h : TablesOnly s s') (h' : TablesOnly s' s'')
    (htab : ∀ f, NoTable s f → NoTable s'' f → NoTable s' f) : TablesOnly s s'' where
  npages := h'.npages.trans h.npages
  kern := h'.kern.trans h.kern
  envs := h'.envs.trans h.envs
  envFree := h'.envFree.trans h.envFree
  data f hf hf'' x hx hx' := by
    have hf' := htab f hf hf''
    rw [h'.data f hf' hf'' x hx hx', h.data f hf hf' x hx hx']

/-- The result of inserting page `pp` with entry `w`: exactly one entry changes. -/
structure Inserted (R : Nat → Prop) (after : List Nat) (s : Kernel) (k : Slot) (pp : Nat)
    (w : BitVec 32) (s' : Kernel) : Prop where
  inv : PageInv R after s'
  pte : pteOf s' = Function.update (pteOf s) k w
  pde : ∀ e i, e ≠ k.1 → target s' (.pde e i) = target s (.pde e i)
  target_eq : entryTarget w = some pp
  tables : TablesOnly s s'
  count_le : ∀ p, refCount (target s') p ≤ refCount (target s) p + 2

/-- `page_insert` fails only when it needs a page table and no page is free, and then
changes nothing. -/
theorem PageInv.pageInsert {after : List Nat} (h : PageInv R held s) (perm : BitVec 32)
    (hpp : Insertable s held pp after) (hd : (s.envs e).envPgdir = some d)
    (hi : pdx va = i) (hj : ptx va = j) (hperm : perm.toNat < 4096)
    (hb : DropOk s (.pte e i j)) :
    (s.pageFreeList = none ∧ pageInsert s d pp va perm = some (s, -eNoMem)) ∨
      ∃ s', pageInsert s d pp va perm = some (s', 0) ∧
        Inserted R after s (e, i, j) pp (page2pa pp ||| perm ||| pteP) s' := by
  have hw : entryTarget (page2pa pp ||| perm ||| pteP) = some pp :=
    entryTarget_insert (h.shape.lt_two_pow (hpp.lt h)) hperm
  cases ht : target s (.pde e i) with
  | some t =>
      right
      obtain ⟨s', hins, hinv, htar, hpte, htab⟩ := h.insertEntry hpp hd hi hj ht hperm hb
      have hle : ∀ p, refCount (target s') p ≤ refCount (target s) p + 2 := by
        intro p
        rw [htar]
        exact Nat.le_succ_of_le (refCount_update_le ..)
      have hpde : ∀ e' i', e' ≠ e → target s' (.pde e' i') = target s (.pde e' i') := by
        intro e' i' _
        rw [htar, Function.update_of_ne (by simp)]
      refine ⟨s', ?_, hinv, hpte, hpde, hw, htab, hle⟩
      simp only [Kern.pageInsert, h.shape.pgdirWalk_table hd hi hj ht, Option.bind_eq_bind,
        Option.bind_some, hins]
  | none =>
      rcases h.pgdirWalk_create hd hi hj ht with ⟨hfree, hwalk⟩ | ⟨t, s1, hwalk, h1, htar1, hpte1, htab1, hheld⟩
      · refine Or.inl ⟨hfree, ?_⟩
        simp only [Kern.pageInsert, hwalk, Option.bind_eq_bind, Option.bind_some]
      · right
        have hpp1 : Insertable s1 held pp after := by
          rcases hpp with ⟨hbefore, k, hk, hkp⟩ | ⟨hbefore, hnot⟩
          · refine Or.inl ⟨hbefore, k, hk, ?_⟩
            rw [htar1, Function.update_of_ne, hkp]
            rintro rfl
            cases hk
          · exact Or.inr ⟨hbefore, hnot⟩
        have hd1 : (s1.envs e).envPgdir = some d := by rw [htab1.envs, hd]
        have ht1 : target s1 (.pde e i) = some t := by rw [htar1, Function.update_self]
        -- the new table is empty
        have hb1 : DropOk s1 (.pte e i j) := by
          intro q hq
          rw [htar1, Function.update_of_ne (by simp), target_pte_of_none ht] at hq
          cases hq
        obtain ⟨s2, hins, hinv, htar2, hpte2, htab2⟩ :=
          h1.insertEntry hpp1 hd1 hi hj ht1 hperm hb1
        have hpde : ∀ e' i', e' ≠ e → target s2 (.pde e' i') = target s (.pde e' i') := by
          intro e' i' hne
          rw [htar2, Function.update_of_ne (by simp), htar1, Function.update_of_ne (by simp [hne])]
        refine ⟨s2, ?_, hinv, ?_, hpde, hw, ?_, ?_⟩
        · simp only [Kern.pageInsert, hwalk, Option.bind_eq_bind, Option.bind_some, hins]
        · rw [hpte2, hpte1]
        · refine htab1.trans htab2 fun f _ hf k hk => ?_
          have hk2 : target s2 k = target s1 k := by
            rw [htar2, Function.update_of_ne]
            rintro rfl
            cases hk
          exact hk2 ▸ hf k hk
        · intro p
          rw [htar2, htar1]
          exact Nat.le_trans (refCount_update_le ..)
            (Nat.succ_le_succ (refCount_update_le (target s) _ _ p))

end

end Jos.Kern
