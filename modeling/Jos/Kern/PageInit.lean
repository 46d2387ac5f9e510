import Jos.Kern.Machine
import Jos.Lib.Loop
import Mathlib.Data.List.Basic

/-!
# The boot free list

`i386_detect_memory`, `boot_alloc` and `page_init` of `kern/pmap.c`. The loop of `page_init` threads the free
list through `pages` while it fills it. Four range tests decide about a frame; none of them looks at
`npages_basemem`, so the frames between the end of base memory and the IO hole are listed too.

Main results:
* `page_init_usable_iff`: when the list has exactly the usable frames;
* `page_init_lists_past_basemem`: a frame too many.
-/

namespace Jos.Kern

open Jos.Lib Kernel

def iophysmem : Nat := 0x0A0000
def extphysmem : Nat := 0x100000
def mpentryPaddr : Nat := 0x7000

/-- `PADDR`: panics below `KERNBASE`. -/
def paddr (kva : BitVec 32) : Option (BitVec 32) :=
  if kva < kernbase then none else some (kva - kernbase)

/-- The state of `mem_init` before the page allocator is set up. -/
structure Boot where
  kernel : Kernel
  npagesBasemem : Nat
  /-- The static variable of `boot_alloc`, null before the first call. -/
  nextfree : BitVec 32

/-! ## Detecting memory -/

def nvramBaselo : Nat := 0x15
def nvramExtlo : Nat := 0x17
def nvramExt16lo : Nat := 0x34

/-- `nvram_read`, with the bytes of the clock chip as a function. -/
def nvramRead (mc146818Read : Nat → BitVec 8) (r : Nat) : Nat :=
  (mc146818Read r).toNat ||| (mc146818Read (r + 1)).toNat <<< 8

/-- `i386_detect_memory`: the values of `npages` and `npages_basemem`. -/
def i386DetectMemory (mc146818Read : Nat → BitVec 8) : Nat × Nat :=
  let basemem := nvramRead mc146818Read nvramBaselo
  let extmem := nvramRead mc146818Read nvramExtlo
  let ext16mem := nvramRead mc146818Read nvramExt16lo * 64
  let totalmem :=
    if ext16mem ≠ 0 then 16 * 1024 + ext16mem
    else if extmem ≠ 0 then 1 * 1024 + extmem
    else basemem
  (totalmem / (pgsize / 1024), basemem / (pgsize / 1024))

/-! ## `boot_alloc` and `page_init` -/

/-- `boot_alloc`: the address returned. `kend` is the address of the linker's symbol `end`. -/
def bootAlloc (kend : BitVec 32) (b : Boot) (n : BitVec 32) : Option (BitVec 32 × Boot) :=
  let b := if b.nextfree = 0#32 then { b with nextfree := roundUp kend } else b
  if n = 0#32 then some (b.nextfree, b)
  else do
    let result := b.nextfree
    let b := { b with nextfree := roundUp (b.nextfree + n) }
    let pa ← paddr b.nextfree
    if b.kernel.npages ≤ pgnum pa then none else some (result, b)

/-- Fill in `pages[i]`; a frame that is not in use becomes the first of the free list. -/
def Kernel.setFrame (s : Kernel) (i : Nat) (pageInUse : Bool) : Kernel := { s with
  ppRef := Function.update s.ppRef i (if pageInUse then 1#16 else 0#16)
  ppLink := Function.update s.ppLink i (if pageInUse then none else s.pageFreeList)
  pageFreeList := if pageInUse then s.pageFreeList else some i }

/-- One iteration of the loop of `page_init`. -/
def pageInitStep (kend : BitVec 32) (b : Boot) (i : Nat) : Option Boot := do
  let zero := decide (i = 0)
  let io := decide (iophysmem / pgsize ≤ i ∧ i < extphysmem / pgsize)
  -- `boot_alloc` is only called where the first half of the test holds
  let (kern, b) ←
    if extphysmem / pgsize ≤ i then do
      let (kva, b) ← bootAlloc kend b 0#32
      let pa ← paddr kva
      some (decide (i < pa.toNat / pgsize), b)
    else some (false, b)
  let mp := decide (i = 7)
  some { b with kernel := b.kernel.setFrame i (zero || io || kern || mp) }

/-- `page_init` -/
def pageInit (kend : BitVec 32) (b : Boot) : Option Boot :=
  (List.range b.kernel.npages).foldlM (pageInitStep kend) b

/-! ## What the loop leaves -/

/-- The address that `boot_alloc(0)` returns. -/
def firstFree (kend : BitVec 32) (b : Boot) : BitVec 32 :=
  if b.nextfree = 0#32 then roundUp kend else b.nextfree

/-- The four tests of the loop, for the physical address `pa` of the first free page. -/
def pageInUse (pa : BitVec 32) (i : Nat) : Bool :=
  decide (i = 0) || decide (iophysmem / pgsize ≤ i ∧ i < extphysmem / pgsize) ||
    decide (extphysmem / pgsize ≤ i ∧ i < pa.toNat / pgsize) || decide (i = 7)

/-- The frames below `n` that pass none of the tests, the last one first. -/
def bootList (pa : BitVec 32) (n : Nat) : List Nat :=
  ((List.range n).filter fun i => !pageInUse pa i).reverse

section

variable {kend kva pa : BitVec 32} {b b' s : Boot} {i k n : Nat}

theorem bootAlloc_zero (kend : BitVec 32) (b : Boot) : bootAlloc kend b 0#32 =
    some (firstFree kend b, { b with nextfree := firstFree kend b }) := by
  unfold bootAlloc firstFree
  by_cases h : b.nextfree = 0#32
  · simp [h]
  · simp [h]

theorem mem_bootList : i ∈ bootList pa n ↔ i < n ∧ pageInUse pa i = false := by
  simp [bootList]

theorem bootList_succ : bootList pa (n + 1) =
    if pageInUse pa n then bootList pa n else n :: bootList pa n := by
  rw [bootList, List.range_succ, List.filter_append, List.reverse_append]
  by_cases h : pageInUse pa n = true
  · simp [h, bootList]
  · simp [h, bootList]

/-- The records of the first `k` frames are filled in, and `l` is the free list. -/
structure Threaded (k : Nat) (l : List Nat) (s : Kernel) : Prop where
  linked : Linked s.ppLink s.pageFreeList l
  nodup : l.Nodup
  below : ∀ p ∈ l, p < k
  refs : ∀ p < k, s.ppRef p = if p ∈ l then 0#16 else 1#16
  unlinked : ∀ p < k, p ∉ l → s.ppLink p = none

theorem Threaded.zero {s : Kernel} (h : s.pageFreeList = none) : Threaded 0 [] s where
  linked := h
  nodup := List.nodup_nil
  below _ hp := absurd hp List.not_mem_nil
  refs _ hp := absurd hp (Nat.not_lt_zero _)
  unlinked _ hp := absurd hp (Nat.not_lt_zero _)

theorem Threaded.inUse {s : Kernel} {l : List Nat} (h : Threaded k l s) :
    Threaded (k + 1) l (s.setFrame k true) := by
  have hnew : k ∉ l := fun hk => Nat.lt_irrefl k (h.below k hk)
  refine ⟨h.linked.update_of_notMem hnew, h.nodup, fun p hp => Nat.lt_succ_of_lt (h.below p hp), ?_, ?_⟩
  · intro p hp
    rcases Nat.lt_succ_iff_lt_or_eq.mp hp with hlt | rfl
    · rw [← h.refs p hlt]
      exact Function.update_of_ne (Nat.ne_of_lt hlt) _ _
    · rw [if_neg hnew]
      exact Function.update_self _ _ _
  · intro p hp hnot
    rcases Nat.lt_succ_iff_lt_or_eq.mp hp with hlt | rfl
    · rw [← h.unlinked p hlt hnot]
      exact Function.update_of_ne (Nat.ne_of_lt hlt) _ _
    · exact Function.update_self _ _ _

theorem Threaded.free {s : Kernel} {l : List Nat} (h : Threaded k l s) :
    Threaded (k + 1) (k :: l) (s.setFrame k false) := by
  have hnew : k ∉ l := fun hk => Nat.lt_irrefl k (h.below k hk)
  refine ⟨h.linked.push hnew, List.nodup_cons.mpr ⟨hnew, h.nodup⟩, ?_, ?_, ?_⟩
  · intro p hp
    rcases List.mem_cons.mp hp with rfl | hmem
    · exact Nat.lt_succ_self p
    · exact Nat.lt_succ_of_lt (h.below p hmem)
  · intro p hp
    rcases Nat.lt_succ_iff_lt_or_eq.mp hp with hlt | rfl
    · simp only [List.mem_cons, Nat.ne_of_lt hlt, false_or]
      rw [← h.refs p hlt]
      exact Function.update_of_ne (Nat.ne_of_lt hlt) _ _
    · rw [if_pos List.mem_cons_self]
      exact Function.update_self _ _ _
  · intro p hp hnot
    rw [List.mem_cons, not_or] at hnot
    rw [← h.unlinked p (Nat.lt_of_le_of_ne (Nat.le_of_lt_succ hp) hnot.1) hnot.2]
    exact Function.update_of_ne hnot.1 _ _

/-- The state after `k` iterations. -/
structure Filled (kend pa : BitVec 32) (n k : Nat) (b : Boot) : Prop where
  first : paddr (firstFree kend b) = some pa
  npages : b.kernel.npages = n
  threaded : Threaded k (bootList pa k) b.kernel

theorem firstFree_nextfree : firstFree kend { b with nextfree := firstFree kend b } = firstFree kend b := by
  unfold firstFree
  by_cases h : b.nextfree = 0#32
  · simp [h]
  · simp [h]

/-- What an iteration does, with the call of `boot_alloc` carried out. -/
theorem pageInitStep_eq (h : paddr (firstFree kend b) = some pa) : ∃ nextfree,
    firstFree kend { b with nextfree := nextfree } = firstFree kend b ∧ pageInitStep kend b i =
      some { b with nextfree := nextfree, kernel := b.kernel.setFrame i (pageInUse pa i) } := by
  by_cases hi : extphysmem / pgsize ≤ i
  · refine ⟨firstFree kend b, firstFree_nextfree, ?_⟩
    unfold pageInitStep pageInUse
    simp only [hi, if_true, bootAlloc_zero, Option.bind_eq_bind, Option.bind_some, h, true_and]
  · refine ⟨b.nextfree, rfl, ?_⟩
    unfold pageInitStep pageInUse
    simp only [hi, if_false, Option.bind_eq_bind, Option.bind_some, false_and, decide_false]

theorem Filled.step (h : Filled kend pa n k b) :
    ∃ b', pageInitStep kend b k = some b' ∧ Filled kend pa n (k + 1) b' := by
  obtain ⟨nextfree, hfirst, heq⟩ := pageInitStep_eq (i := k) h.first
  refine ⟨_, heq, ?_, h.npages, ?_⟩
  · exact (congrArg paddr hfirst).trans h.first
  · rw [bootList_succ]
    cases pageInUse pa k
    · exact h.threaded.free
    · exact h.threaded.inUse

/-- `page_init` does not panic once `boot_alloc(0)` has a physical address. -/
theorem pageInit_filled (hfree : b.kernel.pageFreeList = none)
    (hpa : paddr (firstFree kend b) = some pa) :
    ∃ b', pageInit kend b = some b' ∧ Filled kend pa b.kernel.npages b.kernel.npages b' := by
  apply foldlM_range_inv (fun k => Filled kend pa b.kernel.npages k)
  · exact ⟨hpa, rfl, Threaded.zero hfree⟩
  · intro i _ s hs
    exact hs.step

/-- An iteration that does not panic fills in one frame. -/
theorem pageInitStep_cases (h : pageInitStep kend b i = some b') :
    ∃ pageInUse, b'.kernel = b.kernel.setFrame i pageInUse := by
  unfold pageInitStep at h
  by_cases hi : extphysmem / pgsize ≤ i
  · simp only [hi, if_true, bootAlloc_zero, Option.bind_eq_bind, Option.bind_some,
      Option.bind_eq_some_iff] at h
    obtain ⟨pa, _, h⟩ := h
    cases h
    exact ⟨_, rfl⟩
  · simp only [hi, if_false, Option.bind_eq_bind, Option.bind_some] at h
    cases h
    exact ⟨_, rfl⟩

/-- Whenever `page_init` ends, it has filled in all frames. -/
theorem pageInit_threaded (hfree : b.kernel.pageFreeList = none) (h : pageInit kend b = some b') :
    b'.kernel.npages = b.kernel.npages ∧ ∃ l, Threaded b.kernel.npages l b'.kernel := by
  apply foldlM_range_of_some (fun k b' => b'.kernel.npages = b.kernel.npages ∧ ∃ l, Threaded k l b'.kernel) h
  · exact ⟨rfl, [], Threaded.zero hfree⟩
  · rintro i _ s s' hstep ⟨hn, l, hl⟩
    obtain ⟨pageInUse, hs'⟩ := pageInitStep_cases hstep
    rw [hs']
    refine ⟨hn, ?_⟩
    cases pageInUse
    · exact ⟨i :: l, hl.free⟩
    · exact ⟨l, hl.inUse⟩

end

/-! ## The usable frames -/

/-- Base memory without the first frame and without the frame of the entry code of the other processors, and
what follows the kernel, which ends at physical address `pa`. -/
def UsableFrame (basemem : Nat) (pa : BitVec 32) (i : Nat) : Prop :=
  (1 ≤ i ∧ i < basemem ∧ i ≠ mpentryPaddr / pgsize) ∨ pa.toNat / pgsize ≤ i

/-- The free list consists of the usable frames, and the records of all frames agree with it. -/
structure ListsUsable (basemem : Nat) (pa : BitVec 32) (s : Kernel) : Prop where
  list : ∃ l, Linked s.ppLink s.pageFreeList l ∧ l.Nodup ∧
    ∀ i, i ∈ l ↔ i < s.npages ∧ UsableFrame basemem pa i
  refs : ∀ i < s.npages, s.ppRef i = 0#16 ↔ UsableFrame basemem pa i
  others : ∀ i < s.npages, ¬ UsableFrame basemem pa i → s.ppRef i = 1#16 ∧ s.ppLink i = none

section

variable {kend kva pa : BitVec 32} {b b1 : Boot} {s : Kernel} {n i : Nat}

/-- With base memory up to the IO hole the four tests leave exactly the usable frames. -/
theorem pageInUse_eq_false (habove : extphysmem ≤ pa.toNat) :
    pageInUse pa i = false ↔ UsableFrame (iophysmem / pgsize) pa i := by
  unfold pageInUse UsableFrame
  unfold extphysmem at habove
  simp only [Bool.or_eq_false_iff, decide_eq_false_iff_not]
  simp only [iophysmem, extphysmem, mpentryPaddr, pgsize]
  omega

theorem Filled.lists (h : Filled kend pa n n b) (habove : extphysmem ≤ pa.toNat) :
    ListsUsable (iophysmem / pgsize) pa b.kernel := by
  have hmem : ∀ i, i ∈ bootList pa n ↔ i < n ∧ UsableFrame (iophysmem / pgsize) pa i := by
    intro i
    rw [mem_bootList, pageInUse_eq_false habove]
  have ht := h.threaded
  refine ⟨⟨bootList pa n, ht.linked, ht.nodup, ?_⟩, ?_, ?_⟩
  · intro i
    rw [h.npages]
    exact hmem i
  · intro i hi
    rw [h.npages] at hi
    rw [ht.refs i hi]
    by_cases hu : UsableFrame (iophysmem / pgsize) pa i
    · rw [if_pos ((hmem i).mpr ⟨hi, hu⟩)]
      exact iff_of_true rfl hu
    · rw [if_neg fun hin => hu ((hmem i).mp hin).2]
      exact iff_of_false (by decide) hu
  · intro i hi hnot
    rw [h.npages] at hi
    have hout : i ∉ bootList pa n := fun hin => hnot ((hmem i).mp hin).2
    refine ⟨?_, ht.unlinked i hi hout⟩
    rw [ht.refs i hi, if_neg hout]

/-- The frame before the IO hole is listed, whatever the size of base memory. -/
theorem Filled.listed (h : Filled kend pa n n b) (habove : extphysmem ≤ pa.toNat)
    (hin : pa.toNat ≤ pgsize * n) : ∃ l, Linked b.kernel.ppLink b.kernel.pageFreeList l ∧ 159 ∈ l := by
  refine ⟨bootList pa n, h.threaded.linked, mem_bootList.mpr ⟨?_, ?_⟩⟩
  · simp only [extphysmem, pgsize] at habove hin
    omega
  · rw [pageInUse_eq_false habove]
    exact Or.inl (by decide)

/-- A shorter base memory contradicts that. -/
theorem ListsUsable.basemem_le (h : ListsUsable n pa s) (habove : extphysmem ≤ pa.toNat)
    (hl : ∃ l, Linked s.ppLink s.pageFreeList l ∧ 159 ∈ l) : iophysmem / pgsize ≤ n := by
  obtain ⟨l, hlink, hmem⟩ := hl
  obtain ⟨l', hlink', _, hiff⟩ := h.list
  rw [hlink.unique hlink'] at hmem
  have huse := ((hiff 159).mp hmem).2
  unfold UsableFrame at huse
  simp only [extphysmem, pgsize, iophysmem] at habove huse ⊢
  omega

/-- `page_init` lists exactly the usable frames if and only if base memory reaches up to the IO hole. -/
theorem page_init_usable_iff (hfree : b.kernel.pageFreeList = none)
    (hbase : b.npagesBasemem ≤ iophysmem / pgsize)
    (halloc : bootAlloc kend b 0#32 = some (kva, b1)) (hpa : paddr kva = some pa)
    (habove : extphysmem ≤ pa.toNat) (hin : pa.toNat ≤ pgsize * b.kernel.npages) :
    ∃ b', pageInit kend b = some b' ∧ (ListsUsable b.npagesBasemem pa b'.kernel ↔
      b.npagesBasemem = iophysmem / pgsize) := by
  rw [bootAlloc_zero] at halloc
  obtain ⟨rfl, _⟩ := Prod.mk.inj (Option.some.inj halloc)
  obtain ⟨b', hb', hfilled⟩ := pageInit_filled hfree hpa
  refine ⟨b', hb', ?_, ?_⟩
  · intro h
    exact Nat.le_antisymm hbase (h.basemem_le habove (hfilled.listed habove hin))
  · intro h
    rw [h]
    exact hfilled.lists habove

end

/-! ## A machine with 639K of base memory -/

/-- A clock chip that reports `lo + 256 * hi` kilobytes of base memory and 64 megabytes in all. -/
def cmos (lo hi : BitVec 8) (r : Nat) : BitVec 8 :=
  if r = nvramBaselo then lo else if r = nvramBaselo + 1 then hi
  else if r = nvramExt16lo + 1 then 3#8 else 0#8

/-- `mem_init` before the call of `page_init`: `boot_alloc` has handed out the memory below 0x180000. -/
def bootMachine (mc146818Read : Nat → BitVec 8) : Boot where
  kernel := { small with
    npages := (i386DetectMemory mc146818Read).1
    ppRef := fun _ => 0#16
    ppLink := fun _ => none
    pageFreeList := none }
  npagesBasemem := (i386DetectMemory mc146818Read).2
  nextfree := 0xF0180000#32

/-- With 640K the condition of the theorem holds. -/
theorem page_init_usable_iff_640 : ∃ b', pageInit 0xF0112000#32 (bootMachine (cmos 0x80#8 2#8)) = some b' ∧
    (ListsUsable 160 0x180000#32 b'.kernel ↔ 160 = iophysmem / pgsize) := by
  have halloc : bootAlloc 0xF0112000#32 (bootMachine (cmos 0x80#8 2#8)) 0#32 =
      some (0xF0180000#32, bootMachine (cmos 0x80#8 2#8)) := rfl
  have hpa : paddr 0xF0180000#32 = some 0x180000#32 := by decide
  exact page_init_usable_iff rfl (by decide) halloc hpa (by decide) (by decide)

/-- With 639K frame 159 is not base memory, and it is on the free list. -/
theorem page_init_lists_past_basemem : i386DetectMemory (cmos 0x7F#8 2#8) = (16384, 159) ∧
    bootAlloc 0xF0112000#32 (bootMachine (cmos 0x7F#8 2#8)) 0#32 =
      some (0xF0180000#32, bootMachine (cmos 0x7F#8 2#8)) ∧
    paddr 0xF0180000#32 = some 0x180000#32 ∧
    ∃ b', pageInit 0xF0112000#32 (bootMachine (cmos 0x7F#8 2#8)) = some b' ∧
      (∃ l, Linked b'.kernel.ppLink b'.kernel.pageFreeList l ∧ 159 ∈ l) ∧
      ¬ ListsUsable 159 0x180000#32 b'.kernel := by
  refine ⟨by decide, rfl, by decide, ?_⟩
  have hpa : paddr (firstFree 0xF0112000#32 (bootMachine (cmos 0x7F#8 2#8))) = some 0x180000#32 := by decide
  obtain ⟨b', hb', hfilled⟩ := pageInit_filled rfl hpa
  have hlisted := hfilled.listed (by decide) (by decide)
  refine ⟨b', hb', hlisted, ?_⟩
  intro h
  have hle := h.basemem_le (by decide) hlisted
  exact absurd hle (by decide)

end Jos.Kern
