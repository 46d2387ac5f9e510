import Jos.Kern.Machine
import Mathlib.Data.Finset.Card

/-!
# Small and large pages

`boot_map_region` of `kern/pmap.c`, compiled with `TP1_PSE` and without. Large pages are used while the rest
of the region is long enough, if the start of the region is aligned in both address spaces; what is left is
mapped with small pages. `pgdir_walk` follows every directory entry that is not zero. Where the directory is
its own page table, as at `UVPT`, the new entries are seen as well.

Main results:
* `boot_map_region_same`: the translations are the same with and without large pages;
* `boot_map_region_differs`: why the directory has to be empty there.
-/

namespace Jos.Kern

open Jos.Lib Kernel

/-- `PTSIZE` -/
def ptsize : BitVec 32 := 0x400000#32

/-- `PTE_PS` -/
def ptePs : BitVec 32 := 0x080#32

def hasFlag (w m : BitVec 32) : Bool := w &&& m != 0#32

/-! ## The translation of the processor -/

/-- The physical address of a linear address, and the rights. -/
structure Translation where
  phys : Nat
  write : Bool
  user : Bool
deriving DecidableEq, Repr

section

variable (s : Kernel) (pgdir : Nat)

/-- The translation with pages of both sizes; `none` is a page fault. -/
def translate (x : BitVec 32) : Option Translation :=
  let pde := s.entry pgdir (pdx x)
  if isPresent pde then
    if hasFlag pde ptePs then
      some ⟨4194304 * pdx pde + x.toNat % 4194304, hasFlag pde pteW, hasFlag pde pteU⟩
    else
      let pte := s.entry (pteFrame pde) (ptx x)
      if isPresent pte then
        some ⟨4096 * pteFrame pte + pgoff x, hasFlag pde pteW && hasFlag pte pteW,
          hasFlag pde pteU && hasFlag pte pteU⟩
      else none
  else none

/-- Entry `j` of the directory refers to the page table in frame `t`. -/
structure HasTable (j t : Nat) : Prop where
  present : isPresent (s.entry pgdir j) = true
  small : hasFlag (s.entry pgdir j) ptePs = false
  frame : pteFrame (s.entry pgdir j) = t

/-- The address is translated through the directory itself. -/
def ThroughDir (x : BitVec 32) : Prop := HasTable s pgdir (pdx x) pgdir

end

/-! ## `boot_map_region` -/

section

variable (pse : Bool) (pgdir : Nat) (va size pa perm : BitVec 32)

/-- The loop of `boot_map_region`, for at most `fuel` iterations; a null pointer of `pgdir_walk` is followed. -/
def bootMapLoop : Nat → BitVec 32 → Kernel → Option Kernel
  | 0, _, _ => none
  | fuel + 1, i, s =>
      if i < size then
        if pse ∧ pa % ptsize = 0#32 ∧ va % ptsize = 0#32 ∧ ptsize ≤ size - i then
          bootMapLoop fuel (i + ptsize)
            (s.writePte (entryAddr pgdir (pdx (va + i))) (pa + i ||| perm ||| pteP ||| ptePs))
        else do
          match ← pgdirWalk s pgdir (va + i) true with
          | (_, none) => none
          | (s, some pte) => bootMapLoop fuel (i + 4096#32) (s.writePte pte (pa + i ||| perm ||| pteP))
      else some s

/-- `boot_map_region`; `pse` says that it is compiled with `TP1_PSE`. -/
def bootMapRegion (s : Kernel) : Option Kernel := bootMapLoop pse pgdir va size pa perm (2 ^ 20 + 1) 0#32 s

end

/-! ## Regions -/

/-- What the callers of `boot_map_region` keep to. -/
structure Region (va size pa perm : BitVec 32) : Prop where
  va_aligned : va.toNat % 4096 = 0
  size_mult : size.toNat % 4096 = 0
  pa_aligned : pa.toNat % 4096 = 0
  va_end : va.toNat + size.toNat ≤ 2 ^ 32
  pa_end : pa.toNat + size.toNat ≤ 2 ^ 32
  perm : perm &&& ~~~(pteW ||| pteU ||| ptePcd ||| ptePwt) = 0#32

/-- Entry `j` of the directory covers a part of the region. -/
def Covers (va size : BitVec 32) (j : Nat) : Prop :=
  max (4194304 * j) va.toNat < min (4194304 * (j + 1)) (va.toNat + size.toNat)

instance (va size : BitVec 32) (j : Nat) : Decidable (Covers va size j) := Nat.decLt _ _

/-- The directory entries that cover the region. -/
def covering (va size : BitVec 32) : Finset Nat := (Finset.range 1024).filter fun j => Covers va size j

/-- The frames of the free list are neither the directory nor page tables of it. -/
structure FreeFrames (s : Kernel) (pgdir : Nat) (free : List Nat) : Prop where
  npages : s.npages ≤ 65536
  linked : Linked s.ppLink s.pageFreeList free
  nodup : free.Nodup
  lt : ∀ f ∈ free, f < s.npages
  notDir : pgdir ∉ free
  notTable : ∀ f ∈ free, ∀ j < 1024, ¬ HasTable s pgdir j f

/-- What an address of the region should be translated to. -/
def regionTarget (va pa perm x : BitVec 32) : Translation :=
  ⟨pa.toNat + (x - va).toNat, hasFlag perm pteW, hasFlag perm pteU⟩

section

variable {s s' : Kernel} {pgdir j k t p n m : Nat} {va size pa perm x a w : BitVec 32} {free : List Nat}

/-! ## Entries -/

theorem hasFlag_tableEntry (t : Nat) {m : BitVec 32} (hm : m.toNat < 4096) :
    hasFlag (tableEntry t) m = hasFlag 7#32 m := by
  unfold hasFlag
  rw [tableEntry_and t hm]

theorem hasTable_tableEntry (h : s.entry pgdir j = tableEntry t) (ht : t < 2 ^ 20) : HasTable s pgdir j t := by
  refine ⟨?_, ?_, ?_⟩
  · rw [h]
    exact isPresent_tableEntry t
  · rw [h, hasFlag_tableEntry t (by decide)]
    rfl
  · rw [h]
    exact pteFrame_tableEntry ht

theorem HasTable.congr (h : s'.entry pgdir j = s.entry pgdir j) :
    HasTable s' pgdir j t ↔ HasTable s pgdir j t := by
  constructor
  · intro ht
    exact ⟨h ▸ ht.present, h ▸ ht.small, h ▸ ht.frame⟩
  · intro ht
    exact ⟨h.symm ▸ ht.present, h.symm ▸ ht.small, h.symm ▸ ht.frame⟩

theorem HasTable.unique (h : HasTable s pgdir j t) (h' : HasTable s pgdir j p) : t = p :=
  h.frame.symm.trans h'.frame

theorem not_hasTable_zero (h : s.entry pgdir j = 0#32) : ¬ HasTable s pgdir j t := by
  intro ht
  have hp := ht.present
  rw [h] at hp
  cases hp

/-- The translation looks at the directory entry and at one entry of the page table. -/
theorem translate_congr (hpde : s'.entry pgdir (pdx x) = s.entry pgdir (pdx x))
    (hpte : ∀ t, HasTable s pgdir (pdx x) t → s'.entry t (ptx x) = s.entry t (ptx x)) :
    translate s' pgdir x = translate s pgdir x := by
  unfold translate
  dsimp only
  rw [hpde]
  split
  · rename_i hp
    split
    · rfl
    · rename_i hps
      rw [hpte _ ⟨hp, Bool.not_eq_true _ ▸ hps, rfl⟩]
  · rfl

theorem translate_zero (h : s.entry pgdir (pdx x) = 0#32) : translate s pgdir x = none := by
  unfold translate
  dsimp only
  rw [h]
  rfl

/-- The translation through a page table that `pgdir_walk` has made. -/
theorem translate_table (h : s.entry pgdir (pdx x) = tableEntry t) (ht : t < 2 ^ 20) :
    translate s pgdir x = if isPresent (s.entry t (ptx x)) then
      some ⟨4096 * pteFrame (s.entry t (ptx x)) + pgoff x, hasFlag (s.entry t (ptx x)) pteW,
        hasFlag (s.entry t (ptx x)) pteU⟩ else none := by
  unfold translate
  dsimp only
  rw [h, isPresent_tableEntry, pteFrame_tableEntry ht, hasFlag_tableEntry t (by decide),
    hasFlag_tableEntry t (by decide), hasFlag_tableEntry t (by decide)]
  rfl

/-- Entries of pages and large pages: a frame number and flags. -/
theorem aligned_or (ha : a.toNat % 4096 = 0) (hw : w.toNat < 4096) :
    (a ||| w).toNat = a.toNat + w.toNat ∧ ∀ m : BitVec 32, m.toNat < 4096 → (a ||| w) &&& m = w &&& m := by
  have hlt := a.isLt
  have hpage : a = page2pa (a.toNat / 4096) := by
    apply BitVec.eq_of_toNat_eq
    rw [page2pa_toNat (by omega)]
    omega
  rw [hpage]
  refine ⟨?_, fun m hm => entry_and hm⟩
  rw [entry_toNat (by omega) hw, page2pa_toNat (by omega)]

theorem and_of_and_not {m : BitVec 32} (h : w &&& ~~~m = 0#32) : w &&& m = w := by
  ext i hi
  have hbit : (w &&& ~~~m)[i] = false := by simp [h]
  simp only [BitVec.getElem_and, BitVec.getElem_not] at hbit ⊢
  cases hw : w[i]
  · rfl
  · rw [hw] at hbit
    simpa using hbit

/-- The flags of a region fit below the frame number, and are neither present nor large. -/
theorem Region.flags (h : Region va size pa perm) :
    perm.toNat < 4096 ∧ perm &&& ptePs = 0#32 ∧ perm &&& pteP = 0#32 := by
  have hsub := and_of_and_not h.perm
  refine ⟨?_, ?_, ?_⟩
  · rw [← hsub, BitVec.toNat_and]
    exact Nat.lt_of_le_of_lt Nat.and_le_right (by decide)
  · have hz : (pteW ||| pteU ||| ptePcd ||| ptePwt) &&& ptePs = 0#32 := by decide
    rw [← hsub, BitVec.and_assoc, hz, BitVec.and_zero]
  · have hz : (pteW ||| pteU ||| ptePcd ||| ptePwt) &&& pteP = 0#32 := by decide
    rw [← hsub, BitVec.and_assoc, hz, BitVec.and_zero]

theorem hasFlag_or (v w m : BitVec 32) : hasFlag (v ||| w) m = (hasFlag v m || hasFlag w m) := by
  unfold hasFlag
  have hdist : (v ||| w) &&& m = (v &&& m) ||| (w &&& m) := by
    ext i hi
    simp only [BitVec.getElem_and, BitVec.getElem_or, Bool.and_or_distrib_right]
  rw [hdist]
  by_cases hv : v &&& m = 0#32
  · rw [hv, BitVec.zero_or]
    exact (Bool.false_or _).symm
  · by_cases hw : w &&& m = 0#32
    · rw [hw, BitVec.or_zero]
      exact (Bool.or_false _).symm
    · have hne : (v &&& m) ||| (w &&& m) ≠ 0#32 := fun h => hv (BitVec.or_eq_zero_iff.mp h).1
      rw [bne_iff_ne.mpr hne, bne_iff_ne.mpr hv]
      rfl

/-- The entry of a page: its frame, and its flags. -/
theorem smallEntry (h : Region va size pa perm) (ha : a.toNat % 4096 = 0) :
    isPresent (a ||| perm ||| pteP) = true ∧ 4096 * pteFrame (a ||| perm ||| pteP) = a.toNat ∧
      hasFlag (a ||| perm ||| pteP) pteW = hasFlag perm pteW ∧
        hasFlag (a ||| perm ||| pteP) pteU = hasFlag perm pteU := by
  obtain ⟨hlt, -, -⟩ := h.flags
  obtain ⟨hnat, hflag⟩ := aligned_or (w := perm ||| pteP) ha (or_toNat_lt hlt (by decide))
  rw [← BitVec.or_assoc] at hnat hflag
  have hbits : ∀ m : BitVec 32, m.toNat < 4096 →
      hasFlag (a ||| perm ||| pteP) m = (hasFlag perm m || hasFlag pteP m) := by
    intro m hm
    rw [← hasFlag_or]
    unfold hasFlag
    rw [hflag m hm]
  refine ⟨isPresent_or_pteP _, ?_, ?_, ?_⟩
  · have hsmall := or_toNat_lt hlt (show pteP.toNat < 4096 by decide)
    rw [pteFrame_eq, hnat]
    omega
  · rw [hbits pteW (by decide)]
    exact Bool.or_false _
  · rw [hbits pteU (by decide)]
    exact Bool.or_false _

/-- The entry of a large page. -/
theorem largeEntry (h : Region va size pa perm) (ha : a.toNat % 4096 = 0) :
    isPresent (a ||| perm ||| pteP ||| ptePs) = true ∧ hasFlag (a ||| perm ||| pteP ||| ptePs) ptePs = true ∧
      pdx (a ||| perm ||| pteP ||| ptePs) = a.toNat / 4194304 ∧
      hasFlag (a ||| perm ||| pteP ||| ptePs) pteW = hasFlag perm pteW ∧
        hasFlag (a ||| perm ||| pteP ||| ptePs) pteU = hasFlag perm pteU := by
  obtain ⟨hlt, -, -⟩ := h.flags
  have hlt' : (perm ||| (pteP ||| ptePs)).toNat < 4096 := or_toNat_lt hlt (by decide)
  obtain ⟨hnat, hflag⟩ := aligned_or (w := perm ||| (pteP ||| ptePs)) ha hlt'
  rw [← BitVec.or_assoc, ← BitVec.or_assoc] at hnat hflag
  have hbits : ∀ m : BitVec 32, m.toNat < 4096 →
      hasFlag (a ||| perm ||| pteP ||| ptePs) m = (hasFlag perm m || hasFlag (pteP ||| ptePs) m) := by
    intro m hm
    rw [← hasFlag_or]
    unfold hasFlag
    rw [hflag m hm]
  refine ⟨?_, ?_, ?_, ?_, ?_⟩
  · have hp : hasFlag (a ||| perm ||| pteP ||| ptePs) pteP = true := by
      rw [hbits pteP (by decide)]
      exact Bool.or_true _
    exact hp
  · rw [hbits ptePs (by decide)]
    exact Bool.or_true _
  · rw [pdx_eq, hnat]
    omega
  · rw [hbits pteW (by decide)]
    exact Bool.or_false _
  · rw [hbits pteU (by decide)]
    exact Bool.or_false _

/-! ## A new page table -/

/-- Frame `p`, taken from the free list, becomes the page table of entry `j`. -/
def newTable (s : Kernel) (pgdir j p : Nat) : Kernel :=
  ((takenPage s p).incRef p).writePte (entryAddr pgdir j) (tableEntry p)

theorem newTable_self : (newTable s pgdir j p).entry pgdir j = tableEntry p := entry_writePte_self ..

theorem newTable_dir (hp : p ≠ pgdir) (hj : j < 1024) (hk : k < 1024) (hkj : k ≠ j) :
    (newTable s pgdir j p).entry pgdir k = s.entry pgdir k :=
  (entry_writePte_of_ne _ _ hj hk (Or.inr hkj)).trans (entry_takenPage_of_ne hp.symm hk)

theorem newTable_other {f i : Nat} (hj : j < 1024) (hi : i < 1024) (hf : f ≠ pgdir) (hfp : f ≠ p) :
    (newTable s pgdir j p).entry f i = s.entry f i :=
  (entry_writePte_of_ne _ _ hj hi (Or.inl hf)).trans (entry_takenPage_of_ne hfp hi)

theorem newTable_empty {i : Nat} (hp : p ≠ pgdir) (hj : j < 1024) (hi : i < 1024) :
    (newTable s pgdir j p).entry p i = 0#32 :=
  (entry_writePte_of_ne _ _ hj hi (Or.inl hp)).trans (entry_fill_zero s hi)

theorem FreeFrames.newTable (h : FreeFrames s pgdir (p :: free)) (hj : j < 1024) :
    FreeFrames (newTable s pgdir j p) pgdir free := by
  have hp : p ≠ pgdir := fun heq => h.notDir (heq ▸ List.mem_cons_self)
  have hlt := h.lt p List.mem_cons_self
  obtain ⟨hnot, hnodup⟩ := List.nodup_cons.mp h.nodup
  refine ⟨h.npages, h.linked.pop h.nodup, hnodup, fun f hf => h.lt f (List.mem_cons_of_mem _ hf),
    fun hmem => h.notDir (List.mem_cons_of_mem _ hmem), fun f hf k hk htab => ?_⟩
  by_cases hkj : k = j
  · subst hkj
    have hpn := h.npages
    rw [← htab.unique (hasTable_tableEntry newTable_self (by omega))] at hnot
    exact hnot hf
  · exact h.notTable f (List.mem_cons_of_mem _ hf) k hk ((HasTable.congr (newTable_dir hp hj hk hkj)).mp htab)

/-- An empty page table changes no translation, but for those through its own directory entry. -/
theorem translate_newTable (h : FreeFrames s pgdir (p :: free)) (hzero : s.entry pgdir j = 0#32) (hj : j < 1024)
    (hx : ThroughDir s pgdir x → ptx x ≠ j) : translate (newTable s pgdir j p) pgdir x = translate s pgdir x := by
  have hp : p ≠ pgdir := fun heq => h.notDir (heq ▸ List.mem_cons_self)
  have hlt := h.lt p List.mem_cons_self
  have hn := h.npages
  by_cases hxj : pdx x = j
  · subst hxj
    rw [translate_table newTable_self (show p < 2 ^ 20 by omega), newTable_empty hp hj (ptx_lt x),
      translate_zero hzero]
    rfl
  · refine translate_congr (newTable_dir hp hj (pdx_lt x) hxj) fun t ht => ?_
    by_cases htd : t = pgdir
    · subst htd
      exact newTable_dir hp hj (ptx_lt x) (hx ht)
    · refine newTable_other hj (ptx_lt x) htd fun heq => ?_
      exact h.notTable p List.mem_cons_self _ (pdx_lt x) (heq ▸ ht)

/-! ## The page tables of a region -/

/-- Entry `j` has a page table that `pgdir_walk` has made for it. -/
structure OwnTable (s : Kernel) (pgdir j t : Nat) : Prop where
  lt : t < s.npages
  entry : s.entry pgdir j = tableEntry t
  notDir : t ≠ pgdir
  only : ∀ k < 1024, HasTable s pgdir k t → k = j

theorem FreeFrames.ownTable (h : FreeFrames s pgdir (p :: free)) (hj : j < 1024) :
    OwnTable (Kern.newTable s pgdir j p) pgdir j p := by
  have hp : p ≠ pgdir := fun heq => h.notDir (heq ▸ List.mem_cons_self)
  refine ⟨h.lt p List.mem_cons_self, newTable_self, hp, fun k hk htab => ?_⟩
  by_contra hkj
  exact h.notTable p List.mem_cons_self k hk ((HasTable.congr (newTable_dir hp hj hk hkj)).mp htab)

theorem OwnTable.newTable (h : OwnTable s pgdir k t) (hf : FreeFrames s pgdir (p :: free)) (hk : k < 1024)
    (hj : j < 1024) (hkj : k ≠ j) : OwnTable (Kern.newTable s pgdir j p) pgdir k t := by
  have hp : p ≠ pgdir := fun heq => hf.notDir (heq ▸ List.mem_cons_self)
  have hn := hf.npages
  have ht := h.lt
  have hplt := hf.lt p List.mem_cons_self
  refine ⟨h.lt, (newTable_dir hp hj hk hkj).trans h.entry, h.notDir, fun i hi htab => ?_⟩
  by_cases hij : i = j
  · subst hij
    have htp := htab.unique (hasTable_tableEntry newTable_self (by omega))
    exact absurd (hasTable_tableEntry h.entry (by omega)) (htp ▸ hf.notTable p List.mem_cons_self k hk)
  · exact h.only i hi ((HasTable.congr (newTable_dir hp hj hi hij)).mp htab)

/-! ## The entry of a page -/

/-- A store to a page table changes the translation of one page. -/
theorem translate_writePte (h : OwnTable s pgdir (pdx a) t) (hn : s.npages ≤ 65536)
    (hw : isPresent w = true) :
    translate (s.writePte (entryAddr t (ptx a)) w) pgdir x =
      if x.toNat / 4096 = a.toNat / 4096 then
        some ⟨4096 * pteFrame w + pgoff x, hasFlag w pteW, hasFlag w pteU⟩
      else translate s pgdir x := by
  have ht := h.lt
  have hdir : ∀ k < 1024, (s.writePte (entryAddr t (ptx a)) w).entry pgdir k = s.entry pgdir k :=
    fun k hk => entry_writePte_of_ne _ _ (ptx_lt a) hk (Or.inl h.notDir.symm)
  split
  · rename_i hpage
    have hx : pdx x = pdx a ∧ ptx x = ptx a := by
      rw [pdx_eq, pdx_eq, ptx_eq, ptx_eq, hpage]
      omega
    rw [translate_table ((hdir _ (pdx_lt x)).trans (hx.1 ▸ h.entry)) (by omega), hx.2, entry_writePte_self,
      if_pos hw]
  · rename_i hpage
    refine translate_congr (hdir _ (pdx_lt x)) fun f hf => ?_
    refine entry_writePte_of_ne _ _ (ptx_lt a) (ptx_lt x) ?_
    by_contra hsame
    rw [not_or, not_not, not_not] at hsame
    have hx := h.only _ (pdx_lt x) (hsame.1 ▸ hf)
    have hptx := hsame.2
    rw [pdx_eq, pdx_eq] at hx
    rw [ptx_eq, ptx_eq] at hptx
    omega

/-! ## The part of a region that is mapped -/

/-- The first `n` bytes of the region have been mapped, from the state `s0` on; there is nothing yet for the
entries that only cover what is behind the first `m` bytes. -/
structure RegionMapped (s0 : Kernel) (pgdir : Nat) (va size pa perm : BitVec 32) (n m : Nat) (free : List Nat)
    (s : Kernel) : Prop where
  frames : FreeFrames s pgdir free
  own : ∀ j < 1024, Covers va size j → s.entry pgdir j = 0#32 ∨
    hasFlag (s.entry pgdir j) ptePs = true ∧ 4194304 * (j + 1) ≤ va.toNat + n ∨ ∃ t, OwnTable s pgdir j t
  ahead : ∀ j < 1024, Covers va size j → va.toNat + m ≤ 4194304 * j → s.entry pgdir j = 0#32
  room : ((covering va size).filter fun j => s.entry pgdir j = 0#32).card ≤ free.length
  through : ∀ x, ThroughDir s pgdir x ↔ ThroughDir s0 pgdir x
  done : ∀ x, (x - va).toNat < n → translate s pgdir x = some (regionTarget va pa perm x)
  rest : ∀ x, n ≤ (x - va).toNat → (ThroughDir s0 pgdir x → ¬ Covers va size (ptx x)) →
    translate s pgdir x = translate s0 pgdir x

theorem covers_of_region (hr : Region va size pa perm) (hx : (x - va).toNat < size.toNat) :
    Covers va size (pdx x) := by
  have hend := hr.va_end
  have hlt := x.isLt
  have hva := va.isLt
  rw [BitVec.toNat_sub] at hx
  unfold Covers
  rw [pdx_eq]
  omega

theorem mem_covering : j ∈ covering va size ↔ j < 1024 ∧ Covers va size j := by
  unfold covering
  rw [Finset.mem_filter, Finset.mem_range]

/-- No address of the region is translated through the directory. -/
theorem RegionMapped.notThrough {s0 : Kernel} (h : RegionMapped s0 pgdir va size pa perm n m free s)
    (hr : Region va size pa perm) (hx : (x - va).toNat < size.toNat) : ¬ ThroughDir s pgdir x := by
  intro hthrough
  have hn := h.frames.npages
  rcases h.own (pdx x) (pdx_lt x) (covers_of_region hr hx) with hzero | ⟨hps, -⟩ | ⟨t, ht⟩
  · exact not_hasTable_zero hzero hthrough
  · rw [hthrough.small] at hps
    cases hps
  · have hlt := ht.lt
    exact ht.notDir ((hasTable_tableEntry ht.entry (by omega)).unique hthrough)

/-- When an entry is filled, one table less is missing. -/
theorem card_missing_lt (hj : j ∈ covering va size) (hzero : s.entry pgdir j = 0#32)
    (hfill : s'.entry pgdir j ≠ 0#32) (hkeep : ∀ k < 1024, k ≠ j → s'.entry pgdir k = s.entry pgdir k) :
    ((covering va size).filter fun j => s'.entry pgdir j = 0#32).card <
      ((covering va size).filter fun j => s.entry pgdir j = 0#32).card := by
  refine Finset.card_lt_card ⟨fun k hk => ?_, fun hsub => ?_⟩
  · obtain ⟨hmem, hk0⟩ := Finset.mem_filter.mp hk
    refine Finset.mem_filter.mpr ⟨hmem, ?_⟩
    by_cases hkj : k = j
    · rw [hkj]
      exact hzero
    · rw [← hkeep k (mem_covering.mp hmem).1 hkj]
      exact hk0
  · exact hfill (Finset.mem_filter.mp (hsub (Finset.mem_filter.mpr ⟨hj, hzero⟩))).2

theorem through_fill (hzero : s.entry pgdir j = 0#32) (hno : ¬ HasTable s' pgdir j pgdir)
    (hkeep : ∀ k < 1024, k ≠ j → s'.entry pgdir k = s.entry pgdir k) :
    ThroughDir s' pgdir x ↔ ThroughDir s pgdir x := by
  unfold ThroughDir
  by_cases hxj : pdx x = j
  · rw [hxj]
    exact iff_of_false hno (not_hasTable_zero hzero)
  · exact HasTable.congr (hkeep _ (pdx_lt x) hxj)

section

variable {s0 : Kernel}

/-- The address of the next page. -/
theorem Region.next_toNat (hr : Region va size pa perm) (hn : n < size.toNat) :
    (va + BitVec.ofNat 32 n).toNat = va.toNat + n := by
  have hend := hr.va_end
  have hsize := size.isLt
  rw [BitVec.toNat_add, BitVec.toNat_ofNat]
  omega

/-- The frame of the next page. -/
theorem Region.phys_toNat (hr : Region va size pa perm) (hn : n < size.toNat) :
    (pa + BitVec.ofNat 32 n).toNat = pa.toNat + n := by
  have hend := hr.pa_end
  have hsize := size.isLt
  rw [BitVec.toNat_add, BitVec.toNat_ofNat]
  omega

theorem Region.page (hr : Region va size pa perm) (hn : n < size.toNat) (hmult : n % 4096 = 0) :
    4096 ∣ va.toNat + n ∧ va.toNat + n + 4096 ≤ 4294967296 := by
  have hva := hr.va_aligned
  have hend := hr.va_end
  have hsize := hr.size_mult
  omega

/-- The addresses of the page, of any size, at offset `n` from `va`. -/
theorem sub_page {P : Nat} (x : BitVec 32) (hP : 0 < P) (hd : P ∣ va.toNat + n)
    (hend : va.toNat + n + P ≤ 4294967296) :
    x.toNat / P = (va.toNat + n) / P ↔ n ≤ (x - va).toNat ∧ (x - va).toNat < n + P := by
  obtain ⟨k, hk⟩ := hd
  have hx := x.isLt
  rw [hk, Nat.mul_div_cancel_left _ hP, Nat.div_eq_iff hP, BitVec.toNat_sub, Nat.mul_comm k P, ← hk]
  omega

theorem sub_page_mod {P : Nat} {x : BitVec 32} (hP : 0 < P) (hd : P ∣ va.toNat + n)
    (h : x.toNat / P = (va.toNat + n) / P) : (x - va).toNat = n + x.toNat % P := by
  obtain ⟨k, hk⟩ := hd
  have hx := x.isLt
  have hdiv := Nat.div_add_mod x.toNat P
  rw [h, hk, Nat.mul_div_cancel_left _ hP, ← hk] at hdiv
  rw [BitVec.toNat_sub]
  omega

/-- `pgdir_walk` finds or makes the page table of the next page. -/
theorem RegionMapped.walk (hr : Region va size pa perm) (h : RegionMapped s0 pgdir va size pa perm n n free s)
    (hn : n < size.toNat) (ha : a = va + BitVec.ofNat 32 n) :
    ∃ s1 free1 t, pgdirWalk s pgdir a true = some (s1, some (entryAddr t (ptx a))) ∧
      OwnTable s1 pgdir (pdx a) t ∧ RegionMapped s0 pgdir va size pa perm n (n + 4096) free1 s1 := by
  have hnat := hr.next_toNat hn
  rw [← ha] at hnat
  have hpdx := pdx_eq a
  have hpages := h.frames.npages
  have hcov : Covers va size (pdx a) := by
    refine covers_of_region hr ?_
    rw [BitVec.toNat_sub, hnat]
    have hva := va.isLt
    have hsize := size.isLt
    omega
  rcases h.own (pdx a) (pdx_lt a) hcov with hzero | ⟨-, hbefore⟩ | ⟨t, ht⟩
  · have hmem : pdx a ∈ (covering va size).filter fun j => s.entry pgdir j = 0#32 :=
      Finset.mem_filter.mpr ⟨mem_covering.mpr ⟨pdx_lt a, hcov⟩, hzero⟩
    have hroom := h.room
    have hpos := Finset.card_pos.mpr ⟨_, hmem⟩
    cases free with
    | nil => exact absurd (Nat.lt_of_lt_of_le hpos hroom) (Nat.lt_irrefl 0)
    | cons p free =>
        have hp : p ≠ pgdir := fun heq => h.frames.notDir (heq ▸ List.mem_cons_self)
        have hlt := h.frames.lt p List.mem_cons_self
        have hkeep : ∀ k < 1024, k ≠ pdx a → (newTable s pgdir (pdx a) p).entry pgdir k = s.entry pgdir k :=
          fun k hk hne => newTable_dir hp (pdx_lt a) hk hne
        have hown := h.frames.ownTable (pdx_lt a)
        have hno : ¬ HasTable (newTable s pgdir (pdx a) p) pgdir (pdx a) pgdir := fun htab =>
          hp ((hasTable_tableEntry newTable_self (by omega)).unique htab)
        refine ⟨newTable s pgdir (pdx a) p, free, p, pgdirWalk_taken hpages hzero hlt h.frames.linked.1, hown,
          h.frames.newTable (pdx_lt a), fun j hj hjc => ?_, fun j hj hjc hle => ?_, ?_, fun x => ?_,
          fun x hx => ?_, fun x hx hthrough => ?_⟩
        · by_cases hja : j = pdx a
          · rw [hja]
            exact Or.inr (Or.inr ⟨p, hown⟩)
          · rw [hkeep j hj hja]
            rcases h.own j hj hjc with hz | hlarge | ⟨t, ht⟩
            · exact Or.inl hz
            · exact Or.inr (Or.inl hlarge)
            · exact Or.inr (Or.inr ⟨t, ht.newTable h.frames hj (pdx_lt a) hja⟩)
        · rw [hkeep j hj (by omega)]
          exact h.ahead j hj hjc (by omega)
        · have hless := card_missing_lt (mem_covering.mpr ⟨pdx_lt a, hcov⟩) hzero
            (newTable_self ▸ tableEntry_ne_zero p) hkeep
          rw [List.length_cons] at hroom
          omega
        · exact (through_fill hzero hno hkeep).trans (h.through x)
        · rw [translate_newTable h.frames hzero (pdx_lt a)
            (fun hs => absurd hs (h.notThrough hr (Nat.lt_trans hx hn)))]
          exact h.done x hx
        · rw [translate_newTable h.frames hzero (pdx_lt a)
            (fun hs heq => hthrough ((h.through x).mp hs) (heq ▸ hcov))]
          exact h.rest x hx hthrough
  · omega
  · refine ⟨s, free, t, pgdirWalk_of_entry hpages ht.entry ht.lt true, ht, h.frames, h.own, fun j hj hjc hle => ?_,
      h.room, h.through, h.done, h.rest⟩
    exact h.ahead j hj hjc (by omega)

theorem HasTable.keep (hkeep : ∀ k < 1024, s'.entry pgdir k = s.entry pgdir k) (hj : j < 1024) :
    HasTable s' pgdir j t ↔ HasTable s pgdir j t := HasTable.congr (hkeep j hj)

/-- The entry of the next page is stored. -/
theorem RegionMapped.small (hr : Region va size pa perm)
    (h : RegionMapped s0 pgdir va size pa perm n (n + 4096) free s) (hn : n < size.toNat) (hmult : n % 4096 = 0)
    (ha : a = va + BitVec.ofNat 32 n) (ht : OwnTable s pgdir (pdx a) t) :
    RegionMapped s0 pgdir va size pa perm (n + 4096) (n + 4096) free
      (s.writePte (entryAddr t (ptx a)) (pa + BitVec.ofNat 32 n ||| perm ||| pteP)) := by
  have hnat := hr.next_toNat hn
  rw [← ha] at hnat
  have hphys := hr.phys_toNat hn
  obtain ⟨hdvd, hle⟩ := hr.page hn hmult
  obtain ⟨hpres, hframe, hW, hU⟩ := smallEntry hr (a := pa + BitVec.ofNat 32 n) (by
    have hpa := hr.pa_aligned
    omega)
  have hkeep : ∀ k < 1024,
      (s.writePte (entryAddr t (ptx a)) (pa + BitVec.ofNat 32 n ||| perm ||| pteP)).entry pgdir k =
        s.entry pgdir k :=
    fun k hk => entry_writePte_of_ne _ _ (ptx_lt a) hk (Or.inl ht.notDir.symm)
  have htrans : ∀ x,
      translate (s.writePte (entryAddr t (ptx a)) (pa + BitVec.ofNat 32 n ||| perm ||| pteP)) pgdir x =
      if x.toNat / 4096 = a.toNat / 4096 then
        some ⟨pa.toNat + n + pgoff x, hasFlag perm pteW, hasFlag perm pteU⟩
      else translate s pgdir x := by
    intro x
    rw [translate_writePte ht h.frames.npages hpres, hframe, hW, hU, hphys]
  have hframes := h.frames
  refine ⟨⟨hframes.npages, hframes.linked, hframes.nodup, hframes.lt, hframes.notDir, fun f hf j hj => ?_⟩,
    fun j hj hjc => ?_, fun j hj hjc hle => ?_, ?_, fun x => ?_, fun x hx => ?_, fun x hx hthrough => ?_⟩
  · rw [HasTable.keep hkeep hj]
    exact hframes.notTable f hf j hj
  · rw [hkeep j hj]
    rcases h.own j hj hjc with hz | ⟨hps, hle⟩ | ⟨t', ht'⟩
    · exact Or.inl hz
    · exact Or.inr (Or.inl ⟨hps, by omega⟩)
    · exact Or.inr (Or.inr ⟨t', ht'.lt, (hkeep j hj).trans ht'.entry, ht'.notDir,
        fun k hk htab => ht'.only k hk ((HasTable.keep hkeep hk).mp htab)⟩)
  · rw [hkeep j hj]
    exact h.ahead j hj hjc hle
  · have hsame : ((covering va size).filter fun j => (s.writePte (entryAddr t (ptx a))
        (pa + BitVec.ofNat 32 n ||| perm ||| pteP)).entry pgdir j = 0#32) =
        (covering va size).filter fun j => s.entry pgdir j = 0#32 := by
      refine Finset.filter_congr fun j hj => ?_
      rw [hkeep j (mem_covering.mp hj).1]
    rw [hsame]
    exact h.room
  · exact (HasTable.keep hkeep (pdx_lt x)).trans (h.through x)
  · rw [htrans x, hnat]
    split
    · rename_i hpage
      unfold regionTarget
      rw [sub_page_mod (by decide) hdvd hpage, pgoff_eq, Nat.add_assoc]
    · rename_i hpage
      rw [sub_page x (by decide) hdvd hle] at hpage
      exact h.done x (by omega)
  · rw [htrans x, hnat, if_neg fun hpage => by
      have hin := (sub_page x (by decide) hdvd hle).mp hpage
      omega]
    exact h.rest x (by omega) hthrough

/-- The entry of the next large page is stored. -/
theorem RegionMapped.large (hr : Region va size pa perm) (h : RegionMapped s0 pgdir va size pa perm n n free s)
    (hn : n + 4194304 ≤ size.toNat) (hmult : n % 4194304 = 0) (hva : va.toNat % 4194304 = 0)
    (hpa : pa.toNat % 4194304 = 0) (ha : a = va + BitVec.ofNat 32 n) :
    RegionMapped s0 pgdir va size pa perm (n + 4194304) (n + 4194304) free
      (s.writePte (entryAddr pgdir (pdx a)) (pa + BitVec.ofNat 32 n ||| perm ||| pteP ||| ptePs)) := by
  have hnsize : n < size.toNat := by omega
  have hnat := hr.next_toNat hnsize
  rw [← ha] at hnat
  have hend := hr.va_end
  have hphys := hr.phys_toNat hnsize
  have hdvd : 4194304 ∣ va.toNat + n := by omega
  have hle : va.toNat + n + 4194304 ≤ 4294967296 := by omega
  have hpdx : pdx a = (va.toNat + n) / 4194304 := by
    rw [pdx_eq, hnat]
    rfl
  obtain ⟨hpres, hps, hframe, hW, hU⟩ := largeEntry hr (a := pa + BitVec.ofNat 32 n) (by omega)
  have hsub_a : (a - va).toNat = n := by
    rw [sub_page_mod (by decide) hdvd (by rw [hnat]), hnat]
    omega
  have hcov : Covers va size (pdx a) := covers_of_region hr (by rwa [hsub_a])
  have hzero := h.ahead (pdx a) (pdx_lt a) hcov (by omega)
  -- what the store leaves
  obtain ⟨s', hs'⟩ : ∃ s', s' = s.writePte (entryAddr pgdir (pdx a))
    (pa + BitVec.ofNat 32 n ||| perm ||| pteP ||| ptePs) := ⟨_, rfl⟩
  have hself : s'.entry pgdir (pdx a) = (pa + BitVec.ofNat 32 n ||| perm ||| pteP ||| ptePs) := by
    rw [hs']
    exact entry_writePte_self ..
  have hkeep : ∀ k < 1024, k ≠ pdx a → s'.entry pgdir k = s.entry pgdir k := by
    intro k hk hne
    rw [hs']
    exact entry_writePte_of_ne _ _ (pdx_lt a) hk (Or.inr hne)
  have hother : ∀ f i, f ≠ pgdir → i < 1024 → s'.entry f i = s.entry f i := by
    intro f i hf hi
    rw [hs']
    exact entry_writePte_of_ne _ _ (pdx_lt a) hi (Or.inl hf)
  have hno : ∀ t, ¬ HasTable s' pgdir (pdx a) t := by
    intro t htab
    have hsmall := htab.small
    rw [hself, hps] at hsmall
    cases hsmall
  have hsub : ∀ k < 1024, ∀ t, HasTable s' pgdir k t → HasTable s pgdir k t := by
    intro k hk t htab
    by_cases hka : k = pdx a
    · exact absurd (hka ▸ htab) (hno t)
    · exact (HasTable.congr (hkeep k hk hka)).mp htab
  have hin : ∀ x, pdx x = pdx a → translate s' pgdir x =
      some ⟨pa.toNat + n + x.toNat % 4194304, hasFlag perm pteW, hasFlag perm pteU⟩ := by
    intro x hx
    have hbase : 4194304 * ((pa.toNat + n) / 4194304) = pa.toNat + n := by omega
    unfold translate
    dsimp only
    rw [hx, hself, if_pos hpres, if_pos hps, hframe, hW, hU, hphys, hbase]
  have hout : ∀ x, pdx x ≠ pdx a → (ThroughDir s pgdir x → ptx x ≠ pdx a) →
      translate s' pgdir x = translate s pgdir x := by
    intro x hx hthrough
    refine translate_congr (hkeep _ (pdx_lt x) hx) fun t htab => ?_
    by_cases htd : t = pgdir
    · subst htd
      exact hkeep _ (ptx_lt x) (hthrough htab)
    · exact hother t _ htd (ptx_lt x)
  rw [← hs']
  have hframes := h.frames
  refine ⟨⟨by rw [hs']; exact hframes.npages, by rw [hs']; exact hframes.linked, hframes.nodup,
    by rw [hs']; exact hframes.lt, hframes.notDir, fun f hf j hj htab => ?_⟩,
    fun j hj hjc => ?_, fun j hj hjc hle => ?_, ?_, fun x => ?_, fun x hx => ?_, fun x hx hthrough => ?_⟩
  · exact hframes.notTable f hf j hj (hsub j hj f htab)
  · by_cases hja : j = pdx a
    · rw [hja, hself]
      exact Or.inr (Or.inl ⟨hps, by omega⟩)
    · rw [hkeep j hj hja]
      rcases h.own j hj hjc with hz | ⟨hps', hle⟩ | ⟨t', ht'⟩
      · exact Or.inl hz
      · exact Or.inr (Or.inl ⟨hps', by omega⟩)
      · exact Or.inr (Or.inr ⟨t', by rw [hs']; exact ht'.lt, (hkeep j hj hja).trans ht'.entry, ht'.notDir,
          fun k hk htab => ht'.only k hk (hsub k hk t' htab)⟩)
  · rw [hkeep j hj (by omega)]
    exact h.ahead j hj hjc (by omega)
  · have hfill : s'.entry pgdir (pdx a) ≠ 0#32 := by
      intro hz
      rw [hself] at hz
      rw [hz] at hpres
      cases hpres
    have hless := card_missing_lt (mem_covering.mpr ⟨pdx_lt a, hcov⟩) hzero hfill hkeep
    exact Nat.le_trans (Nat.le_of_lt hless) h.room
  · exact (through_fill hzero (hno pgdir) hkeep).trans (h.through x)
  · have hpage := sub_page x (by decide) hdvd hle
    rw [← hpdx, ← show pdx x = x.toNat / 4194304 from pdx_eq x] at hpage
    by_cases hxa : pdx x = pdx a
    · rw [hin x hxa]
      unfold regionTarget
      rw [sub_page_mod (by decide) hdvd (by rw [← hpdx, ← hxa, pdx_eq]; rfl), Nat.add_assoc]
    · rw [hout x hxa fun hs => absurd hs (h.notThrough hr (by omega))]
      exact h.done x (by omega)
  · have hpage := sub_page x (by decide) hdvd hle
    rw [← hpdx, ← show pdx x = x.toNat / 4194304 from pdx_eq x] at hpage
    have hxa : pdx x ≠ pdx a := fun heq => by
      have hin := hpage.mp heq
      omega
    rw [hout x hxa fun hs heq => hthrough ((h.through x).mp hs) (heq ▸ hcov)]
    exact h.rest x (by omega) hthrough

/-! ## The loop -/

theorem mod_ptsize (x : BitVec 32) : x % ptsize = 0#32 ↔ x.toNat % 4194304 = 0 := by
  have hmod : (x % ptsize).toNat = x.toNat % 4194304 := BitVec.toNat_umod
  constructor
  · intro h
    rw [← hmod, h]
    rfl
  · intro h
    apply BitVec.eq_of_toNat_eq
    rw [hmod, h]
    rfl

/-- The loop ends, and maps the rest of the region. Large pages are tried for the rest of the region only if
it starts with a large page. -/
theorem bootMapLoop_maps {pse : Bool} {fuel : Nat} (hr : Region va size pa perm)
    (h : RegionMapped s0 pgdir va size pa perm n n free s) (hn : n ≤ size.toNat) (hmult : n % 4096 = 0)
    (hlarge : n + 4194304 ≤ size.toNat → pa % ptsize = 0#32 → va % ptsize = 0#32 → pse = true → n % 4194304 = 0)
    (hfuel : (size.toNat - n) / 4096 < fuel) :
    ∃ s' free', bootMapLoop pse pgdir va size pa perm fuel (BitVec.ofNat 32 n) s = some s' ∧
      RegionMapped s0 pgdir va size pa perm size.toNat size.toNat free' s' := by
  have hsizelt := size.isLt
  have hsize := hr.size_mult
  induction fuel generalizing n s free with
  | zero => exact absurd hfuel (Nat.not_lt_zero _)
  | succ fuel ih =>
      have hi : (BitVec.ofNat 32 n).toNat = n := by
        rw [BitVec.toNat_ofNat]
        omega
      unfold bootMapLoop
      by_cases hlt : BitVec.ofNat 32 n < size
      · have hlt' : n < size.toNat := by
          rw [BitVec.lt_def, hi] at hlt
          exact hlt
        have hsub : (size - BitVec.ofNat 32 n).toNat = size.toNat - n := by
          rw [BitVec.toNat_sub, hi]
          omega
        have hroom : ptsize ≤ size - BitVec.ofNat 32 n ↔ n + 4194304 ≤ size.toNat := by
          rw [BitVec.le_def, hsub, show ptsize.toNat = 4194304 from rfl]
          omega
        rw [if_pos hlt]
        by_cases hc : pse = true ∧ pa % ptsize = 0#32 ∧ va % ptsize = 0#32 ∧ ptsize ≤ size - BitVec.ofNat 32 n
        · obtain ⟨hpse, hpa, hva, hle⟩ := hc
          rw [if_pos ⟨hpse, hpa, hva, hle⟩]
          rw [hroom] at hle
          have h0 := hlarge hle hpa hva hpse
          have hnext : BitVec.ofNat 32 n + ptsize = BitVec.ofNat 32 (n + 4194304) := (BitVec.ofNat_add ..).symm
          rw [hnext]
          refine ih (h.large hr hle h0 ((mod_ptsize va).mp hva) ((mod_ptsize pa).mp hpa) rfl) hle (by omega)
            (fun _ _ _ _ => by omega) (by omega)
        · rw [if_neg hc]
          obtain ⟨s1, free1, t, hwalk, hown, h1⟩ := h.walk hr hlt' rfl
          have hnext : BitVec.ofNat 32 n + 4096#32 = BitVec.ofNat 32 (n + 4096) := (BitVec.ofNat_add ..).symm
          rw [hwalk, hnext, Option.bind_eq_bind, Option.bind_some]
          refine ih (h1.small hr hlt' hmult rfl hown) (by omega) (by omega) (fun hle hpa hva hpse => ?_) (by omega)
          exact absurd ⟨hpse, hpa, hva, hroom.mpr (by omega)⟩ hc
      · have hend : n = size.toNat := by
          rw [BitVec.lt_def, hi] at hlt
          omega
        rw [if_neg hlt]
        exact ⟨s, free, rfl, hend ▸ h⟩

theorem regionMapped_start (hf : FreeFrames s pgdir free) (hzero : ∀ j ∈ covering va size, s.entry pgdir j = 0#32)
    (hroom : (covering va size).card ≤ free.length) :
    RegionMapped s pgdir va size pa perm 0 0 free s := by
  refine ⟨hf, fun j hj hjc => Or.inl (hzero j (mem_covering.mpr ⟨hj, hjc⟩)),
    fun j hj hjc _ => hzero j (mem_covering.mpr ⟨hj, hjc⟩), ?_, fun _ => Iff.rfl,
    fun x hx => absurd hx (Nat.not_lt_zero _), fun _ _ _ => rfl⟩
  exact Nat.le_trans (Finset.card_filter_le _ _) hroom

/-- `boot_map_region` ends. -/
theorem bootMapRegion_maps (pse : Bool) (hr : Region va size pa perm) (hf : FreeFrames s pgdir free)
    (hzero : ∀ j ∈ covering va size, s.entry pgdir j = 0#32) (hroom : (covering va size).card ≤ free.length) :
    ∃ s' free', bootMapRegion pse pgdir va size pa perm s = some s' ∧
      RegionMapped s pgdir va size pa perm size.toNat size.toNat free' s' := by
  have hsize := size.isLt
  obtain ⟨fuel, hfuel⟩ : ∃ fuel, 2 ^ 20 + 1 = fuel := ⟨_, rfl⟩
  unfold bootMapRegion
  rw [hfuel]
  exact bootMapLoop_maps hr (regionMapped_start hf hzero hroom) (Nat.zero_le _) rfl (fun _ _ _ _ => rfl) (by omega)

/-- With large pages and without, `boot_map_region` ends, if the directory has nothing at all for the region and
there are frames for the page tables, and the translations are the same: those of the region are to the
physical region, with the rights of the caller, and the others are those of before, except where the directory
maps the new page tables through itself. -/
theorem boot_map_region_same (hr : Region va size pa perm) (hf : FreeFrames s pgdir free)
    (hzero : ∀ j ∈ covering va size, s.entry pgdir j = 0#32) (hroom : (covering va size).card ≤ free.length) :
    ∃ small large, bootMapRegion false pgdir va size pa perm s = some small ∧
      bootMapRegion true pgdir va size pa perm s = some large ∧
      (∀ x, (x - va).toNat < size.toNat → translate small pgdir x = some (regionTarget va pa perm x) ∧
        translate large pgdir x = some (regionTarget va pa perm x)) ∧
      ∀ x, size.toNat ≤ (x - va).toNat → (ThroughDir s pgdir x → ¬ Covers va size (ptx x)) →
        translate small pgdir x = translate s pgdir x ∧ translate large pgdir x = translate s pgdir x := by
  obtain ⟨small, _, hsmall, h⟩ := bootMapRegion_maps false hr hf hzero hroom
  obtain ⟨large, _, hlarge, h'⟩ := bootMapRegion_maps true hr hf hzero hroom
  exact ⟨small, large, hsmall, hlarge, fun x hx => ⟨h.done x hx, h'.done x hx⟩,
    fun x hx hthrough => ⟨h.rest x hx hthrough, h'.rest x hx hthrough⟩⟩

end

end

/-! ## Two directories -/

/-- The free frames of the small machine. -/
def smallFree : List Nat := [2, 3, 4, 5, 6, 7, 8, 9, 10, 11, 12, 13, 14, 15]

theorem small_freeFrames : FreeFrames small 1 smallFree := by
  refine ⟨by decide, small_linked, by decide, by decide, by decide, fun f hf j hj htab => ?_⟩
  by_cases hj957 : j = pdxUvpt
  · rw [hj957] at htab
    have hself : HasTable small 1 pdxUvpt 1 := ⟨by decide +kernel, by decide +kernel, by decide +kernel⟩
    rw [← hself.unique htab] at hf
    exact absurd hf (by decide)
  · exact not_hasTable_zero (small_entry hj957) htab

/-- A large page and a small one, at the address 0. -/
theorem boot_map_region_same_mixed : ∃ small' large,
    bootMapRegion false 1 0#32 0x401000#32 0#32 pteW small = some small' ∧
      bootMapRegion true 1 0#32 0x401000#32 0#32 pteW small = some large ∧
      (∀ x, (x - 0#32).toNat < (0x401000#32).toNat →
        translate small' 1 x = some (regionTarget 0#32 0#32 pteW x) ∧
          translate large 1 x = some (regionTarget 0#32 0#32 pteW x)) ∧
      ∀ x, (0x401000#32).toNat ≤ (x - 0#32).toNat → (ThroughDir small 1 x → ¬ Covers 0#32 0x401000#32 (ptx x)) →
        translate small' 1 x = translate small 1 x ∧ translate large 1 x = translate small 1 x := by
  have hcov : covering 0#32 0x401000#32 ⊆ {0, 1} := by
    intro j hj
    obtain ⟨-, hj⟩ := mem_covering.mp hj
    have hj : max (4194304 * j) 0 < min (4194304 * (j + 1)) (0 + 4198400) := hj
    rw [Finset.mem_insert, Finset.mem_singleton]
    omega
  refine boot_map_region_same ⟨by decide, by decide, by decide, by decide, by decide, by decide⟩ small_freeFrames
    (fun j hj => ?_) (Nat.le_trans (Finset.card_le_card hcov) (by decide))
  have hj' := Finset.mem_insert.mp (hcov hj)
  rw [Finset.mem_singleton] at hj'
  refine small_entry ?_
  unfold pdxUvpt
  omega

/-- The small machine with a directory entry that is not present and not zero. -/
def staleEntry : Kernel := small.writePte (entryAddr 1 0) pteW

theorem staleEntry_freeFrames : FreeFrames staleEntry 1 smallFree := by
  have h := small_freeFrames
  refine ⟨h.npages, h.linked, h.nodup, h.lt, h.notDir, fun f hf j hj htab => ?_⟩
  by_cases hj0 : j = 0
  · rw [hj0] at htab
    have hno : isPresent (staleEntry.entry 1 0) = false := by decide +kernel
    rw [htab.present] at hno
    cases hno
  · have hkeep := @entry_writePte_of_ne small 1 0 1 j pteW (by decide) hj (Or.inr hj0)
    exact h.notTable f hf j hj ((HasTable.congr hkeep).mp htab)

/-- One page at the address 0, in a directory in which no entry that covers it is present. Where the directory is
its own page table the new page table can be seen at `UVPT`; and an entry that is not present but not zero is
taken for a page table. -/
theorem boot_map_region_differs :
    Region 0#32 0x1000#32 0#32 pteW ∧ (covering 0#32 0x1000#32).card ≤ smallFree.length ∧
    (∀ s : Kernel, s = small ∨ s = staleEntry → FreeFrames s 1 smallFree ∧
      ∀ j ∈ covering 0#32 0x1000#32, isPresent (s.entry 1 j) = false) ∧
    (∃ s', bootMapRegion false 1 0#32 0x1000#32 0#32 pteW small = some s' ∧
      translate s' 1 uvpt ≠ translate small 1 uvpt) ∧
    ∃ s', bootMapRegion false 1 0#32 0x1000#32 0#32 pteW staleEntry = some s' ∧ translate s' 1 0#32 = none := by
  have hcov : covering 0#32 0x1000#32 ⊆ {0} := by
    intro j hj
    obtain ⟨-, hj⟩ := mem_covering.mp hj
    have hj : max (4194304 * j) 0 < min (4194304 * (j + 1)) (0 + 4096) := hj
    rw [Finset.mem_singleton]
    omega
  have hruns : (∃ s' ∈ bootMapRegion false 1 0#32 0x1000#32 0#32 pteW small,
      translate s' 1 uvpt ≠ translate small 1 uvpt) ∧
      ∃ s' ∈ bootMapRegion false 1 0#32 0x1000#32 0#32 pteW staleEntry, translate s' 1 0#32 = none := by
    decide +kernel
  refine ⟨⟨by decide, by decide, by decide, by decide, by decide, by decide⟩,
    Nat.le_trans (Finset.card_le_card hcov) (by decide), fun s hs => ⟨?_, fun j hj => ?_⟩, hruns⟩
  · rcases hs with rfl | rfl
    · exact small_freeFrames
    · exact staleEntry_freeFrames
  · rw [Finset.mem_singleton.mp (hcov hj)]
    rcases hs with rfl | rfl
    · decide +kernel
    · decide +kernel

end Jos.Kern
