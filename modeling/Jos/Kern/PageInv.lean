import Jos.Kern.Refs

/-!
# The invariant of the page tables

`Shape R s` describes the page directories and tables: the kernel's directory maps nothing
below `UTOP`, every directory of an environment agrees with it above `UTOP` except for the
self-map at `UVPT`, every directory entry below `UTOP` is zero or the entry of a page
table, and a frame used as a directory or table is referred to from one place only.

`PageInv` adds that free list and reference counts account for all references. The lemmas
of this module say what each elementary change of memory does to the targets of places.
-/

namespace Jos.Kern

open Jos.Lib Kernel

/-- The form of the kernel's own page directory and its page tables. -/
structure KernShape (R : Nat → Prop) (s : Kernel) : Prop where
  npages_le : s.npages ≤ 65536
  kern_reserved : R s.kernPgdir
  kern_lt : s.kernPgdir < s.npages
  kern_low : ∀ i < pdxUtop, s.entry s.kernPgdir i = 0#32
  /-- Above `UTOP` the user may read below `UVPT` and nothing above `ULIM`. -/
  kern_high : ∀ i, pdxUtop ≤ i → i < 1024 → i ≠ pdxUvpt →
    s.entry s.kernPgdir i = 0#32 ∨ ∃ t, R t ∧ t < s.npages ∧
      s.entry s.kernPgdir i = tableEntry t ∧ ∀ j < 1024,
        (i < pdxUvpt → s.entry t j &&& pteW = 0#32) ∧
        (pdxUvpt < i → s.entry t j &&& pteU = 0#32)

/-- The form of the page directories and page tables. -/
structure Shape (R : Nat → Prop) (s : Kernel) : Prop extends KernShape R s where
  dir_low : ∀ e d i, (s.envs e).envPgdir = some d → i < pdxUtop →
    s.entry d i = 0#32 ∨ ∃ t < s.npages, s.entry d i = tableEntry t
  dir_high : ∀ e d i, (s.envs e).envPgdir = some d → pdxUtop ≤ i → i < 1024 →
    s.entry d i = if i = pdxUvpt then page2pa d ||| pteP ||| pteU else s.entry s.kernPgdir i
  table_unique : ∀ k k' p, k.isTable → target s k = some p → target s k' = some p → k' = k

/-- Free list and reference counts account for the references `t`. -/
structure Accounts (R : Nat → Prop) (held : List Nat) (s : Kernel) (t : Place → Option Nat) :
    Prop where
  pages : ∃ free, Linked s.ppLink s.pageFreeList free ∧
    Ledger (Owned R held s) free s.ppRef t ∧ ∀ p < s.npages, ¬ R p → p ∉ free → s.ppLink p = none
  held_ok : ∀ p ∈ held, p < s.npages ∧ ¬ R p ∧ s.ppRef p = 0#16

/-- The page tables are well formed and every frame is accounted for. -/
structure PageInv (R : Nat → Prop) (held : List Nat) (s : Kernel) : Prop where
  shape : Shape R s
  accounts : Accounts R held s (target s)

theorem pdxUtop_lt {i : Nat} (hi : i < pdxUtop) : i < 1024 := Nat.lt_trans hi (by decide)

/-- The kernel's tables lie in reserved frames. -/
theorem KernShape.congr {R : Nat → Prop} {s s' : Kernel} (hs : KernShape R s)
    (hn : s'.npages = s.npages) (hk : s'.kernPgdir = s.kernPgdir)
    (he : ∀ f, R f → ∀ i < 1024, s'.entry f i = s.entry f i) : KernShape R s' where
  npages_le := by rw [hn]; exact hs.npages_le
  kern_reserved := by rw [hk]; exact hs.kern_reserved
  kern_lt := by rw [hk, hn]; exact hs.kern_lt
  kern_low i hi := by
    rw [hk, he _ hs.kern_reserved i (pdxUtop_lt hi)]
    exact hs.kern_low i hi
  kern_high i hi hi' hne := by
    rw [hk, hn, he _ hs.kern_reserved i hi']
    rcases hs.kern_high i hi hi' hne with hz | ⟨t, hR, ht, hent, hpte⟩
    · exact Or.inl hz
    · refine Or.inr ⟨t, hR, ht, hent, fun j hj => ?_⟩
      rw [he t hR j hj]
      exact hpte j hj

/-! ## Changes outside the tables -/

/-- The two states have the same directories and tables, kernel tables included. -/
structure SameTables (R : Nat → Prop) (s s' : Kernel) : Prop where
  npages : s'.npages = s.npages
  kern : s'.kernPgdir = s.kernPgdir
  dir : ∀ e, (s'.envs e).envPgdir = (s.envs e).envPgdir
  entry : ∀ f, (R f ∨ ∃ k, k.isTable ∧ target s k = some f) → ∀ i < 1024,
    s'.entry f i = s.entry f i

namespace SameTables

variable {R : Nat → Prop} {s s' : Kernel}

theorem target_eq (h : SameTables R s s') : target s' = target s := by
  refine target_congr h.dir ?_ ?_
  · intro e d hd i hi
    exact h.entry d (Or.inr ⟨.pgdir e, rfl, hd⟩) i (pdxUtop_lt hi)
  · intro e i t ht j hj
    exact h.entry t (Or.inr ⟨.pde e i, rfl, ht⟩) j hj

theorem shape (h : SameTables R s s') (hs : Shape R s) : Shape R s' where
  toKernShape := hs.toKernShape.congr h.npages h.kern fun f hf => h.entry f (Or.inl hf)
  dir_low e d i hd hi := by
    rw [h.dir] at hd
    rw [h.entry d (Or.inr ⟨.pgdir e, rfl, hd⟩) i (pdxUtop_lt hi), h.npages]
    exact hs.dir_low e d i hd hi
  dir_high e d i hd hi hi' := by
    rw [h.dir] at hd
    rw [h.entry d (Or.inr ⟨.pgdir e, rfl, hd⟩) i hi', h.kern,
      h.entry _ (Or.inl hs.kern_reserved) i hi']
    exact hs.dir_high e d i hd hi hi'
  table_unique := by
    rw [h.target_eq]
    exact hs.table_unique

theorem pteOf_eq (h : SameTables R s s') : pteOf s' = pteOf s :=
  pteOf_congr h.target_eq fun e i t ht j hj => h.entry t (Or.inr ⟨.pde e i, rfl, ht⟩) j hj

/-- Only memory outside the tables changes. -/
theorem of_mem (hmem : ∀ f, (R f ∨ ∃ k, k.isTable ∧ target s k = some f) →
      ∀ x, 4096 * f ≤ x → x < 4096 * f + 4096 → s'.mem x = s.mem x)
    (hn : s'.npages = s.npages) (hk : s'.kernPgdir = s.kernPgdir)
    (hd : ∀ e, (s'.envs e).envPgdir = (s.envs e).envPgdir) : SameTables R s s' where
  npages := hn
  kern := hk
  dir := hd
  entry f hf _ hi := entry_congr hi (hmem f hf)

end SameTables

/-! ## Changes of one entry -/

section Writes

variable {R : Nat → Prop} {s : Kernel} {e : EnvIx} {d t p : Nat}

theorem Shape.lt_two_pow {p : Nat} (hs : Shape R s) (hp : p < s.npages) : p < 2 ^ 20 := by
  have := hs.npages_le
  omega

/-- A page table refers to what its directory entry says. -/
theorem Shape.pde_eq (hs : Shape R s) {i : Fin pdxUtop} (hd : (s.envs e).envPgdir = some d)
    (ht : target s (.pde e i) = some t) : s.entry d i = tableEntry t ∧ t < s.npages := by
  rw [target_pde hd] at ht
  rcases hs.dir_low e d i hd i.isLt with hz | ⟨t', ht', he⟩
  · rw [hz] at ht
    cases ht
  · rw [he, entryTarget_tableEntry (hs.lt_two_pow ht')] at ht
    cases ht
    exact ⟨he, ht'⟩

/-- Writing an entry of a page table changes the target of one place. -/
theorem Shape.target_writePte (hs : Shape R s) {i : Fin pdxUtop}
    (ht : target s (.pde e i) = some t) (j : Fin nptentries) (w : BitVec 32) :
    target (s.writePte (entryAddr t j) w) =
      Function.update (target s) (.pte e i j) (entryTarget w) := by
  have hpde : ∀ e' i', target (s.writePte (entryAddr t j) w) (.pde e' i') =
      target s (.pde e' i') := by
    intro e' i'
    cases hd : (s.envs e').envPgdir with
    | none => simp [target, writePte, hd]
    | some d' =>
        -- a directory is not a page table
        have hne : d' ≠ t := by
          rintro rfl
          have := hs.table_unique (.pde e i) (.pgdir e') d' rfl ht hd
          cases this
        rw [target_pde (by exact hd), target_pde hd,
          entry_writePte_of_ne _ _ j.isLt (pdxUtop_lt i'.isLt) (Or.inl hne)]
  funext k
  cases k with
  | pgdir e' => rw [Function.update_of_ne (by simp)]; rfl
  | pde e' i' => rw [Function.update_of_ne (by simp), hpde]
  | pte e' i' j' =>
      cases ht' : target s (.pde e' i') with
      | none =>
          rw [Function.update_of_ne, target_pte_of_none ((hpde e' i').trans ht'),
            target_pte_of_none ht']
          intro heq
          cases heq
          rw [ht] at ht'
          cases ht'
      | some t' =>
          rw [target_pte ((hpde e' i').trans ht')]
          by_cases hk : (Place.pte e' i' j') = .pte e i j
          · cases hk
            rw [ht] at ht'
            cases ht'
            rw [Function.update_self, entry_writePte_self]
          · rw [Function.update_of_ne hk, target_pte ht',
              entry_writePte_of_ne _ _ j.isLt j'.isLt]
            -- the same table and the same index would be the same place
            by_contra hcon
            simp only [not_or, Decidable.not_not] at hcon
            obtain ⟨rfl, hj⟩ := hcon
            have := hs.table_unique (.pde e i) (.pde e' i') t' rfl ht ht'
            cases this
            rw [Fin.ext hj] at hk
            exact hk rfl

/-- The same, for the entries themselves. -/
theorem Shape.pteOf_writePte (hs : Shape R s) {i : Fin pdxUtop}
    (ht : target s (.pde e i) = some t) (j : Fin nptentries) (w : BitVec 32) :
    pteOf (s.writePte (entryAddr t j) w) = Function.update (pteOf s) (e, i, j) w := by
  have htar : ∀ e' i', target (s.writePte (entryAddr t j) w) (.pde e' i') =
      target s (.pde e' i') := by
    intro e' i'
    rw [hs.target_writePte ht, Function.update_of_ne (by simp)]
  funext k
  obtain ⟨e', i', j'⟩ := k
  cases ht' : target s (.pde e' i') with
  | none =>
      rw [pteOf_of_none ((htar e' i').trans ht'), Function.update_of_ne, pteOf_of_none ht']
      rintro heq
      cases heq
      rw [ht] at ht'
      cases ht'
  | some t' =>
      rw [pteOf_eq ((htar e' i').trans ht')]
      by_cases hk : (e', i', j') = (e, i, j)
      · cases hk
        rw [ht] at ht'
        cases ht'
        rw [Function.update_self, entry_writePte_self]
      · rw [Function.update_of_ne hk, pteOf_eq ht', entry_writePte_of_ne _ _ j.isLt j'.isLt]
        by_contra hcon
        simp only [not_or, Decidable.not_not] at hcon
        obtain ⟨rfl, hj⟩ := hcon
        have := hs.table_unique (.pde e i) (.pde e' i') t' rfl ht ht'
        cases this
        rw [Fin.ext hj] at hk
        exact hk rfl

theorem Shape.writePte (hs : Shape R s) {i : Fin pdxUtop} (ht : target s (.pde e i) = some t)
    (hR : ¬ R t) (j : Fin nptentries) (w : BitVec 32)
    (hw : ∀ p, entryTarget w = some p → ∀ k, k.isTable → target s k ≠ some p) :
    Shape R (s.writePte (entryAddr t j) w) := by
  have hother : ∀ f, f ≠ t → ∀ k < 1024,
      (s.writePte (entryAddr t j) w).entry f k = s.entry f k := by
    intro f hf k hk
    exact entry_writePte_of_ne _ _ j.isLt hk (Or.inl hf)
  have hkern : ∀ f, R f → ∀ k < 1024, (s.writePte (entryAddr t j) w).entry f k = s.entry f k :=
    fun f hf => hother f (by rintro rfl; exact hR hf)
  have hdir : ∀ e' d', (s.envs e').envPgdir = some d' → d' ≠ t := by
    rintro e' d' hd rfl
    have := hs.table_unique (.pde e i) (.pgdir e') d' rfl ht hd
    cases this
  refine ⟨hs.toKernShape.congr rfl rfl hkern, ?_, ?_, ?_⟩
  · intro e' d' i' hd hi'
    rw [hother d' (hdir e' d' hd) i' (pdxUtop_lt hi')]
    exact hs.dir_low e' d' i' hd hi'
  · intro e' d' i' hd hi' hi''
    rw [show (s.writePte (entryAddr t j) w).kernPgdir = s.kernPgdir from rfl,
      hother d' (hdir e' d' hd) i' hi'', hkern _ hs.kern_reserved i' hi'']
    exact hs.dir_high e' d' i' hd hi' hi''
  · intro k k' p hk hkp hkp'
    rw [hs.target_writePte ht] at hkp hkp'
    have hkne : k ≠ .pte e i j := by rintro rfl; cases hk
    rw [Function.update_of_ne hkne] at hkp
    by_cases hk' : k' = .pte e i j
    · subst hk'
      rw [Function.update_self] at hkp'
      exact absurd hkp (hw p hkp' k hk)
    · rw [Function.update_of_ne hk'] at hkp'
      exact hs.table_unique k k' p hk hkp hkp'

/-- Writing a directory entry for which no page was mapped through the old or the new
table changes the target of that entry only. -/
theorem Shape.target_writePde (hs : Shape R s) (hd : (s.envs e).envPgdir = some d)
    (i : Fin pdxUtop) (w : BitVec 32) (hold : ∀ j, target s (.pte e i j) = none)
    (hnew : ∀ t, entryTarget w = some t → t ≠ d ∧ ∀ j < nptentries, s.entry t j = 0#32) :
    target (s.writePte (entryAddr d i) w) =
      Function.update (target s) (.pde e i) (entryTarget w) := by
  have hpde : ∀ e' i', Place.pde e' i' ≠ .pde e i →
      target (s.writePte (entryAddr d i) w) (.pde e' i') = target s (.pde e' i') := by
    intro e' i' hne
    cases hd' : (s.envs e').envPgdir with
    | none => simp [target, Kernel.writePte, hd']
    | some d' =>
        rw [target_pde (by exact hd'), target_pde hd',
          entry_writePte_of_ne _ _ (pdxUtop_lt i.isLt) (pdxUtop_lt i'.isLt)]
        by_contra hcon
        simp only [not_or, Decidable.not_not] at hcon
        obtain ⟨rfl, hi⟩ := hcon
        have := hs.table_unique (.pgdir e) (.pgdir e') d' rfl hd hd'
        cases this
        rw [Fin.ext hi] at hne
        exact hne rfl
  have hself : target (s.writePte (entryAddr d i) w) (.pde e i) = entryTarget w := by
    rw [target_pde (by exact hd), entry_writePte_self]
  funext k
  cases k with
  | pgdir e' => rw [Function.update_of_ne (by simp)]; rfl
  | pde e' i' =>
      by_cases hk : Place.pde e' i' = .pde e i
      · rw [hk, hself, Function.update_self]
      · rw [Function.update_of_ne hk, hpde e' i' hk]
  | pte e' i' j' =>
      rw [Function.update_of_ne (by simp)]
      by_cases hk : Place.pde e' i' = .pde e i
      · cases hk
        rw [hold j']
        cases hw : entryTarget w with
        | none => exact target_pte_of_none (hself.trans hw) j'
        | some t =>
            obtain ⟨htd, hzero⟩ := hnew t hw
            rw [target_pte (hself.trans hw),
              entry_writePte_of_ne _ _ (pdxUtop_lt i.isLt) j'.isLt (Or.inl htd), hzero j' j'.isLt]
            rfl
      · cases ht' : target s (.pde e' i') with
        | none => rw [target_pte_of_none ((hpde e' i' hk).trans ht'), target_pte_of_none ht']
        | some t' =>
            have hne : t' ≠ d := by
              rintro rfl
              have := hs.table_unique (.pgdir e) (.pde e' i') t' rfl hd ht'
              cases this
            rw [target_pte ((hpde e' i' hk).trans ht'), target_pte ht',
              entry_writePte_of_ne _ _ (pdxUtop_lt i.isLt) j'.isLt (Or.inl hne)]

theorem Shape.writePde (hs : Shape R s) (hd : (s.envs e).envPgdir = some d) (hR : ¬ R d)
    (i : Fin pdxUtop) (w : BitVec 32) (hold : ∀ j, target s (.pte e i j) = none)
    (hw : w = 0#32 ∨ ∃ t < s.npages, w = tableEntry t ∧ (∀ j < nptentries, s.entry t j = 0#32) ∧
      ∀ k, target s k ≠ some t) :
    Shape R (s.writePte (entryAddr d i) w) := by
  have hnew : ∀ t, entryTarget w = some t → t ≠ d ∧ ∀ j < nptentries, s.entry t j = 0#32 := by
    intro t ht
    rcases hw with rfl | ⟨t', ht', rfl, hzero, hfresh⟩
    · cases ht
    · rw [entryTarget_tableEntry (hs.lt_two_pow ht')] at ht
      cases ht
      exact ⟨fun h => hfresh (.pgdir e) (h ▸ hd), hzero⟩
  have hkern : ∀ f, R f → ∀ k < 1024, (s.writePte (entryAddr d i) w).entry f k = s.entry f k :=
    fun f hf k hk => entry_writePte_of_ne _ _ (pdxUtop_lt i.isLt) hk
      (Or.inl (by rintro rfl; exact hR hf))
  refine ⟨hs.toKernShape.congr rfl rfl hkern, ?_, ?_, ?_⟩
  · intro e' d' i' hd' hi'
    by_cases hsame : d' = d ∧ i' = i
    · obtain ⟨rfl, rfl⟩ := hsame
      rw [entry_writePte_self]
      rcases hw with rfl | ⟨t, ht, rfl, _⟩
      · exact Or.inl rfl
      · exact Or.inr ⟨t, ht, rfl⟩
    · rw [entry_writePte_of_ne _ _ (pdxUtop_lt i.isLt) (pdxUtop_lt hi') (by omega)]
      exact hs.dir_low e' d' i' hd' hi'
  · intro e' d' i' hd' hi' hi''
    have hii : i' ≠ i := by have := i.isLt; omega
    rw [show (s.writePte (entryAddr d i) w).kernPgdir = s.kernPgdir from rfl,
      entry_writePte_of_ne _ _ (pdxUtop_lt i.isLt) hi'' (Or.inr hii), hkern _ hs.kern_reserved i' hi'']
    exact hs.dir_high e' d' i' hd' hi' hi''
  · rw [hs.target_writePde hd i w hold hnew]
    intro k k' p hk hkp hkp'
    by_cases hki : k = .pde e i
    · subst hki
      rw [Function.update_self] at hkp
      by_contra hne
      rw [Function.update_of_ne hne] at hkp'
      rcases hw with rfl | ⟨t, ht, rfl, _, hfresh⟩
      · cases hkp
      · rw [entryTarget_tableEntry (hs.lt_two_pow ht)] at hkp
        cases hkp
        exact hfresh k' hkp'
    · rw [Function.update_of_ne hki] at hkp
      by_cases hki' : k' = .pde e i
      · subst hki'
        rw [Function.update_self] at hkp'
        rcases hw with rfl | ⟨t, ht, rfl, _, hfresh⟩
        · cases hkp'
        · rw [entryTarget_tableEntry (hs.lt_two_pow ht)] at hkp'
          cases hkp'
          exact absurd hkp (hfresh k)
      · rw [Function.update_of_ne hki'] at hkp'
        exact hs.table_unique k k' p hk hkp hkp'

theorem Shape.pteOf_writePde (hs : Shape R s) (hd : (s.envs e).envPgdir = some d)
    (i : Fin pdxUtop) (w : BitVec 32) (hold : ∀ j, pteOf s (e, i, j) = 0#32)
    (hnew : ∀ t, entryTarget w = some t → t ≠ d ∧ ∀ j < nptentries, s.entry t j = 0#32) :
    pteOf (s.writePte (entryAddr d i) w) = pteOf s := by
  have hold' : ∀ j, target s (.pte e i j) = none := by
    intro j
    rw [target_pte_eq, hold j, entryTarget_zero]
  have htar := hs.target_writePde hd i w hold' hnew
  funext k
  obtain ⟨e', i', j'⟩ := k
  by_cases hk : Place.pde e' i' = .pde e i
  · cases hk
    rw [hold j']
    have hself : target (s.writePte (entryAddr d i) w) (.pde e i) = entryTarget w := by
      rw [htar, Function.update_self]
    cases hw : entryTarget w with
    | none => exact pteOf_of_none (hself.trans hw) j'
    | some t =>
        obtain ⟨htd, hzero⟩ := hnew t hw
        rw [pteOf_eq (hself.trans hw),
          entry_writePte_of_ne _ _ (pdxUtop_lt i.isLt) j'.isLt (Or.inl htd), hzero j' j'.isLt]
  · have hpde : target (s.writePte (entryAddr d i) w) (.pde e' i') = target s (.pde e' i') := by
      rw [htar, Function.update_of_ne hk]
    cases ht' : target s (.pde e' i') with
    | none => rw [pteOf_of_none (hpde.trans ht'), pteOf_of_none ht']
    | some t' =>
        have hne : t' ≠ d := by
          rintro rfl
          have := hs.table_unique (.pgdir e) (.pde e' i') t' rfl hd ht'
          cases this
        rw [pteOf_eq (hpde.trans ht'), pteOf_eq ht',
          entry_writePte_of_ne _ _ (pdxUtop_lt i.isLt) j'.isLt (Or.inl hne)]

end Writes

/-! ## Changes of a directory pointer -/

section Directories

variable {R : Nat → Prop} {s s' : Kernel} {e : EnvIx} {p : Nat}

/-- Giving an environment an empty directory changes the target of its pointer only. -/
theorem target_setDir (hnone : (s.envs e).envPgdir = none)
    (hdir : ∀ e', (s'.envs e').envPgdir = if e' = e then some p else (s.envs e').envPgdir)
    (hentry : ∀ f ≠ p, ∀ i < 1024, s'.entry f i = s.entry f i)
    (hlow : ∀ i < pdxUtop, s'.entry p i = 0#32) (hfresh : ∀ k, target s k ≠ some p) :
    target s' = Function.update (target s) (.pgdir e) (some p) ∧ pteOf s' = pteOf s := by
  have hpde : ∀ e' i', target s' (.pde e' i') = target s (.pde e' i') := by
    intro e' i'
    have hd' := hdir e'
    by_cases he : e' = e
    · subst he
      rw [if_pos rfl] at hd'
      rw [target_pde hd', hlow i' i'.isLt]
      simp [target, hnone]
    · rw [if_neg he] at hd'
      cases hd : (s.envs e').envPgdir with
      | none => simp [target, hd', hd]
      | some d =>
          have hne : d ≠ p := by
            rintro rfl
            exact hfresh (.pgdir e') hd
          rw [target_pde (hd'.trans hd), target_pde hd, hentry d hne i' (pdxUtop_lt i'.isLt)]
  have hpte : ∀ e' i' t, target s (.pde e' i') = some t → ∀ j < 1024,
      s'.entry t j = s.entry t j := by
    intro e' i' t ht j hj
    refine hentry t ?_ j hj
    rintro rfl
    exact hfresh _ ht
  constructor
  · funext k
    cases k with
    | pgdir e' =>
        by_cases he : e' = e
        · subst he
          rw [Function.update_self]
          simp [target, hdir]
        · rw [Function.update_of_ne (by simpa using he)]
          simp [target, hdir, he]
    | pde e' i' => rw [Function.update_of_ne (by simp), hpde]
    | pte e' i' j' =>
        rw [Function.update_of_ne (by simp)]
        cases ht : target s (.pde e' i') with
        | none => rw [target_pte_of_none ((hpde e' i').trans ht), target_pte_of_none ht]
        | some t =>
            rw [target_pte ((hpde e' i').trans ht), target_pte ht, hpte e' i' t ht j' j'.isLt]
  · funext k
    obtain ⟨e', i', j'⟩ := k
    cases ht : target s (.pde e' i') with
    | none => rw [pteOf_of_none ((hpde e' i').trans ht), pteOf_of_none ht]
    | some t =>
        rw [pteOf_eq ((hpde e' i').trans ht), pteOf_eq ht,
          hpte e' i' t ht j' j'.isLt]

theorem Shape.setDir (hs : Shape R s) (hn : s'.npages = s.npages)
    (hk : s'.kernPgdir = s.kernPgdir) (hnone : (s.envs e).envPgdir = none)
    (hdir : ∀ e', (s'.envs e').envPgdir = if e' = e then some p else (s.envs e').envPgdir)
    (hentry : ∀ f ≠ p, ∀ i < 1024, s'.entry f i = s.entry f i)
    (hlow : ∀ i < pdxUtop, s'.entry p i = 0#32)
    (hhigh : ∀ i, pdxUtop ≤ i → i < 1024 →
      s'.entry p i = if i = pdxUvpt then page2pa p ||| pteP ||| pteU else s.entry s.kernPgdir i)
    (hfresh : ∀ k, target s k ≠ some p) (hR : ¬ R p) : Shape R s' := by
  have hkern : ∀ f, R f → ∀ i < 1024, s'.entry f i = s.entry f i :=
    fun f hf => hentry f (by rintro rfl; exact hR hf)
  have hcases : ∀ e' d, (s'.envs e').envPgdir = some d →
      d = p ∨ d ≠ p ∧ (s.envs e').envPgdir = some d := by
    intro e' d hd
    rw [hdir] at hd
    split at hd
    · cases hd
      exact Or.inl rfl
    · refine Or.inr ⟨?_, hd⟩
      rintro rfl
      exact hfresh (.pgdir e') hd
  refine ⟨hs.toKernShape.congr hn hk hkern, ?_, ?_, ?_⟩
  · intro e' d i hd hi
    rcases hcases e' d hd with rfl | ⟨hne, hd⟩
    · exact Or.inl (hlow i hi)
    · rw [hentry d hne i (pdxUtop_lt hi), hn]
      exact hs.dir_low e' d i hd hi
  · intro e' d i hd hi hi'
    rw [hk, hkern _ hs.kern_reserved i hi']
    rcases hcases e' d hd with rfl | ⟨hne, hd⟩
    · exact hhigh i hi hi'
    · rw [hentry d hne i hi']
      exact hs.dir_high e' d i hd hi hi'
  · rw [(target_setDir hnone hdir hentry hlow hfresh).1]
    intro k k' q hkt hkq hkq'
    by_cases hke : k = .pgdir e
    · subst hke
      rw [Function.update_self] at hkq
      cases hkq
      by_contra hne
      rw [Function.update_of_ne hne] at hkq'
      exact hfresh k' hkq'
    · rw [Function.update_of_ne hke] at hkq
      by_cases hke' : k' = .pgdir e
      · subst hke'
        rw [Function.update_self] at hkq'
        cases hkq'
        exact absurd hkq (hfresh k)
      · rw [Function.update_of_ne hke'] at hkq'
        exact hs.table_unique k k' q hkt hkq hkq'

/-- Taking away an empty directory changes the target of its pointer only. -/
theorem target_clearDir (hempty : ∀ i, target s (.pde e i) = none)
    (hdir : ∀ e', (s'.envs e').envPgdir = if e' = e then none else (s.envs e').envPgdir)
    (hmem : s'.mem = s.mem) :
    target s' = Function.update (target s) (.pgdir e) none ∧ pteOf s' = pteOf s := by
  have hentry : ∀ f i, s'.entry f i = s.entry f i := fun f i => by rw [entry, hmem, entry]
  have hpde : ∀ e' i', target s' (.pde e' i') = target s (.pde e' i') := by
    intro e' i'
    by_cases he : e' = e
    · subst he
      rw [hempty]
      simp [target, hdir]
    · simp [target, hdir, he, hentry]
  constructor
  · funext k
    cases k with
    | pgdir e' =>
        by_cases he : e' = e
        · subst he
          rw [Function.update_self]
          simp [target, hdir]
        · rw [Function.update_of_ne (by simpa using he)]
          simp [target, hdir, he]
    | pde e' i' => rw [Function.update_of_ne (by simp), hpde]
    | pte e' i' j' =>
        rw [Function.update_of_ne (by simp)]
        cases ht : target s (.pde e' i') with
        | none => rw [target_pte_of_none ((hpde e' i').trans ht), target_pte_of_none ht]
        | some t => rw [target_pte ((hpde e' i').trans ht), target_pte ht, hentry]
  · funext k
    obtain ⟨e', i', j'⟩ := k
    cases ht : target s (.pde e' i') with
    | none => rw [pteOf_of_none ((hpde e' i').trans ht), pteOf_of_none ht]
    | some t => rw [pteOf_eq ((hpde e' i').trans ht), pteOf_eq ht, hentry]

theorem Shape.clearDir (hs : Shape R s) (hn : s'.npages = s.npages)
    (hk : s'.kernPgdir = s.kernPgdir) (hempty : ∀ i, target s (.pde e i) = none)
    (hdir : ∀ e', (s'.envs e').envPgdir = if e' = e then none else (s.envs e').envPgdir)
    (hmem : s'.mem = s.mem) : Shape R s' := by
  have hentry : ∀ f i, s'.entry f i = s.entry f i := fun f i => by rw [entry, hmem, entry]
  have hd : ∀ e' d, (s'.envs e').envPgdir = some d → (s.envs e').envPgdir = some d := by
    intro e' d hd
    rw [hdir] at hd
    split at hd
    · cases hd
    · exact hd
  refine ⟨hs.toKernShape.congr hn hk fun f _ i _ => hentry f i, ?_, ?_, ?_⟩
  · intro e' d i hd' hi
    rw [hentry, hn]
    exact hs.dir_low e' d i (hd e' d hd') hi
  · intro e' d i hd' hi hi'
    rw [hentry, hk, hentry]
    exact hs.dir_high e' d i (hd e' d hd') hi hi'
  · rw [(target_clearDir hempty hdir hmem).1]
    intro k k' q hkt hkq hkq'
    have hold : ∀ k, Function.update (target s) (.pgdir e) none k = some q →
        target s k = some q := by
      intro k hk
      by_cases hke : k = .pgdir e
      · subst hke
        rw [Function.update_self] at hk
        cases hk
      · rwa [Function.update_of_ne hke] at hk
    exact hs.table_unique k k' q hkt (hold k hkq) (hold k' hkq')

end Directories

end Jos.Kern
