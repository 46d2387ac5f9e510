import Jos.Kern.Env
import Jos.Lib.Linked
import Jos.Lib.Ledger
import Mathlib.Tactic.DeriveFintype
import Mathlib.Data.Fintype.Sigma
import Mathlib.Data.Fintype.Sum

/-!
# References to physical pages

The places from which environments refer to physical pages: the page directory pointer of
an environment, the page directory entries below `UTOP` and the entries of the page tables
they point to. `target s k` is the frame that place `k` refers to in state `s`; the
reference count of a frame should be the number of places that refer to it.

`PageInv R held s` is the invariant of the page tables and of the page allocator. The
frames in `R` were reserved at boot; those in `held` have been taken off the free list by
an operation in progress that has not mapped them yet.
-/

namespace Jos.Kern

open Jos.Lib Kernel

/-- A place that may refer to a frame. -/
inductive Place
  | pgdir (e : EnvIx)
  | pde (e : EnvIx) (i : Fin pdxUtop)
  | pte (e : EnvIx) (i : Fin pdxUtop) (j : Fin nptentries)
deriving DecidableEq, Fintype

/-- The places whose target is used as a page directory or page table. -/
def Place.isTable : Place → Bool
  | .pgdir _ | .pde _ _ => true
  | .pte _ _ _ => false

/-- The frame a present entry refers to. -/
def entryTarget (w : BitVec 32) : Option Nat := if isPresent w then some (pteFrame w) else none

/-- The frame that place `k` refers to. -/
def target (s : Kernel) : Place → Option Nat
  | .pgdir e => (s.envs e).envPgdir
  | .pde e i => (s.envs e).envPgdir.bind fun d => entryTarget (s.entry d i)
  | .pte e i j => ((s.envs e).envPgdir.bind fun d => entryTarget (s.entry d i)).bind
      fun t => entryTarget (s.entry t j)

/-- A page below `UTOP` of an environment, by its two indices. -/
abbrev Slot := EnvIx × Fin pdxUtop × Fin nptentries

/-- The page table entry of a page; zero when there is no page table. -/
def pteOf (s : Kernel) : Slot → BitVec 32 := fun (e, i, j) =>
  match target s (.pde e i) with
  | none => 0#32
  | some t => s.entry t j

/-- The directory entry that `pgdir_walk` makes for a page table in frame `t`. -/
def tableEntry (t : Nat) : BitVec 32 := page2pa t ||| pteP ||| pteW ||| pteU

/-- The frames accounted for by the free list and the reference counts. -/
def Owned (R : Nat → Prop) (held : List Nat) (s : Kernel) (p : Nat) : Prop :=
  p < s.npages ∧ ¬ R p ∧ p ∉ held

/-! ## Entries -/

@[simp] theorem entryTarget_zero : entryTarget 0#32 = none := rfl

theorem flagsPWU : pteP ||| pteW ||| pteU = 7#32 := by decide

theorem tableEntry_eq (t : Nat) : tableEntry t = page2pa t ||| 7#32 := by
  rw [tableEntry, BitVec.or_assoc, BitVec.or_assoc, ← BitVec.or_assoc pteP, flagsPWU]

theorem pteFrame_tableEntry {t : Nat} (h : t < 2 ^ 20) : pteFrame (tableEntry t) = t := by
  rw [tableEntry_eq]
  exact pteFrame_entry h (by decide)

theorem tableEntry_and (t : Nat) {m : BitVec 32} (hm : m.toNat < 4096) :
    tableEntry t &&& m = 7#32 &&& m := by
  rw [tableEntry_eq]
  exact entry_and hm

theorem isPresent_tableEntry (t : Nat) : isPresent (tableEntry t) = true := by
  rw [isPresent, tableEntry_and t (by decide)]
  rfl

theorem tableEntry_ne_zero (t : Nat) : tableEntry t ≠ 0#32 := by
  intro h
  have := isPresent_tableEntry t
  rw [h] at this
  cases this

theorem entryTarget_tableEntry {t : Nat} (h : t < 2 ^ 20) :
    entryTarget (tableEntry t) = some t := by
  rw [entryTarget, if_pos (isPresent_tableEntry t), pteFrame_tableEntry h]

/-- The entry that `page_insert` makes. -/
theorem entryTarget_insert {pp : Nat} {perm : BitVec 32} (h : pp < 2 ^ 20)
    (hp : perm.toNat < 4096) : entryTarget (page2pa pp ||| perm ||| pteP) = some pp := by
  rw [entryTarget, if_pos (isPresent_or_pteP _), BitVec.or_assoc,
    pteFrame_entry h (or_toNat_lt hp (by decide))]

/-! ## Reading entries after a change of memory -/

theorem entry_congr {s s' : Kernel} {f i : Nat} (hi : i < 1024)
    (h : ∀ x, 4096 * f ≤ x → x < 4096 * f + 4096 → s'.mem x = s.mem x) :
    s'.entry f i = s.entry f i := by
  refine Mem.read32_congr fun x hx hx' => ?_
  simp only [entryAddr] at hx hx'
  exact h x (by omega) (by omega)

theorem entry_writePte_self (s : Kernel) (f i : Nat) (v : BitVec 32) :
    (s.writePte (entryAddr f i) v).entry f i = v := Mem.read32_write32_self ..

theorem entry_writePte_of_ne (s : Kernel) {f i f' i' : Nat} (v : BitVec 32) (hi : i < 1024)
    (hi' : i' < 1024) (h : f' ≠ f ∨ i' ≠ i) :
    (s.writePte (entryAddr f i) v).entry f' i' = s.entry f' i' := by
  refine Mem.read32_write32_of_disjoint _ _ ?_
  simp only [entryAddr]
  omega

theorem entry_fill_zero (s : Kernel) {f i : Nat} (hi : i < 1024) :
    Kernel.entry { s with mem := s.mem.fill (4096 * f) 0 pgsize } f i = 0#32 := by
  refine Mem.read32_fill_zero _ ?_ ?_
  · simp only [entryAddr]
    omega
  · simp only [entryAddr, pgsize]
    omega

/-! ## Targets of places -/

section Targets

variable {s s' : Kernel} {e : EnvIx} {d t p : Nat} {i : Fin pdxUtop} {j : Fin nptentries}

theorem target_pde (hd : (s.envs e).envPgdir = some d) (i : Fin pdxUtop) :
    target s (.pde e i) = entryTarget (s.entry d i) := by
  simp [target, hd]

theorem target_pte (ht : target s (.pde e i) = some t) (j : Fin nptentries) :
    target s (.pte e i j) = entryTarget (s.entry t j) := by
  simp only [target] at ht ⊢
  rw [ht, Option.bind_some]

theorem target_pte_of_none (ht : target s (.pde e i) = none) (j : Fin nptentries) :
    target s (.pte e i j) = none := by
  simp only [target] at ht ⊢
  rw [ht, Option.bind_none]

theorem exists_pgdir_of_pde (h : target s (.pde e i) = some t) :
    ∃ d, (s.envs e).envPgdir = some d ∧ entryTarget (s.entry d i) = some t := by
  simpa only [target, Option.bind_eq_some_iff] using h

theorem exists_pde_of_pte (h : target s (.pte e i j) = some p) :
    ∃ t, target s (.pde e i) = some t ∧ entryTarget (s.entry t j) = some p := by
  simpa only [target, Option.bind_eq_some_iff] using h

/-- The targets depend on the directory pointers and on the contents of the tables. -/
theorem target_congr (hdir : ∀ e, (s'.envs e).envPgdir = (s.envs e).envPgdir)
    (hpde : ∀ e d, (s.envs e).envPgdir = some d → ∀ i < pdxUtop, s'.entry d i = s.entry d i)
    (hpte : ∀ e i t, target s (.pde e i) = some t → ∀ j < nptentries,
      s'.entry t j = s.entry t j) : target s' = target s := by
  have hpde' : ∀ e i, target s' (.pde e i) = target s (.pde e i) := by
    intro e i
    cases hd : (s.envs e).envPgdir with
    | none => simp [target, hdir, hd]
    | some d => rw [target_pde (by rw [hdir, hd]), target_pde hd, hpde e d hd i i.isLt]
  funext k
  cases k with
  | pgdir e => exact hdir e
  | pde e i => exact hpde' e i
  | pte e i j =>
      cases ht : target s (.pde e i) with
      | none => rw [target_pte_of_none ((hpde' e i).trans ht), target_pte_of_none ht]
      | some t =>
          rw [target_pte ((hpde' e i).trans ht), target_pte ht, hpte e i t ht j j.isLt]

theorem pteOf_eq (ht : target s (.pde e i) = some t) (j : Fin nptentries) :
    pteOf s (e, i, j) = s.entry t j := by
  simp [pteOf, ht]

theorem pteOf_of_none (ht : target s (.pde e i) = none) (j : Fin nptentries) :
    pteOf s (e, i, j) = 0#32 := by
  simp [pteOf, ht]

theorem target_pte_eq (s : Kernel) (e : EnvIx) (i : Fin pdxUtop) (j : Fin nptentries) :
    target s (.pte e i j) = entryTarget (pteOf s (e, i, j)) := by
  cases ht : target s (.pde e i) with
  | none => rw [target_pte_of_none ht, pteOf_of_none ht, entryTarget_zero]
  | some t => rw [target_pte ht, pteOf_eq ht]

/-- The entries seen through the tables depend on the same data as the targets. -/
theorem pteOf_congr (htar : target s' = target s)
    (hpte : ∀ e i t, target s (.pde e i) = some t → ∀ j < nptentries,
      s'.entry t j = s.entry t j) : pteOf s' = pteOf s := by
  funext k
  obtain ⟨e, i, j⟩ := k
  cases ht : target s (.pde e i) with
  | none => rw [pteOf_of_none ht, pteOf_of_none (by rw [htar, ht])]
  | some t => rw [pteOf_eq ht, pteOf_eq (by rw [htar, ht]), hpte e i t ht j j.isLt]

end Targets

end Jos.Kern
