import Jos.Kern.Machine
import Mathlib.Algebra.BigOperators.Fin
import Mathlib.Data.Fintype.BigOperators

/-!
# Frame accounting

In every reachable state each frame that was not reserved at boot is on the free list once
and unreferenced, or off the list with a reference count that is the number of its
mappings, of its uses as a page table and of its uses as a page directory.

Main result:
* `frame_accounting`: the equation in every reachable state.
-/

namespace Jos.Kern

open Jos.Lib Kernel Finset

/-- The number of present page table entries below `UTOP` that map frame `p`. -/
def pteCount (s : Kernel) (p : Nat) : Nat := #{k : Slot | entryTarget (pteOf s k) = some p}

/-- The number of directory entries below `UTOP` that use frame `p` as a page table. -/
def pdeCount (s : Kernel) (p : Nat) : Nat :=
  #{k : EnvIx × Fin pdxUtop | target s (.pde k.1 k.2) = some p}

/-- Frame `p` is the page directory of some environment. -/
def IsPgdir (s : Kernel) (p : Nat) : Prop := ∃ e, (s.envs e).envPgdir = some p

instance (s : Kernel) (p : Nat) : Decidable (IsPgdir s p) :=
  inferInstanceAs (Decidable (∃ _, _))

/-- The three kinds of places. -/
def placeEquiv : Place ≃ EnvIx ⊕ (EnvIx × Fin pdxUtop) ⊕ Slot where
  toFun
    | .pgdir e => .inl e
    | .pde e i => .inr (.inl (e, i))
    | .pte e i j => .inr (.inr (e, i, j))
  invFun
    | .inl e => .pgdir e
    | .inr (.inl (e, i)) => .pde e i
    | .inr (.inr (e, i, j)) => .pte e i j
  left_inv k := by cases k <;> rfl
  right_inv
    | .inl _ => rfl
    | .inr (.inl _) => rfl
    | .inr (.inr _) => rfl

variable {R : Nat → Prop} {s : Kernel} {p : Nat}

/-- At most one environment uses a frame as its directory. -/
theorem Shape.card_pgdir (h : Shape R s) (p : Nat) :
    #{e : EnvIx | (s.envs e).envPgdir = some p} = if IsPgdir s p then 1 else 0 := by
  split
  · rename_i hp
    obtain ⟨e, he⟩ := hp
    rw [Finset.card_eq_one]
    refine ⟨e, Finset.ext fun e' => ?_⟩
    simp only [mem_filter, mem_univ, true_and, mem_singleton]
    constructor
    · intro he'
      have := h.table_unique (.pgdir e) (.pgdir e') p rfl he he'
      cases this
      rfl
    · rintro rfl
      exact he
  · rename_i hp
    rw [Finset.card_eq_zero, Finset.filter_eq_empty_iff]
    exact fun e _ he => hp ⟨e, he⟩

/-- The references to a frame, by kind. -/
theorem Shape.refCount_eq (h : Shape R s) (p : Nat) :
    refCount (target s) p = pteCount s p + pdeCount s p + if IsPgdir s p then 1 else 0 := by
  have hpte : pteCount s p = ∑ k : Slot, if target s (placeOf k) = some p then 1 else 0 := by
    rw [pteCount, card_filter]
    exact sum_congr rfl fun k _ => by rw [target_placeOf]
  have hpde : pdeCount s p =
      ∑ k : EnvIx × Fin pdxUtop, if target s (.pde k.1 k.2) = some p then 1 else 0 := by
    rw [pdeCount, card_filter]
  have hdir : (if IsPgdir s p then 1 else 0) =
      ∑ e : EnvIx, if target s (.pgdir e) = some p then 1 else 0 := by
    rw [← h.card_pgdir p, card_filter]
    rfl
  rw [refCount_eq_sum, ← Equiv.sum_comp placeEquiv.symm, Fintype.sum_sum_type,
    Fintype.sum_sum_type, hpte, hpde, hdir]
  simp only [placeEquiv, Equiv.coe_fn_symm_mk]
  rw [add_comm, add_comm (∑ _, _) (∑ k : Slot, _)]
  rfl

/-- A frame used as a table is mapped by no page table entry. -/
theorem Shape.pteCount_of_table (h : Shape R s) (hp : 0 < pdeCount s p ∨ IsPgdir s p) :
    pteCount s p = 0 := by
  have htab : ∃ k : Place, k.isTable ∧ target s k = some p := by
    rcases hp with hp | ⟨e, he⟩
    · obtain ⟨k, _, hk⟩ := Finset.filter_nonempty_iff.mp (Finset.card_pos.mp hp)
      exact ⟨.pde k.1 k.2, rfl, hk⟩
    · exact ⟨.pgdir e, rfl, he⟩
  obtain ⟨k, hk, hkp⟩ := htab
  rw [pteCount, Finset.card_eq_zero, Finset.filter_eq_empty_iff]
  intro k' _ hk'
  rw [← target_placeOf] at hk'
  rw [← h.table_unique k (placeOf k') p hk hkp hk'] at hk
  cases hk

/-- A frame on the free list is there once and nothing refers to it; any other frame is
referred to, and its counter is the number of references. No table is mapped. -/
structure Accounted (R : Nat → Prop) (s : Kernel) (free : List Nat) : Prop where
  list : Linked s.ppLink s.pageFreeList free
  frame : ∀ p < s.npages, ¬ R p →
    (free.count p = 1 ∧ s.ppRef p = 0#16 ∧ pteCount s p = 0 ∧ pdeCount s p = 0 ∧ ¬ IsPgdir s p) ∨
    (p ∉ free ∧ 0 < (s.ppRef p).toNat ∧
      (s.ppRef p).toNat = pteCount s p + pdeCount s p + if IsPgdir s p then 1 else 0)
  not_mapped : ∀ p, 0 < pdeCount s p ∨ IsPgdir s p → pteCount s p = 0

/-- In every state of every run the frames are accounted for: none is lost, none is free and in use at
the same time, and `pp_ref` is the number of references. -/
theorem frame_accounting (h : Reachable R s) : ∃ free, Accounted R s free := by
  obtain ⟨hinv, hb⟩ := h.inv
  have hshape := hinv.pages.shape
  obtain ⟨free, hlink, hled, _⟩ := hinv.pages.accounts.pages
  refine ⟨free, hlink, fun p hp hR => ?_, fun p => hshape.pteCount_of_table⟩
  have hown : Owned R [] s p := ⟨hp, hR, by simp⟩
  by_cases hpf : p ∈ free
  · left
    have hz := refCount_eq_zero.mpr (hled.free_unref p hpf)
    rw [hshape.refCount_eq p] at hz
    refine ⟨List.count_eq_one_of_mem hled.nodup hpf, hled.free_ref hpf, by omega, by omega, ?_⟩
    intro hdir
    rw [if_pos hdir] at hz
    omega
  · right
    have heq := hled.toNat_ref hown (hb p)
    have hpos := hled.used p hown hpf
    rw [← heq] at hpos
    rw [hshape.refCount_eq p] at heq
    exact ⟨hpf, hpos, heq⟩

/-- One environment forks and maps a page: frame 2 is its directory, frame 3 the child's,
frame 4 the page and frame 5 its page table. -/
def accountingRun : List Cmd :=
  [.create, .call env0 .exofork, .call env0 (.pageAlloc 0#32 0x1000#32 7#32)]

theorem frame_accounting_small :
    (∃ free, Accounted smallReserved (smallAfter accountingRun) free) ∧
      (smallAfter accountingRun).ppRef 4 = 1#16 ∧
      (smallAfter accountingRun).pageFreeList = some 6 :=
  ⟨frame_accounting (smallAfter_reachable (by decide +kernel) (by decide)), by decide +kernel,
    by decide +kernel⟩

end Jos.Kern
