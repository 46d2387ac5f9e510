import Mathlib.Algebra.BigOperators.Group.Finset.Piecewise
import Mathlib.Algebra.BigOperators.Ring.Finset
import Mathlib.Data.Fintype.Basic
import Mathlib.Tactic.Common

/-!
# Reference counting

A family of places, each of which may refer to one resource, and a counter of `w` bits
for each resource. `Ledger own free ref t` says that the free list and the counters
account for the references `t` of all places, for the resources in `own`: a counter holds
the number of references modulo `2 ^ w`, and the free resources are those without any.
Dropping a reference is safe as long as the counter has not wrapped around.

A resource that has been taken off the free list and is not referenced yet is accounted
for by leaving it out of `own`; linking it, or giving it back, puts it there again. The
lemmas are the five things an allocator can do: take a resource (`Ledger.alloc`), give it
back unused (`Ledger.unalloc`), make its first reference (`Ledger.link`), add one
(`Ledger.add`) and drop one (`Ledger.drop`).
-/

namespace Jos.Lib

open Finset

variable {P F : Type*} [Fintype P] [DecidableEq F]

/-- The number of places that refer to `p`. -/
def refCount (t : P → Option F) (p : F) : Nat := #{k | t k = some p}

theorem refCount_eq_sum (t : P → Option F) (p : F) :
    refCount t p = ∑ k, if t k = some p then 1 else 0 := by
  rw [refCount, Finset.card_filter]

variable [DecidableEq P] in
/-- Changing one reference changes the counts of its old and its new target. -/
theorem refCount_update (t : P → Option F) (k : P) (v : Option F) (p : F) :
    refCount (Function.update t k v) p + (if t k = some p then 1 else 0) =
      refCount t p + (if v = some p then 1 else 0) := by
  rw [refCount_eq_sum, refCount_eq_sum, ← Finset.add_sum_erase univ _ (mem_univ k),
    ← Finset.add_sum_erase univ (fun k => if t k = some p then 1 else 0) (mem_univ k)]
  have hrest : ∑ x ∈ univ.erase k, (if Function.update t k v x = some p then 1 else 0) =
      ∑ x ∈ univ.erase k, if t x = some p then 1 else 0 := by
    refine Finset.sum_congr rfl fun x hx => ?_
    rw [Function.update_of_ne (Finset.ne_of_mem_erase hx)]
  simp only [Function.update_self, hrest]
  omega

theorem refCount_eq_zero {t : P → Option F} {p : F} : refCount t p = 0 ↔ ∀ k, t k ≠ some p := by
  simp [refCount, Finset.filter_eq_empty_iff]

theorem refCount_pos {t : P → Option F} {p : F} : 0 < refCount t p ↔ ∃ k, t k = some p := by
  rw [Nat.pos_iff_ne_zero, Ne, refCount_eq_zero]
  simp

theorem refCount_le_one {t : P → Option F} {p : F}
    (h : ∀ k k', t k = some p → t k' = some p → k = k') : refCount t p ≤ 1 := by
  refine Finset.card_le_one.mpr fun k hk k' hk' => ?_
  simp only [Finset.mem_filter, Finset.mem_univ, true_and] at hk hk'
  exact h k k' hk hk'

theorem refCount_mono {t t' : P → Option F} {p : F} (h : ∀ k, t' k = some p → t k = some p) :
    refCount t' p ≤ refCount t p := by
  refine Finset.card_le_card fun k hk => ?_
  simp only [Finset.mem_filter, Finset.mem_univ, true_and] at hk ⊢
  exact h k hk

/-- References held at the places that `g` names are among all references. -/
theorem refCount_comp_le {Q : Type*} [Fintype Q] {t : P → Option F} {v : Q → Option F} (g : Q → P)
    {p : F} (hg : Function.Injective g) (h : ∀ q, v q = some p → t (g q) = some p) :
    refCount v p ≤ refCount t p := by
  classical
  rw [refCount, ← Finset.card_image_of_injective _ hg]
  refine Finset.card_le_card fun k hk => ?_
  simp only [Finset.mem_image, Finset.mem_filter, Finset.mem_univ, true_and] at hk ⊢
  obtain ⟨q, hq, rfl⟩ := hk
  exact h q hq

/-- Two resources are referred to no more often than a third when each of their places has its own
place of the third. -/
theorem refCount_add_le {t : P → Option F} {p q r : F} (hpq : p ≠ q) (g : P → P)
    (hg : ∀ k, t k = some p ∨ t k = some q → t (g k) = some r)
    (hinj : ∀ k k', t k = some p ∨ t k = some q → t k' = some p ∨ t k' = some q → g k = g k' → k = k') :
    refCount t p + refCount t q ≤ refCount t r := by
  classical
  have hdisj : Disjoint ({k | t k = some p} : Finset P) ({k | t k = some q} : Finset P) := by
    rw [Finset.disjoint_filter]
    intro k _ hp hq
    rw [hp] at hq
    exact hpq (Option.some.inj hq)
  rw [refCount, refCount, ← Finset.card_union_of_disjoint hdisj]
  have hmem : ∀ k, k ∈ ({k | t k = some p} : Finset P) ∪ ({k | t k = some q} : Finset P) ↔
      t k = some p ∨ t k = some q := by simp
  refine Finset.card_le_card_of_injOn g (fun k hk => ?_) fun k hk k' hk' heq => ?_
  · simp only [Finset.coe_filter, Finset.mem_univ, true_and, Set.mem_ofPred_eq]
    exact hg k ((hmem k).mp hk)
  · exact hinj k k' ((hmem k).mp hk) ((hmem k').mp hk') heq

variable [DecidableEq P] in
/-- Places that take their references from another family. -/
theorem refCount_le_add {Q : Type*} [Fintype Q] {t t' : P → Option F} {v : Q → Option F} (g : Q → P)
    {p : F} (h : ∀ k, t' k = some p → t k = some p ∨ ∃ q, g q = k ∧ v q = some p) :
    refCount t' p ≤ refCount t p + refCount v p := by
  have hsub : ({k | t' k = some p} : Finset P) ⊆
      ({k | t k = some p} : Finset P) ∪ ({q | v q = some p} : Finset Q).image g := by
    intro k hk
    simp only [Finset.mem_filter, Finset.mem_univ, true_and] at hk
    simp only [Finset.mem_union, Finset.mem_filter, Finset.mem_univ, true_and, Finset.mem_image]
    rcases h k hk with ht | ⟨q, rfl, hq⟩
    · exact Or.inl ht
    · exact Or.inr ⟨q, hq, rfl⟩
  refine Nat.le_trans (Finset.card_le_card hsub) (Nat.le_trans (Finset.card_union_le _ _) ?_)
  exact Nat.add_le_add_left Finset.card_image_le _

/-- The free list and the counters account for the references of all places. -/
structure Ledger {w : Nat} (own : F → Prop) (free : List F) (ref : F → BitVec w)
    (t : P → Option F) : Prop where
  nodup : free.Nodup
  free_own : ∀ p ∈ free, own p
  free_unref : ∀ p ∈ free, ∀ k, t k ≠ some p
  ref_eq : ∀ p, own p → ref p = BitVec.ofNat w (refCount t p)
  used : ∀ p, own p → p ∉ free → 0 < refCount t p
  target_own : ∀ k p, t k = some p → own p

namespace Ledger

variable {w : Nat} {own : F → Prop} {free : List F} {ref : F → BitVec w} {t : P → Option F}
  {p q : F} {k : P}

theorem free_ref (h : Ledger own free ref t) (hp : p ∈ free) : ref p = 0#w := by
  rw [h.ref_eq p (h.free_own p hp), refCount_eq_zero.mpr (h.free_unref p hp)]

theorem target_notMem (h : Ledger own free ref t) (hk : t k = some p) : p ∉ free := fun hp =>
  h.free_unref p hp k hk

/-- A counter that has not wrapped around holds the number of references. -/
theorem toNat_ref (h : Ledger own free ref t) (hp : own p) (hb : refCount t p < 2 ^ w) :
    (ref p).toNat = refCount t p := by
  rw [h.ref_eq p hp, BitVec.toNat_ofNat, Nat.mod_eq_of_lt hb]

/-- Only what is accounted for matters. -/
theorem congr {own' : F → Prop} {ref' : F → BitVec w} (h : Ledger own free ref t)
    (hown : ∀ p, own' p ↔ own p) (href : ∀ p, own p → ref' p = ref p) :
    Ledger own' free ref' t where
  nodup := h.nodup
  free_own p hp := (hown p).mpr (h.free_own p hp)
  free_unref := h.free_unref
  ref_eq p hp := by
    rw [href p ((hown p).mp hp)]
    exact h.ref_eq p ((hown p).mp hp)
  used p hp := h.used p ((hown p).mp hp)
  target_own k p hk := (hown p).mpr (h.target_own k p hk)

/-- Take the first free resource. -/
theorem alloc (h : Ledger own (p :: free) ref t) :
    Ledger (fun q => own q ∧ q ≠ p) free ref t where
  nodup := (List.nodup_cons.mp h.nodup).2
  free_own q hq := by
    refine ⟨h.free_own q (List.mem_cons_of_mem _ hq), ?_⟩
    rintro rfl
    exact (List.nodup_cons.mp h.nodup).1 hq
  free_unref q hq := h.free_unref q (List.mem_cons_of_mem _ hq)
  ref_eq q hq := h.ref_eq q hq.1
  used q hq hqf := h.used q hq.1 (by simp [hq.2, hqf])
  target_own k q hk := by
    refine ⟨h.target_own k q hk, ?_⟩
    rintro rfl
    exact h.free_unref q List.mem_cons_self k hk

/-- Give back a resource that is not referenced. -/
theorem unalloc (h : Ledger (fun q => own q ∧ q ≠ p) free ref t) (hp : own p) (hr : ref p = 0#w) :
    Ledger own (p :: free) ref t where
  nodup := List.nodup_cons.mpr ⟨fun hpf => (h.free_own p hpf).2 rfl, h.nodup⟩
  free_own q hq := by
    rcases List.mem_cons.mp hq with rfl | hq
    · exact hp
    · exact (h.free_own q hq).1
  free_unref q hq := by
    rcases List.mem_cons.mp hq with rfl | hq
    · exact fun k hk => (h.target_own k q hk).2 rfl
    · exact h.free_unref q hq
  ref_eq q hq := by
    by_cases hqp : q = p
    · subst hqp
      have hz : refCount t q = 0 := refCount_eq_zero.mpr fun k hk => (h.target_own k q hk).2 rfl
      rw [hr, hz]
    · exact h.ref_eq q ⟨hq, hqp⟩
  used q hq hqf := by
    simp only [List.mem_cons, not_or] at hqf
    exact h.used q ⟨hq, hqf.1⟩ hqf.2
  target_own k q hk := (h.target_own k q hk).1

variable [DecidableEq P]

/-- Referring to a resource that is not free keeps the free resources unreferenced. -/
theorem update_free_unref (h : Ledger own free ref t) (hpf : p ∉ free) (hq : q ∈ free) (k' : P) :
    Function.update t k (some p) k' ≠ some q := by
  intro hk'
  by_cases hkk : k' = k
  · subst hkk
    rw [Function.update_self] at hk'
    cases hk'
    exact hpf hq
  · rw [Function.update_of_ne hkk] at hk'
    exact h.free_unref q hq k' hk'

/-- Make the first reference to a resource. -/
theorem link (h : Ledger (fun q => own q ∧ q ≠ p) free ref t) (hp : own p) (hk : t k = none) :
    Ledger own free (Function.update ref p 1#w) (Function.update t k (some p)) where
  nodup := h.nodup
  free_own q hq := (h.free_own q hq).1
  free_unref q hq := h.update_free_unref (fun hpf => (h.free_own p hpf).2 rfl) hq
  ref_eq q hq := by
    have hcount := refCount_update t k (some p) q
    rw [hk] at hcount
    by_cases hqp : q = p
    · subst hqp
      have hz : refCount t q = 0 := refCount_eq_zero.mpr fun k hk => (h.target_own k q hk).2 rfl
      simp only [hz, reduceCtorEq, if_false, if_true] at hcount
      have hone : refCount (Function.update t k (some q)) q = 1 := by omega
      rw [Function.update_self, hone]
    · simp only [reduceCtorEq, if_false, Option.some.injEq, Ne.symm hqp, add_zero] at hcount
      rw [Function.update_of_ne hqp, hcount]
      exact h.ref_eq q ⟨hq, hqp⟩
  used q hq hqf := by
    by_cases hqp : q = p
    · subst hqp
      exact refCount_pos.mpr ⟨k, Function.update_self ..⟩
    · obtain ⟨k', hk'⟩ := refCount_pos.mp (h.used q ⟨hq, hqp⟩ hqf)
      refine refCount_pos.mpr ⟨k', ?_⟩
      rw [Function.update_of_ne, hk']
      rintro rfl
      rw [hk] at hk'
      cases hk'
  target_own k' q hk' := by
    by_cases hkk : k' = k
    · subst hkk
      rw [Function.update_self] at hk'
      cases hk'
      exact hp
    · rw [Function.update_of_ne hkk] at hk'
      exact (h.target_own k' q hk').1

/-- Add a reference to a resource in use. -/
theorem add (h : Ledger own free ref t) (hp : own p) (hpf : p ∉ free) (hk : t k = none) :
    Ledger own free (Function.update ref p (ref p + 1#w)) (Function.update t k (some p)) where
  nodup := h.nodup
  free_own := h.free_own
  free_unref q hq := h.update_free_unref hpf hq
  ref_eq q hq := by
    have hcount := refCount_update t k (some p) q
    rw [hk] at hcount
    by_cases hqp : q = p
    · subst hqp
      simp only [reduceCtorEq, if_false, if_true, add_zero] at hcount
      rw [Function.update_self, hcount, h.ref_eq q hq, BitVec.ofNat_add]
    · simp only [reduceCtorEq, if_false, Option.some.injEq, Ne.symm hqp, add_zero] at hcount
      rw [Function.update_of_ne hqp, hcount]
      exact h.ref_eq q hq
  used q hq hqf := by
    obtain ⟨k', hk'⟩ := refCount_pos.mp (h.used q hq hqf)
    refine refCount_pos.mpr ⟨k', ?_⟩
    rw [Function.update_of_ne, hk']
    rintro rfl
    rw [hk] at hk'
    cases hk'
  target_own k' q hk' := by
    by_cases hkk : k' = k
    · subst hkk
      rw [Function.update_self] at hk'
      cases hk'
      exact hp
    · rw [Function.update_of_ne hkk] at hk'
      exact h.target_own k' q hk'

/-- Drop a reference; the resource becomes free when its counter reaches zero. The counter
must not have wrapped around. -/
theorem drop (h : Ledger own free ref t) (hk : t k = some q) (hb : refCount t q < 2 ^ w) :
    Ledger own (if ref q - 1#w = 0#w then q :: free else free) (Function.update ref q (ref q - 1#w))
      (Function.update t k none) := by
  have hq : own q := h.target_own k q hk
  have hqf : q ∉ free := h.target_notMem hk
  have hcountq : refCount (Function.update t k none) q + 1 = refCount t q := by
    have := refCount_update t k none q
    simpa only [hk, if_true, reduceCtorEq, if_false, add_zero] using this
  have hcount : ∀ r, r ≠ q → refCount (Function.update t k none) r = refCount t r := by
    intro r hr
    have := refCount_update t k none r
    simpa only [hk, Option.some.injEq, Ne.symm hr, if_false, reduceCtorEq, add_zero] using this
  have href : ref q - 1#w = BitVec.ofNat w (refCount (Function.update t k none) q) := by
    rw [h.ref_eq q hq, ← hcountq, BitVec.ofNat_add, BitVec.add_sub_cancel]
  have hzero : ref q - 1#w = 0#w ↔ refCount (Function.update t k none) q = 0 := by
    rw [href]
    constructor
    · intro h0
      have h0' := congrArg BitVec.toNat h0
      rw [BitVec.toNat_ofNat, Nat.mod_eq_of_lt (by omega)] at h0'
      simpa using h0'
    · intro h0
      rw [h0]
  have hsub : ∀ k' r, Function.update t k none k' = some r → t k' = some r := by
    intro k' r hk'
    by_cases hkk : k' = k
    · subst hkk
      rw [Function.update_self] at hk'
      cases hk'
    · rwa [Function.update_of_ne hkk] at hk'
  refine ⟨?_, ?_, ?_, ?_, ?_, fun k' r hk' => h.target_own k' r (hsub k' r hk')⟩
  · split
    · exact List.nodup_cons.mpr ⟨hqf, h.nodup⟩
    · exact h.nodup
  · intro r hr
    split at hr
    · rcases List.mem_cons.mp hr with rfl | hr
      · exact hq
      · exact h.free_own r hr
    · exact h.free_own r hr
  · intro r hr k' hk'
    by_cases hrq : r = q
    · subst hrq
      split at hr
      · rename_i hz
        exact refCount_eq_zero.mp (hzero.mp hz) k' hk'
      · exact hqf hr
    · refine h.free_unref r ?_ k' (hsub k' r hk')
      split at hr
      · exact (List.mem_cons.mp hr).resolve_left hrq
      · exact hr
  · intro r hr
    by_cases hrq : r = q
    · subst hrq
      rw [Function.update_self, href]
    · rw [Function.update_of_ne hrq, hcount r hrq]
      exact h.ref_eq r hr
  · intro r hr hrf
    by_cases hrq : r = q
    · subst hrq
      rw [Nat.pos_iff_ne_zero]
      intro h0
      rw [if_pos (hzero.mpr h0)] at hrf
      exact hrf List.mem_cons_self
    · rw [hcount r hrq]
      refine h.used r hr fun hmem => hrf ?_
      split
      · exact List.mem_cons_of_mem _ hmem
      · exact hmem

end Ledger

variable [DecidableEq P] in
/-- Dropping a reference adds no reference. -/
theorem refCount_update_none_le (t : P → Option F) (k : P) (p : F) :
    refCount (Function.update t k none) p ≤ refCount t p := by
  have := refCount_update t k none p
  simp only [reduceCtorEq, if_false] at this
  omega

variable [DecidableEq P] in
/-- Changing one reference adds at most one reference to a resource. -/
theorem refCount_update_le (t : P → Option F) (k : P) (v : Option F) (p : F) :
    refCount (Function.update t k v) p ≤ refCount t p + 1 := by
  have := refCount_update t k v p
  have hle : (if v = some p then 1 else 0) ≤ 1 := by split <;> omega
  omega

end Jos.Lib
