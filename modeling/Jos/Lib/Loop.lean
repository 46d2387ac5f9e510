import Mathlib.Data.List.Range
import Mathlib.Tactic.Common

/-!
# Loops that may fail

A `for` loop over `0, …, n - 1` whose body may fail is `List.foldlM` in the option monad.
The rule below is the usual one: an invariant indexed by the loop counter that every
iteration advances. Two runs that start alike and go on alike end alike.
-/

namespace Jos.Lib

variable {σ α β γ δ : Type*}

/-- The loop rule: the loop ends without failing and the invariant holds at its end. -/
theorem foldlM_range_inv {f : σ → Nat → Option σ} (P : Nat → σ → Prop) {n : Nat} {s : σ}
    (hinit : P 0 s)
    (hstep : ∀ i < n, ∀ s, P i s → ∃ s', f s i = some s' ∧ P (i + 1) s') :
    ∃ s', (List.range n).foldlM f s = some s' ∧ P n s' := by
  induction n with
  | zero => exact ⟨s, rfl, hinit⟩
  | succ n ih =>
      obtain ⟨s1, hs1, hP1⟩ := ih fun i hi => hstep i (Nat.lt_succ_of_lt hi)
      obtain ⟨s2, hs2, hP2⟩ := hstep n (Nat.lt_succ_self n) s1 hP1
      refine ⟨s2, ?_, hP2⟩
      rw [List.range_succ, List.foldlM_append, hs1]
      simp [hs2]

/-- The loop rule for a loop that is known to end. -/
theorem foldlM_range_of_some {f : σ → Nat → Option σ} (P : Nat → σ → Prop) {n : Nat} {s s' : σ}
    (hrun : (List.range n).foldlM f s = some s') (hinit : P 0 s)
    (hstep : ∀ i < n, ∀ s s', f s i = some s' → P i s → P (i + 1) s') : P n s' := by
  induction n generalizing s' with
  | zero =>
      cases hrun
      exact hinit
  | succ n ih =>
      rw [List.range_succ, List.foldlM_append, Option.bind_eq_bind, Option.bind_eq_some_iff] at hrun
      obtain ⟨s1, hs1, hlast⟩ := hrun
      have hP := ih hs1 fun i hi => hstep i (Nat.lt_succ_of_lt hi)
      have hf : f s1 n = some s' := by simpa using hlast
      exact hstep n (Nat.lt_succ_self n) s1 s' hf hP

/-- The loop rule for a loop that begins at `a`. -/
theorem foldlM_range'_inv {f : σ → Nat → Option σ} (P : Nat → σ → Prop) {a n : Nat} {s : σ}
    (hinit : P a s)
    (hstep : ∀ i, a ≤ i → i < a + n → ∀ s, P i s → ∃ s', f s i = some s' ∧ P (i + 1) s') :
    ∃ s', (List.range' a n).foldlM f s = some s' ∧ P (a + n) s' := by
  rw [List.range'_eq_map_range, List.foldlM_map]
  refine foldlM_range_inv (fun i => P (a + i)) hinit fun i hi s hs => ?_
  exact hstep (a + i) (by omega) (by omega) s hs

/-- The loop rule for a body that fails exactly where `Q` does not hold: the loop ends if `Q` holds
all the way, and fails otherwise. -/
theorem foldlM_range_cases {f : σ → Nat → Option σ} (P : Nat → σ → Prop) (Q : Nat → Prop) {n : Nat}
    {s : σ} (hinit : P 0 s)
    (hstep : ∀ i < n, ∀ s, P i s →
      (f s i = none ∧ ¬ Q i) ∨ ∃ s', f s i = some s' ∧ P (i + 1) s' ∧ Q i) :
    ((List.range n).foldlM f s = none ∧ ∃ i < n, ¬ Q i) ∨
      ∃ s', (List.range n).foldlM f s = some s' ∧ P n s' ∧ ∀ i < n, Q i := by
  induction n with
  | zero => exact Or.inr ⟨s, rfl, hinit, fun i hi => absurd hi (Nat.not_lt_zero i)⟩
  | succ n ih =>
      rw [List.range_succ, List.foldlM_append]
      rcases ih fun i hi => hstep i (Nat.lt_succ_of_lt hi) with
        ⟨hnone, i, hi, hQ⟩ | ⟨s1, hs1, hP1, hQ⟩
      · exact Or.inl ⟨by rw [hnone]; rfl, i, Nat.lt_succ_of_lt hi, hQ⟩
      · rw [hs1]
        rcases hstep n (Nat.lt_succ_self n) s1 hP1 with ⟨hnone, hQn⟩ | ⟨s2, hs2, hP2, hQn⟩
        · exact Or.inl ⟨by simp [hnone], n, Nat.lt_succ_self n, hQn⟩
        · refine Or.inr ⟨s2, by simp [hs2], hP2, fun i hi => ?_⟩
          rcases Nat.lt_succ_iff_lt_or_eq.mp hi with hlt | rfl
          · exact hQ i hlt
          · exact hQn

/-- What every iteration preserves holds at the end of a loop that ends. -/
theorem foldlM_inv {f : σ → α → Option σ} (P : σ → Prop) {l : List α} {s s' : σ}
    (hstep : ∀ a s s', f s a = some s' → P s → P s') (h : l.foldlM f s = some s') (hs : P s) :
    P s' := by
  induction l generalizing s with
  | nil =>
      cases h
      exact hs
  | cons a l ih =>
      simp only [List.foldlM_cons, Option.bind_eq_bind, Option.bind_eq_some_iff] at h
      obtain ⟨s1, hs1, hrest⟩ := h
      exact ih hrest (hstep a s s1 hs1 hs)

/-- A loop over a list that ends at the first negative result and returns it. -/
def untilError (f : σ → α → Option (σ × Int)) : List α → σ → Option (σ × Int)
  | [], s => some (s, 0)
  | a :: l, s => do
      let (s, r) ← f s a
      if r < 0 then some (s, r) else untilError f l s

/-- The iterations of such a loop that have no error. -/
def withoutError (f : σ → α → Option (σ × Int)) (s : σ) (a : α) : Option σ :=
  (f s a).bind fun x => if x.2 < 0 then none else some x.1

theorem untilError_of_foldlM {f : σ → α → Option (σ × Int)} {l : List α} {s s' : σ}
    (h : l.foldlM (withoutError f) s = some s') : untilError f l s = some (s', 0) := by
  induction l generalizing s with
  | nil =>
      cases h
      rfl
  | cons a l ih =>
      simp only [List.foldlM_cons, withoutError, Option.bind_eq_bind, Option.bind_eq_some_iff] at h
      obtain ⟨s1, ⟨⟨s2, r⟩, hstep, hr⟩, hrest⟩ := h
      simp only at hr
      split at hr
      · cases hr
      · rename_i hneg
        cases hr
        simp only [untilError, hstep, Option.bind_eq_bind, Option.bind_some, if_neg hneg]
        exact ih hrest

/-- The rule for a body that goes on where `stop` is `none`, and ends with `Q b` where it is `some b`:
the loop ends as its first such iteration does, and without an error if there is none. -/
theorem untilError_findSome {f : σ → α → Option (σ × Int)} {stop : α → Option β} (P : σ → Prop)
    (Q : β → Option (σ × Int) → Prop) {l : List α} {s : σ} (hinit : P s)
    (hgo : ∀ a s, stop a = none → P s → ∃ s' r, f s a = some (s', r) ∧ 0 ≤ r ∧ P s')
    (hstop : ∀ a s b, stop a = some b → P s → Q b (f s a))
    (hQ : ∀ b x, Q b x → x = none ∨ ∃ s r, x = some (s, r) ∧ r < 0) :
    (l.findSome? stop = none → ∃ s', untilError f l s = some (s', 0) ∧ P s') ∧
      ∀ b, l.findSome? stop = some b → Q b (untilError f l s) := by
  induction l generalizing s with
  | nil => exact ⟨fun _ => ⟨s, rfl, hinit⟩, fun b hb => by cases hb⟩
  | cons a l ih =>
      rw [List.findSome?_cons]
      cases ha : stop a with
      | none =>
          obtain ⟨s', r, hrun, hr, hP⟩ := hgo a s ha hinit
          have hrest : untilError f (a :: l) s = untilError f l s' := by
            simp only [untilError, hrun, Option.bind_eq_bind, Option.bind_some, if_neg (Int.not_lt.mpr hr)]
          simp only [hrest]
          exact ih hP
      | some b =>
          have hq := hstop a s b ha hinit
          have hrest : untilError f (a :: l) s = f s a := by
            rcases hQ b _ hq with hx | ⟨s', r, hx, hr⟩
            · simp only [untilError, hx, Option.bind_eq_bind, Option.bind_none]
            · simp only [untilError, hx, Option.bind_eq_bind, Option.bind_some, if_pos hr]
          refine ⟨fun h => (nomatch h), fun b' hb' => ?_⟩
          cases hb'
          rw [hrest]
          exact hq

theorem rel_none_right {r : α → β → Prop} {x : Option α} (h : Option.Rel r x none) : x = none := by
  cases h
  rfl

theorem rel_some_right {r : α → β → Prop} {x : Option α} {b : β} (h : Option.Rel r x (some b)) :
    ∃ a, x = some a ∧ r a b := by
  cases h with
  | some hab => exact ⟨_, rfl, hab⟩

theorem rel_some_left {r : α → β → Prop} {a : α} {y : Option β} (h : Option.Rel r (some a) y) :
    ∃ b, y = some b ∧ r a b := by
  cases h with
  | some hab => exact ⟨_, rfl, hab⟩

/-- Two computations that are alike, continued alike. -/
theorem rel_bind {r : α → β → Prop} {s : γ → δ → Prop} {x : Option α} {y : Option β}
    {k : α → Option γ} {l : β → Option δ} (h : Option.Rel r x y)
    (hk : ∀ a b, r a b → Option.Rel s (k a) (l b)) : Option.Rel s (x.bind k) (y.bind l) := by
  cases h with
  | some hab => exact hk _ _ hab
  | none => exact .none

/-- Two loops whose iterations are alike. -/
theorem foldlM_rel {r : α → β → Prop} {f : α → γ → Option α} {g : β → γ → Option β}
    (hstep : ∀ a b c, r a b → Option.Rel r (f a c) (g b c)) (l : List γ) {a : α} {b : β}
    (h : r a b) : Option.Rel r (l.foldlM f a) (l.foldlM g b) := by
  induction l generalizing a b with
  | nil => exact .some h
  | cons c l ih =>
      simp only [List.foldlM_cons]
      exact rel_bind (hstep a b c h) fun a' b' h' => ih h'

end Jos.Lib
