import Mathlib.Tactic.Common

/-!
# Loops with a condition

A `while` loop over a state, with a bound on the iterations. A measure shows that the bound is not
reached; what a state says about the state that the loop ends in is carried back from the end, one
iteration at a time.
-/

namespace Jos.Lib

variable {σ : Type*}

/-- `while (go s) s = step s`, for less than `fuel` iterations. -/
def whileLoop (go : σ → Bool) (step : σ → σ) : Nat → σ → Option σ
  | 0, _ => none
  | fuel + 1, s => if go s then whileLoop go step fuel (step s) else some s

section

variable {go : σ → Bool} {step : σ → σ} {fuel : Nat} {s s' : σ}

/-- A loop with a measure ends. -/
theorem whileLoop_ends (μ : σ → Nat) (hdec : ∀ s, go s = true → μ (step s) < μ s) (h : μ s < fuel) :
    ∃ s', whileLoop go step fuel s = some s' := by
  induction fuel generalizing s with
  | zero => exact absurd h (Nat.not_lt_zero _)
  | succ fuel ih =>
      unfold whileLoop
      split
      · rename_i hgo
        exact ih (Nat.lt_of_lt_of_le (hdec s hgo) (Nat.lt_succ_iff.mp h))
      · exact ⟨s, rfl⟩

/-- The loop from `s` ends in `s'`. -/
def LoopEnds (go : σ → Bool) (step : σ → σ) (s s' : σ) : Prop := ∃ fuel, whileLoop go step fuel s = some s'

theorem LoopEnds.stopped (h : LoopEnds go step s s') (hgo : go s = false) : s' = s := by
  obtain ⟨fuel, h⟩ := h
  cases fuel with
  | zero => cases h
  | succ fuel =>
      unfold whileLoop at h
      rw [hgo] at h
      cases h
      rfl

theorem LoopEnds.next (h : LoopEnds go step s s') (hgo : go s = true) : LoopEnds go step (step s) s' := by
  obtain ⟨fuel, h⟩ := h
  cases fuel with
  | zero => cases h
  | succ fuel =>
      unfold whileLoop at h
      rw [if_pos hgo] at h
      exact ⟨fuel, h⟩

/-- The rule for what a state says about the end. -/
theorem LoopEnds.rel (P : σ → σ → Prop) (hstop : ∀ s, go s = false → P s s)
    (hstep : ∀ s s', go s = true → LoopEnds go step (step s) s' → P (step s) s' → P s s')
    (h : LoopEnds go step s s') : P s s' := by
  obtain ⟨fuel, hrun⟩ := h
  induction fuel generalizing s with
  | zero => cases hrun
  | succ fuel ih =>
      by_cases hgo : go s = true
      · unfold whileLoop at hrun
        rw [if_pos hgo] at hrun
        exact hstep s s' hgo ⟨fuel, hrun⟩ (ih hrun)
      · have hend : LoopEnds go step s s' := ⟨fuel + 1, hrun⟩
        rw [hend.stopped (Bool.eq_false_iff.mpr hgo)]
        exact hstop s (Bool.eq_false_iff.mpr hgo)

/-- The rule of the invariant. -/
theorem LoopEnds.inv (I : σ → Prop) (hstep : ∀ s, go s = true → I s → I (step s))
    (h : LoopEnds go step s s') (hs : I s) : I s' ∧ go s' = false := by
  refine h.rel (fun s s' => I s → I s' ∧ go s' = false) (fun s hgo hs => ⟨hs, hgo⟩) ?_ hs
  intro s s' hgo _ ih hs
  exact ih (hstep s hgo hs)

end

end Jos.Lib
