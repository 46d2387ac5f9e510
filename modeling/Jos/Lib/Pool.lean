import Mathlib.Tactic.Common

/-!
# Pools

A system hands out items of a pool and takes them back. An item is free or not in each state. When an
item is handed out it is free before and not after, and only giving it back makes it free. In a run an
item is then never handed out twice without being given back in between.
-/

namespace Jos.Lib

variable {σ ε α : Type*}

/-- A run with the labels of its steps. -/
inductive LabelledRun (step : σ → ε → σ → Prop) : σ → List ε → σ → Prop
  | nil (s : σ) : LabelledRun step s [] s
  | cons {s s₁ s' : σ} {e : ε} {es : List ε} (h : step s e s₁) (rest : LabelledRun step s₁ es s') :
      LabelledRun step s (e :: es) s'

/-- The law of a pool, for steps from the states in `ok`. -/
structure Pool (step : σ → ε → σ → Prop) (ok : σ → Prop) (free : σ → α → Prop)
    (takes gives : ε → α → Prop) : Prop where
  keeps : ∀ s e s', step s e s' → ok s → ok s'
  taken : ∀ s e s' a, step s e s' → ok s → takes e a → free s a ∧ ¬ free s' a
  given : ∀ s e s' a, step s e s' → ok s → ¬ free s a → free s' a → gives e a

section

variable {step : σ → ε → σ → Prop} {ok : σ → Prop} {free : σ → α → Prop} {takes gives : ε → α → Prop}
  {s s' : σ} {es es₁ es₂ : List ε} {e₁ e₂ : ε} {a : α}

theorem LabelledRun.split (h : LabelledRun step s (es₁ ++ es₂) s') :
    ∃ s₁, LabelledRun step s es₁ s₁ ∧ LabelledRun step s₁ es₂ s' := by
  induction es₁ generalizing s with
  | nil => exact ⟨s, .nil s, h⟩
  | cons e es₁ ih =>
      cases h with
      | cons hstep rest =>
          obtain ⟨s₁, h₁, h₂⟩ := ih rest
          exact ⟨s₁, .cons hstep h₁, h₂⟩

theorem LabelledRun.inv (P : σ → Prop) (hstep : ∀ s e s', step s e s' → P s → P s')
    (h : LabelledRun step s es s') (hs : P s) : P s' := by
  induction h with
  | nil s => exact hs
  | cons hfirst _ ih => exact ih (hstep _ _ _ hfirst hs)

/-- What is not free and is free later was given back. -/
theorem Pool.given_of_run (hp : Pool step ok free takes gives) (h : LabelledRun step s es s') (hs : ok s)
    (hbefore : ¬ free s a) (hafter : free s' a) : ∃ e ∈ es, gives e a := by
  induction h with
  | nil s => exact absurd hafter hbefore
  | @cons s s₁ s' e es hstep rest ih =>
      by_cases hmid : free s₁ a
      · exact ⟨e, List.mem_cons_self .., hp.given s e s₁ a hstep hs hbefore hmid⟩
      · obtain ⟨e', he', hg⟩ := ih (hp.keeps s e s₁ hstep hs) hmid hafter
        exact ⟨e', List.mem_cons_of_mem _ he', hg⟩

/-- Between two steps that hand out the same item there is one that gives it back. -/
theorem Pool.given_between (hp : Pool step ok free takes gives)
    (h : LabelledRun step s (es₁ ++ e₁ :: es ++ e₂ :: es₂) s') (hs : ok s) (h₁ : takes e₁ a)
    (h₂ : takes e₂ a) : ∃ e ∈ es, gives e a := by
  rw [List.append_assoc, List.cons_append] at h
  obtain ⟨s₁, hfront, hrest⟩ := h.split
  have hs₁ : ok s₁ := hfront.inv ok hp.keeps hs
  cases hrest with
  | cons hfirst hrest =>
      have hs₂ := hp.keeps _ _ _ hfirst hs₁
      obtain ⟨s₃, hmid, hlast⟩ := hrest.split
      have hs₃ : ok s₃ := hmid.inv ok hp.keeps hs₂
      cases hlast with
      | cons hsecond _ =>
          exact hp.given_of_run hmid hs₂ (hp.taken _ _ _ a hfirst hs₁ h₁).2
            (hp.taken _ _ _ a hsecond hs₃ h₂).1

end

end Jos.Lib
