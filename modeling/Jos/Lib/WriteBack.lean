import Jos.Lib.Pool

/-!
# Write-back stores

A system has cells with two values: the one that it works with, and the one behind it that outlives
the system. A step stores to a cell, or flushes it, or does neither. Then the value behind a cell is
the one that the system had when the cell was flushed last.
-/

namespace Jos.Lib

variable {σ ε α β : Type*}

/-- The law of a write-back store, for steps from the states in `ok`. -/
structure WriteBack (step : σ → ε → σ → Prop) (ok : σ → Prop) (view back : σ → α → β)
    (stores flushes : ε → α → Prop) : Prop where
  keeps : ∀ s e s', step s e s' → ok s → ok s'
  flushed : ∀ s e s' a, step s e s' → ok s → flushes e a → back s' a = view s a
  back_same : ∀ s e s' a, step s e s' → ok s → ¬ flushes e a → back s' a = back s a
  view_same : ∀ s e s' a, step s e s' → ok s → ¬ stores e a → view s' a = view s a

section

variable {step : σ → ε → σ → Prop} {ok : σ → Prop} {view back : σ → α → β}
  {stores flushes : ε → α → Prop} {s s' : σ} {es : List ε} {a : α}

/-- Where nothing is stored, the system goes on with the value it has. -/
theorem WriteBack.view_of_run (hp : WriteBack step ok view back stores flushes)
    (h : LabelledRun step s es s') (hs : ok s) (hno : ∀ e ∈ es, ¬ stores e a) :
    view s' a = view s a := by
  induction h with
  | nil s => rfl
  | @cons s s₁ s' e es hstep rest ih =>
      have hfirst := hp.view_same s e s₁ a hstep hs (hno e (List.mem_cons_self ..))
      have hrest := ih (hp.keeps s e s₁ hstep hs) fun e he => hno e (List.mem_cons_of_mem _ he)
      exact hrest.trans hfirst

/-- The last flush of a cell decides what is behind it. -/
theorem WriteBack.last_flush (hp : WriteBack step ok view back stores flushes)
    (h : LabelledRun step s es s') (hs : ok s) (a : α) :
    ((∀ e ∈ es, ¬ flushes e a) ∧ back s' a = back s a) ∨
      ∃ es₁ e es₂ s₁, es = es₁ ++ e :: es₂ ∧ flushes e a ∧ (∀ e ∈ es₂, ¬ flushes e a) ∧
        LabelledRun step s es₁ s₁ ∧ LabelledRun step s₁ (e :: es₂) s' ∧ back s' a = view s₁ a := by
  induction h with
  | nil s => exact Or.inl ⟨fun e he => absurd he List.not_mem_nil, rfl⟩
  | @cons s s₁ s' e es hstep rest ih =>
      rcases ih (hp.keeps s e s₁ hstep hs) with ⟨hno, hback⟩ | ⟨es₁, e', es₂, s₂, rfl, he', hno, h₁, h₂, hback⟩
      · by_cases he : flushes e a
        · refine Or.inr ⟨[], e, es, s, rfl, he, hno, .nil s, .cons hstep rest, ?_⟩
          exact hback.trans (hp.flushed s e s₁ a hstep hs he)
        · refine Or.inl ⟨fun e' he' => ?_, hback.trans (hp.back_same s e s₁ a hstep hs he)⟩
          rcases List.mem_cons.mp he' with rfl | hmem
          · exact he
          · exact hno e' hmem
      · exact Or.inr ⟨e :: es₁, e', es₂, s₂, rfl, he', hno, .cons hstep h₁, h₂, hback⟩

end

end Jos.Lib
