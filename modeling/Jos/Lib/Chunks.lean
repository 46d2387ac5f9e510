import Mathlib.Data.List.Basic
import Mathlib.Data.List.Induction

/-!
# Chunks

A buffer of `n` items in front of a sink: items go to the buffer, and a full buffer goes to the sink.
Whatever the sink does, it is given the items in their order, in chunks of `n`, and what is left stays
in the buffer.
-/

namespace Jos.Lib

variable {σ α : Type*}

/-- An item for a buffer of `n` items in front of `sink`. -/
def buffered (n : Nat) (sink : σ → List α → σ) (b : σ × List α) (x : α) : σ × List α :=
  if b.2.length + 1 = n then (sink b.1 (b.2 ++ [x]), []) else (b.1, b.2 ++ [x])

/-- `l` is in chunks of `n` items, and what is left makes no chunk. -/
structure IsChunks (n : Nat) (l : List α) (chunks : List (List α)) (rest : List α) : Prop where
  concat : chunks.flatten ++ rest = l
  full : ∀ c ∈ chunks, c.length = n
  lt : rest.length < n

section

variable {n : Nat} {l rest : List α} {chunks : List (List α)}

/-- What the sink and the buffer have after `l`. -/
theorem foldl_buffered (sink : σ → List α → σ) (hn : 0 < n) (s : σ) (l : List α) : ∃ chunks rest, IsChunks n l chunks rest ∧
    l.foldl (buffered n sink) (s, []) = (chunks.foldl sink s, rest) := by
  induction l using List.reverseRecOn with
  | nil => exact ⟨[], [], ⟨rfl, fun c hc => absurd hc List.not_mem_nil, hn⟩, rfl⟩
  | append_singleton l x ih =>
      obtain ⟨chunks, rest, h, heq⟩ := ih
      rw [List.foldl_concat, heq]
      unfold buffered
      have hlt := h.lt
      by_cases hfull : rest.length + 1 = n
      · refine ⟨chunks ++ [rest ++ [x]], [], ⟨?_, fun c hc => ?_, hn⟩, ?_⟩
        · rw [List.flatten_append, List.flatten_singleton, List.append_nil, ← List.append_assoc, h.concat]
        · rcases List.mem_append.mp hc with hc | hc
          · exact h.full c hc
          · rw [List.mem_singleton.mp hc, List.length_append, List.length_singleton, hfull]
        · rw [if_pos hfull, List.foldl_concat]
      · refine ⟨chunks, rest ++ [x], ⟨?_, h.full, ?_⟩, if_neg hfull⟩
        · rw [← List.append_assoc, h.concat]
        · rw [List.length_append, List.length_singleton]
          omega

/-- The chunks, and what is left if there is something left. -/
theorem IsChunks.flatten_pieces [DecidableEq α] (h : IsChunks n l chunks rest) :
    (if rest = [] then chunks else chunks ++ [rest]).flatten = l := by
  by_cases hrest : rest = []
  · rw [if_pos hrest, ← h.concat, hrest, List.append_nil]
  · rw [if_neg hrest, List.flatten_append, List.flatten_singleton, h.concat]

theorem IsChunks.pieces_le [DecidableEq α] (h : IsChunks n l chunks rest) :
    ∀ p ∈ (if rest = [] then chunks else chunks ++ [rest]), p.length ≤ n := by
  intro p hp
  have hmem : p ∈ chunks ∨ p = rest := by
    split at hp
    · exact Or.inl hp
    · exact (List.mem_append.mp hp).imp id List.mem_singleton.mp
  rcases hmem with hmem | rfl
  · exact Nat.le_of_eq (h.full p hmem)
  · exact Nat.le_of_lt h.lt

end

end Jos.Lib
