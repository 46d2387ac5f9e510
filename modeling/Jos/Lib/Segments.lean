import Mathlib.Data.List.TakeWhile

/-!
# Segments of a list

The nonempty parts of a list between the occurrences of a separator.
-/

namespace Jos.Lib

variable {α : Type*} [DecidableEq α] {a : α} {l : List α}

/-- The maximal nonempty parts of `l` without `a`. -/
def segments (a : α) (l : List α) : List (List α) := (l.splitOn a).filter fun s => !s.isEmpty

theorem segments_nil (a : α) : segments a [] = [] := rfl

theorem segments_append (a : α) (l l' : List α) :
    segments a (l ++ a :: l') = segments a l ++ segments a l' := by
  rw [segments, List.splitOn_append_cons_self, List.filter_append]
  rfl

theorem segments_cons (a : α) (l : List α) : segments a (a :: l) = segments a l :=
  segments_append a [] l

theorem segments_concat (a : α) (l : List α) : segments a (l ++ [a]) = segments a l := by
  rw [segments_append, segments_nil, List.append_nil]

theorem segments_of_notMem (h : a ∉ l) (hne : l ≠ []) : segments a l = [l] := by
  have hempty : (!l.isEmpty) = true := by
    cases l with
    | nil => exact absurd rfl hne
    | cons => rfl
  rw [segments, List.splitOn_eq_singleton h, List.filter_cons, if_pos hempty]
  rfl

theorem segments_dropWhile (a : α) (l : List α) :
    segments a (l.dropWhile (· = a)) = segments a l := by
  induction l with
  | nil => rfl
  | cons b l ih =>
      by_cases hb : b = a
      · rw [List.dropWhile_cons, if_pos (decide_eq_true hb), ih, hb, segments_cons]
      · rw [List.dropWhile_cons, if_neg fun h => hb (of_decide_eq_true h)]

theorem notMem_takeWhile (a : α) (l : List α) : a ∉ l.takeWhile (· ≠ a) := by
  intro h
  have hne := List.mem_takeWhile_imp h
  simp at hne

/-- The first segment of a list that does not begin with the separator. -/
theorem segments_eq_cons (hne : l ≠ []) (hhead : l.head? ≠ some a) : segments a l =
    l.takeWhile (· ≠ a) :: segments a ((l.dropWhile (· ≠ a)).dropWhile (· = a)) := by
  have hno := notMem_takeWhile a l
  have hfirst : l.takeWhile (· ≠ a) ≠ [] := by
    cases l with
    | nil => exact absurd rfl hne
    | cons b l =>
        have hb : b ≠ a := fun hb => hhead (congrArg some hb)
        rw [List.takeWhile_cons, if_pos (decide_eq_true hb)]
        exact List.cons_ne_nil _ _
  have hsplit := List.takeWhile_append_dropWhile (p := (· ≠ a)) (l := l)
  rw [segments_dropWhile]
  cases hrest : l.dropWhile (· ≠ a) with
  | nil =>
      rw [hrest, List.append_nil] at hsplit
      rw [hsplit] at hno hfirst ⊢
      exact segments_of_notMem hno hfirst
  | cons b r =>
      have hb : b = a := by
        have hdrop := List.head?_dropWhile_not (fun c => decide (c ≠ a)) l
        rw [hrest] at hdrop
        simpa using hdrop
      subst hb
      rw [hrest] at hsplit
      rw [← hsplit, segments_append, segments_of_notMem hno hfirst, segments_cons, hsplit,
        List.singleton_append]

theorem subset_of_mem_splitOn {s : List α} (hs : s ∈ l.splitOn a) : s ⊆ l := by
  induction l generalizing s with
  | nil =>
      rw [List.splitOn_nil, List.mem_singleton] at hs
      exact hs ▸ List.Subset.refl []
  | cons b l ih =>
      rw [List.splitOn_cons_eq_if_modifyHead] at hs
      split at hs
      · rcases List.mem_cons.mp hs with rfl | hs
        · exact List.nil_subset _
        · exact List.subset_cons_of_subset b (ih hs)
      · cases hsplit : l.splitOn a with
        | nil => exact absurd hsplit (List.splitOn_ne_nil a l)
        | cons t ts =>
            rw [hsplit, List.modifyHead_cons] at hs
            rcases List.mem_cons.mp hs with rfl | hs
            · exact List.cons_subset_cons b (ih (hsplit ▸ List.mem_cons_self))
            · exact List.subset_cons_of_subset b (ih (hsplit ▸ List.mem_cons_of_mem t hs))

theorem mem_segments {s : List α} (hs : s ∈ segments a l) : s ≠ [] ∧ s ⊆ l := by
  obtain ⟨hmem, hne⟩ := List.mem_filter.mp hs
  refine ⟨?_, subset_of_mem_splitOn hmem⟩
  rintro rfl
  cases hne

end Jos.Lib
