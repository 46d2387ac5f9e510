import Jos.Lib.Linked

/-!
# Lists under construction

A list that is built from the front to the back has no end yet: its last link is a cell that is still to be
written. `Chain load link c l e` says that the cells from `c` on hold the nodes of `l`, each node owning the
cell `link a`, and that `e` is the cell after the last node. Writing to `e` extends the list or closes it.
-/

namespace Jos.Lib

variable {α κ : Type*} {load load' : κ → Option α} {link : α → κ} {c e w : κ} {a : α} {l l' : List α}
  {v : Option α}

/-- From cell `c` the cells hold the nodes of `l`; the next cell is `e`. -/
def Chain (load : κ → Option α) (link : α → κ) : κ → List α → κ → Prop
  | c, [], e => c = e
  | c, a :: l, e => load c = some a ∧ Chain load link (link a) l e

namespace Chain

/-- The cells of the list: its head and the link of each node. -/
theorem end_mem (h : Chain load link c l e) : e ∈ c :: l.map link := by
  induction l generalizing c with
  | nil =>
      rw [show c = e from h]
      exact List.mem_cons_self
  | cons a l ih => exact List.mem_cons_of_mem _ (ih h.2)

theorem snoc (h : Chain load link c l e) (ha : load e = some a) : Chain load link c (l ++ [a]) (link a) := by
  induction l generalizing c with
  | nil =>
      rw [← show c = e from h] at ha
      exact ⟨ha, rfl⟩
  | cons b l ih => exact ⟨h.1, ih h.2⟩

/-- A list whose last cell holds the head of another one. -/
theorem append (h : Chain load link c l e) (hl : Linked (fun a => load (link a)) (load e) l') :
    Linked (fun a => load (link a)) (load c) (l ++ l') := by
  induction l generalizing c with
  | nil =>
      rw [show c = e from h]
      exact hl
  | cons b l ih => exact ⟨h.1, ih h.2⟩

variable [DecidableEq κ]

/-- Writing to the cell at the end. -/
theorem update_end (h : Chain load link c l e) (hn : (c :: l.map link).Nodup) :
    Chain (Function.update load e v) link c l e := by
  induction l generalizing c with
  | nil => exact h
  | cons a l ih =>
      obtain ⟨hc, hn⟩ := List.nodup_cons.mp hn
      refine ⟨?_, ih h.2 hn⟩
      rw [← h.1]
      apply Function.update_of_ne
      intro hce
      rw [hce] at hc
      exact hc h.2.end_mem

/-- Writing to a cell that is not of the list. -/
theorem update_off (h : Chain load link c l e) (hw : w ∉ c :: l.map link) :
    Chain (Function.update load w v) link c l e := by
  induction l generalizing c with
  | nil => exact h
  | cons a l ih =>
      rw [List.mem_cons, not_or] at hw
      refine ⟨?_, ih h.2 hw.2⟩
      rw [← h.1]
      exact Function.update_of_ne (Ne.symm hw.1) _ _

/-- Appending the node `a` through the cell at the end. -/
theorem extend (h : Chain load link c l e) (hn : (c :: l.map link).Nodup) :
    Chain (Function.update load e (some a)) link c (l ++ [a]) (link a) :=
  (h.update_end hn).snoc (Function.update_self _ _ _)

end Chain

/-- A write to a cell of none of the nodes is not seen. -/
theorem Linked.update_cell [DecidableEq κ] {head : Option α}
    (h : Linked (fun a => load (link a)) head l) (hw : w ∉ l.map link) :
    Linked (fun a => Function.update load w v (link a)) head l := by
  induction l generalizing head with
  | nil => exact h
  | cons a l ih =>
      rw [List.map_cons, List.mem_cons, not_or] at hw
      refine ⟨h.1, ?_⟩
      dsimp only
      rw [Function.update_of_ne (Ne.symm hw.1)]
      exact ih h.2 hw.2

end Jos.Lib
