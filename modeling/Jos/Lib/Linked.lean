import Mathlib.Logic.Function.Basic
import Mathlib.Data.List.Nodup

/-!
# Singly linked lists in a link function

`Linked next head l` says that following `next` from `head` visits exactly the nodes of
`l`, in order, and then stops. The free lists of the program are such lists: the head is
a global pointer and the link of each node a field of its record.
-/

namespace Jos.Lib

variable {α : Type*} {next : α → Option α} {head : Option α} {a b : α} {l l' : List α}

/-- Following `next` from `head` visits exactly `l`. -/
def Linked (next : α → Option α) : Option α → List α → Prop
  | head, [] => head = none
  | head, a :: l => head = some a ∧ Linked next (next a) l

/-- The links can be followed to decide it. -/
def decLinked [DecidableEq α] (next : α → Option α) :
    (head : Option α) → (l : List α) → Decidable (Linked next head l)
  | head, [] => inferInstanceAs (Decidable (head = none))
  | head, a :: l => @instDecidableAnd _ _ (inferInstanceAs (Decidable (head = some a)))
      (decLinked next (next a) l)

instance [DecidableEq α] (head : Option α) (l : List α) : Decidable (Linked next head l) :=
  decLinked next head l

namespace Linked

@[simp] theorem nil_iff : Linked next head [] ↔ head = none := Iff.rfl

@[simp] theorem cons_iff : Linked next head (a :: l) ↔ head = some a ∧ Linked next (next a) l :=
  Iff.rfl

/-- The list is determined by the links. -/
theorem unique (h : Linked next head l) (h' : Linked next head l') : l = l' := by
  induction l generalizing head l' with
  | nil =>
      cases l' with
      | nil => rfl
      | cons a l' =>
          rw [nil_iff] at h
          rw [h] at h'
          exact absurd h'.1 (by simp)
  | cons a l ih =>
      cases l' with
      | nil =>
          rw [nil_iff] at h'
          rw [h'] at h
          exact absurd h.1 (by simp)
      | cons b l' =>
          have hab : a = b := Option.some.inj (h.1.symm.trans h'.1)
          subst hab
          rw [ih h.2 h'.2]

theorem exists_cons (h : Linked next (some a) l) :
    ∃ l', l = a :: l' ∧ Linked next (next a) l' := by
  cases l with
  | nil => exact absurd h (by simp)
  | cons b l' =>
      obtain ⟨hab, hl⟩ := h
      cases hab
      exact ⟨l', rfl, hl⟩

theorem eq_nil (h : Linked next none l) : l = [] := by
  cases l with
  | nil => rfl
  | cons b l' => exact absurd h.1 (by simp)

/-- Numbers linked in order. -/
theorem range' {next : Nat → Option Nat} {a : Nat} (n : Nat)
    (h : ∀ i < n, next (a + i) = if i + 1 < n then some (a + i + 1) else none) :
    Linked next (if 0 < n then some a else none) (List.range' a n) := by
  induction n generalizing a with
  | zero => rfl
  | succ n ih =>
      refine ⟨rfl, ?_⟩
      have hnext := h 0 (Nat.succ_pos n)
      rw [Nat.add_zero] at hnext
      have hpos : 0 + 1 < n + 1 ↔ 0 < n := by omega
      rw [hnext]
      simp only [hpos]
      apply ih
      intro i hi
      have hi' := h (i + 1) (Nat.succ_lt_succ hi)
      rw [show a + (i + 1) = a + 1 + i by omega] at hi'
      rw [hi']
      simp only [Nat.add_lt_add_iff_right]

theorem head_mem (h : Linked next (some a) l) : a ∈ l := by
  obtain ⟨l', rfl, _⟩ := h.exists_cons
  exact List.mem_cons_self

/-- Only the last node has no link. -/
theorem next_eq_none_iff (h : Linked next head l) (hn : l.Nodup) (ha : a ∈ l) :
    next a = none ↔ l.getLast? = some a := by
  induction l generalizing head with
  | nil => exact absurd ha List.not_mem_nil
  | cons b l ih =>
      obtain ⟨hb, hn⟩ := List.nodup_cons.mp hn
      cases l with
      | nil =>
          rw [List.mem_singleton.mp ha]
          exact iff_of_true h.2 rfl
      | cons c l =>
          rw [List.getLast?_cons_cons]
          rcases List.mem_cons.mp ha with rfl | hmem
          · refine iff_of_false ?_ ?_
            · rw [h.2.1]
              exact Option.some_ne_none c
            · intro hlast
              exact hb (List.mem_of_getLast? hlast)
          · exact ih h.2 hn hmem

theorem next_mem (h : Linked next head l) (ha : a ∈ l) (hab : next a = some b) : b ∈ l := by
  induction l generalizing head with
  | nil => exact absurd ha List.not_mem_nil
  | cons c l ih =>
      rcases List.mem_cons.mp ha with rfl | hmem
      · have hl := h.2
        rw [hab] at hl
        exact List.mem_cons_of_mem _ hl.head_mem
      · exact List.mem_cons_of_mem _ (ih h.2 hmem)

/-- Where every node of a set has a link into the set, following the links never stops. -/
theorem not_of_closed {S : α → Prop} (hS : ∀ a, S a → ∃ b, next a = some b ∧ S b) (ha : S a) :
    ¬ Linked next (some a) l := by
  intro h
  induction l generalizing a with
  | nil => exact absurd h (by simp)
  | cons c l ih =>
      obtain ⟨b, hab, hb⟩ := hS a ha
      have hl := h.2
      rw [← Option.some.inj h.1, hab] at hl
      exact ih hb hl

variable [DecidableEq α]

/-- The link of a node off the list does not matter. -/
theorem update_of_notMem {v : Option α} (h : Linked next head l) (ha : a ∉ l) :
    Linked (Function.update next a v) head l := by
  induction l generalizing head with
  | nil => exact h
  | cons b l ih =>
      simp only [List.mem_cons, not_or] at ha
      refine ⟨h.1, ?_⟩
      rw [Function.update_of_ne (Ne.symm ha.1)]
      exact ih h.2 ha.2

/-- Putting a node in front. -/
theorem push (h : Linked next head l) (ha : a ∉ l) :
    Linked (Function.update next a head) (some a) (a :: l) := by
  refine ⟨rfl, ?_⟩
  rw [Function.update_self]
  exact h.update_of_notMem ha

/-- Taking the first node off and clearing its link. -/
theorem pop (h : Linked next head (a :: l)) (hn : (a :: l).Nodup) :
    Linked (Function.update next a none) (next a) l :=
  h.2.update_of_notMem (List.nodup_cons.mp hn).1

end Linked

end Jos.Lib
