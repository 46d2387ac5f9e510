import Jos.Kern.Machine
import Jos.Lib.Chain
import Jos.Lib.While

/-!
# Low frames first

`check_page_free_list(1)` of `kern/pmap.c` moves the frames of the first page directory entry to the front of
the free list. It appends each frame to one of two lists while it walks along the old one; the lists begin in
the locals `pp1` and `pp2`, and `tp` points to the link where each of them goes on.

Main result:
* `sort_free_list_partition`: the new list is the stable partition of the old one.
-/

namespace Jos.Kern

open Jos.Lib Kernel

/-- What a `struct PageInfo **` can point to: a local or the link of a frame. -/
inductive LinkCell
  | pp1
  | pp2
  | ppLink (p : Nat)
deriving DecidableEq

/-- The variables of the loop. -/
structure Sorting where
  /-- The locals `pp1` and `pp2` and the links of all frames. -/
  cells : LinkCell → Option Nat
  tp : Bool → LinkCell
  pp : Option Nat

/-- `PDX(page2pa(pp)) >= pdx_limit`, where `pdx_limit` is 1. -/
def pagetype (pp : Nat) : Bool := decide (1 ≤ pdx (page2pa pp))

/-- The body of the loop and `pp = pp->pp_link`. -/
def Sorting.step (s : Sorting) : Sorting :=
  match s.pp with
  | none => s
  | some pp =>
      let cells := Function.update s.cells (s.tp (pagetype pp)) (some pp)
      ⟨cells, Function.update s.tp (pagetype pp) (.ppLink pp), cells (.ppLink pp)⟩

/-- The variables before the loop. The locals are not initialised; `pp1` and `pp2` are what they hold. -/
def Sorting.start (s : Kernel) (pp1 pp2 : Option Nat) : Sorting where
  cells
    | .pp1 => pp1
    | .pp2 => pp2
    | .ppLink p => s.ppLink p
  tp pagetype := if pagetype then .pp2 else .pp1
  pp := s.pageFreeList

/-- `*tp[1] = 0; *tp[0] = pp2; page_free_list = pp1;` -/
def Sorting.finish (s : Kernel) (c : Sorting) : Kernel :=
  let cells := Function.update c.cells (c.tp true) none
  let cells := Function.update cells (c.tp false) (cells .pp2)
  { s with ppLink := fun p => cells (.ppLink p), pageFreeList := cells .pp1 }

/-- The part of `check_page_free_list(1)` that changes the list. -/
def sortFreeList (fuel : Nat) (s : Kernel) (pp1 pp2 : Option Nat) : Option Kernel :=
  (whileLoop (fun c => c.pp.isSome) Sorting.step fuel (.start s pp1 pp2)).map (Sorting.finish s)

/-- The frames of one type, in their order. -/
def ofType (t : Bool) (l : List Nat) : List Nat := l.filter fun p => pagetype p == t

/-- The local in which the list of a type begins. -/
def LinkCell.first (t : Bool) : LinkCell := if t then .pp2 else .pp1

/-- The loop has moved the frames of `l` and still has to move those of `rest`. -/
structure Sorting.Moved (l rest : List Nat) (c : Sorting) : Prop where
  chain : ∀ t, Chain c.cells .ppLink (.first t) (ofType t l) (c.tp t)
  rest : Linked (fun p => c.cells (.ppLink p)) c.pp rest

section

variable {s : Kernel} {c : Sorting} {l l' rest : List Nat} {t t' : Bool} {p fuel : Nat}

theorem ofType_append : ofType t (l ++ l') = ofType t l ++ ofType t l' := List.filter_append _ _

theorem mem_ofType : p ∈ ofType t l ↔ p ∈ l ∧ pagetype p = t := by
  simp [ofType]

theorem ofType_self (p : Nat) : ofType (pagetype p) [p] = [p] := by simp [ofType]

theorem ofType_other (h : pagetype p ≠ t) : ofType t [p] = [] := by simp [ofType, h]

/-- The cells of the list of a type. -/
def typeCells (t : Bool) (l : List Nat) : List LinkCell := .first t :: (ofType t l).map .ppLink

theorem mem_typeCells {w : LinkCell} :
    w ∈ typeCells t l ↔ w = .first t ∨ ∃ p, (p ∈ l ∧ pagetype p = t) ∧ LinkCell.ppLink p = w := by
  simp only [typeCells, List.mem_cons, List.mem_map, mem_ofType]

theorem first_ne (t : Bool) (p : Nat) : LinkCell.first t ≠ .ppLink p := by
  cases t
  · intro h
    cases h
  · intro h
    cases h

theorem typeCells_nodup (h : l.Nodup) : (typeCells t l).Nodup := by
  refine List.nodup_cons.mpr ⟨?_, ?_⟩
  · intro hmem
    obtain ⟨p, _, hp⟩ := List.mem_map.mp hmem
    exact first_ne t p hp.symm
  · exact (h.filter _).map fun p q hpq => LinkCell.ppLink.inj hpq

/-- The two lists have no cell in common. -/
theorem typeCells_disjoint {w : LinkCell} (hne : t ≠ t') (h : w ∈ typeCells t l) : w ∉ typeCells t' l := by
  intro h'
  rw [mem_typeCells] at h h'
  rcases h with rfl | ⟨p, ⟨_, hp⟩, rfl⟩
  · rcases h' with h' | ⟨q, _, hq⟩
    · revert h' hne
      cases t <;> cases t' <;> simp [LinkCell.first]
    · exact first_ne t q hq.symm
  · rcases h' with h' | ⟨q, ⟨_, hq⟩, hqp⟩
    · exact first_ne t' p h'.symm
    · cases hqp
      exact hne (hp.symm.trans hq)

/-- No cell of the lists is the link of a frame that is still to be moved. -/
theorem typeCells_off (h : (l ++ rest).Nodup) {w : LinkCell} (hw : w ∈ typeCells t l) :
    w ∉ rest.map LinkCell.ppLink := by
  intro hmem
  obtain ⟨p, hp, rfl⟩ := List.mem_map.mp hmem
  rcases mem_typeCells.mp hw with hfirst | ⟨q, ⟨hq, _⟩, hqp⟩
  · exact first_ne t p hfirst.symm
  · cases hqp
    exact List.disjoint_of_nodup_append h hq hp

theorem moved_start {pp1 pp2 : Option Nat} (h : Linked s.ppLink s.pageFreeList l) :
    Sorting.Moved [] l (.start s pp1 pp2) := by
  refine ⟨?_, h⟩
  intro t
  cases t <;> rfl

/-- One frame more. -/
theorem Sorting.Moved.step (h : c.Moved l (p :: rest)) (hn : (l ++ p :: rest).Nodup) :
    c.step.Moved (l ++ [p]) rest := by
  have hl := (List.nodup_append.mp hn).1
  have hcell : c.tp (pagetype p) ∈ typeCells (pagetype p) l := (h.chain _).end_mem
  have hoff := typeCells_off hn hcell
  obtain ⟨hpp, hrest⟩ := h.rest
  unfold Sorting.step
  rw [hpp]
  refine ⟨?_, ?_⟩
  · intro t
    rw [ofType_append]
    by_cases ht : pagetype p = t
    · rw [← ht, ofType_self]
      dsimp only
      rw [Function.update_self]
      exact (h.chain _).extend (typeCells_nodup hl)
    · rw [ofType_other ht, List.append_nil]
      dsimp only
      rw [Function.update_of_ne (Ne.symm ht)]
      exact (h.chain t).update_off (typeCells_disjoint ht hcell)
  · rw [List.map_cons, List.mem_cons, not_or] at hoff
    dsimp only
    rw [Function.update_of_ne (Ne.symm hoff.1)]
    exact hrest.update_cell hoff.2

/-- The loop ends, and it moves all frames. -/
theorem Sorting.Moved.run (h : c.Moved l rest) (hn : (l ++ rest).Nodup) (hfuel : rest.length < fuel) :
    ∃ c', whileLoop (fun c => c.pp.isSome) Sorting.step fuel c = some c' ∧ c'.Moved (l ++ rest) [] := by
  induction rest generalizing l c fuel with
  | nil =>
      cases fuel with
      | zero => exact absurd hfuel (Nat.not_lt_zero _)
      | succ fuel =>
          refine ⟨c, ?_, ?_⟩
          · unfold whileLoop
            rw [show c.pp = none from h.rest]
            rfl
          · rw [List.append_nil]
            exact h
  | cons p rest ih =>
      cases fuel with
      | zero => exact absurd hfuel (Nat.not_lt_zero _)
      | succ fuel =>
          have hsplit : l ++ p :: rest = (l ++ [p]) ++ rest := by simp
          have hgo : c.pp.isSome = true := by rw [h.rest.1]; rfl
          unfold whileLoop
          rw [if_pos hgo, hsplit]
          apply ih (h.step hn)
          · rw [← hsplit]
            exact hn
          · exact Nat.lt_of_succ_lt_succ hfuel

/-- The last three assignments close the second list and hang it on the first. -/
theorem Sorting.Moved.finish (h : c.Moved l []) (hn : l.Nodup) :
    Linked (c.finish s).ppLink (c.finish s).pageFreeList (ofType false l ++ ofType true l) := by
  have hlow : c.tp false ∈ typeCells false l := (h.chain false).end_mem
  have hhigh : c.tp true ∈ typeCells true l := (h.chain true).end_mem
  have hlow_off : c.tp false ∉ typeCells true l := typeCells_disjoint (by decide) hlow
  have hhigh_off : c.tp true ∉ typeCells false l := typeCells_disjoint (by decide) hhigh
  -- `*tp[1] = 0`
  have hchain1 := (h.chain true).update_end (v := none) (typeCells_nodup hn)
  have hchain0 := (h.chain false).update_off (v := none) hhigh_off
  -- `*tp[0] = pp2`
  have hchain1 := hchain1.update_off (v := Function.update c.cells (c.tp true) none .pp2) hlow_off
  have hchain0 := hchain0.update_end (v := Function.update c.cells (c.tp true) none .pp2) (typeCells_nodup hn)
  apply hchain0.append
  have hne : c.tp true ≠ c.tp false := fun heq => hlow_off (heq ▸ hhigh)
  have hlast : Function.update (Function.update c.cells (c.tp true) none) (c.tp false)
      (Function.update c.cells (c.tp true) none .pp2) (c.tp true) = none := by
    rw [Function.update_of_ne hne, Function.update_self]
  have hclosed := hchain1.append (Linked.nil_iff.mpr hlast)
  rw [List.append_nil] at hclosed
  rw [Function.update_self]
  have hpp2 : LinkCell.pp2 ≠ c.tp false := by
    intro heq
    rw [← heq] at hlow_off
    exact hlow_off List.mem_cons_self
  rw [show LinkCell.first true = .pp2 from rfl, Function.update_of_ne hpp2] at hclosed
  exact hclosed

theorem pagetype_eq (p : Nat) : pagetype p = !decide (pdx (page2pa p) < 1) := by
  unfold pagetype
  rw [← decide_not]
  exact decide_eq_decide.mpr (by omega)

theorem ofType_false : ofType false l = l.filter fun p => pdx (page2pa p) < 1 := by
  apply List.filter_congr
  intro p _
  rw [pagetype_eq]
  simp

theorem ofType_true : ofType true l = l.filter fun p => ¬ pdx (page2pa p) < 1 := by
  apply List.filter_congr
  intro p _
  rw [pagetype_eq, decide_not]
  simp

/-- The list after the loop is the stable partition of the old one: first the frames with
`PDX(page2pa(pp)) < 1`, then the others. -/
theorem sort_free_list_partition (s : Kernel) (pp1 pp2 : Option Nat)
    (h : Linked s.ppLink s.pageFreeList l) (hn : l.Nodup) (hfuel : l.length < fuel) :
    ∃ s', sortFreeList fuel s pp1 pp2 = some s' ∧ ∃ l', Linked s'.ppLink s'.pageFreeList l' ∧
      l' = (l.filter fun p => pdx (page2pa p) < 1) ++ (l.filter fun p => ¬ pdx (page2pa p) < 1) ∧
      l'.Nodup ∧ l'.Perm l := by
  obtain ⟨c, hc, hmoved⟩ := (moved_start h).run hn hfuel
  have hperm : (ofType false l ++ ofType true l).Perm l := by
    rw [ofType_false, ofType_true]
    simpa using List.filter_append_perm (fun p => decide (pdx (page2pa p) < 1)) l
  refine ⟨c.finish s, ?_, _, hmoved.finish hn, ?_, hperm.nodup_iff.mpr hn, hperm⟩
  · rw [sortFreeList, hc]
    rfl
  · rw [← ofType_false, ← ofType_true]
    rfl

/-- A machine whose free list is 3, 1024, 5, 2048. -/
def mixedList : Kernel := { small with
  npages := 4096
  ppLink := fun p => if p = 3 then some 1024 else if p = 1024 then some 5 else if p = 5 then some 2048 else none
  pageFreeList := some 3 }

theorem sort_free_list_partition_mixed : ∃ s', sortFreeList 5 mixedList none (some 7) = some s' ∧
    ∃ l', Linked s'.ppLink s'.pageFreeList l' ∧ l' = [3, 5, 1024, 2048] ∧ l'.Nodup ∧
      l'.Perm [3, 1024, 5, 2048] := by
  have hlist : Linked mixedList.ppLink mixedList.pageFreeList [3, 1024, 5, 2048] := by simp [mixedList]
  have hfuel : [3, 1024, 5, 2048].length < 5 := by decide
  obtain ⟨s', hs', l', hl', heq, hrest⟩ :=
    sort_free_list_partition mixedList none (some 7) hlist (by decide) hfuel
  exact ⟨s', hs', l', hl', heq.trans (by decide), hrest⟩

end

end Jos.Kern
