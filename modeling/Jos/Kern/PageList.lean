import Jos.Kern.PageInit

/-!
# Freeing a page twice

`page_free` takes a link that is not null for the sign of a page on the free list. The last page of the list
has a null link as well, so freeing that one goes unnoticed and closes the list to a ring. Every other double
free panics.

Main results:
* `page_free_law_iff`: the frames for which a double free is noticed;
* `page_free_twice`: the one for which it is not.
-/

namespace Jos.Kern

open Jos.Lib Kernel

/-- The allocator after calls of `page_alloc` and `page_free` that did not panic. `C s pp` is what is asked of
a call `page_free(pp)` in state `s`. -/
inductive AllocReached (C : Kernel → Nat → Prop) : Kernel → Prop
  | init {kend : BitVec 32} {b b' : Boot} (hfree : b.kernel.pageFreeList = none)
      (h : pageInit kend b = some b') : AllocReached C b'.kernel
  | alloc {s s' : Kernel} {zero : Bool} {page : Option Nat} (hs : AllocReached C s)
      (h : pageAlloc s zero = some (s', page)) : AllocReached C s'
  | free {s s' : Kernel} {pp : Nat} (hs : AllocReached C s) (hC : C s pp)
      (h : pageFree s pp = some s') : AllocReached C s'

/-- Frame `pp` is not the last one of the free list. -/
def NotLast (s : Kernel) (pp : Nat) : Prop :=
  ∀ l, Linked s.ppLink s.pageFreeList l → l.getLast? ≠ some pp

/-- The law of `page_free`, where `l` is the free list. -/
structure FreeLaw (s : Kernel) (l : List Nat) (pp : Nat) : Prop where
  panics : pp ∈ l ∨ s.ppRef pp ≠ 0#16 → pageFree s pp = none
  frees : ¬ (pp ∈ l ∨ s.ppRef pp ≠ 0#16) →
    ∃ s', pageFree s pp = some s' ∧ Linked s'.ppLink s'.pageFreeList (pp :: l)

/-- The free list `l`; its frames have no references, and the frames off it no link. -/
structure FreeList (l : List Nat) (s : Kernel) : Prop where
  linked : Linked s.ppLink s.pageFreeList l
  nodup : l.Nodup
  refs : ∀ p ∈ l, s.ppRef p = 0#16
  unlinked : ∀ p < s.npages, p ∉ l → s.ppLink p = none

section

variable {C : Kernel → Nat → Prop} {s s' : Kernel} {l : List Nat} {pp p n : Nat} {zero : Bool}
  {page : Option Nat}

theorem Threaded.freeList (h : Threaded s.npages l s) : FreeList l s := by
  refine ⟨h.linked, h.nodup, ?_, h.unlinked⟩
  intro p hp
  rw [h.refs p (h.below p hp), if_pos hp]

/-- Only the list and the links matter. -/
theorem FreeList.congr (h : FreeList l s) (hn : s'.npages = s.npages) (href : s'.ppRef = s.ppRef)
    (hlink : s'.ppLink = s.ppLink) (hfree : s'.pageFreeList = s.pageFreeList) : FreeList l s' := by
  refine ⟨?_, h.nodup, ?_, ?_⟩
  · rw [hlink, hfree]
    exact h.linked
  · rw [href]
    exact h.refs
  · rw [hn, hlink]
    exact h.unlinked

/-- Taking the first frame off. -/
theorem FreeList.pop (h : FreeList (p :: l) s) :
    FreeList l { s with pageFreeList := s.ppLink p, ppLink := Function.update s.ppLink p none } := by
  refine ⟨h.linked.pop h.nodup, (List.nodup_cons.mp h.nodup).2, ?_, ?_⟩
  · intro q hq
    exact h.refs q (List.mem_cons_of_mem _ hq)
  · intro q hlt hq
    by_cases hqp : q = p
    · rw [hqp]
      exact Function.update_self _ _ _
    · have hnot : q ∉ p :: l := by
        rw [List.mem_cons, not_or]
        exact ⟨hqp, hq⟩
      rw [← h.unlinked q hlt hnot]
      exact Function.update_of_ne hqp _ _

/-- Putting a frame without references in front. -/
theorem FreeList.push (h : FreeList l s) (hp : p ∉ l) (href : s.ppRef p = 0#16) :
    FreeList (p :: l) { s with ppLink := Function.update s.ppLink p s.pageFreeList, pageFreeList := some p } := by
  refine ⟨h.linked.push hp, List.nodup_cons.mpr ⟨hp, h.nodup⟩, ?_, ?_⟩
  · intro q hq
    rcases List.mem_cons.mp hq with rfl | hmem
    · exact href
    · exact h.refs q hmem
  · intro q hlt hq
    rw [List.mem_cons, not_or] at hq
    rw [← h.unlinked q hlt hq.2]
    exact Function.update_of_ne hq.1 _ _

/-! ## One call -/

/-- `page_free` panics, or it puts a frame without references and link in front. -/
theorem pageFree_cases (s : Kernel) (pp : Nat) :
    (pageFree s pp = none ∧ (s.ppRef pp ≠ 0#16 ∨ s.ppLink pp ≠ none)) ∨
      s.ppRef pp = 0#16 ∧ s.ppLink pp = none ∧ pageFree s pp = some
        { s with ppLink := Function.update s.ppLink pp s.pageFreeList, pageFreeList := some pp } := by
  unfold pageFree
  by_cases h : s.ppRef pp ≠ 0#16 ∨ s.ppLink pp ≠ none
  · exact Or.inl ⟨if_pos h, h⟩
  · rw [not_or, not_not, not_not] at h
    refine Or.inr ⟨h.1, h.2, if_neg ?_⟩
    rw [not_or, not_not, not_not]
    exact h

theorem FreeList.after_alloc (h : FreeList l s) (hrun : pageAlloc s zero = some (s', page)) :
    ∃ l', FreeList l' s' := by
  unfold pageAlloc at hrun
  split at hrun
  · cases hrun
    exact ⟨l, h⟩
  · rename_i p hhead
    have hl := h.linked
    rw [hhead] at hl
    obtain ⟨l', rfl, _⟩ := hl.exists_cons
    have hpop := h.pop
    split at hrun
    · simp only [Option.bind_eq_bind, Option.bind_eq_some_iff] at hrun
      obtain ⟨kva, _, hrun⟩ := hrun
      cases hrun
      exact ⟨l', hpop.congr rfl rfl rfl rfl⟩
    · cases hrun
      exact ⟨l', hpop⟩

/-- A frame that is freed without a panic is off the list, unless it is the last one. -/
theorem FreeList.notMem (h : FreeList l s) (hlink : s.ppLink pp = none) (hlast : NotLast s pp) : pp ∉ l := by
  intro hmem
  exact hlast l h.linked ((h.linked.next_eq_none_iff h.nodup hmem).mp hlink)

theorem FreeList.after_free (h : FreeList l s) (hlast : NotLast s pp) (hrun : pageFree s pp = some s') :
    ∃ l', FreeList l' s' := by
  rcases pageFree_cases s pp with ⟨hnone, _⟩ | ⟨href, hlink, hsome⟩
  · rw [hnone] at hrun
    cases hrun
  · rw [hsome] at hrun
    cases hrun
    exact ⟨pp :: l, h.push (h.notMem hlink hlast) href⟩

/-- The law holds for all frames but the last one of the list. -/
theorem FreeList.law_iff (h : FreeList l s) (hpp : pp < s.npages) : FreeLaw s l pp ↔ l.getLast? ≠ some pp := by
  constructor
  · intro hlaw hlast
    have hmem := List.mem_of_getLast? hlast
    have hlink := (h.linked.next_eq_none_iff h.nodup hmem).mpr hlast
    rcases pageFree_cases s pp with ⟨_, href | hne⟩ | ⟨_, _, hsome⟩
    · exact href (h.refs pp hmem)
    · exact hne hlink
    · have hnone := hlaw.panics (Or.inl hmem)
      rw [hsome] at hnone
      cases hnone
  · intro hlast
    refine ⟨?_, ?_⟩
    · intro hbad
      rcases pageFree_cases s pp with ⟨hnone, _⟩ | ⟨href, hlink, _⟩
      · exact hnone
      · rcases hbad with hmem | hne
        · exact absurd ((h.linked.next_eq_none_iff h.nodup hmem).mp hlink) hlast
        · exact absurd href hne
    · intro hgood
      rw [not_or, not_not] at hgood
      rcases pageFree_cases s pp with ⟨_, href | hne⟩ | ⟨_, _, hsome⟩
      · exact absurd hgood.2 href
      · exact absurd (h.unlinked pp hpp hgood.1) hne
      · exact ⟨_, hsome, h.linked.push hgood.1⟩

/-- Freeing the last frame of the list does not panic, and the list is a ring from then on. -/
theorem FreeList.pageFree_last (h : FreeList l s) (hlast : l.getLast? = some pp) :
    ∃ s', pageFree s pp = some s' ∧ ∀ l', ¬ Linked s'.ppLink s'.pageFreeList l' := by
  have hmem := List.mem_of_getLast? hlast
  have hlink := (h.linked.next_eq_none_iff h.nodup hmem).mpr hlast
  obtain ⟨first, hfirst⟩ : ∃ first, s.pageFreeList = some first := by
    cases hhead : s.pageFreeList with
    | none =>
        have hl := h.linked
        rw [hhead] at hl
        rw [hl.eq_nil] at hmem
        exact absurd hmem List.not_mem_nil
    | some first => exact ⟨first, rfl⟩
  have hfirst_mem : first ∈ l := by
    have hl := h.linked
    rw [hfirst] at hl
    exact hl.head_mem
  rcases pageFree_cases s pp with ⟨_, href | hne⟩ | ⟨_, _, hsome⟩
  · exact absurd (h.refs pp hmem) href
  · exact absurd hlink hne
  · refine ⟨_, hsome, ?_⟩
    intro l'
    -- every frame of the list now has a successor on the list
    apply Linked.not_of_closed (S := fun p => p ∈ l) _ hmem
    intro p hp
    by_cases hpp : p = pp
    · refine ⟨first, ?_, hfirst_mem⟩
      rw [hpp, ← hfirst]
      exact Function.update_self _ _ _
    · have hne : s.ppLink p ≠ none := by
        intro hnone
        rw [(h.linked.next_eq_none_iff h.nodup hp), hlast] at hnone
        exact hpp (Option.some.inj hnone).symm
      obtain ⟨q, hq⟩ := Option.ne_none_iff_exists'.mp hne
      refine ⟨q, ?_, h.linked.next_mem hp hq⟩
      rw [← hq]
      exact Function.update_of_ne hpp _ _

/-! ## Runs -/

theorem AllocReached.init_freeList {kend : BitVec 32} {b b' : Boot} (hfree : b.kernel.pageFreeList = none)
    (h : pageInit kend b = some b') : ∃ l, FreeList l b'.kernel := by
  obtain ⟨hn, l, hl⟩ := pageInit_threaded hfree h
  rw [← hn] at hl
  exact ⟨l, hl.freeList⟩

theorem AllocReached.freeList (h : AllocReached NotLast s) : ∃ l, FreeList l s := by
  induction h with
  | init hfree h => exact AllocReached.init_freeList hfree h
  | alloc _ hrun ih =>
      obtain ⟨l, hl⟩ := ih
      exact hl.after_alloc hrun
  | free _ hlast hrun ih =>
      obtain ⟨l, hl⟩ := ih
      exact hl.after_free hlast hrun

/-- As long as the last frame of the list is never freed, the list is finite and without repetitions, and the
law holds for every frame but its last one. -/
theorem page_free_law_iff (h : AllocReached NotLast s) : ∃ l, Linked s.ppLink s.pageFreeList l ∧ l.Nodup ∧
    ∀ pp < s.npages, FreeLaw s l pp ↔ l.getLast? ≠ some pp := by
  obtain ⟨l, hl⟩ := h.freeList
  exact ⟨l, hl.linked, hl.nodup, fun pp hpp => hl.law_iff hpp⟩

/-- After `page_init` on the machine with 640K of base memory. -/
theorem page_free_law_iff_boot : ∃ s, AllocReached NotLast s ∧ ∃ l, Linked s.ppLink s.pageFreeList l ∧
    l.Nodup ∧ ∀ pp < s.npages, FreeLaw s l pp ↔ l.getLast? ≠ some pp := by
  have hpa : paddr (firstFree 0xF0112000#32 (bootMachine (cmos 0x80#8 2#8))) = some 0x180000#32 := by decide
  obtain ⟨b', hb', _⟩ := pageInit_filled rfl hpa
  exact ⟨b'.kernel, .init rfl hb', page_free_law_iff (.init rfl hb')⟩

/-- The last frame of the list that `page_init` builds is frame 1. -/
theorem bootList_getLast? {pa : BitVec 32} (hn : 2 ≤ n) : (bootList pa n).getLast? = some 1 := by
  obtain ⟨m, rfl⟩ := Nat.exists_eq_add_of_le hn
  have hzero : pageInUse pa 0 = true := rfl
  have hone : pageInUse pa 1 = false := by
    simp [pageInUse, iophysmem, extphysmem, pgsize]
  rw [bootList, List.getLast?_reverse, List.range_add, List.filter_append,
    show List.range 2 = [0, 1] from rfl]
  simp [hzero, hone]

/-- On that machine frame 1 is free, and freeing it again does not panic: it makes the list a ring. -/
theorem page_free_twice : ∃ s s', AllocReached (fun _ _ => True) s ∧ 1 < s.npages ∧
    (∃ l, Linked s.ppLink s.pageFreeList l ∧ 1 ∈ l ∧ ¬ FreeLaw s l 1) ∧ pageFree s 1 = some s' ∧
    AllocReached (fun _ _ => True) s' ∧ ∀ l', ¬ Linked s'.ppLink s'.pageFreeList l' := by
  have hpa : paddr (firstFree 0xF0112000#32 (bootMachine (cmos 0x80#8 2#8))) = some 0x180000#32 := by decide
  obtain ⟨b', hb', hfilled⟩ := pageInit_filled rfl hpa
  have hlist : FreeList _ b'.kernel := Threaded.freeList (hfilled.npages ▸ hfilled.threaded)
  have hlast : (bootList 0x180000#32 b'.kernel.npages).getLast? = some 1 :=
    bootList_getLast? (by rw [hfilled.npages]; decide)
  obtain ⟨s', hs', hring⟩ := hlist.pageFree_last hlast
  have hreached : AllocReached (fun _ _ => True) b'.kernel := .init rfl hb'
  refine ⟨b'.kernel, s', hreached, ?_, ⟨_, hlist.linked, List.mem_of_getLast? hlast, ?_⟩, hs',
    .free hreached trivial hs', hring⟩
  · rw [hfilled.npages]
    decide
  · intro hlaw
    have hnone := hlaw.panics (Or.inl (List.mem_of_getLast? hlast))
    rw [hs'] at hnone
    cases hnone

end

end Jos.Kern
