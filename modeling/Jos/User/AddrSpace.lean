import Jos.User.PipeRefs
import Mathlib.Logic.Function.Basic

/-!
# Address spaces

The pages that an environment has mapped below `UTOP`, as it sees them in `uvpt` and `uvpd`, and what
the system calls on pages do to them. Whether there is a free page for a page table is a parameter of
a call.
-/

namespace Jos.User

open Jos.Lib Jos.Kern Kernel

/-- A present entry of a page table: its frame and its flags. -/
structure Pte where
  frame : Nat
  flags : BitVec 32
  present : flags &&& pteP = pteP

/-- What an environment sees in `uvpt` and `uvpd`: the pages that are mapped, and the indices of the
directory that have a page table. -/
structure AddrSpace where
  pages : Nat → Option Pte
  tables : Nat → Bool
  mapped : ∀ pn, pages pn ≠ none → tables (pn / 1024) = true

theorem or_pteP_present (perm : BitVec 32) : (perm ||| pteP) &&& pteP = pteP := by
  rw [BitVec.and_or_distrib_right, BitVec.and_self]
  ext i
  simp

theorem mapped_set {s : AddrSpace} {pn : Nat} {v : Pte} (q : Nat)
    (h : Function.update s.pages pn (some v) q ≠ none) :
    Function.update s.tables (pn / 1024) true (q / 1024) = true := by
  by_cases hq : q / 1024 = pn / 1024
  · rw [hq, Function.update_self]
  · have hne : q ≠ pn := fun heq => hq (by rw [heq])
    rw [Function.update_of_ne hne] at h
    rw [Function.update_of_ne hq]
    exact s.mapped q h

theorem mapped_unset {s : AddrSpace} {pn : Nat} (q : Nat) (h : Function.update s.pages pn none q ≠ none) :
    s.tables (q / 1024) = true := by
  by_cases hq : q = pn
  · rw [hq, Function.update_self] at h
    exact absurd rfl h
  · rw [Function.update_of_ne hq] at h
    exact s.mapped q h

/-- `page_insert` -/
def AddrSpace.set (s : AddrSpace) (pn : Nat) (v : Pte) : AddrSpace where
  pages := Function.update s.pages pn (some v)
  tables := Function.update s.tables (pn / 1024) true
  mapped := mapped_set

/-- `page_remove` -/
def AddrSpace.unset (s : AddrSpace) (pn : Nat) : AddrSpace where
  pages := Function.update s.pages pn none
  tables := s.tables
  mapped := mapped_unset

/-- `sys_page_unmap(0, va)` for the page `pn` -/
def AddrSpace.unmap (s : AddrSpace) (pn : Nat) : AddrSpace := if userPages ≤ pn then s else s.unset pn

/-- A page for the environment alone. -/
def permPUW : BitVec 32 := pteP ||| pteU ||| pteW

theorem not_mapped (pn : Nat) (h : (none : Option Pte) ≠ none) : (fun _ => false) (pn / 1024) = true :=
  absurd rfl h

/-- The address space that `sys_exofork` makes. -/
def noPages : AddrSpace where
  pages := fun _ => none
  tables := fun _ => false
  mapped := not_mapped

/-- The flags of the page of a `struct Fd`. -/
def fdFlags : BitVec 32 := pteP ||| pteU ||| pteW ||| pteShare

theorem fdFlags_present : fdFlags &&& pteP = pteP := by
  decide

/-- `uvpt[pn] & PTE_SYSCALL` -/
def AddrSpace.perm (s : AddrSpace) (pn : Nat) : BitVec 32 :=
  match s.pages pn with
  | none => 0#32
  | some v => v.flags &&& pteSyscall

section

variable (room : Nat → Bool)

/-- `sys_page_map` of the page `src` of `s` at the page `dst` of `t`. -/
def pageMap (s t : AddrSpace) (src dst : Nat) (perm : BitVec 32) : AddrSpace × Int :=
  if userPages ≤ src ∨ userPages ≤ dst then (t, -eInval)
  else match s.pages src with
    | none => (t, -eInval)
    | some v =>
        if badPerm perm then (t, -eInval)
        else if grantsWrite perm v.flags then (t, -eInval)
        else if t.tables (dst / 1024) = false ∧ room (dst / 1024) = false then (t, -eNoMem)
        else (t.set dst ⟨v.frame, perm ||| pteP, or_pteP_present perm⟩, 0)

/-- `sys_page_map(0, src, 0, dst, perm)` -/
def AddrSpace.map (s : AddrSpace) (src dst : Nat) (perm : BitVec 32) : AddrSpace × Int :=
  pageMap room s s src dst perm

/-- `sys_page_alloc`; `frame` is what `page_alloc` returns. -/
def AddrSpace.alloc (frame : Option Nat) (s : AddrSpace) (pn : Nat) (perm : BitVec 32) : AddrSpace × Int :=
  if userPages ≤ pn ∨ badPerm perm then (s, -eInval)
  else match frame with
    | none => (s, -eNoMem)
    | some f =>
        if s.tables (pn / 1024) = false ∧ room (pn / 1024) = false then (s, -eNoMem)
        else (s.set pn ⟨f, perm ||| pteP, or_pteP_present perm⟩, 0)

end

/-- The frame behind a page, and the permissions. -/
def AddrSpace.mapping (s : AddrSpace) (pn : Nat) : Option (Nat × BitVec 32) :=
  (s.pages pn).map fun v => (v.frame, v.flags &&& pteSyscall)

/-- A page can be mapped: it is below `UTOP`, and there is a page table for it, or a page for one. -/
def CanMap (room : Nat → Bool) (s : AddrSpace) (pn : Nat) : Prop :=
  pn < userPages ∧ (s.tables (pn / 1024) = true ∨ room (pn / 1024) = true)

section

variable {room : Nat → Bool} {s t : AddrSpace} {pn q src dst : Nat} {v : Pte} {frame : Option Nat}
  {perm : BitVec 32}

@[simp] theorem mapping_set (s : AddrSpace) (pn : Nat) (v : Pte) (q : Nat) : (s.set pn v).mapping q =
    if q = pn then some (v.frame, v.flags &&& pteSyscall) else s.mapping q := by
  simp only [AddrSpace.mapping, AddrSpace.set, Function.update_apply]
  split <;> rfl

theorem mapping_unmap (s : AddrSpace) (pn q : Nat) : (s.unmap pn).mapping q =
    if q = pn ∧ pn < userPages then none else s.mapping q := by
  unfold AddrSpace.unmap
  by_cases hpn : userPages ≤ pn
  · rw [if_pos hpn, if_neg fun h => by omega]
  · rw [if_neg hpn]
    simp only [AddrSpace.mapping, AddrSpace.unset, Function.update_apply]
    by_cases hq : q = pn
    · rw [if_pos hq, if_pos ⟨hq, by omega⟩]
      rfl
    · rw [if_neg hq, if_neg fun h => hq h.1]

theorem mapping_eq_none : s.mapping pn = none ↔ s.pages pn = none := by
  unfold AddrSpace.mapping
  rw [Option.map_eq_none_iff]

/-! ## Mapping a page with its own rights -/

theorem and_syscall_or_present (h : v.flags &&& pteP = pteP) :
    (v.flags &&& pteSyscall ||| pteP) &&& pteSyscall = v.flags &&& pteSyscall := by
  have hp : pteP &&& pteSyscall = v.flags &&& (pteP &&& pteSyscall) := by
    rw [← BitVec.and_assoc, h]
  rw [BitVec.and_or_distrib_right, BitVec.and_assoc, BitVec.and_self, hp, ← BitVec.and_or_distrib_left]
  rfl

theorem pageMap_eq (hsrc : s.pages src = some v) (hlt : src < userPages) (hdst : CanMap room t dst)
    (hbad : badPerm perm = false) (hgrant : grantsWrite perm v.flags = false) :
    pageMap room s t src dst perm = (t.set dst ⟨v.frame, perm ||| pteP, or_pteP_present perm⟩, 0) := by
  obtain ⟨hdlt, htable⟩ := hdst
  unfold pageMap
  rw [if_neg (by omega), hsrc]
  simp only [hbad, hgrant, Bool.false_eq_true, if_false]
  rw [if_neg]
  rintro ⟨h1, h2⟩
  rw [h1, h2] at htable
  rcases htable with h | h <;> cases h

/-- The page is mapped as it is at `src`. -/
theorem pageMap_ok (hsrc : s.pages src = some v) (hlt : src < userPages) (hdst : CanMap room t dst) :
    ∃ w : Pte, pageMap room s t src dst (s.perm src) = (t.set dst w, 0) ∧
      some (w.frame, w.flags &&& pteSyscall) = s.mapping src := by
  have hbad : badPerm (v.flags &&& pteSyscall) = false := by
    simp only [badPerm, BitVec.and_assoc]
    simp [pteSyscall]
  have hgrant : grantsWrite (v.flags &&& pteSyscall) v.flags = false := by
    have hw : v.flags &&& pteSyscall &&& pteW = v.flags &&& pteW := by
      rw [BitVec.and_assoc]
      rfl
    simp only [grantsWrite, hw]
    by_cases hz : v.flags &&& pteW = 0#32
    · simp [hz]
    · simp [hz]
  refine ⟨⟨v.frame, v.flags &&& pteSyscall ||| pteP, or_pteP_present _⟩, ?_, ?_⟩
  · rw [AddrSpace.perm, hsrc]
    exact pageMap_eq hsrc hlt hdst hbad hgrant
  · rw [AddrSpace.mapping, hsrc, Option.map_some, and_syscall_or_present v.present]

/-- The call fails and changes nothing, or it maps the page. -/
theorem pageMap_cases (room : Nat → Bool) (s t : AddrSpace) (src dst : Nat) (perm : BitVec 32) :
    (∃ r < 0, pageMap room s t src dst perm = (t, r)) ∨
    ∃ v, s.pages src = some v ∧ src < userPages ∧ CanMap room t dst ∧ badPerm perm = false ∧
      grantsWrite perm v.flags = false ∧
      pageMap room s t src dst perm = (t.set dst ⟨v.frame, perm ||| pteP, or_pteP_present perm⟩, 0) := by
  have hinval : -eInval < 0 := by decide
  have hmem : -eNoMem < 0 := by decide
  unfold pageMap
  by_cases hrange : userPages ≤ src ∨ userPages ≤ dst
  · rw [if_pos hrange]
    exact Or.inl ⟨_, hinval, rfl⟩
  rw [if_neg hrange]
  cases hsrc : s.pages src with
  | none => exact Or.inl ⟨_, hinval, rfl⟩
  | some v =>
      simp only
      split
      · exact Or.inl ⟨_, hinval, rfl⟩
      rename_i hbad
      split
      · exact Or.inl ⟨_, hinval, rfl⟩
      rename_i hgrant
      split
      · exact Or.inl ⟨_, hmem, rfl⟩
      rename_i htable
      refine Or.inr ⟨v, rfl, by omega, ⟨by omega, ?_⟩, Bool.eq_false_iff.mpr hbad,
        Bool.eq_false_iff.mpr hgrant, rfl⟩
      rw [not_and_or, Bool.not_eq_false, Bool.not_eq_false] at htable
      exact htable

theorem map_cases (room : Nat → Bool) (s : AddrSpace) (src dst : Nat) (perm : BitVec 32) :
    (∃ r < 0, s.map room src dst perm = (s, r)) ∨
    ∃ v, s.pages src = some v ∧ CanMap room s dst ∧
      s.map room src dst perm = (s.set dst ⟨v.frame, perm ||| pteP, or_pteP_present perm⟩, 0) := by
  unfold AddrSpace.map
  rcases pageMap_cases room s s src dst perm with hfail | ⟨v, hsrc, -, hcan, -, -, hrun⟩
  · exact Or.inl hfail
  · exact Or.inr ⟨v, hsrc, hcan, hrun⟩

theorem pageMap_fails (h : s.pages src = none ∨ ¬ CanMap room t dst) :
    ∃ r < 0, pageMap room s t src dst perm = (t, r) := by
  rcases pageMap_cases room s t src dst perm with hfail | ⟨v, hsrc, -, hcan, -⟩
  · exact hfail
  · rcases h with h | h
    · rw [h] at hsrc
      cases hsrc
    · exact absurd hcan h

theorem alloc_cases (room : Nat → Bool) (frame : Option Nat) (s : AddrSpace) (pn : Nat) (perm : BitVec 32) :
    (∃ r < 0, s.alloc room frame pn perm = (s, r)) ∨
    ∃ f, frame = some f ∧ pn < userPages ∧
      s.alloc room frame pn perm = (s.set pn ⟨f, perm ||| pteP, or_pteP_present perm⟩, 0) := by
  have hinval : -eInval < 0 := by decide
  have hmem : -eNoMem < 0 := by decide
  unfold AddrSpace.alloc
  by_cases hbad : userPages ≤ pn ∨ badPerm perm
  · rw [if_pos hbad]
    exact Or.inl ⟨_, hinval, rfl⟩
  rw [if_neg hbad]
  cases frame with
  | none => exact Or.inl ⟨_, hmem, rfl⟩
  | some f =>
      simp only
      split
      · exact Or.inl ⟨_, hmem, rfl⟩
      · exact Or.inr ⟨f, rfl, by omega, rfl⟩

theorem alloc_eq (f : Nat) (hdst : CanMap room s pn) (hbad : badPerm perm = false) :
    s.alloc room (some f) pn perm = (s.set pn ⟨f, perm ||| pteP, or_pteP_present perm⟩, 0) := by
  obtain ⟨hlt, htable⟩ := hdst
  unfold AddrSpace.alloc
  rw [if_neg]
  · simp only
    rw [if_neg]
    rintro ⟨h1, h2⟩
    rw [h1, h2] at htable
    rcases htable with h | h <;> cases h
  · rw [hbad, not_or]
    exact ⟨Nat.not_le.mpr hlt, Bool.false_ne_true⟩

/-- The table of a page that is mapped stays. -/
theorem canMap_set (hdst : CanMap room s dst) : CanMap room (s.set dst v) q ↔ CanMap room s q := by
  unfold CanMap
  refine and_congr_right fun _ => ?_
  simp only [AddrSpace.set, Function.update_apply]
  by_cases hq : q / 1024 = dst / 1024
  · rw [if_pos hq, hq]
    exact iff_of_true (Or.inl rfl) hdst.2
  · rw [if_neg hq]

end

/-! ## The page tables of the kernel -/

/-- The page table entry for page `pn` of `e`: the frame and the permissions. -/
def pteMapping (s : Kernel) (e : EnvIx) (pn : Nat) : Option (Nat × BitVec 32) :=
  if h : pn < userPages then
    (entryTarget (pteOf s (userSlot e pn h))).map fun f => (f, pteOf s (userSlot e pn h) &&& pteSyscall)
  else none

/-- `a` has the pages of `e`. -/
def Shows (s : Kernel) (e : EnvIx) (a : AddrSpace) : Prop := ∀ pn, a.mapping pn = pteMapping s e pn

section

variable {s s' : Kernel} {e c : EnvIx} {a b : AddrSpace} {room : Nat → Bool} {src dst f : Nat}
  {hsrc : src < userPages} {hdst : dst < userPages} {perm : BitVec 32}

theorem pteMapping_congr {pn : Nat} (h : ∀ hpn : pn < userPages,
    pteOf s' (userSlot e pn hpn) = pteOf s (userSlot e pn hpn)) : pteMapping s' e pn = pteMapping s e pn := by
  unfold pteMapping
  split
  · rename_i hpn
    rw [h hpn]
  · rfl

/-- The entry of a page that the address space shows. -/
theorem Shows.entry (ha : Shows s e a) (hf : entryTarget (pteOf s (userSlot e src hsrc)) = some f) :
    ∃ v, a.pages src = some v ∧ v.frame = f ∧
      v.flags &&& pteSyscall = pteOf s (userSlot e src hsrc) &&& pteSyscall := by
  have hpage := ha src
  rw [pteMapping, dif_pos hsrc, hf, Option.map_some, AddrSpace.mapping, Option.map_eq_some_iff] at hpage
  obtain ⟨v, hv, heq⟩ := hpage
  rw [Prod.mk.injEq] at heq
  exact ⟨v, hv, heq.1, heq.2⟩

theorem grantsWrite_congr {w x : BitVec 32} (h : w &&& pteSyscall = x &&& pteSyscall) :
    grantsWrite perm w = grantsWrite perm x := by
  have hbit : ∀ y : BitVec 32, y &&& pteW = y &&& pteSyscall &&& pteW := fun y => by
    rw [BitVec.and_assoc]
    rfl
  unfold grantsWrite
  rw [hbit w, hbit x, h]

/-- When `sys_page_map` of the kernel has mapped a page, so has `pageMap`. -/
theorem Shows.pageMap (ha : Shows s e a) (hb : Shows s c b)
    (h : PageShared s (userSlot e src hsrc) (userSlot c dst hdst) perm f s') (hcan : CanMap room b dst) :
    ∃ b', pageMap room a b src dst perm = (b', 0) ∧ Shows s' c b' := by
  obtain ⟨v, hv, hvf, hflags⟩ := ha.entry h.source
  have hgrant : grantsWrite perm v.flags = false := (grantsWrite_congr hflags).trans h.write_ok
  refine ⟨_, pageMap_eq hv hsrc hcan h.perm_ok hgrant, fun pn => ?_⟩
  · rw [mapping_set]
    by_cases hpn : pn = dst
    · subst hpn
      rw [if_pos rfl, pteMapping, dif_pos hdst, h.pte, Function.update_self, h.target_eq, BitVec.or_assoc,
        entry_and (by decide), hvf]
      rfl
    · rw [if_neg hpn, hb pn]
      refine (pteMapping_congr fun hlt => ?_).symm
      rw [h.pte, Function.update_of_ne fun heq => hpn (userSlot_inj heq).2]

end

end Jos.User
