import Jos.User.AddrSpace
import Jos.User.PipeRefs

/-!
# Duplicating descriptors

`dup` of `lib/fd.c` with the functions that it calls, on the pages of one environment. The pages that
it writes to are computed from `newfdnum` without a check, and `newfdnum` is closed before the pages
of `oldfdnum` are read. So it does its work for two different descriptors, and otherwise only where the
computed pages are not those of other descriptors.

Main results:
* `dup_right_iff`: the calls for which `dup` is right;
* `dup_same_cons`: `dup(0, 0)`.
-/

namespace Jos.User

open Jos.Lib Jos.Kern Kernel

/-- `fd_lookup` -/
def AddrSpace.lookup (s : AddrSpace) (i : Int) : Option Pte :=
  if 0 ≤ i ∧ i < maxfd then s.pages (fdPage i) else none

def devFile : BitVec 32 := 0x66#32
def devPipe : BitVec 32 := 0x70#32

section

variable (room : Nat → Bool) (flush : AddrSpace → AddrSpace) (devId : Nat → BitVec 32)

/-- `dev_close` of the device: `devfile_flush`, `devpipe_close` or `devcons_close`; or none, where
`dev_lookup` finds no device. `flush` is the request to the file server. -/
def devClose (s : AddrSpace) (i : Int) (dev : BitVec 32) : AddrSpace :=
  if dev = devFile then flush s
  else if dev = devPipe then (s.unmap (fdPage i)).unmap (dataPage i)
  else s

/-- `close(i)`; `devId` reads `fd_dev_id` from a frame. -/
def AddrSpace.close (s : AddrSpace) (i : Int) : AddrSpace :=
  match s.lookup i with
  | none => s
  | some v => (devClose flush s i (devId v.frame)).unmap (fdPage i)

/-- The part of `dup` for the data page. -/
def dupDataPage (s : AddrSpace) (old new : Int) : AddrSpace × Int :=
  match s.pages (dataPage old) with
  | none => (s, 0)
  | some _ => s.map room (dataPage old) (dataPage new) (s.perm (dataPage old))

/-- The label `err` of `dup`. -/
def dupUndo (s : AddrSpace) (new : Int) : AddrSpace := (s.unmap (fdPage new)).unmap (dataPage new)

def dup (s : AddrSpace) (old new : Int) : AddrSpace × Int :=
  match s.lookup old with
  | none => (s, -eInval)
  | some _ =>
      match dupDataPage room (s.close flush devId new) old new with
      | (s, r) =>
          if r < 0 then (dupUndo s new, r)
          else match s.map room (fdPage old) (fdPage new) (s.perm (fdPage old)) with
            | (s, r) => if r < 0 then (dupUndo s new, r) else (s, new)

end

/-! ## What it should do -/

def IsOpen (s : AddrSpace) (i : Int) : Prop := 0 ≤ i ∧ i < maxfd ∧ s.mapping (fdPage i) ≠ none

/-- The descriptors other than `new` are as before. -/
def OthersKept (s : AddrSpace) (new : Int) (s' : AddrSpace) : Prop := ∀ j : Int, 0 ≤ j → j < maxfd → j ≠ new →
  s'.mapping (fdPage j) = s.mapping (fdPage j) ∧ s'.mapping (dataPage j) = s.mapping (dataPage j)

/-- `new` is a duplicate of `old`. -/
structure DupDone (s : AddrSpace) (old new : Int) (s' : AddrSpace) (r : Int) : Prop where
  value : r = new
  fd : s'.mapping (fdPage new) = s.mapping (fdPage old)
  data : s.mapping (dataPage old) ≠ none → s'.mapping (dataPage new) = s.mapping (dataPage old)
  stays : IsOpen s' old
  others : OthersKept s new s'

/-- What the memory and the result of `dup(old, new)` should be. -/
structure DupRight (s : AddrSpace) (old new : Int) (s' : AddrSpace) (r : Int) : Prop where
  valid : IsOpen s old → 0 ≤ new → new < maxfd → DupDone s old new s' r
  invalid : ¬ (IsOpen s old ∧ 0 ≤ new ∧ new < maxfd) → r < 0 ∧ OthersKept s new s'

/-- The page belongs to a descriptor. -/
def DescPage (pn : Nat) : Prop := 0xD0000 ≤ pn ∧ pn < 0xD0040

/-- Both pages of `new` that are needed can be mapped. -/
def CanDup (room : Nat → Bool) (s : AddrSpace) (old new : Int) : Prop :=
  CanMap room s (fdPage new) ∧ (s.mapping (dataPage old) ≠ none → CanMap room s (dataPage new))

/-- Where the pages of `new`, which is no descriptor, belong to descriptors, they are mapped as those
of `old`; or not at all, if `dup` will undo its work. -/
structure Harmless (room : Nat → Bool) (s : AddrSpace) (old new : Int) : Prop where
  fd : DescPage (fdPage new) → s.mapping (fdPage new) = s.mapping (fdPage old)
  data : CanDup room s old new → s.mapping (dataPage old) ≠ none → DescPage (dataPage new) →
    s.mapping (dataPage new) = s.mapping (dataPage old)
  undo : ¬ CanDup room s old new → DescPage (dataPage new) → s.mapping (dataPage new) = none

/-- The calls for which `dup` does what it should. -/
def DupSafe (room : Nat → Bool) (s : AddrSpace) (old new : Int) : Prop :=
  ¬ IsOpen s old ∨ (0 ≤ new ∧ new < maxfd) ∧ new ≠ old ∨
    ¬ (0 ≤ new ∧ new < maxfd) ∧ (new < 0 ∨ ¬ CanDup room s old new) ∧ Harmless room s old new

section

variable {room : Nat → Bool} {flush : AddrSpace → AddrSpace} {devId : Nat → BitVec 32}
  {s s' : AddrSpace} {old new i : Int} {pn q src dst : Nat} {v : Pte}

/-! ## Pages -/

theorem descPage_fd (h0 : 0 ≤ i) (h : i < maxfd) : fdPage i = 0xD0000 + i.toNat := by
  simp only [fdPage, maxfd] at h ⊢
  omega

theorem descPage_data (h0 : 0 ≤ i) (h : i < maxfd) : dataPage i = 0xD0020 + i.toNat := by
  simp only [dataPage, maxfd] at h ⊢
  omega

theorem toNat_lt_maxfd (h0 : 0 ≤ i) (h : i < maxfd) : i.toNat < 32 := by
  simp only [maxfd] at h
  omega

/-- The pages of `dup` are 32 apart, around the address space. -/
theorem pages_apart (i : Int) : fdPage i < 1048576 ∧ dataPage i = (fdPage i + 32) % 1048576 := by
  simp only [fdPage, dataPage]
  omega

theorem DescPage.lt (h : DescPage pn) : pn < userPages := by
  have hall := userPages_eq
  have := h.2
  omega

theorem DescPage.table (h : DescPage pn) : pn / 1024 = 832 := by
  have h1 := h.1
  have h2 := h.2
  omega

theorem lookup_isSome : (∃ v, s.lookup i = some v) ↔ IsOpen s i := by
  unfold AddrSpace.lookup IsOpen
  rw [Ne, mapping_eq_none]
  by_cases hi : 0 ≤ i ∧ i < maxfd
  · rw [if_pos hi, ← Option.isSome_iff_exists, Option.isSome_iff_ne_none]
    exact ⟨fun h => ⟨hi.1, hi.2, h⟩, fun h => h.2.2⟩
  · rw [if_neg hi]
    refine iff_of_false (fun ⟨v, hv⟩ => by cases hv) fun h => hi ⟨h.1, h.2.1⟩

/-! ## The two mappings -/

/-- `dup` after `close(newfdnum)`. -/
def dupMap (room : Nat → Bool) (s : AddrSpace) (old new : Int) : AddrSpace × Int :=
  match dupDataPage room s old new with
  | (s, r) =>
      if r < 0 then (dupUndo s new, r)
      else match s.map room (fdPage old) (fdPage new) (s.perm (fdPage old)) with
        | (s, r) => if r < 0 then (dupUndo s new, r) else (s, new)

theorem dup_of_open (h : IsOpen s old) :
    dup room flush devId s old new = dupMap room (s.close flush devId new) old new := by
  obtain ⟨v, hv⟩ := lookup_isSome.mpr h
  rw [dup, hv]
  rfl

theorem dup_of_closed (h : ¬ IsOpen s old) : dup room flush devId s old new = (s, -eInval) := by
  rw [← lookup_isSome, ← Option.isSome_iff_exists, Bool.not_eq_true, Option.isSome_eq_false_iff,
    Option.isNone_iff_eq_none] at h
  rw [dup, h]

/-- The pages after the data page of `old`, if it has one, has been mapped. -/
def withData (s : AddrSpace) (old new : Int) (q : Nat) : Option (Nat × BitVec 32) :=
  if q = dataPage new ∧ s.mapping (dataPage old) ≠ none then s.mapping (dataPage old) else s.mapping q

theorem dupDataPage_ok (hlt : dataPage old < userPages)
    (hcan : s.mapping (dataPage old) ≠ none → CanMap room s (dataPage new)) :
    ∃ s', dupDataPage room s old new = (s', 0) ∧ (∀ q, s'.mapping q = withData s old new q) ∧
      ∀ q, CanMap room s' q ↔ CanMap room s q := by
  unfold dupDataPage withData
  cases hd : s.pages (dataPage old) with
  | none =>
      rw [mapping_eq_none.mpr hd]
      exact ⟨s, rfl, fun q => by rw [if_neg fun h => h.2 rfl], fun q => Iff.rfl⟩
  | some v =>
      have hsome : s.mapping (dataPage old) ≠ none := by
        rw [Ne, mapping_eq_none, hd]
        exact fun hc => by cases hc
      obtain ⟨w, hmap, hw⟩ := pageMap_ok hd hlt (hcan hsome)
      refine ⟨_, hmap, fun q => ?_, fun q => canMap_set (hcan hsome)⟩
      rw [mapping_set, hw]
      by_cases hq : q = dataPage new
      · rw [if_pos hq, if_pos ⟨hq, hsome⟩]
      · rw [if_neg hq, if_neg fun h => hq h.1]

theorem mapping_undo (s : AddrSpace) (new : Int) (q : Nat) : (dupUndo s new).mapping q =
    if (q = fdPage new ∨ q = dataPage new) ∧ q < userPages then none else s.mapping q := by
  rw [dupUndo, mapping_unmap, mapping_unmap]
  by_cases h1 : q = dataPage new ∧ dataPage new < userPages
  · rw [if_pos h1, if_pos ⟨Or.inr h1.1, by omega⟩]
  by_cases h2 : q = fdPage new ∧ fdPage new < userPages
  · rw [if_neg h1, if_pos h2, if_pos ⟨Or.inl h2.1, by omega⟩]
  rw [if_neg h1, if_neg h2, if_neg]
  rintro ⟨rfl | rfl, hlt⟩
  · exact h2 ⟨rfl, hlt⟩
  · exact h1 ⟨rfl, hlt⟩

/-- Both pages can be mapped. -/
theorem dupMap_done (hlt : dataPage old < userPages) (hlt' : fdPage old < userPages)
    (hopen : withData s old new (fdPage old) ≠ none) (hcan : CanDup room s old new) :
    ∃ s', dupMap room s old new = (s', new) ∧ ∀ q, s'.mapping q =
      if q = fdPage new then withData s old new (fdPage old) else withData s old new q := by
  obtain ⟨s1, hrun, hmap1, hcan1⟩ := dupDataPage_ok hlt hcan.2
  cases hfd : s1.pages (fdPage old) with
  | none =>
      rw [← hmap1, Ne, mapping_eq_none] at hopen
      exact absurd hfd hopen
  | some v =>
      obtain ⟨w, hrun2, hw⟩ := pageMap_ok hfd hlt' ((hcan1 _).mpr hcan.1)
      refine ⟨s1.set (fdPage new) w, ?_, fun q => ?_⟩
      · unfold dupMap
        rw [hrun]
        simp only
        rw [if_neg (by decide), AddrSpace.map, hrun2]
        rfl
      · rw [mapping_set, hw, hmap1, hmap1]

/-- A page cannot be mapped, and the work is undone. -/
theorem dupMap_undone (hlt : dataPage old < userPages) (hcan : ¬ CanDup room s old new) :
    ∃ s' r, r < 0 ∧ dupMap room s old new = (s', r) ∧ ∀ q, s'.mapping q =
      if (q = fdPage new ∨ q = dataPage new) ∧ q < userPages then none else s.mapping q := by
  by_cases hdata : s.mapping (dataPage old) ≠ none → CanMap room s (dataPage new)
  · -- The page of the `struct Fd` cannot be mapped.
    obtain ⟨s1, hrun, hmap1, hcan1⟩ := dupDataPage_ok hlt hdata
    obtain ⟨r, hr, hrun2⟩ := @pageMap_fails room s1 s1 (fdPage old) (fdPage new) (s1.perm (fdPage old))
      (Or.inr fun hc => hcan ⟨(hcan1 _).mp hc, hdata⟩)
    refine ⟨dupUndo s1 new, r, hr, ?_, fun q => ?_⟩
    · unfold dupMap
      rw [hrun]
      simp only
      rw [if_neg (by decide), AddrSpace.map, hrun2]
      simp only
      rw [if_pos hr]
    · rw [mapping_undo, hmap1]
      split
      · rfl
      · rename_i hq
        unfold withData
        split
        · rename_i hboth
          have hdst := hdata hboth.2
          exact absurd ⟨Or.inr hboth.1, by rw [hboth.1]; exact hdst.1⟩ hq
        · rfl
  · -- The data page cannot be mapped.
    rw [Classical.not_imp] at hdata
    obtain ⟨hsome, hno⟩ := hdata
    obtain ⟨r, hr, hrun⟩ := @pageMap_fails room s s (dataPage old) (dataPage new) (s.perm (dataPage old)) (Or.inr hno)
    refine ⟨dupUndo s new, r, hr, ?_, mapping_undo s new⟩
    unfold dupMap dupDataPage
    cases hd : s.pages (dataPage old) with
    | none => exact absurd (mapping_eq_none.mpr hd) hsome
    | some v =>
        simp only [AddrSpace.map, hrun]
        rw [if_pos hr]

/-- There is no `struct Fd` to duplicate any more. -/
theorem dupMap_lost (hlt : dataPage old < userPages) (hlost : s.mapping (fdPage old) = none)
    (hne : fdPage old ≠ dataPage new) : (dupMap room s old new).2 < 0 := by
  by_cases hdata : s.mapping (dataPage old) ≠ none → CanMap room s (dataPage new)
  · obtain ⟨s1, hrun, hmap1, -⟩ := dupDataPage_ok hlt hdata
    have hnone : s1.pages (fdPage old) = none := by
      rw [← mapping_eq_none, hmap1, withData, if_neg fun h => hne h.1, hlost]
    obtain ⟨r, hr, hrun2⟩ := @pageMap_fails room s1 s1 (fdPage old) (fdPage new) (s1.perm (fdPage old)) (Or.inl hnone)
    unfold dupMap
    rw [hrun]
    simp only
    rw [if_neg (by decide), AddrSpace.map, hrun2]
    simp only
    rw [if_pos hr]
    exact hr
  · obtain ⟨s', r, hr, hrun, -⟩ := dupMap_undone hlt fun hc => hdata hc.2
    rw [hrun]
    exact hr

/-! ## Closing -/

/-- The pages of the other descriptors are those that `close` keeps. -/
theorem close_keeps (hflush : ∀ s pn, DescPage pn → (flush s).pages pn = s.pages pn) (hq : DescPage q)
    (hfd : q ≠ fdPage new) (hdata : q ≠ dataPage new) :
    (s.close flush devId new).mapping q = s.mapping q := by
  unfold AddrSpace.close
  cases hv : s.lookup new with
  | none => rfl
  | some v =>
      simp only
      rw [mapping_unmap, if_neg fun h => hfd h.1]
      unfold devClose
      by_cases hfile : devId v.frame = devFile
      · rw [if_pos hfile, AddrSpace.mapping, AddrSpace.mapping, hflush _ _ hq]
      rw [if_neg hfile]
      by_cases hpipe : devId v.frame = devPipe
      · rw [if_pos hpipe, mapping_unmap, if_neg fun h => hdata h.1, mapping_unmap, if_neg fun h => hfd h.1]
      · rw [if_neg hpipe]

theorem close_closes (h : IsOpen s i) : (s.close flush devId i).mapping (fdPage i) = none := by
  obtain ⟨v, hv⟩ := lookup_isSome.mpr h
  have hdesc : DescPage (fdPage i) := by
    have hi := toNat_lt_maxfd h.1 h.2.1
    rw [descPage_fd h.1 h.2.1]
    exact ⟨by omega, by omega⟩
  unfold AddrSpace.close
  rw [hv]
  simp only
  rw [mapping_unmap, if_pos ⟨rfl, hdesc.lt⟩]

theorem close_out (h : ¬ (0 ≤ i ∧ i < maxfd)) : s.close flush devId i = s := by
  unfold AddrSpace.close AddrSpace.lookup
  rw [if_neg h]

/-! ## The pages of one descriptor and of the others -/

theorem descPage_of_fd (h0 : 0 ≤ i) (h : i < maxfd) : DescPage (fdPage i) := by
  have hi := toNat_lt_maxfd h0 h
  rw [descPage_fd h0 h]
  exact ⟨by omega, by omega⟩

theorem descPage_of_data (h0 : 0 ≤ i) (h : i < maxfd) : DescPage (dataPage i) := by
  have hi := toNat_lt_maxfd h0 h
  rw [descPage_data h0 h]
  exact ⟨by omega, by omega⟩

theorem DescPage.exists (h : DescPage q) : ∃ j : Int, 0 ≤ j ∧ j < maxfd ∧ (q = fdPage j ∨ q = dataPage j) := by
  obtain ⟨hlo, hhi⟩ := h
  by_cases hq : q < 0xD0020
  · refine ⟨(q - 0xD0000 : Nat), by omega, by simp only [maxfd]; omega, Or.inl ?_⟩
    simp only [fdPage]
    omega
  · refine ⟨(q - 0xD0020 : Nat), by omega, by simp only [maxfd]; omega, Or.inr ?_⟩
    simp only [dataPage]
    omega

/-- Where `new` is no descriptor, all the descriptors have to be kept. -/
theorem othersKept_out (h : ¬ (0 ≤ new ∧ new < maxfd)) :
    OthersKept s new s' ↔ ∀ q, DescPage q → s'.mapping q = s.mapping q := by
  constructor
  · intro hkept q hq
    obtain ⟨j, h0, h1, rfl | rfl⟩ := hq.exists
    · exact (hkept j h0 h1 fun heq => h (heq ▸ ⟨h0, h1⟩)).1
    · exact (hkept j h0 h1 fun heq => h (heq ▸ ⟨h0, h1⟩)).2
  · intro hkept j h0 h1 _
    exact ⟨hkept _ (descPage_of_fd h0 h1), hkept _ (descPage_of_data h0 h1)⟩

/-- The page table of the descriptors is there as long as one of them is open. -/
theorem DescPage.canMap (hq : q / 1024 = 832) (hlt : q < userPages) (hi : DescPage pn)
    (hmapped : s.mapping pn ≠ none) : CanMap room s q := by
  refine ⟨hlt, Or.inl ?_⟩
  rw [hq, ← hi.table]
  refine s.mapped pn fun hnone => hmapped ?_
  rw [mapping_eq_none, hnone]

/-! ## Right or wrong -/

/-- Another descriptor as the target. -/
theorem dup_valid (hflush : ∀ s pn, DescPage pn → (flush s).pages pn = s.pages pn) (hopen : IsOpen s old)
    (h0 : 0 ≤ new) (h1 : new < maxfd) (hne : new ≠ old) :
    DupDone s old new (dup room flush devId s old new).1 (dup room flush devId s old new).2 := by
  have hi := toNat_lt_maxfd h0 h1
  have hi' := toNat_lt_maxfd hopen.1 hopen.2.1
  have hfd := descPage_fd h0 h1
  have hdata := descPage_data h0 h1
  have hfd' := descPage_fd hopen.1 hopen.2.1
  have hdata' := descPage_data hopen.1 hopen.2.1
  have hD := descPage_of_fd hopen.1 hopen.2.1
  have hD' := descPage_of_data hopen.1 hopen.2.1
  have hold := hopen.1
  have hnat : new.toNat ≠ old.toNat := fun h => hne (by omega)
  rw [dup_of_open hopen]
  have hkeepFd : (s.close flush devId new).mapping (fdPage old) = s.mapping (fdPage old) :=
    close_keeps hflush hD (by omega) (by omega)
  have hkeepData : (s.close flush devId new).mapping (dataPage old) = s.mapping (dataPage old) :=
    close_keeps hflush hD' (by omega) (by omega)
  have hkeep : ∀ q, DescPage q → q ≠ fdPage new → q ≠ dataPage new →
      (s.close flush devId new).mapping q = s.mapping q := fun q hq => close_keeps hflush hq
  generalize s.close flush devId new = t at hkeepFd hkeepData hkeep ⊢
  have hmapped : t.mapping (fdPage old) ≠ none := hkeepFd ▸ hopen.2.2
  have hcan : CanDup room t old new :=
    ⟨DescPage.canMap (descPage_of_fd h0 h1).table (descPage_of_fd h0 h1).lt hD hmapped,
      fun _ => DescPage.canMap (descPage_of_data h0 h1).table (descPage_of_data h0 h1).lt hD hmapped⟩
  have hW : withData t old new (fdPage old) = s.mapping (fdPage old) := by
    rw [withData, if_neg fun h => by omega, hkeepFd]
  obtain ⟨s', hrun, hmap⟩ := dupMap_done hD'.lt hD.lt (hW ▸ hopen.2.2) hcan
  rw [hrun]
  refine ⟨rfl, ?_, fun hsome => ?_, ⟨hopen.1, hopen.2.1, ?_⟩, fun j hj0 hj1 hj => ?_⟩
  · rw [hmap, if_pos rfl, hW]
  · rw [hmap, if_neg (by omega), withData, hkeepData, if_pos ⟨rfl, hsome⟩]
  · rw [hmap, if_neg (by omega), hW]
    exact hopen.2.2
  · have hjnat : j.toNat ≠ new.toNat := fun h => hj (by omega)
    have hjlt := toNat_lt_maxfd hj0 hj1
    have hjfd := descPage_fd hj0 hj1
    have hjdata := descPage_data hj0 hj1
    constructor
    · rw [hmap, if_neg (by omega), withData, if_neg fun h => by omega,
        hkeep _ (descPage_of_fd hj0 hj1) (by omega) (by omega)]
    · rw [hmap, if_neg (by omega), withData, if_neg fun h => by omega,
        hkeep _ (descPage_of_data hj0 hj1) (by omega) (by omega)]

/-- The same descriptor: it is closed, and so there is nothing to duplicate. -/
theorem dup_same (hopen : IsOpen s old) : (dup room flush devId s old old).2 < 0 := by
  have hi := toNat_lt_maxfd hopen.1 hopen.2.1
  have hfd := descPage_fd hopen.1 hopen.2.1
  have hdata := descPage_data hopen.1 hopen.2.1
  rw [dup_of_open hopen]
  exact dupMap_lost (descPage_of_data hopen.1 hopen.2.1).lt (close_closes hopen) (by omega)

/-- No descriptor as the target. -/
theorem dup_out (hopen : IsOpen s old) (hout : ¬ (0 ≤ new ∧ new < maxfd)) :
    (dup room flush devId s old new).2 < 0 ∧ OthersKept s new (dup room flush devId s old new).1 ↔
      (new < 0 ∨ ¬ CanDup room s old new) ∧ Harmless room s old new := by
  have hi := toNat_lt_maxfd hopen.1 hopen.2.1
  have hfd := descPage_fd hopen.1 hopen.2.1
  have hD := descPage_of_fd hopen.1 hopen.2.1
  have hD' := descPage_of_data hopen.1 hopen.2.1
  obtain ⟨hlt, hapart⟩ := pages_apart new
  have hall := userPages_eq
  rw [dup_of_open hopen, close_out hout, othersKept_out hout]
  by_cases hcan : CanDup room s old new
  · have hW : withData s old new (fdPage old) ≠ none := by
      unfold withData
      split
      · rename_i h
        exact h.2
      · exact hopen.2.2
    obtain ⟨s', hrun, hmap⟩ := dupMap_done hD'.lt hD.lt hW hcan
    have hWfd : DescPage (fdPage new) → withData s old new (fdPage old) = s.mapping (fdPage old) := by
      rintro ⟨h1, h2⟩
      rw [withData, if_neg fun h => by omega]
    rw [hrun]
    constructor
    · rintro ⟨hneg, hkept⟩
      refine ⟨Or.inl hneg, ⟨fun hq => ?_, fun _ hsome hq => ?_, fun hno => absurd hcan hno⟩⟩
      · rw [← hWfd hq, ← hkept _ hq, hmap, if_pos rfl]
      · rw [← hkept _ hq, hmap, if_neg (by omega), withData, if_pos ⟨rfl, hsome⟩]
    · rintro ⟨hneg, hfdOk, hdataOk, -⟩
      refine ⟨hneg.resolve_right (not_not_intro hcan), fun q hq => ?_⟩
      rw [hmap]
      split
      · rename_i heq
        subst heq
        rw [hWfd hq, hfdOk hq]
      · unfold withData
        split
        · rename_i h
          rw [h.1, hdataOk hcan h.2 (h.1 ▸ hq)]
        · rfl
  · obtain ⟨s', r, hr, hrun, hmap⟩ := dupMap_undone hD'.lt hcan
    -- Were its first page one of a descriptor, both could be mapped.
    have hnofd : ¬ DescPage (fdPage new) := by
      rintro ⟨h1, h2⟩
      exact hcan ⟨DescPage.canMap (by omega) (by omega) hD hopen.2.2,
        fun _ => DescPage.canMap (by omega) (by omega) hD hopen.2.2⟩
    rw [hrun]
    constructor
    · rintro ⟨-, hkept⟩
      refine ⟨Or.inr hcan, ⟨fun hq => absurd hq hnofd, fun hc => absurd hc hcan, fun _ hq => ?_⟩⟩
      rw [← hkept _ hq, hmap, if_pos ⟨Or.inr rfl, hq.lt⟩]
    · rintro ⟨-, -, -, hundo⟩
      refine ⟨hr, fun q hq => ?_⟩
      rw [hmap]
      split
      · rename_i h
        obtain ⟨rfl | rfl, -⟩ := h
        · exact absurd hq hnofd
        · rw [hundo hcan hq]
      · rfl

/-- `dup` does what it should if and only if the call is safe: the descriptors are different, and the
target is one; or the pages that are computed from the target are not those of the descriptors. -/
theorem dup_right_iff (hflush : ∀ s pn, DescPage pn → (flush s).pages pn = s.pages pn) :
    DupRight s old new (dup room flush devId s old new).1 (dup room flush devId s old new).2 ↔
      DupSafe room s old new := by
  by_cases hopen : IsOpen s old
  · by_cases hin : 0 ≤ new ∧ new < maxfd
    · by_cases hne : new = old
      · refine iff_of_false (fun hright => ?_) ?_
        · have hdone := hright.valid hopen hin.1 hin.2
          have hneg := @dup_same room flush devId s old hopen
          have hvalue := hdone.value
          rw [hne] at hvalue
          have h0 := hopen.1
          omega
        · rintro (h | ⟨-, h⟩ | ⟨h, -⟩)
          · exact h hopen
          · exact h hne
          · exact h hin
      · exact iff_of_true ⟨fun _ _ _ => dup_valid hflush hopen hin.1 hin.2 hne,
          fun h => absurd ⟨hopen, hin⟩ h⟩ (Or.inr (Or.inl ⟨hin, hne⟩))
    · constructor
      · rintro ⟨-, hinvalid⟩
        exact Or.inr (Or.inr ⟨hin, (dup_out hopen hin).mp (hinvalid fun h => hin h.2)⟩)
      · rintro (h | ⟨h, -⟩ | ⟨-, h⟩)
        · exact absurd hopen h
        · exact absurd h hin
        · exact ⟨fun _ h0 h1 => absurd ⟨h0, h1⟩ hin, fun _ => (dup_out hopen hin).mpr h⟩
  · rw [dup_of_closed hopen]
    have hneg : -eInval < 0 := by decide
    exact iff_of_true ⟨fun h => absurd h hopen, fun _ => ⟨hneg, fun _ _ _ _ => ⟨rfl, rfl⟩⟩⟩ (Or.inl hopen)

end

/-! ## One open descriptor -/

def devCons : BitVec 32 := 0x63#32

theorem cons_mapped (pn : Nat) (h : (if pn = 0xD0000 then some (Pte.mk 300 fdFlags fdFlags_present)
    else none) ≠ none) : (pn / 1024 == 832) = true := by
  by_cases hpn : pn = 0xD0000
  · rw [hpn]
    rfl
  · rw [if_neg hpn] at h
    exact absurd rfl h

/-- Descriptor 0 is the console, and there is no other one. -/
def consAt0 : AddrSpace where
  pages := fun pn => if pn = 0xD0000 then some ⟨300, fdFlags, fdFlags_present⟩ else none
  tables := fun i => i == 832
  mapped := cons_mapped

/-- Descriptor 0 is duplicated to descriptor 1. -/
theorem dup_right_iff_cons : DupRight consAt0 0 1 (dup (fun _ => true) id (fun _ => devCons) consAt0 0 1).1
    (dup (fun _ => true) id (fun _ => devCons) consAt0 0 1).2 :=
  (dup_right_iff fun _ _ _ => rfl).mpr (Or.inr (Or.inl (by decide)))

/-- `dup(0, 0)` closes descriptor 0 and fails. -/
theorem dup_same_cons : IsOpen consAt0 0 ∧
    (dup (fun _ => true) id (fun _ => devCons) consAt0 0 0).2 = -eInval ∧
    (dup (fun _ => true) id (fun _ => devCons) consAt0 0 0).1.mapping (fdPage 0) = none ∧
    ¬ DupRight consAt0 0 0 (dup (fun _ => true) id (fun _ => devCons) consAt0 0 0).1
      (dup (fun _ => true) id (fun _ => devCons) consAt0 0 0).2 := by
  have hopen : IsOpen consAt0 0 := ⟨by decide, by decide, by decide +kernel⟩
  have hvalue : (dup (fun _ => true) id (fun _ => devCons) consAt0 0 0).2 = -eInval := by decide +kernel
  refine ⟨hopen, hvalue, by decide +kernel, fun hright => ?_⟩
  have hdone := hright.valid hopen (by decide) (by decide)
  rw [hdone.value] at hvalue
  exact absurd hvalue (by decide)

/- `dup(0, 32)` maps the `struct Fd` of descriptor 0 at its data page. -/
example : (dup (fun _ => true) id (fun _ => devCons) consAt0 0 32).2 = 32 ∧
    (dup (fun _ => true) id (fun _ => devCons) consAt0 0 32).1.mapping (dataPage 0) =
      consAt0.mapping (fdPage 0) ∧ consAt0.mapping (dataPage 0) = none := by
  decide +kernel

end Jos.User
