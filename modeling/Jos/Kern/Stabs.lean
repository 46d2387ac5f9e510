import Jos.Lib.While
import Mathlib.Data.Int.Order.Basic

/-!
# The search in the stabs

`stab_binsearch` of `kern/kdebug.c`. The entries of one type lie scattered over the table; from the
middle of the region the search goes back to the nearest of them. When it hits the address exactly it
goes on with the next address, to find the right end. So it goes wrong where the next address belongs
to the next entry, unless it has passed that entry before, and where there is no next address. When the
region has entries of the type, but all of them are above the address, it leaves a region that is not
empty.

Main results:
* `Narrowed.finish_next`: where the search ends when the next address has an entry too;
* `stab_binsearch_encloses_iff`: the tables and addresses for which the search is right;
* `stab_binsearch_adjacent`: two functions side by side.
-/

namespace Jos.Kern

open Jos.Lib

structure Stab where
  nStrx : BitVec 32
  nType : BitVec 8
  nOther : BitVec 8
  nDesc : BitVec 16
  nValue : BitVec 32
deriving DecidableEq

/-- The fields of an entry that the debugger reads. -/
inductive StabField
  | strx | type | desc | value
  deriving DecidableEq

/-- A field of the entry with this index is read. -/
abbrev StabRead := Int × StabField

def Stab.IsType (s : Stab) (type : Int) : Prop := (s.nType.toNat : Int) = type

instance (s : Stab) (type : Int) : Decidable (s.IsType type) := inferInstanceAs (Decidable (_ = _))

/-- The local variables of `stab_binsearch`, and what has been read. The sum of two indices of a table
in memory does not overflow. -/
structure Search where
  l : Int
  r : Int
  left : Int
  right : Int
  anyMatches : Bool
  addr : BitVec 32
  reads : List StabRead

section

variable (stabs : Int → Stab) (type : Int)

/-- `while (m >= l && stabs[m].n_type != type) m--`, for at most `fuel` iterations -/
def scanBack (l : Int) : Nat → Int → List StabRead → Int × List StabRead
  | 0, m, reads => (m, reads)
  | fuel + 1, m, reads =>
      if m < l then (m, reads)
      else if (stabs m).IsType type then (m, (m, .type) :: reads)
      else scanBack l fuel (m - 1) ((m, .type) :: reads)

/-- The body of the loop for the entry `m`, which has the type; `trueM` is the middle. -/
def Search.narrow (c : Search) (trueM m : Int) (reads : List StabRead) : Search :=
  let v := (stabs m).nValue
  if v < c.addr then
    { c with anyMatches := true, left := m, l := trueM + 1, reads := (m, .value) :: reads }
  else if c.addr < v then
    { c with anyMatches := true, right := m - 1, r := m - 1, reads := (m, .value) :: reads }
  else { c with anyMatches := true, left := m, l := m, addr := c.addr + 1#32, reads := (m, .value) :: reads }

/-- The body of the loop of `stab_binsearch`. -/
def Search.step (c : Search) : Search :=
  let trueM := (c.l + c.r).tdiv 2
  match scanBack stabs type c.l (trueM - c.l + 1).toNat trueM c.reads with
  | (m, reads) =>
      if m < c.l then { c with l := trueM + 1, reads := reads } else c.narrow stabs trueM m reads

/-- What `stab_binsearch` does after its loop: the region. -/
def Search.finish (c : Search) : Int × Int × List StabRead :=
  if c.anyMatches = false then (c.left, c.left - 1, c.reads)
  else
    match scanBack stabs type (c.left + 1) (c.right - c.left).toNat c.right c.reads with
    | (l, reads) => (l, c.right, reads)

def Search.start (left right : Int) (addr : BitVec 32) : Search :=
  ⟨left, right, left, right, false, addr, []⟩

/-- The loop of `stab_binsearch`. -/
def Search.run (c : Search) : Option Search :=
  whileLoop (fun c => decide (c.l ≤ c.r)) (Search.step stabs type) (2 * (c.r - c.l + 1).toNat + 2) c

/-- `stab_binsearch`: the region that it leaves, and what it reads. -/
def stabBinsearch (left right : Int) (addr : BitVec 32) : Option (Int × Int × List StabRead) :=
  ((Search.start left right addr).run stabs type).map (Search.finish stabs type)

end

section

variable {stabs : Int → Stab} {type : Int} {c c' : Search} {l m t : Int} {fuel : Nat} {reads : List StabRead}
  {addr : BitVec 32}

/-! ## One iteration -/

/-- The scan stops at the last entry of the type, or below `l`. -/
theorem scanBack_spec (hfuel : (m - l + 1).toNat ≤ fuel) (hm : l ≤ m + 1) :
    ∃ p reads', scanBack stabs type l fuel m reads = (p, reads') ∧ l - 1 ≤ p ∧ p ≤ m ∧
      (l ≤ p → (stabs p).IsType type) ∧ ∀ i, p < i → i ≤ m → ¬ (stabs i).IsType type := by
  induction fuel generalizing m reads with
  | zero => exact ⟨m, reads, rfl, by omega, Int.le_refl m, fun h => by omega, fun i h1 h2 => by omega⟩
  | succ fuel ih =>
      unfold scanBack
      split
      · exact ⟨m, reads, rfl, by omega, Int.le_refl m, fun h => by omega, fun i h1 h2 => by omega⟩
      rename_i hlt
      split
      · rename_i htype
        exact ⟨m, _, rfl, by omega, Int.le_refl m, fun _ => htype, fun i h1 h2 => by omega⟩
      · rename_i htype
        obtain ⟨p, reads', hrun, h1, h2, h3, h4⟩ := @ih (m - 1) ((m, .type) :: reads) (by omega) (by omega)
        refine ⟨p, reads', hrun, h1, by omega, h3, fun i hi hi' => ?_⟩
        by_cases him : i = m
        · rw [him]
          exact htype
        · exact h4 i hi (by omega)

theorem middle_mem (h : c.l ≤ c.r) : c.l ≤ (c.l + c.r).tdiv 2 ∧ (c.l + c.r).tdiv 2 ≤ c.r := by
  rcases Int.le_total 0 (c.l + c.r) with h0 | h0
  · rw [Int.tdiv_eq_ediv_of_nonneg h0]
    omega
  · have hneg := Int.neg_tdiv (c.l + c.r) 2
    rw [Int.tdiv_eq_ediv_of_nonneg (a := -(c.l + c.r)) (by omega)] at hneg
    omega

/-- The entry that an iteration looks at. -/
structure Probe (stabs : Int → Stab) (type l t m : Int) : Prop where
  lo : l ≤ m
  hi : m ≤ t
  isType : (stabs m).IsType type
  last : ∀ i, m < i → i ≤ t → ¬ (stabs i).IsType type

/-- What an iteration does. -/
theorem step_cases (h : c.l ≤ c.r) : let t := (c.l + c.r).tdiv 2
    (∃ reads, Search.step stabs type c = { c with l := t + 1, reads := reads } ∧
      ∀ i, c.l ≤ i → i ≤ t → ¬ (stabs i).IsType type) ∨
    ∃ m reads, Probe stabs type c.l t m ∧ Search.step stabs type c = c.narrow stabs t m reads := by
  obtain ⟨hlo, hhi⟩ := middle_mem h
  obtain ⟨m, reads, hscan, h1, h2, h3, h4⟩ :=
    @scanBack_spec stabs type c.l ((c.l + c.r).tdiv 2) _ c.reads (Nat.le_refl _) (by omega)
  simp only [Search.step, hscan]
  by_cases hm : m < c.l
  · refine Or.inl ⟨reads, by rw [if_pos hm], fun i hi hi' => h4 i (by omega) hi'⟩
  · exact Or.inr ⟨m, reads, ⟨by omega, h2, h3 (by omega), h4⟩, by rw [if_neg hm]⟩

theorem narrow_lt (h : (stabs m).nValue < c.addr) : c.narrow stabs t m reads =
    { c with anyMatches := true, left := m, l := t + 1, reads := (m, .value) :: reads } := by
  unfold Search.narrow
  exact if_pos h

theorem narrow_gt (h : c.addr < (stabs m).nValue) : c.narrow stabs t m reads =
    { c with anyMatches := true, right := m - 1, r := m - 1, reads := (m, .value) :: reads } := by
  unfold Search.narrow
  simp only
  rw [if_neg (BitVec.not_lt.mpr (BitVec.le_of_lt h)), if_pos h]

theorem narrow_eq (h : (stabs m).nValue = c.addr) : c.narrow stabs t m reads =
    { c with anyMatches := true, left := m, l := m, addr := c.addr + 1#32, reads := (m, .value) :: reads } := by
  unfold Search.narrow
  simp only
  rw [h, if_neg (BitVec.lt_irrefl _), if_neg (BitVec.lt_irrefl _)]

theorem value_cases (s : Stab) (addr : BitVec 32) : s.nValue < addr ∨ addr < s.nValue ∨ s.nValue = addr := by
  rcases Nat.lt_trichotomy s.nValue.toNat addr.toNat with h | h | h
  · exact Or.inl h
  · exact Or.inr (Or.inr (BitVec.eq_of_toNat_eq h))
  · exact Or.inr (Or.inl h)

/-! ## The loop ends -/

theorem add_one_ne (x : BitVec 32) : x + 1#32 ≠ x := by
  bv_omega

/-- The region gets smaller, or the address has just been hit at its left end. -/
def Search.size (stabs : Int → Stab) (type : Int) (c : Search) : Nat :=
  2 * (c.r - c.l + 1).toNat + if (stabs c.l).IsType type ∧ (stabs c.l).nValue + 1#32 = c.addr then 0 else 1

theorem step_size (h : c.l ≤ c.r) : (Search.step stabs type c).size stabs type < c.size stabs type := by
  have hbound : ∀ (p : Prop) [Decidable p], (if p then 0 else 1 : Nat) ≤ 1 := by
    intro p _
    split
    · exact Nat.zero_le 1
    · exact Nat.le_refl 1
  obtain ⟨hlo, hhi⟩ := @middle_mem c h
  rcases @step_cases stabs type c h with ⟨reads, hstep, -⟩ | ⟨m, reads, hp, hstep⟩
  · rw [hstep]
    unfold Search.size
    have := hbound ((stabs ((c.l + c.r).tdiv 2 + 1)).IsType type ∧
      (stabs ((c.l + c.r).tdiv 2 + 1)).nValue + 1#32 = c.addr)
    dsimp only
    omega
  · obtain ⟨h1, h2, h3, -⟩ := hp
    rw [hstep]
    rcases value_cases (stabs m) c.addr with hv | hv | hv
    · rw [narrow_lt hv]
      unfold Search.size
      have := hbound ((stabs ((c.l + c.r).tdiv 2 + 1)).IsType type ∧
        (stabs ((c.l + c.r).tdiv 2 + 1)).nValue + 1#32 = c.addr)
      dsimp only
      omega
    · rw [narrow_gt hv]
      unfold Search.size
      have := hbound ((stabs c.l).IsType type ∧ (stabs c.l).nValue + 1#32 = c.addr)
      dsimp only
      omega
    · rw [narrow_eq hv]
      unfold Search.size
      dsimp only
      rw [if_pos ⟨h3, by rw [hv]⟩]
      by_cases hm : m = c.l
      · rw [← hm, if_neg]
        · omega
        · rintro ⟨-, heq⟩
          rw [hv] at heq
          exact add_one_ne _ heq
      · omega

theorem run_ends (c : Search) : ∃ c', c.run stabs type = some c' := by
  refine whileLoop_ends (Search.size stabs type) (fun c hgo => step_size (of_decide_eq_true hgo)) ?_
  unfold Search.size
  split
  · omega
  · omega

end

/-! ## The region of an address -/

section

variable (stabs : Int → Stab) (type L R : Int) (addr : BitVec 32)

/-- An entry of the type in the region. -/
structure IsEntry (i : Int) : Prop where
  lo : L ≤ i
  hi : i ≤ R
  isType : (stabs i).IsType type

/-- The addresses increase. -/
def Increasing : Prop := ∀ i j, IsEntry stabs type L R i → IsEntry stabs type L R j → i < j →
  (stabs i).nValue < (stabs j).nValue

/-- The entry `left` is the last one before the address. -/
structure IsLast (left : Int) : Prop where
  entry : IsEntry stabs type L R left
  le : (stabs left).nValue ≤ addr
  last : ∀ i, IsEntry stabs type L R i → (stabs i).nValue ≤ addr → i ≤ left

/-- The region ends before the first entry behind `k`, or with `R`. -/
def EndsAfter (k right : Int) : Prop :=
  (right = R ∧ ∀ i, IsEntry stabs type L R i → i ≤ k) ∨
    IsEntry stabs type L R (right + 1) ∧ k < right + 1 ∧
      ∀ i, IsEntry stabs type L R i → k < i → right + 1 ≤ i

/-- What the search should leave. -/
structure Encloses (left right : Int) : Prop where
  found : (∃ i, IsEntry stabs type L R i ∧ (stabs i).nValue ≤ addr) →
    IsLast stabs type L R addr left ∧ EndsAfter stabs type L R left right
  lost : (¬ ∃ i, IsEntry stabs type L R i ∧ (stabs i).nValue ≤ addr) → right < left

/-- Halving the region, the search comes upon the entry `i` before the entry `j`, which is the next. -/
inductive MeetsFirst (i j : Int) : Int → Int → Prop
  | here {l r : Int} (lo : i ≤ (l + r).tdiv 2) (hi : (l + r).tdiv 2 < j) : MeetsFirst i j l r
  | right {l r : Int} (out : (l + r).tdiv 2 < i) (h : MeetsFirst i j ((l + r).tdiv 2 + 1) r) : MeetsFirst i j l r
  | left {l r m : Int} (probe : Probe stabs type l ((l + r).tdiv 2) m) (out : j < m)
      (h : MeetsFirst i j l (m - 1)) : MeetsFirst i j l r

/-- The entry of the address does not mislead the search: there is a next address, and it is not that of
an entry which the search has still to meet; but the last address may belong to the very next entry. -/
def HitsWell (i : Int) : Prop := addr ≠ 0xFFFFFFFF#32 ∧ ∀ j, IsEntry stabs type L R j →
  (stabs j).nValue = addr + 1#32 →
    ¬ MeetsFirst stabs type i j L R ∨ addr + 1#32 = 0xFFFFFFFF#32 ∧ j = i + 1

/-- The tables and addresses for which the search does what it should. -/
def SearchFine : Prop :=
  (∀ i, ¬ IsEntry stabs type L R i) ∨
    (∃ i, IsEntry stabs type L R i ∧ (stabs i).nValue ≤ addr) ∧
      ∀ i, IsEntry stabs type L R i → (stabs i).nValue = addr → HitsWell stabs type L R addr i

end

section

variable {stabs : Int → Stab} {type L R left right i j k l m t : Int} {addr : BitVec 32} {c c' : Search}
  {reads : List StabRead}

/-! ## The end of the search -/

theorem IsEntry.lt_of_value (hinc : Increasing stabs type L R) (hi : IsEntry stabs type L R i)
    (hj : IsEntry stabs type L R j) (h : (stabs i).nValue < (stabs j).nValue) : i < j := by
  by_contra hle
  rcases Int.lt_or_eq_of_le (Int.not_lt.mp hle) with hlt | heq
  · exact absurd (hinc j i hj hi hlt) (BitVec.not_lt.mpr (BitVec.le_of_lt h))
  · rw [heq] at h
    exact absurd h (BitVec.lt_irrefl _)

theorem IsEntry.eq_of_value (hinc : Increasing stabs type L R) (hi : IsEntry stabs type L R i)
    (hj : IsEntry stabs type L R j) (h : (stabs i).nValue = (stabs j).nValue) : i = j := by
  rcases Int.lt_trichotomy i j with hlt | heq | hlt
  · exact absurd (hinc i j hi hj hlt) (by rw [h]; exact BitVec.lt_irrefl _)
  · exact heq
  · exact absurd (hinc j i hj hi hlt) (by rw [h]; exact BitVec.lt_irrefl _)

theorem IsEntry.le_of_value (hinc : Increasing stabs type L R) (hi : IsEntry stabs type L R i)
    (hj : IsEntry stabs type L R j) (h : (stabs i).nValue ≤ (stabs j).nValue) : i ≤ j := by
  by_contra hlt
  exact absurd (hinc j i hj hi (Int.not_le.mp hlt)) (BitVec.not_lt.mpr h)

theorem EndsAfter.le (h : EndsAfter stabs type L R k right) (hk : k ≤ R) : k ≤ right := by
  rcases h with ⟨hR, -⟩ | ⟨-, hlt, -⟩
  · omega
  · omega

/-- No entry lies between. -/
theorem EndsAfter.none_between (h : EndsAfter stabs type L R k right) (hi : IsEntry stabs type L R i) (hk : k < i) :
    right < i := by
  rcases h with ⟨-, hall⟩ | ⟨-, -, hall⟩
  · have := hall i hi
    omega
  · have := hall i hi hk
    omega

/-- From the right end the search goes back to the entry `left`. -/
theorem finish_found (hany : c.anyMatches = true) (hleft : IsEntry stabs type L R c.left)
    (hends : EndsAfter stabs type L R c.left c.right) :
    ∃ reads, c.finish stabs type = (c.left, c.right, reads) := by
  have hle := hends.le hleft.hi
  obtain ⟨p, reads, hscan, h1, h2, h3, -⟩ :=
    @scanBack_spec stabs type (c.left + 1) c.right (c.right - c.left).toNat c.reads (by omega) (by omega)
  refine ⟨reads, ?_⟩
  unfold Search.finish
  rw [hany, if_neg (by decide), hscan]
  have hp : p = c.left := by
    by_contra hne
    have hR : c.right ≤ R := by
      rcases hends with ⟨hR, -⟩ | ⟨hin, -⟩
      · omega
      · have := hin.hi
        omega
    have hlo := hleft.lo
    have hentry : IsEntry stabs type L R p := ⟨by omega, by omega, h3 (by omega)⟩
    have := hends.none_between hentry (by omega)
    omega
  rw [hp]

/-- The left end of the region is not behind the right end. -/
theorem finish_matched (hany : c.anyMatches = true) : ∃ l reads, c.finish stabs type = (l, c.right, reads) ∧
    l ≤ c.right ∧ min c.left c.right ≤ l := by
  unfold Search.finish
  rw [hany, if_neg (by decide)]
  by_cases hle : c.left ≤ c.right
  · obtain ⟨p, reads, hscan, h1, h2, -, -⟩ :=
      @scanBack_spec stabs type (c.left + 1) c.right (c.right - c.left).toNat c.reads (by omega) (by omega)
    refine ⟨p, reads, by rw [hscan], h2, by omega⟩
  · refine ⟨c.right, c.reads, ?_, Int.le_refl _, by omega⟩
    rw [Int.toNat_of_nonpos (by omega)]
    rfl

/-! ## Before the address is hit -/

/-- The entries before the window are before the address, and those behind it are behind; `left` and
`right` are those next to the window. -/
structure Narrowed (stabs : Int → Stab) (type L R : Int) (addr : BitVec 32) (c : Search) : Prop where
  key : c.addr = addr
  lo : L ≤ c.l
  hi : c.r ≤ R
  low : ∀ i, IsEntry stabs type L R i → i < c.l → (stabs i).nValue < addr
  high : ∀ i, IsEntry stabs type L R i → c.r < i → addr < (stabs i).nValue
  left : (c.left = L ∧ ∀ i, IsEntry stabs type L R i → c.l ≤ i) ∨
    IsEntry stabs type L R c.left ∧ c.left < c.l ∧ ∀ i, IsEntry stabs type L R i → i < c.l → i ≤ c.left
  right : EndsAfter stabs type L R c.r c.right
  any : c.anyMatches = true ↔ ∃ i, IsEntry stabs type L R i ∧ (i < c.l ∨ c.r < i)

theorem narrowed_start : Narrowed stabs type L R addr (Search.start L R addr) where
  key := rfl
  lo := Int.le_refl L
  hi := Int.le_refl R
  low i hi hlt := absurd hi.lo (Int.not_le.mpr hlt)
  high i hi hlt := absurd hi.hi (Int.not_le.mpr hlt)
  left := Or.inl ⟨rfl, fun i hi => hi.lo⟩
  right := Or.inl ⟨rfl, fun i hi => hi.hi⟩
  any := by
    refine iff_of_false Bool.false_ne_true ?_
    rintro ⟨i, hi, hlt | hlt⟩
    · exact absurd hi.lo (Int.not_le.mpr hlt)
    · exact absurd hi.hi (Int.not_le.mpr hlt)

/-- The probe is an entry of the region. -/
theorem Narrowed.entry (h : Narrowed stabs type L R addr c) (hp : Probe stabs type c.l t m) (ht : t ≤ c.r) :
    IsEntry stabs type L R m :=
  ⟨Int.le_trans h.lo hp.lo, Int.le_trans hp.hi (Int.le_trans ht h.hi), hp.isType⟩

/-- The first half of the window has no entry. -/
theorem Narrowed.skip (h : Narrowed stabs type L R addr c) (hlt : c.l ≤ t)
    (hno : ∀ i, c.l ≤ i → i ≤ t → ¬ (stabs i).IsType type) :
    Narrowed stabs type L R addr { c with l := t + 1, reads := reads } := by
  have hbefore : ∀ i, IsEntry stabs type L R i → i < t + 1 → i < c.l := by
    intro i hi hit
    by_contra hge
    exact hno i (by omega) (by omega) hi.isType
  refine ⟨h.key, Int.le_trans h.lo (by dsimp only; omega), h.hi, fun i hi hit => h.low i hi (hbefore i hi hit),
    h.high, ?_, h.right, ?_⟩
  · rcases h.left with ⟨hL, hall⟩ | ⟨hl, hlt', hall⟩
    · refine Or.inl ⟨hL, fun i hi => ?_⟩
      by_contra hge
      have h1 := hbefore i hi (Int.not_le.mp hge)
      have h2 := hall i hi
      omega
    · exact Or.inr ⟨hl, by dsimp only; omega, fun i hi hit => hall i hi (hbefore i hi hit)⟩
  · rw [h.any]
    refine exists_congr fun i => and_congr_right fun hi => or_congr_left ?_
    exact ⟨fun hlt' => by dsimp only; omega, fun hlt' => hbefore i hi hlt'⟩

/-- The probe is before the address. -/
theorem Narrowed.goRight (hinc : Increasing stabs type L R) (h : Narrowed stabs type L R addr c) (ht : t ≤ c.r)
    (hp : Probe stabs type c.l t m) (hv : (stabs m).nValue < addr) :
    Narrowed stabs type L R addr { c with anyMatches := true, left := m, l := t + 1, reads := reads } := by
  have hm := h.entry hp ht
  have hlast : ∀ i, IsEntry stabs type L R i → i < t + 1 → i ≤ m := by
    intro i hi hit
    by_contra hlt
    exact hp.last i (by omega) (by omega) hi.isType
  have h1 := hp.lo
  have h2 := hp.hi
  have hlo := h.lo
  refine ⟨h.key, by dsimp only; omega, h.hi, fun i hi hit => ?_, h.high,
    Or.inr ⟨hm, by dsimp only; omega, hlast⟩, h.right, iff_of_true rfl ⟨m, hm, Or.inl (by dsimp only; omega)⟩⟩
  rcases Int.lt_or_eq_of_le (hlast i hi hit) with hlt | heq
  · exact BitVec.lt_trans (hinc i m hi hm hlt) hv
  · rw [heq]
    exact hv

/-- The probe is behind the address. -/
theorem Narrowed.goLeft (hinc : Increasing stabs type L R) (h : Narrowed stabs type L R addr c) (ht : t ≤ c.r)
    (hp : Probe stabs type c.l t m) (hv : addr < (stabs m).nValue) :
    Narrowed stabs type L R addr { c with anyMatches := true, right := m - 1, r := m - 1, reads := reads } := by
  have hm := h.entry hp ht
  have h1 := hp.lo
  have h2 := hp.hi
  have hR := h.hi
  refine ⟨h.key, h.lo, by dsimp only; omega, h.low, fun i hi hit => ?_, h.left, Or.inr ⟨?_, ?_, ?_⟩,
    iff_of_true rfl ⟨m, hm, Or.inr (by dsimp only; omega)⟩⟩
  · rcases Int.lt_or_eq_of_le (show m ≤ i by dsimp only at hit; omega) with hlt | heq
    · exact BitVec.lt_trans hv (hinc m i hm hi hlt)
    · rw [← heq]
      exact hv
  · dsimp only
    rw [Int.sub_add_cancel]
    exact hm
  · dsimp only
    omega
  · intro i _ hit
    dsimp only at hit ⊢
    omega

/-- The window is empty, and the address has not been hit. -/
theorem Narrowed.finish (h : Narrowed stabs type L R addr c) (hend : c.r < c.l) :
    (∃ i, IsEntry stabs type L R i ∧ (stabs i).nValue ≤ addr) ∧
      (∃ left right reads, c.finish stabs type = (left, right, reads) ∧ Encloses stabs type L R addr left right) ∨
    (¬ ∃ i, IsEntry stabs type L R i) ∧
      (∃ left right reads, c.finish stabs type = (left, right, reads) ∧ right < left) ∨
    (¬ ∃ i, IsEntry stabs type L R i ∧ (stabs i).nValue ≤ addr) ∧ (∃ i, IsEntry stabs type L R i) ∧
      ∃ left right reads, c.finish stabs type = (left, right, reads) ∧ left ≤ right := by
  have hsplit : ∀ i, IsEntry stabs type L R i → i < c.l ∨ c.r < i := by
    intro i _
    omega
  rcases h.left with ⟨hL, hall⟩ | ⟨hl, hlt, hall⟩
  · have hnone : ¬ ∃ i, IsEntry stabs type L R i ∧ (stabs i).nValue ≤ addr := by
      rintro ⟨i, hi, hle⟩
      have hge := hall i hi
      exact absurd (h.high i hi (by omega)) (BitVec.not_lt.mpr hle)
    by_cases hex : ∃ i, IsEntry stabs type L R i
    · obtain ⟨i, hi⟩ := hex
      obtain ⟨l, reads, hfin, hle, -⟩ := @finish_matched stabs type c (h.any.mpr ⟨i, hi, hsplit i hi⟩)
      exact Or.inr (Or.inr ⟨hnone, ⟨i, hi⟩, l, c.right, reads, hfin, hle⟩)
    · have hany : c.anyMatches = false := by
        rw [← Bool.not_eq_true, h.any]
        rintro ⟨i, hi, -⟩
        exact hex ⟨i, hi⟩
      refine Or.inr (Or.inl ⟨hex, c.left, c.left - 1, c.reads, ?_, by omega⟩)
      unfold Search.finish
      rw [if_pos hany]
  · have hle : (stabs c.left).nValue ≤ addr := BitVec.le_of_lt (h.low _ hl hlt)
    have hends : EndsAfter stabs type L R c.left c.right := by
      rcases h.right with ⟨hR, hno⟩ | ⟨hin, hlt', hfirst⟩
      · refine Or.inl ⟨hR, fun i hi => hall i hi ?_⟩
        have := hno i hi
        omega
      · refine Or.inr ⟨hin, ?_, fun i hi hit => hfirst i hi ?_⟩
        · by_contra hge
          have hlow := h.low (c.right + 1) hin (by omega)
          exact absurd (h.high (c.right + 1) hin hlt') (BitVec.not_lt.mpr (BitVec.le_of_lt hlow))
        · by_contra hge
          have := hall i hi (by omega)
          omega
    obtain ⟨reads, hfin⟩ := finish_found (h.any.mpr ⟨c.left, hl, Or.inl hlt⟩) hl hends
    refine Or.inl ⟨⟨c.left, hl, hle⟩, c.left, c.right, reads, hfin, fun _ => ⟨⟨hl, hle, ?_⟩, hends⟩,
      fun hno => absurd ⟨c.left, hl, hle⟩ hno⟩
    intro i hi hile
    refine hall i hi ?_
    by_contra hge
    exact absurd (h.high i hi (by omega)) (BitVec.not_lt.mpr hile)

/-! ## After the address is hit -/

/-- The loop of `stab_binsearch` ends in the state `c'`. -/
def Search.EndsIn (stabs : Int → Stab) (type : Int) : Search → Search → Prop :=
  LoopEnds (fun c => decide (c.l ≤ c.r)) (Search.step stabs type)

/-- The entry `i` has been hit, and the next address is not that of an entry in the window. -/
structure AfterHit (stabs : Int → Stab) (type L R i : Int) (c : Search) : Prop where
  entry : IsEntry stabs type L R i
  left : c.left = i
  lo : i ≤ c.l
  mem : i ≤ c.r
  hi : c.r ≤ R
  below : ∀ k, IsEntry stabs type L R k → k < c.l → k ≤ i
  right : EndsAfter stabs type L R c.r c.right
  any : c.anyMatches = true
  key : (stabs i).nValue < c.addr
  next : ∀ k, IsEntry stabs type L R k → i < k → k ≤ c.r → c.addr < (stabs k).nValue

theorem AfterHit.step (h : AfterHit stabs type L R i c) (hgo : c.l ≤ c.r) :
    AfterHit stabs type L R i (c.step stabs type) := by
  obtain ⟨hlo, hhi⟩ := @middle_mem c hgo
  have hL := h.entry.lo
  have hl := h.lo
  rcases @step_cases stabs type c hgo with ⟨reads, hstep, hno⟩ | ⟨m, reads, hp, hstep⟩
  · rw [hstep]
    refine ⟨h.entry, h.left, by dsimp only; omega, h.mem, h.hi, fun k hk hlt => ?_, h.right, h.any, h.key, h.next⟩
    refine h.below k hk ?_
    by_contra hge
    exact hno k (by omega) (by dsimp only at hlt; omega) hk.isType
  · have h1 := hp.lo
    have h2 := hp.hi
    have hm : IsEntry stabs type L R m := ⟨by omega, Int.le_trans h2 (Int.le_trans hhi h.hi), hp.isType⟩
    rw [hstep]
    by_cases hmi : m = i
    · have hv : (stabs m).nValue < c.addr := by
        rw [hmi]
        exact h.key
      rw [narrow_lt hv]
      refine ⟨h.entry, hmi, by dsimp only; omega, h.mem, h.hi, fun k hk hlt => ?_, h.right, rfl, h.key, h.next⟩
      by_contra hgt
      exact hp.last k (by omega) (by dsimp only at hlt; omega) hk.isType
    · rw [narrow_gt (h.next m hm (by omega) (by omega))]
      refine ⟨h.entry, h.left, h.lo, by dsimp only; omega, by dsimp only; have := hm.hi; omega, h.below,
        Or.inr ⟨?_, by dsimp only; omega, fun k hk hlt => by dsimp only at hlt ⊢; omega⟩, rfl, h.key,
        fun k hk hlt hle => h.next k hk hlt (by dsimp only at hle; omega)⟩
      dsimp only
      rw [Int.sub_add_cancel]
      exact hm

theorem AfterHit.finish (h : AfterHit stabs type L R i c) (hrun : c.EndsIn stabs type c') :
    ∃ right reads, c'.finish stabs type = (i, right, reads) ∧ EndsAfter stabs type L R i right := by
  obtain ⟨hend, hstop⟩ := hrun.inv (AfterHit stabs type L R i) (fun c hgo h => h.step (of_decide_eq_true hgo)) h
  have hlt : c'.r < c'.l := Int.not_le.mp (of_decide_eq_false hstop)
  have hmem := hend.mem
  have hends : EndsAfter stabs type L R i c'.right := by
    rcases hend.right with ⟨hR, hall⟩ | ⟨hin, hlt', hfirst⟩
    · refine Or.inl ⟨hR, fun k hk => hend.below k hk ?_⟩
      have := hall k hk
      omega
    · refine Or.inr ⟨hin, by omega, fun k hk hik => hfirst k hk ?_⟩
      by_contra hge
      have := hend.below k hk (by omega)
      omega
  obtain ⟨reads, hfin⟩ := finish_found hend.any (hend.left ▸ hend.entry) (hend.left ▸ hends)
  rw [hend.left] at hfin
  exact ⟨c'.right, reads, hfin, hends⟩

/-- The search has passed the entry `j`. -/
structure Beyond (stabs : Int → Stab) (j : Int) (c : Search) : Prop where
  any : c.anyMatches = true
  left : j ≤ c.left
  lo : j ≤ c.l
  right : j ≤ c.right
  passed : (stabs j).nValue < c.addr ∨ j < c.l

theorem Beyond.step (h : Beyond stabs j c) (hgo : c.l ≤ c.r) : Beyond stabs j (c.step stabs type) := by
  obtain ⟨hlo, hhi⟩ := @middle_mem c hgo
  have hl := h.lo
  rcases @step_cases stabs type c hgo with ⟨reads, hstep, -⟩ | ⟨m, reads, hp, hstep⟩
  · rw [hstep]
    exact ⟨h.any, h.left, by dsimp only; omega, h.right, Or.inr (by dsimp only; omega)⟩
  · have h1 := hp.lo
    have h2 := hp.hi
    rw [hstep]
    -- The entry `j` itself is before the key, and not met again otherwise.
    have hne : ¬ (stabs m).nValue < c.addr → j < m := by
      intro hnot
      by_contra hle
      have hmj : m = j := by omega
      rw [hmj] at hnot
      rcases h.passed with hp | hp
      · exact hnot hp
      · omega
    rcases value_cases (stabs m) c.addr with hv | hv | hv
    · rw [narrow_lt hv]
      exact ⟨rfl, by dsimp only; omega, by dsimp only; omega, h.right, Or.inr (by dsimp only; omega)⟩
    · have := hne (BitVec.not_lt.mpr (BitVec.le_of_lt hv))
      rw [narrow_gt hv]
      exact ⟨rfl, h.left, h.lo, by dsimp only; omega, h.passed⟩
    · have := hne (by rw [hv]; exact BitVec.lt_irrefl _)
      rw [narrow_eq hv]
      exact ⟨rfl, by dsimp only; omega, by dsimp only; omega, h.right, Or.inr (by dsimp only; omega)⟩

theorem Beyond.finish (h : Beyond stabs j c) (hrun : c.EndsIn stabs type c') :
    ∃ left right reads, c'.finish stabs type = (left, right, reads) ∧ j ≤ left := by
  obtain ⟨hend, -⟩ := hrun.inv (Beyond stabs j) (fun c hgo h => h.step (of_decide_eq_true hgo)) h
  obtain ⟨l, reads, hfin, -, hmin⟩ := @finish_matched stabs type c' hend.any
  have h1 := hend.left
  have h2 := hend.right
  exact ⟨l, c'.right, reads, hfin, by omega⟩

/-- The last address has been hit, and the key is 0 after it: the entry is met again, and taken for one
behind the address. -/
theorem finish_wrapped (hrun : c.EndsIn stabs type c') (hj : IsEntry stabs type L R j)
    (hinc : Increasing stabs type L R) (hv : (stabs j).nValue = 0xFFFFFFFF#32) (hl : c.l = j)
    (hleft : c.left = j) (hkey : c.addr = 0#32) (hmem : j ≤ c.r) (hR : c.r ≤ R) :
    ∃ reads, c'.finish stabs type = (j - 1, j - 1, reads) := by
  have hgo : c.l ≤ c.r := by omega
  obtain ⟨hlo, hhi⟩ := @middle_mem c hgo
  have hL := hj.lo
  have hnext := LoopEnds.next hrun (decide_eq_true hgo)
  rcases @step_cases stabs type c hgo with ⟨reads, -, hno⟩ | ⟨m, reads, hp, hstep⟩
  · exact absurd hj.isType (hno j (by omega) (by omega))
  · have h1 := hp.lo
    have h2 := hp.hi
    have hmj : m = j := by
      by_contra hne
      have hlt := hinc j m hj ⟨by omega, by omega, hp.isType⟩ (by omega)
      rw [hv] at hlt
      rw [BitVec.lt_def] at hlt
      have hmax := (stabs m).nValue.isLt
      simp only [BitVec.toNat_ofNat] at hlt
      omega
    rw [hmj, narrow_gt (by rw [hkey, hv]; decide)] at hstep
    rw [hstep] at hnext
    have hstop := LoopEnds.stopped hnext (by simp only [decide_eq_false_iff_not]; omega)
    subst hstop
    obtain ⟨l, reads', hfin, hle, hmin⟩ := @finish_matched stabs type
      { c with anyMatches := true, right := j - 1, r := j - 1, reads := (j, .value) :: reads } rfl
    dsimp only at hfin hle hmin
    refine ⟨reads', ?_⟩
    rw [hfin, show l = j - 1 by omega]

/-- The search has still to hit the entry `j`, which has the address of the key. -/
structure Chasing (stabs : Int → Stab) (type L R j : Int) (c : Search) : Prop where
  entry : IsEntry stabs type L R j
  key : (stabs j).nValue = c.addr
  lo : L ≤ c.l
  mem : c.l ≤ j
  mem' : j ≤ c.r
  hi : c.r ≤ R
  right : c.r ≤ c.right

/-- It hits the entry, and misses the one before it. -/
theorem Chasing.finish (hinc : Increasing stabs type L R) (h : Chasing stabs type L R j c)
    (hrun : c.EndsIn stabs type c') : ∃ left right reads, c'.finish stabs type = (left, right, reads) ∧
      (c.addr ≠ 0xFFFFFFFF#32 → j ≤ left) ∧ (c.addr = 0xFFFFFFFF#32 → left = j - 1 ∧ right = j - 1) := by
  refine LoopEnds.rel (fun c c' => Chasing stabs type L R j c → ∃ left right reads,
    c'.finish stabs type = (left, right, reads) ∧ (c.addr ≠ 0xFFFFFFFF#32 → j ≤ left) ∧
      (c.addr = 0xFFFFFFFF#32 → left = j - 1 ∧ right = j - 1)) ?_ ?_ hrun h
  · intro c hstop h
    have h1 := h.mem
    have h2 := h.mem'
    have := of_decide_eq_false hstop
    omega
  · intro c c' hgo hrun ih h
    have hgo := of_decide_eq_true hgo
    obtain ⟨hlo, hhi⟩ := @middle_mem c hgo
    have hL := h.lo
    have hR := h.hi
    have hj1 := h.mem
    have hj2 := h.mem'
    have hright := h.right
    rcases @step_cases stabs type c hgo with ⟨reads, hstep, hno⟩ | ⟨m, reads, hp, hstep⟩
    · rw [hstep] at ih
      refine ih ⟨h.entry, h.key, by dsimp only; omega, ?_, h.mem', h.hi, h.right⟩
      by_contra hlt
      exact hno j h.mem (by dsimp only at hlt; omega) h.entry.isType
    · have h1 := hp.lo
      have h2 := hp.hi
      have hm : IsEntry stabs type L R m := ⟨by omega, by omega, hp.isType⟩
      rcases value_cases (stabs m) c.addr with hv | hv | hv
      · rw [hstep, narrow_lt hv] at ih
        have hmj := hm.lt_of_value hinc h.entry (by rw [h.key]; exact hv)
        refine ih ⟨h.entry, h.key, by dsimp only; omega, ?_, h.mem', h.hi, h.right⟩
        by_contra hlt
        exact hp.last j hmj (by dsimp only at hlt; omega) h.entry.isType
      · rw [hstep, narrow_gt hv] at ih
        have hjm := h.entry.lt_of_value hinc hm (by rw [h.key]; exact hv)
        exact ih ⟨h.entry, h.key, h.lo, h.mem, by dsimp only; omega, by dsimp only; omega, Int.le_refl _⟩
      · have hmj : m = j := hm.eq_of_value hinc h.entry (hv.trans h.key.symm)
        rw [hmj] at hv
        rw [hstep, hmj, narrow_eq hv] at hrun
        by_cases hmax : c.addr = 0xFFFFFFFF#32
        · obtain ⟨reads', hfin⟩ := finish_wrapped hrun h.entry hinc (hv.trans hmax) rfl rfl
            (by dsimp only; rw [hmax]; rfl) h.mem' h.hi
          exact ⟨j - 1, j - 1, reads', hfin, fun hne => absurd hmax hne, fun _ => ⟨rfl, rfl⟩⟩
        · have hbeyond : Beyond stabs j { c with
              anyMatches := true, left := j, l := j, addr := c.addr + 1#32, reads := (j, .value) :: reads } := by
            refine ⟨rfl, Int.le_refl j, Int.le_refl j, by dsimp only; omega, Or.inl ?_⟩
            dsimp only
            rw [hv]
            bv_omega
          obtain ⟨left, right, reads', hfin, hle⟩ := hbeyond.finish hrun
          exact ⟨left, right, reads', hfin, fun _ => hle, fun heq => absurd heq hmax⟩

/-! ## The address is hit -/

theorem encloses_of_hit (hinc : Increasing stabs type L R) (hi : IsEntry stabs type L R i)
    (hv : (stabs i).nValue = addr) (hends : EndsAfter stabs type L R i right) :
    Encloses stabs type L R addr i right := by
  have hle : (stabs i).nValue ≤ addr := by
    rw [hv]
    exact BitVec.le_refl _
  refine ⟨fun _ => ⟨⟨hi, hle, fun k hk hkle => hk.le_of_value hinc hi ?_⟩, hends⟩,
    fun hno => absurd ⟨i, hi, hle⟩ hno⟩
  rw [hv]
  exact hkle

theorem Encloses.left_eq (hinc : Increasing stabs type L R) (hi : IsEntry stabs type L R i)
    (hv : (stabs i).nValue = addr) (h : Encloses stabs type L R addr left right) :
    left = i ∧ EndsAfter stabs type L R i right := by
  have hle : (stabs i).nValue ≤ addr := by
    rw [hv]
    exact BitVec.le_refl _
  obtain ⟨hlast, hends⟩ := h.found ⟨i, hi, hle⟩
  have heq : left = i := by
    have h1 := hlast.last i hi hle
    have h2 := hlast.entry.le_of_value hinc hi (by rw [hv]; exact hlast.le)
    omega
  rw [heq] at hends
  exact ⟨heq, hends⟩

theorem Narrowed.mem (h : Narrowed stabs type L R addr c) (hi : IsEntry stabs type L R i)
    (hv : (stabs i).nValue = addr) : c.l ≤ i ∧ i ≤ c.r := by
  constructor
  · by_contra hlt
    have := h.low i hi (by omega)
    rw [hv] at this
    exact absurd this (BitVec.lt_irrefl _)
  · by_contra hlt
    have := h.high i hi (by omega)
    rw [hv] at this
    exact absurd this (BitVec.lt_irrefl _)

theorem Narrowed.right_ge (h : Narrowed stabs type L R addr c) : c.r ≤ c.right := h.right.le h.hi

/-- An address that no entry has. -/
theorem Narrowed.finish_between (hinc : Increasing stabs type L R) (hno : ∀ i, IsEntry stabs type L R i →
    (stabs i).nValue ≠ addr) (h : Narrowed stabs type L R addr c) (hrun : c.EndsIn stabs type c') :
    Narrowed stabs type L R addr c' ∧ c'.r < c'.l := by
  have hinv : ∀ c, decide (c.l ≤ c.r) = true → Narrowed stabs type L R addr c →
      Narrowed stabs type L R addr (c.step stabs type) := by
    intro c hgo h
    have hgo := of_decide_eq_true hgo
    obtain ⟨hlo, hhi⟩ := @middle_mem c hgo
    rcases @step_cases stabs type c hgo with ⟨reads, hstep, hnone⟩ | ⟨m, reads, hp, hstep⟩
    · rw [hstep]
      exact h.skip hlo hnone
    · have hm := h.entry hp hhi
      rw [hstep]
      rcases value_cases (stabs m) c.addr with hv | hv | hv
      · rw [narrow_lt hv]
        exact h.goRight hinc hhi hp (h.key ▸ hv)
      · rw [narrow_gt hv]
        exact h.goLeft hinc hhi hp (h.key ▸ hv)
      · exact absurd (hv.trans h.key) (hno m hm)
  obtain ⟨hend, hstop⟩ := hrun.inv (Narrowed stabs type L R addr) hinv h
  exact ⟨hend, Int.not_le.mp (of_decide_eq_false hstop)⟩

/-- An address whose next address is not that of an entry in the window. -/
theorem Narrowed.finish_hit (hinc : Increasing stabs type L R) (hi : IsEntry stabs type L R i)
    (hv : (stabs i).nValue = addr) (hmax : addr ≠ 0xFFFFFFFF#32) (hrun : c.EndsIn stabs type c')
    (h : Narrowed stabs type L R addr c)
    (hnext : ∀ j, IsEntry stabs type L R j → (stabs j).nValue = addr + 1#32 → c.r < j) :
    ∃ right reads, c'.finish stabs type = (i, right, reads) ∧ EndsAfter stabs type L R i right := by
  refine LoopEnds.rel (fun c c' => Narrowed stabs type L R addr c →
    (∀ j, IsEntry stabs type L R j → (stabs j).nValue = addr + 1#32 → c.r < j) →
    ∃ right reads, c'.finish stabs type = (i, right, reads) ∧ EndsAfter stabs type L R i right) ?_ ?_ hrun h hnext
  · intro c hstop h _
    have hmem := h.mem hi hv
    have := of_decide_eq_false hstop
    omega
  · intro c c' hgo hrun ih h hnext
    have hgo := of_decide_eq_true hgo
    obtain ⟨hlo, hhi⟩ := @middle_mem c hgo
    have hmem := h.mem hi hv
    rcases @step_cases stabs type c hgo with ⟨reads, hstep, hno⟩ | ⟨m, reads, hp, hstep⟩
    · rw [hstep] at ih
      exact ih (h.skip hlo hno) hnext
    · have hm := h.entry hp hhi
      have hmt := hp.hi
      rcases value_cases (stabs m) c.addr with hvm | hvm | hvm
      · rw [hstep, narrow_lt hvm] at ih
        exact ih (h.goRight hinc hhi hp (h.key ▸ hvm)) hnext
      · rw [hstep, narrow_gt hvm] at ih
        refine ih (h.goLeft hinc hhi hp (h.key ▸ hvm)) fun j hj hjv => ?_
        have := hnext j hj hjv
        dsimp only
        omega
      · have hmi : m = i := hm.eq_of_value hinc hi (by rw [hvm, hv, h.key])
        rw [hstep, narrow_eq hvm, hmi, h.key] at hrun
        refine AfterHit.finish (c := ⟨i, c.r, i, c.right, true, addr + 1#32, (i, .value) :: reads⟩) ?_ hrun
        refine ⟨hi, rfl, Int.le_refl i, hmem.2, h.hi, fun k _ hk => Int.le_of_lt hk, h.right, rfl, ?_, ?_⟩
        · dsimp only
          rw [hv]
          bv_omega
        · intro k hk hik hkr
          have hgt := hinc i k hi hk hik
          have hne : (stabs k).nValue ≠ addr + 1#32 := fun heq => by
            have := hnext k hk heq
            dsimp only at hkr
            omega
          rw [hv] at hgt
          dsimp only
          bv_omega

theorem Probe.unique {m' : Int} (h : Probe stabs type l t m) (h' : Probe stabs type l t m') : m = m' := by
  rcases Int.lt_trichotomy m m' with hlt | heq | hlt
  · exact absurd h'.isType (h.last m' hlt h'.hi)
  · exact heq
  · exact absurd h.isType (h'.last m hlt h.hi)

/-- The search goes on in the right part. -/
theorem meetsFirst_right (ht : (l + t).tdiv 2 < i) (hij : i < j) :
    MeetsFirst stabs type i j l t ↔ MeetsFirst stabs type i j ((l + t).tdiv 2 + 1) t := by
  refine ⟨fun hmeets => ?_, .right ht⟩
  cases hmeets with
  | here h1 h2 => omega
  | right _ hmeets => exact hmeets
  | left hp hout _ =>
      have := hp.hi
      omega

/-- The search goes on in the left part, behind both entries. -/
theorem meetsFirst_left (hp : Probe stabs type l ((l + t).tdiv 2) m) (him : i < m) (hjm : j < m) :
    MeetsFirst stabs type i j l t ↔ MeetsFirst stabs type i j l (m - 1) := by
  have h2 := hp.hi
  refine ⟨fun hmeets => ?_, .left hp hjm⟩
  cases hmeets with
  | here h1 h2 => omega
  | right hout _ => omega
  | left hp' _ hmeets =>
      rw [hp.unique hp']
      exact hmeets

/-- The probe is the next entry itself: the entry of the address is met after it. -/
theorem not_meetsFirst_probe (hp : Probe stabs type l ((l + t).tdiv 2) j) (hij : i < j) :
    ¬ MeetsFirst stabs type i j l t := by
  have h2 := hp.hi
  intro hmeets
  cases hmeets with
  | here h1 h2 => omega
  | right hout _ => omega
  | left hp' hout _ =>
      have := hp.unique hp'
      omega

/-- The entry of the address is met while the next one is still in the window: then the search goes on
to the next one, and comes back only from the last address. -/
theorem Chasing.encloses_iff (hinc : Increasing stabs type L R) (hi : IsEntry stabs type L R i)
    (hv : (stabs i).nValue = addr) (hij : i < j)
    (hadj : ∀ k, IsEntry stabs type L R k → i < k → j ≤ k) (hkey : c.addr = addr + 1#32)
    (h : Chasing stabs type L R j c) (hrun : c.EndsIn stabs type c') :
    ∃ left right reads, c'.finish stabs type = (left, right, reads) ∧
      (Encloses stabs type L R addr left right ↔ addr + 1#32 = 0xFFFFFFFF#32 ∧ j = i + 1) := by
  have hj := h.entry
  obtain ⟨left, right, reads, hfin, hgo, hend⟩ := h.finish hinc hrun
  rw [hkey] at hgo hend
  refine ⟨left, right, reads, hfin, ?_⟩
  constructor
  · intro henc
    have hleft := (henc.left_eq hinc hi hv).1
    have hlast : addr + 1#32 = 0xFFFFFFFF#32 := by
      by_contra hne
      have := hgo hne
      omega
    have := (hend hlast).1
    exact ⟨hlast, by omega⟩
  · rintro ⟨hlast, hji⟩
    obtain ⟨rfl, rfl⟩ := hend hlast
    have hi1 : j - 1 = i := by omega
    rw [hi1]
    refine encloses_of_hit hinc hi hv (Or.inr ⟨?_, by omega, fun k hk hik => ?_⟩)
    · rw [← hji]
      exact hj
    · have := hadj k hk hik
      omega

/-- An address whose next address is that of an entry in the window. -/
theorem Narrowed.finish_next (hinc : Increasing stabs type L R) (hi : IsEntry stabs type L R i)
    (hv : (stabs i).nValue = addr) (hmax : addr ≠ 0xFFFFFFFF#32) (hj : IsEntry stabs type L R j)
    (hvj : (stabs j).nValue = addr + 1#32) (hrun : c.EndsIn stabs type c') (h : Narrowed stabs type L R addr c)
    (hjr : j ≤ c.r) : ∃ left right reads, c'.finish stabs type = (left, right, reads) ∧
      (Encloses stabs type L R addr left right ↔
        ¬ MeetsFirst stabs type i j c.l c.r ∨ addr + 1#32 = 0xFFFFFFFF#32 ∧ j = i + 1) := by
  have hij : i < j := by
    refine hi.lt_of_value hinc hj ?_
    rw [hv, hvj]
    bv_omega
  -- There is no entry between the two.
  have hadj : ∀ k, IsEntry stabs type L R k → i < k → j ≤ k := by
    intro k hk hik
    refine hj.le_of_value hinc hk ?_
    have hgt := hinc i k hi hk hik
    rw [hv] at hgt
    rw [hvj]
    bv_omega
  refine LoopEnds.rel (fun c c' => Narrowed stabs type L R addr c → j ≤ c.r →
    ∃ left right reads, c'.finish stabs type = (left, right, reads) ∧
      (Encloses stabs type L R addr left right ↔
        ¬ MeetsFirst stabs type i j c.l c.r ∨ addr + 1#32 = 0xFFFFFFFF#32 ∧ j = i + 1)) ?_ ?_ hrun h hjr
  · intro c hstop h _
    have hmem := h.mem hi hv
    have := of_decide_eq_false hstop
    omega
  · intro c c' hgo hrun ih h hjr
    have hgo := of_decide_eq_true hgo
    obtain ⟨hlo, hhi⟩ := @middle_mem c hgo
    have hmem := h.mem hi hv
    rcases @step_cases stabs type c hgo with ⟨reads, hstep, hno⟩ | ⟨m, reads, hp, hstep⟩
    · have hti : (c.l + c.r).tdiv 2 < i := by
        by_contra hge
        exact hno i hmem.1 (by omega) hi.isType
      rw [hstep] at ih
      rw [meetsFirst_right hti hij]
      exact ih (h.skip hlo hno) hjr
    · have hm := h.entry hp hhi
      have h1 := hp.lo
      have h2 := hp.hi
      rcases value_cases (stabs m) c.addr with hvm | hvm | hvm
      · have hmi := hm.lt_of_value hinc hi (by rw [hv, ← h.key]; exact hvm)
        have hti : (c.l + c.r).tdiv 2 < i := by
          by_contra hge
          exact hp.last i hmi (by omega) hi.isType
        rw [hstep, narrow_lt hvm] at ih
        rw [meetsFirst_right hti hij]
        exact ih (h.goRight hinc hhi hp (h.key ▸ hvm)) hjr
      · have him := hi.lt_of_value hinc hm (by rw [hv, ← h.key]; exact hvm)
        have hleft : Narrowed stabs type L R addr
            { c with anyMatches := true, right := m - 1, r := m - 1, reads := (m, .value) :: reads } :=
          h.goLeft hinc hhi hp (h.key ▸ hvm)
        have hjm := hadj m hm him
        by_cases hmj : m = j
        · -- The next entry is passed first.
          rw [hstep, narrow_gt hvm] at hrun
          obtain ⟨right, reads', hfin, hends⟩ := hleft.finish_hit hinc hi hv hmax hrun fun k hk hkv => by
            rw [hk.eq_of_value hinc hj (hkv.trans hvj.symm)]
            dsimp only
            omega
          exact ⟨i, right, reads', hfin, iff_of_true (encloses_of_hit hinc hi hv hends)
            (Or.inl (not_meetsFirst_probe (hmj ▸ hp) hij))⟩
        · rw [hstep, narrow_gt hvm] at ih
          rw [meetsFirst_left hp him (by omega)]
          exact ih hleft (by dsimp only; omega)
      · have hmi : m = i := hm.eq_of_value hinc hi (by rw [hvm, hv, h.key])
        have htj : (c.l + c.r).tdiv 2 < j := by
          by_contra hge
          exact hp.last j (by omega) (by omega) hj.isType
        have hmeets : MeetsFirst stabs type i j c.l c.r := .here (by omega) htj
        rw [hstep, narrow_eq hvm, hmi, h.key] at hrun
        have hchase : Chasing stabs type L R j
            ⟨i, c.r, i, c.right, true, addr + 1#32, (i, .value) :: reads⟩ :=
          ⟨hj, hvj, hi.lo, Int.le_of_lt hij, hjr, h.hi, h.right_ge⟩
        rw [not_not_intro hmeets |> eq_false, false_or]
        exact hchase.encloses_iff hinc hi hv hij hadj rfl hrun

/-- `stab_binsearch` ends, and it finds the region of the address if and only if the table and the
address do not mislead it. -/
theorem stab_binsearch_encloses_iff (hinc : Increasing stabs type L R) :
    ∃ left right reads, stabBinsearch stabs type L R addr = some (left, right, reads) ∧
      (Encloses stabs type L R addr left right ↔ SearchFine stabs type L R addr) := by
  obtain ⟨c', hloop⟩ := @run_ends stabs type (Search.start L R addr)
  have hrun : (Search.start L R addr).EndsIn stabs type c' := ⟨_, hloop⟩
  have hstart : Narrowed stabs type L R addr (Search.start L R addr) := narrowed_start
  unfold stabBinsearch
  rw [hloop, Option.map_some]
  by_cases hhit : ∃ i, IsEntry stabs type L R i ∧ (stabs i).nValue = addr
  · obtain ⟨i, hi, hv⟩ := hhit
    have hfine : SearchFine stabs type L R addr ↔ HitsWell stabs type L R addr i := by
      constructor
      · rintro (hno | ⟨-, hall⟩)
        · exact absurd hi (hno i)
        · exact hall i hi hv
      · refine fun hwell => Or.inr ⟨⟨i, hi, by rw [hv]; exact BitVec.le_refl _⟩, fun k hk hkv => ?_⟩
        rw [hk.eq_of_value hinc hi (hkv.trans hv.symm)]
        exact hwell
    rw [hfine]
    by_cases hmax : addr = 0xFFFFFFFF#32
    · -- The key wraps around.
      have hchase : Chasing stabs type L R i (Search.start L R addr) :=
        ⟨hi, hv, Int.le_refl L, hi.lo, hi.hi, Int.le_refl R, Int.le_refl R⟩
      obtain ⟨left, right, reads, hfin, -, hend⟩ := hchase.finish hinc hrun
      refine ⟨left, right, reads, congrArg some hfin, iff_of_false (fun henc => ?_) fun hwell => hwell.1 hmax⟩
      have h1 := (henc.left_eq hinc hi hv).1
      have h2 := (hend hmax).1
      omega
    · by_cases hnext : ∃ j, IsEntry stabs type L R j ∧ (stabs j).nValue = addr + 1#32
      · obtain ⟨j, hj, hvj⟩ := hnext
        obtain ⟨left, right, reads, hfin, hiff⟩ := hstart.finish_next hinc hi hv hmax hj hvj hrun hj.hi
        refine ⟨left, right, reads, congrArg some hfin, hiff.trans ⟨fun h => ⟨hmax, fun k hk hkv => ?_⟩,
          fun hwell => hwell.2 j hj hvj⟩⟩
        rw [hk.eq_of_value hinc hj (hkv.trans hvj.symm)]
        exact h
      · obtain ⟨right, reads, hfin, hends⟩ := hstart.finish_hit hinc hi hv hmax hrun fun j hj hvj =>
          absurd ⟨j, hj, hvj⟩ hnext
        exact ⟨i, right, reads, congrArg some hfin, iff_of_true (encloses_of_hit hinc hi hv hends)
          ⟨hmax, fun j hj hvj => absurd ⟨j, hj, hvj⟩ hnext⟩⟩
  · have hno : ∀ i, IsEntry stabs type L R i → (stabs i).nValue ≠ addr := fun i hi hv => hhit ⟨i, hi, hv⟩
    obtain ⟨hend, hlt⟩ := hstart.finish_between hinc hno hrun
    rcases hend.finish hlt with ⟨hex, left, right, reads, hfin, henc⟩ | ⟨hnone, left, right, reads, hfin, hempty⟩ |
      ⟨hnone, ⟨k, hk⟩, left, right, reads, hfin, hle⟩
    · exact ⟨left, right, reads, congrArg some hfin, iff_of_true henc
        (Or.inr ⟨hex, fun i hi hv => absurd hv (hno i hi)⟩)⟩
    · exact ⟨left, right, reads, congrArg some hfin, iff_of_true
        ⟨fun ⟨i, hi, _⟩ => absurd ⟨i, hi⟩ hnone, fun _ => hempty⟩ (Or.inl fun i hi => hnone ⟨i, hi⟩)⟩
    · refine ⟨left, right, reads, congrArg some hfin, iff_of_false (fun henc => ?_) ?_⟩
      · have := henc.lost hnone
        omega
      · rintro (hno' | ⟨hex, -⟩)
        · exact hno' k hk
        · exact hnone hex

end

/-! ## Small tables -/

/-- `N_SO`, `N_FUN`, `N_SLINE`, `N_SOL` and `N_PSYM` -/
def nSo : Int := 0x64
def nFun : Int := 0x24
def nSline : Int := 0x44
def nSol : Int := 0x84
def nPsym : Int := 0xa0

/-- Two functions, at the addresses `a` and `b`. -/
def twoFuns (a b : BitVec 32) (i : Int) : Stab := ⟨0#32, 0x24#8, 0#8, 0#16, if i ≤ 0 then a else b⟩

theorem twoFuns_increasing {a b : BitVec 32} (h : a < b) : Increasing (twoFuns a b) nFun 0 1 := by
  intro i j hi hj hij
  have h1 := hi.lo
  have h2 := hj.hi
  unfold twoFuns
  dsimp only
  rw [if_pos (by omega), if_neg (by omega)]
  exact h

/-- The functions at 5 and 8, and the address 6. -/
theorem stab_binsearch_encloses_iff_two : ∃ left right reads,
    stabBinsearch (twoFuns 5#32 8#32) nFun 0 1 6#32 = some (left, right, reads) ∧
      (Encloses (twoFuns 5#32 8#32) nFun 0 1 6#32 left right ↔ SearchFine (twoFuns 5#32 8#32) nFun 0 1 6#32) :=
  stab_binsearch_encloses_iff (twoFuns_increasing (by decide))

/-- The functions at 5 and 6: the search for 5 leaves the region of 6. -/
theorem stab_binsearch_adjacent : Increasing (twoFuns 5#32 6#32) nFun 0 1 ∧
    ∃ reads, stabBinsearch (twoFuns 5#32 6#32) nFun 0 1 5#32 = some (1, 1, reads) ∧
      ¬ Encloses (twoFuns 5#32 6#32) nFun 0 1 5#32 1 1 := by
  refine ⟨twoFuns_increasing (by decide), _, rfl, fun h => ?_⟩
  obtain ⟨hlast, -⟩ := h.found ⟨0, ⟨by decide, by decide, by decide⟩, by decide⟩
  exact absurd hlast.le (by decide)

/- The search for 4, below both, leaves a region that is not empty. -/
example : (stabBinsearch (twoFuns 5#32 8#32) nFun 0 1 4#32).map (fun x => (x.1, x.2.1)) = some (-1, -1) := by
  decide +kernel

end Jos.Kern
