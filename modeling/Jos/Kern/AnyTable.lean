import Jos.Kern.Stabs
import Mathlib.Algebra.Group.Nat.Defs

/-!
# The search in any table

`stab_binsearch` on a table of which nothing is known. It stays in the region that it is given, but it
leaves the entry before the region if the first entry is of the type and above the address. A search that
hits an address goes on with the next address; only where that wraps around can the region that it leaves
be one without an entry of the type at its left end.

Main result:
* `stab_binsearch_stays`: the search ends inside its region, on any table.
-/

namespace Jos.Kern

open Jos.Lib

/-! ## What a search reads -/

section

variable {stabs : Int → Stab} {type : Int} {c c' : Search} {l m t L R : Int} {fuel : Nat} {reads : List StabRead}
  {addr : BitVec 32}

/-- The scan reads entries from `l` to `m`. -/
theorem scanBack_reads (h : ∀ x ∈ reads, L ≤ x.1 ∧ x.1 ≤ R) (hl : L ≤ l) (hm : m ≤ R) :
    ∀ x ∈ (scanBack stabs type l fuel m reads).2, L ≤ x.1 ∧ x.1 ≤ R := by
  induction fuel generalizing m reads with
  | zero => exact h
  | succ fuel ih =>
      have hcons : ¬ m < l → ∀ x ∈ ((m, StabField.type) :: reads : List StabRead), L ≤ x.1 ∧ x.1 ≤ R := by
        intro hlt x hx
        rcases List.mem_cons.mp hx with rfl | hx
        · exact ⟨by dsimp only; omega, hm⟩
        · exact h x hx
      unfold scanBack
      split
      · exact h
      rename_i hlt
      split
      · exact hcons hlt
      · exact ih (hcons hlt) (by omega)

theorem scanBack_ne_nil (h : reads ≠ []) : (scanBack stabs type l fuel m reads).2 ≠ [] := by
  induction fuel generalizing m reads with
  | zero => exact h
  | succ fuel ih =>
      unfold scanBack
      split
      · exact h
      split
      · exact List.cons_ne_nil _ _
      · exact ih (List.cons_ne_nil _ _)

/-- A scan of something reads. -/
theorem scanBack_reads_some (hfuel : 0 < fuel) (hm : l ≤ m) : (scanBack stabs type l fuel m reads).2 ≠ [] := by
  cases fuel with
  | zero => exact absurd hfuel (Nat.lt_irrefl 0)
  | succ fuel =>
      unfold scanBack
      rw [if_neg (by omega)]
      split
      · exact List.cons_ne_nil _ _
      · exact scanBack_ne_nil (List.cons_ne_nil _ _)

theorem narrow_reads : (c.narrow stabs t m reads).reads = (m, .value) :: reads := by
  unfold Search.narrow
  dsimp only
  split
  · rfl
  split
  · rfl
  · rfl

/-- An iteration reads in the region, and reads something. -/
theorem step_reads (h : c.l ≤ c.r) (hlo : L ≤ c.l) (hhi : c.r ≤ R) (hreads : ∀ x ∈ c.reads, L ≤ x.1 ∧ x.1 ≤ R) :
    (∀ x ∈ (c.step stabs type).reads, L ≤ x.1 ∧ x.1 ≤ R) ∧ (c.step stabs type).reads ≠ [] := by
  obtain ⟨h1, h2⟩ := middle_mem h
  obtain ⟨m, reads, hscan, hm1, hm2, -, -⟩ :=
    @scanBack_spec stabs type c.l ((c.l + c.r).tdiv 2) _ c.reads (Nat.le_refl _) (by omega)
  have hmem := @scanBack_reads stabs type c.l _ L R ((c.l + c.r).tdiv 2 - c.l + 1).toNat c.reads hreads hlo
    (Int.le_trans h2 hhi)
  have hne := @scanBack_reads_some stabs type c.l _ ((c.l + c.r).tdiv 2 - c.l + 1).toNat c.reads (by omega) h1
  rw [hscan] at hmem hne
  unfold Search.step
  dsimp only
  rw [hscan]
  dsimp only
  split
  · exact ⟨hmem, hne⟩
  · rw [narrow_reads]
    refine ⟨fun x hx => ?_, List.cons_ne_nil _ _⟩
    rcases List.mem_cons.mp hx with rfl | hx
    · exact ⟨by dsimp only; omega, by dsimp only; omega⟩
    · exact hmem x hx

/-- The variables of a search in the region from `L` to `R`. -/
structure Search.Within (stabs : Int → Stab) (type L R : Int) (c : Search) : Prop where
  lo : L ≤ c.l
  window : c.l ≤ c.r + 1
  hi : c.r ≤ c.right
  right_le : c.right ≤ R
  left_ge : L ≤ c.left
  left_le : c.left ≤ R
  start : c.anyMatches = false → c.left = L
  rightType : c.right = R ∨ (stabs (c.right + 1)).IsType type
  reads : ∀ x ∈ c.reads, L ≤ x.1 ∧ x.1 ≤ R

theorem within_start (h : L ≤ R) : (Search.start L R addr).Within stabs type L R :=
  ⟨Int.le_refl L, Int.le_trans h (Int.le_add_of_nonneg_right (by decide)), Int.le_refl R, Int.le_refl R,
    Int.le_refl L, h, fun _ => rfl, Or.inl rfl, fun _ hx => absurd hx List.not_mem_nil⟩

theorem Search.Within.step (h : c.Within stabs type L R) (hgo : c.l ≤ c.r) :
    (c.step stabs type).Within stabs type L R := by
  have hreads := (@step_reads stabs type c L R hgo h.lo (Int.le_trans h.hi h.right_le) h.reads).1
  obtain ⟨h1, h2⟩ := middle_mem hgo
  obtain ⟨hlo, hwin, hhi, hright, hge, hle, hstart, htype, -⟩ := h
  rcases @step_cases stabs type c hgo with ⟨reads, hstep, -⟩ | ⟨m, reads, hp, hstep⟩
  · rw [hstep] at hreads ⊢
    exact ⟨by dsimp only; omega, by dsimp only; omega, hhi, hright, hge, hle, hstart, htype, hreads⟩
  · obtain ⟨hp1, hp2, hp3, -⟩ := hp
    rw [hstep] at hreads ⊢
    rcases value_cases (stabs m) c.addr with hv | hv | hv
    · rw [narrow_lt hv] at hreads ⊢
      exact ⟨by dsimp only; omega, by dsimp only; omega, hhi, hright, by dsimp only; omega, by dsimp only; omega,
        (fun hany => by cases hany), htype, hreads⟩
    · rw [narrow_gt hv] at hreads ⊢
      refine ⟨hlo, by dsimp only; omega, Int.le_refl _, by dsimp only; omega, hge, hle,
        (fun hany => by cases hany), Or.inr ?_, hreads⟩
      dsimp only
      rw [Int.sub_add_cancel]
      exact hp3
    · rw [narrow_eq hv] at hreads ⊢
      exact ⟨by dsimp only; omega, by dsimp only; omega, hhi, hright, by dsimp only; omega, by dsimp only; omega,
        (fun hany => by cases hany), htype, hreads⟩

/-- What is known of a region that a search from `L` to `R` leaves. -/
structure SearchEnds (stabs : Int → Stab) (type L R left right : Int) (reads : List StabRead) : Prop where
  mem : ∀ x ∈ reads, L ≤ x.1 ∧ x.1 ≤ R
  reads_ne : reads ≠ []
  left_ge : L - 1 ≤ left
  left_le : left ≤ R
  right_le : right ≤ R
  region : left = L ∨ left ≤ right
  below : left = L - 1 → right = L - 1 ∧ (stabs L).IsType type

/-- After the loop nothing outside of the region is read either. -/
theorem Search.Within.finish (h : c.Within stabs type L R) (hne : c.reads ≠ []) :
    SearchEnds stabs type L R (c.finish stabs type).1 (c.finish stabs type).2.1 (c.finish stabs type).2.2 := by
  obtain ⟨hlo, hwin, hhi, hright, hge, hle, hstart, htype, hreads⟩ := h
  by_cases hany : c.anyMatches = false
  · have hleft := hstart hany
    unfold Search.finish
    rw [if_pos hany]
    exact ⟨hreads, hne, by dsimp only; omega, hle, by dsimp only; omega, Or.inl hleft,
      fun heq => by dsimp only at heq; omega⟩
  · obtain ⟨l, reads, hfin, h1, h2⟩ := @finish_matched stabs type c (eq_true_of_ne_false hany)
    have hmem := @scanBack_reads stabs type (c.left + 1) c.right L R (c.right - c.left).toNat c.reads hreads
      (by omega) hright
    have hcons := @scanBack_ne_nil stabs type (c.left + 1) c.right (c.right - c.left).toNat c.reads hne
    have heq : (c.finish stabs type).2.2 =
        (scanBack stabs type (c.left + 1) (c.right - c.left).toNat c.right c.reads).2 := by
      unfold Search.finish
      rw [if_neg hany]
    rw [← heq] at hmem hcons
    rw [hfin] at hmem hcons ⊢
    refine ⟨hmem, hcons, by dsimp only; omega, by dsimp only; omega, hright, Or.inr h1, fun hl => ?_⟩
    dsimp only at hl ⊢
    rcases htype with hR | htype
    · omega
    · have hL : c.right + 1 = L := by omega
      rw [← hL]
      exact ⟨by omega, htype⟩

/-- The search ends, and it stays in its region until then. -/
theorem stabBinsearch_within (stabs : Int → Stab) (type : Int) (addr : BitVec 32) (h : L ≤ R) :
    ∃ c : Search, c.Within stabs type L R ∧ c.reads ≠ [] ∧
      stabBinsearch stabs type L R addr = some (c.finish stabs type) := by
  obtain ⟨c', hloop⟩ := @run_ends stabs type (Search.start L R addr)
  have hgo : decide ((Search.start L R addr).l ≤ (Search.start L R addr).r) = true := decide_eq_true h
  have hends : (Search.start L R addr).EndsIn stabs type c' := ⟨_, hloop⟩
  have hstart := @within_start stabs type L R addr h
  have hne := (@step_reads stabs type _ L R h (Int.le_refl L) (Int.le_refl R) hstart.reads).2
  obtain ⟨⟨hwithin, hreads⟩, -⟩ := (hends.next hgo).inv
    (fun c => c.Within stabs type L R ∧ c.reads ≠ [])
    (fun c hgo hc => ⟨hc.1.step (of_decide_eq_true hgo),
      (step_reads (of_decide_eq_true hgo) hc.1.lo (Int.le_trans hc.1.hi hc.1.right_le) hc.1.reads).2⟩)
    ⟨hstart.step h, hne⟩
  refine ⟨c', hwithin, hreads, ?_⟩
  unfold stabBinsearch
  rw [hloop, Option.map_some]

theorem stabBinsearch_ends (h : L ≤ R) : ∃ left right reads,
    stabBinsearch stabs type L R addr = some (left, right, reads) ∧
      SearchEnds stabs type L R left right reads := by
  obtain ⟨c, hwithin, hreads, hrun⟩ := stabBinsearch_within stabs type addr h
  exact ⟨_, _, _, hrun, hwithin.finish hreads⟩

theorem Search.Within.right_ge (h : c.Within stabs type L R) : L - 1 ≤ c.right := by
  have hlo := h.lo
  have hwin := h.window
  have hhi := h.hi
  omega

/-- The right end of the region is never before the entry that precedes the first one. -/
theorem Search.Within.finish_right_ge (h : c.Within stabs type L R) : L - 1 ≤ (c.finish stabs type).2.1 := by
  unfold Search.finish
  by_cases hany : c.anyMatches = false
  · rw [if_pos hany, h.start hany]
  · rw [if_neg hany]
    exact h.right_ge

/-- An empty region stays empty. -/
theorem stabBinsearch_empty (h : R < L) : stabBinsearch stabs type L R addr = some (L, L - 1, []) := by
  have hstop : ¬ decide ((Search.start L R addr).l ≤ (Search.start L R addr).r) = true :=
    fun hgo => absurd (of_decide_eq_true hgo) (Int.not_le.mpr h)
  unfold stabBinsearch Search.run whileLoop
  rw [if_neg hstop]
  rfl

/-! ## A search that hits addresses -/

/-- The address of a search has not wrapped around: it is raised at entries that come later and later. And
the entry `left` is before the window, unless it has just been hit. -/
structure Search.Raised (stabs : Int → Stab) (type L : Int) (addr : BitVec 32) (c : Search) : Prop where
  left : c.addr.toNat ≤ addr.toNat + (c.l - L).toNat ∧ (c.left < c.l ∨ c.left = L) ∨
    c.left = c.l ∧ c.l ≤ c.r ∧ (stabs c.l).IsType type ∧ (stabs c.l).nValue < c.addr ∧
      c.addr.toNat ≤ addr.toNat + (c.l - L).toNat + 1
  leftType : c.left = L ∨ (stabs c.left).IsType type

theorem Search.Raised.step (hno : addr.toNat + (R - L + 1).toNat < 2 ^ 32) (hw : c.Within stabs type L R)
    (h : c.Raised stabs type L addr) (hgo : c.l ≤ c.r) : (c.step stabs type).Raised stabs type L addr := by
  obtain ⟨h1, h2⟩ := middle_mem hgo
  obtain ⟨hlo, hwin, hhi, hright, hge, hle, -, -, -⟩ := hw
  obtain ⟨hleft, htype⟩ := h
  rcases @step_cases stabs type c hgo with ⟨reads, hstep, hnone⟩ | ⟨m, reads, hp, hstep⟩
  · rw [hstep]
    refine ⟨Or.inl ?_, htype⟩
    rcases hleft with ⟨hkey, hl⟩ | ⟨-, -, hit, -⟩
    · exact ⟨by dsimp only; omega, by dsimp only; omega⟩
    · exact absurd hit (hnone c.l (Int.le_refl _) h1)
  · obtain ⟨hp1, hp2, hp3, -⟩ := hp
    rw [hstep]
    rcases value_cases (stabs m) c.addr with hv | hv | hv
    · rw [narrow_lt hv]
      refine ⟨Or.inl ⟨?_, by dsimp only; omega⟩, Or.inr hp3⟩
      rcases hleft with ⟨hkey, -⟩ | ⟨-, -, -, -, hkey⟩
      · dsimp only; omega
      · dsimp only; omega
    · rw [narrow_gt hv]
      refine ⟨?_, htype⟩
      rcases hleft with hleft | ⟨hl, -, hit, hval, hkey⟩
      · exact Or.inl hleft
      · have hml : m ≠ c.l := by
          intro heq
          rw [heq] at hv
          exact absurd hv (BitVec.not_lt.mpr (BitVec.le_of_lt hval))
        exact Or.inr ⟨hl, by dsimp only; omega, hit, hval, hkey⟩
    · rw [narrow_eq hv]
      have hkey : c.addr.toNat ≤ addr.toNat + (m - L).toNat := by
        rcases hleft with ⟨hkey, -⟩ | ⟨hl, -, hit, hval, hkey⟩
        · omega
        · have hml : m ≠ c.l := by
            intro heq
            rw [← heq, hv] at hval
            exact absurd hval (BitVec.lt_irrefl _)
          omega
      have hnext : (c.addr + 1#32).toNat = c.addr.toNat + 1 := by
        rw [BitVec.toNat_add, show (1#32).toNat = 1 from rfl]
        omega
      refine ⟨Or.inr ⟨rfl, by dsimp only; omega, hp3, ?_, ?_⟩, Or.inr hp3⟩
      · dsimp only
        rw [hv, BitVec.lt_def, hnext]
        exact Nat.lt_succ_self _
      · dsimp only
        rw [hnext]
        omega

/-- When the address cannot wrap around, a region that starts behind `L` starts with an entry of the type. -/
theorem stabBinsearch_found {left right : Int} (hno : addr.toNat + (R - L + 1).toNat < 2 ^ 32) (h : L ≤ R)
    (hrun : stabBinsearch stabs type L R addr = some (left, right, reads)) (hleft : L < left) :
    left ≤ right ∧ (stabs left).IsType type := by
  obtain ⟨c, hloop⟩ := @run_ends stabs type (Search.start L R addr)
  have hends : (Search.start L R addr).EndsIn stabs type c := ⟨_, hloop⟩
  obtain ⟨⟨hw, hr⟩, hstop⟩ := hends.inv
    (fun c => c.Within stabs type L R ∧ c.Raised stabs type L addr)
    (fun c hgo hc => ⟨hc.1.step (of_decide_eq_true hgo), hc.2.step hno hc.1 (of_decide_eq_true hgo)⟩)
    ⟨within_start h, Or.inl ⟨Nat.le_add_right _ _, Or.inr rfl⟩, Or.inl rfl⟩
  have hstop := of_decide_eq_false hstop
  unfold stabBinsearch at hrun
  rw [hloop, Option.map_some, Option.some.injEq] at hrun
  obtain ⟨hlo, hwin, hhi, hright, hge, -, hstart, htype, -⟩ := hw
  obtain ⟨hr, hltype⟩ := hr
  unfold Search.finish at hrun
  split at hrun
  · rename_i hany
    cases hrun
    rw [hstart hany] at hleft
    exact absurd hleft (Int.lt_irrefl L)
  · by_cases hle : c.left ≤ c.right
    · obtain ⟨p, reads', hscan, h1, h2, h3, -⟩ :=
        @scanBack_spec stabs type (c.left + 1) c.right (c.right - c.left).toNat c.reads (by omega) (by omega)
      rw [hscan] at hrun
      cases hrun
      refine ⟨h2, ?_⟩
      by_cases hp : c.left + 1 ≤ left
      · exact h3 hp
      · have heq : left = c.left := by omega
        rw [heq] at hleft ⊢
        rcases hltype with hL | hit
        · omega
        · exact hit
    · exfalso
      rw [Int.toNat_of_nonpos (by omega)] at hrun
      unfold scanBack at hrun
      cases hrun
      omega

end

end Jos.Kern
