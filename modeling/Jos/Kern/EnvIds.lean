import Jos.Kern.Zombie

/-!
# Environment ids and incarnations

The ids that `env_alloc` issues for a slot, over any sequence of `env_alloc` and `env_free`. The
generation in an id moves by `1 << ENVGENSHIFT` and starts again at that value when it would turn
negative, so the ids of a slot repeat with the period `2^19 - 1`: the `n`-th id is `idAt e n`.

`EnvHist` has the ids issued so far beside the kernel, and which of them belong to environments that
have been freed.

Main results:
* `IdsInv.run`: the ids after any sequence of allocations and frees;
* `env_ids_identify`: ids are positive, lead to their slots, and repeat late.
-/

namespace Jos.Kern

open Jos.Lib Kernel

/-- How many ids a slot has. -/
def idPeriod : Nat := 524287

/-- The id of the `n`-th environment in slot `e`, counted from one; before that the field is zero. -/
def idAt (e : EnvIx) (n : Nat) : BitVec 32 :=
  if n = 0 then 0#32 else BitVec.ofNat 32 (4096 * ((n - 1) % idPeriod + 1) + e.val)

/-- The kernel, the ids issued for each slot, and the numbers of those that have been freed. -/
structure EnvHist where
  kern : Kernel
  issued : EnvIx → List (BitVec 32)
  freed : EnvIx → Nat → Prop

/-- `env_alloc`, `env_free`, or anything else that the kernel does: that changes no id, and makes
no environment free and none in use. -/
inductive IdsStep : EnvHist → EnvHist → Prop
  | alloc {h : EnvHist} {s' : Kernel} {parentId : BitVec 32} {e : EnvIx}
      (run : envAlloc h.kern parentId = some (s', .ok e)) :
      IdsStep h { h with
        kern := s'
        issued := Function.update h.issued e (h.issued e ++ [(s'.envs e).envId]) }
  | refused {h : EnvHist} {s' : Kernel} {parentId : BitVec 32} {r : Int}
      (run : envAlloc h.kern parentId = some (s', .error r)) : IdsStep h { h with kern := s' }
  | free {h : EnvHist} {s' : Kernel} {e : EnvIx} (run : envFree h.kern e = some s') :
      IdsStep h { h with
        kern := s'
        freed := Function.update h.freed e fun n => h.freed e n ∨ n + 1 = (h.issued e).length }
  | other {h : EnvHist} {s' : Kernel} (ids : ∀ e, (s'.envs e).envId = (h.kern.envs e).envId)
      (free : ∀ e, (s'.envs e).envStatus = .free ↔ (h.kern.envs e).envStatus = .free) :
      IdsStep h { h with kern := s' }

/-- The state that `env_init` leaves. -/
structure IdsStart (h : EnvHist) : Prop where
  ids : ∀ e, (h.kern.envs e).envId = 0#32
  issued : ∀ e, h.issued e = []
  freed : ∀ e n, ¬ h.freed e n

/-- An id names one environment, until its slot has had all other ids. -/
structure IdsIdentify (h : EnvHist) : Prop where
  positive : ∀ e, ∀ x ∈ h.issued e, 0 < x.toInt ∧ envx x = e
  distinct : ∀ e i j x, i < j → j < i + idPeriod → (h.issued e)[i]? = some x →
    (h.issued e)[j]? ≠ some x
  stale : ∀ e n x, h.freed e n → (h.issued e)[n]? = some x → (h.issued e).length ≤ n + idPeriod →
    ∀ curenv checkperm, envid2env h.kern curenv x checkperm = none

/-! ## The ids of a slot -/

section

variable {e : EnvIx} {n m : Nat}

theorem toNat_and_not_low (a : BitVec 32) : (a &&& ~~~(1023#32)).toNat = a.toNat / 1024 * 1024 := by
  have hlow : (a &&& ~~~(1023#32)) &&& 1023#32 = 0#32 := by
    rw [BitVec.and_assoc, show ~~~(1023#32) &&& 1023#32 = 0#32 by decide, BitVec.and_zero]
  have hmod : (a &&& ~~~(1023#32)).toNat % 1024 = 0 := by
    have h := congrArg BitVec.toNat hlow
    rwa [show (1023#32) = BitVec.ofNat 32 (2 ^ 10 - 1) from rfl, toNat_and_low _ (by omega)] at h
  have hdiv := toNat_generation a
  rw [BitVec.toNat_ushiftRight, Nat.shiftRight_eq_div_pow] at hdiv
  omega

theorem idAt_succ (e : EnvIx) (n : Nat) :
    idAt e (n + 1) = BitVec.ofNat 32 (4096 * (n % idPeriod + 1) + e.val) := by
  rw [idAt, if_neg (Nat.succ_ne_zero n), Nat.add_sub_cancel]

theorem toNat_idAt_succ (e : EnvIx) (n : Nat) :
    (idAt e (n + 1)).toNat = 4096 * (n % idPeriod + 1) + e.val := by
  have he : e.val < 1024 := e.isLt
  have hlt := Nat.mod_lt n (show 0 < idPeriod by decide)
  simp only [idPeriod] at hlt
  rw [idAt_succ, BitVec.toNat_ofNat]
  simp only [idPeriod]
  omega

/-- The generation from the last id, before the test for a sign. -/
theorem toNat_generation_idAt (e : EnvIx) (n : Nat) :
    ((idAt e n + (1#32 <<< 12)) &&& ~~~(1023#32)).toNat =
      if n = 0 then 4096 else 4096 * ((n - 1) % idPeriod + 2) := by
  have he : e.val < 1024 := e.isLt
  have hone : (1#32 <<< 12).toNat = 4096 := rfl
  rw [toNat_and_not_low, BitVec.toNat_add, hone]
  cases n with
  | zero =>
      rw [idAt, if_pos rfl, if_pos rfl]
      rfl
  | succ n =>
      have hlt := Nat.mod_lt n (show 0 < idPeriod by decide)
      rw [toNat_idAt_succ, if_neg (Nat.succ_ne_zero n), Nat.add_sub_cancel]
      simp only [idPeriod] at hlt ⊢
      omega

/-- The generation or-ed with the slot. -/
theorem or_slot {g : Nat} (hg : 4096 * g < 2 ^ 32) (e : EnvIx) :
    BitVec.ofNat 32 (4096 * g) ||| BitVec.ofNat 32 e.val = BitVec.ofNat 32 (4096 * g + e.val) := by
  have he : e.val < 2 ^ 12 := Nat.lt_trans e.isLt (by decide)
  apply BitVec.eq_of_toNat_eq
  rw [BitVec.toNat_or, BitVec.toNat_ofNat, BitVec.toNat_ofNat, BitVec.toNat_ofNat,
    Nat.mod_eq_of_lt hg, Nat.mod_eq_of_lt (a := e.val) (by omega),
    Nat.mod_eq_of_lt (a := 4096 * g + e.val) (by omega), ← Nat.two_pow_add_eq_or_of_lt he]

/-- Only the last generation below `2^31` is followed by the first one. -/
theorem nextGeneration_idAt (e : EnvIx) (n : Nat) :
    (if ((idAt e n + (1#32 <<< 12)) &&& ~~~(1023#32)).toInt ≤ 0 then 1#32 <<< 12
      else (idAt e n + (1#32 <<< 12)) &&& ~~~(1023#32)) =
    BitVec.ofNat 32 (4096 * (n % idPeriod + 1)) := by
  have hgen := toNat_generation_idAt e n
  have hmod := Nat.mod_lt n (show 0 < idPeriod by decide)
  have hone : (1#32 <<< 12).toNat = 4096 := rfl
  apply BitVec.eq_of_toNat_eq
  rw [BitVec.toNat_ofNat]
  simp only [idPeriod] at hgen hmod ⊢
  split at hgen
  all_goals
    split
    · rename_i hneg
      rw [BitVec.toInt_eq_toNat_cond] at hneg
      rw [hone]
      split at hneg <;> omega
    · rename_i hpos
      rw [BitVec.toInt_eq_toNat_cond] at hpos
      split at hpos <;> omega

theorem nextEnvId_idAt (e : EnvIx) (n : Nat) : nextEnvId e (idAt e n) = idAt e (n + 1) := by
  have hmod := Nat.mod_lt n (show 0 < idPeriod by decide)
  simp only [idPeriod] at hmod
  simp only [nextEnvId]
  rw [nextGeneration_idAt, idAt_succ, or_slot (by simp only [idPeriod]; omega)]

theorem idAt_ne (h : n < m) (hlt : m < n + idPeriod) : idAt e (n + 1) ≠ idAt e (m + 1) := by
  intro heq
  have hnat := congrArg BitVec.toNat heq
  rw [toNat_idAt_succ, toNat_idAt_succ] at hnat
  simp only [idPeriod] at hlt hnat
  omega

end

/-! ## Runs -/

/-- What the history says about the fields. -/
structure IdsInv (h : EnvHist) : Prop where
  id : ∀ e, (h.kern.envs e).envId = idAt e (h.issued e).length
  issued : ∀ e n, n < (h.issued e).length → (h.issued e)[n]? = some (idAt e (n + 1))
  freed : ∀ e n, h.freed e n → n < (h.issued e).length ∧
    (n + 1 = (h.issued e).length → (h.kern.envs e).envStatus = .free)

section

variable {h h' : EnvHist} {s' : Kernel}

theorem IdsStart.inv (hs : IdsStart h) : IdsInv h where
  id e := by
    rw [hs.ids, hs.issued]
    rfl
  issued e n hn := by
    rw [hs.issued] at hn
    exact absurd hn (Nat.not_lt_zero n)
  freed e n hf := absurd hf (hs.freed e n)

theorem IdsInv.other (hi : IdsInv h) (hid : ∀ e, (s'.envs e).envId = (h.kern.envs e).envId)
    (hfree : ∀ e, (s'.envs e).envStatus = .free ↔ (h.kern.envs e).envStatus = .free) :
    IdsInv { h with kern := s' } where
  id e := (hid e).trans (hi.id e)
  issued := hi.issued
  freed e n hf := ⟨(hi.freed e n hf).1, fun hn => (hfree e).mpr ((hi.freed e n hf).2 hn)⟩

theorem IdsInv.alloc {e : EnvIx} {p : Nat} {parentId : BitVec 32} (hi : IdsInv h)
    (henvs : s'.envs = Function.update h.kern.envs e (newEnv e p parentId (h.kern.envs e))) :
    IdsInv { h with
      kern := s'
      issued := Function.update h.issued e (h.issued e ++ [(s'.envs e).envId]) } := by
  have hnew : (s'.envs e).envId = idAt e ((h.issued e).length + 1) := by
    rw [henvs, Function.update_self, ← nextEnvId_idAt, ← hi.id]
    rfl
  refine ⟨fun e' => ?_, fun e' n hn => ?_, fun e' n hf => ?_⟩
  all_goals by_cases he : e' = e
  · subst he
    simp only [Function.update_self, List.length_append, List.length_singleton]
    exact hnew
  · simp only [Function.update_of_ne he, henvs]
    exact hi.id e'
  · subst he
    simp only [Function.update_self, List.length_append, List.length_singleton] at hn ⊢
    by_cases hlast : n < (h.issued e').length
    · rw [List.getElem?_append_left hlast]
      exact hi.issued e' n hlast
    · obtain rfl : n = (h.issued e').length := by omega
      rw [List.getElem?_concat_length, hnew]
  · simp only [Function.update_of_ne he] at hn ⊢
    exact hi.issued e' n hn
  · subst he
    have hlt := (hi.freed e' n hf).1
    simp only [Function.update_self, List.length_append, List.length_singleton]
    exact ⟨by omega, fun hn => by omega⟩
  · simp only [Function.update_of_ne he, henvs]
    exact hi.freed e' n hf

theorem IdsInv.step (hi : IdsInv h) (hstep : IdsStep h h') : IdsInv h' := by
  cases hstep with
  | @alloc s' parentId e run =>
      rcases envAlloc_envs run with ⟨_, r, _, hr⟩ | ⟨e', p, he, _, henvs, _⟩
      · cases hr
      · cases he
        exact hi.alloc henvs
  | refused run =>
      rcases envAlloc_envs run with ⟨hsame, _⟩ | ⟨e', p, he, _⟩
      · exact hi.other (fun e => by rw [hsame.1]) fun e => by rw [hsame.1]
      · cases he
  | @free s' e run =>
      obtain ⟨henvs, _⟩ := envFree_envs run
      refine ⟨fun e' => ?_, hi.issued, fun e' n hf => ?_⟩
      all_goals by_cases he : e' = e
      · subst he
        simp only [henvs, Function.update_self]
        exact hi.id e'
      · simp only [henvs, Function.update_of_ne he]
        exact hi.id e'
      · subst he
        simp only [henvs, Function.update_self] at hf ⊢
        rcases hf with hf | hn
        · exact ⟨(hi.freed e' n hf).1, fun _ => rfl⟩
        · exact ⟨by omega, fun _ => rfl⟩
      · simp only [henvs, Function.update_of_ne he] at hf ⊢
        exact hi.freed e' n hf
  | other ids free => exact hi.other ids free

theorem IdsInv.run (hi : IdsInv h) (hrun : Relation.ReflTransGen IdsStep h h') : IdsInv h' := by
  induction hrun with
  | refl => exact hi
  | tail _ hstep ih => exact ih.step hstep

theorem IdsInv.getElem_eq (hi : IdsInv h) {e : EnvIx} {n : Nat} {x : BitVec 32}
    (hx : (h.issued e)[n]? = some x) : n < (h.issued e).length ∧ x = idAt e (n + 1) := by
  have hn := (List.getElem?_eq_some_iff.mp hx).1
  rw [hi.issued e n hn] at hx
  exact ⟨hn, (Option.some.inj hx).symm⟩

theorem idAt_succ_pos (e : EnvIx) (n : Nat) :
    0 < (idAt e (n + 1)).toInt ∧ envx (idAt e (n + 1)) = e := by
  rw [← nextEnvId_idAt]
  exact ⟨nextEnvId_pos e _, envx_nextEnvId e _⟩

/-- A freed environment is not found under its id before the slot has had all other ids. -/
theorem IdsInv.stale (hi : IdsInv h) {e : EnvIx} {n : Nat} (hf : h.freed e n)
    (hlen : (h.issued e).length ≤ n + idPeriod) (curenv : EnvIx) (checkperm : Bool) :
    envid2env h.kern curenv (idAt e (n + 1)) checkperm = none := by
  obtain ⟨hpos, hslot⟩ := idAt_succ_pos e n
  have hz : idAt e (n + 1) ≠ 0#32 := by
    intro hz
    rw [hz] at hpos
    exact absurd hpos (by decide)
  obtain ⟨hlt, hlast⟩ := hi.freed e n hf
  rw [envid2env, if_neg hz]
  simp only [hslot]
  rw [if_pos]
  by_cases hn : n + 1 = (h.issued e).length
  · exact Or.inl (hlast hn)
  · obtain ⟨m, hm⟩ := Nat.exists_eq_add_of_lt (show n + 1 < (h.issued e).length by omega)
    have hne := @idAt_ne e n (n + 1 + m) (by omega) (by omega)
    rw [hi.id, hm]
    exact Or.inr (Ne.symm hne)

/-- For every sequence of allocations and frees, the ids are positive and lead to their slots, any
`2^19 - 1` consecutive ids of a slot are different, and a freed environment is not found under its
id before the slot gets that id again. -/
theorem env_ids_identify (h0 : IdsStart h) (hrun : Relation.ReflTransGen IdsStep h h') :
    IdsIdentify h' := by
  have hi := h0.inv.run hrun
  refine ⟨fun e x hx => ?_, fun e i j x hij hlt hx hx' => ?_, fun e n x hf hx hlen curenv perm => ?_⟩
  · obtain ⟨n, hn⟩ := List.mem_iff_getElem?.mp hx
    rw [(hi.getElem_eq hn).2]
    exact idAt_succ_pos e n
  · have heq := (hi.getElem_eq hx).2.symm.trans (hi.getElem_eq hx').2
    exact idAt_ne hij hlt heq
  · rw [(hi.getElem_eq hx).2]
    exact hi.stale hf hlen curenv perm

end

/-- The allocation and the freeing of one environment. -/
theorem env_ids_identify_small : ∃ h : EnvHist, h.freed env0 0 ∧ IdsIdentify h := by
  have hok : (envAlloc small 0#32).bind (fun x => x.2.toOption) = some env0 := by decide +kernel
  have hfree : ((envAlloc small 0#32).bind fun x => envFree x.1 env0).isSome := by
    rw [envFree_eq_byte]
    decide +kernel
  obtain ⟨⟨s1, q⟩, hrun, hq⟩ := Option.bind_eq_some_iff.mp hok
  obtain ⟨s2, hs2⟩ := Option.isSome_iff_exists.mp hfree
  rw [hrun] at hs2
  cases q with
  | error r => cases hq
  | ok e =>
      cases hq
      have h0 : IdsStart ⟨small, fun _ => [], fun _ _ => False⟩ :=
        ⟨fun _ => rfl, fun _ => rfl, fun _ _ => not_false⟩
      refine ⟨_, ?_, env_ids_identify h0
        ((Relation.ReflTransGen.single (IdsStep.alloc hrun)).tail (IdsStep.free hs2))⟩
      simp only [Function.update_self]
      exact Or.inr rfl

end Jos.Kern
