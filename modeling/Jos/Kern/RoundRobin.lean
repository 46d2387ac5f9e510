import Jos.Kern.OneCpu
import Jos.Lib.Ring

/-!
# Round-robin scheduling

On one CPU, a dispatch is a choice that `sched_yield` makes. The search begins at the slot of the
current environment, which is not runnable as a rule, so that the slots come up in turn. Without a
current environment the search begins at slot 0.

Main results:
* `Waiting.run`: what the dispatches of a run keep of the distance to the waiting environment;
* `dispatched_once`: nobody is dispatched twice before it;
* `first_dispatched_twice`: an exit after which somebody is.
-/

namespace Jos.Kern

open Jos.Lib Kernel

/-! ## Environment ids -/

/-- The id of an environment in use has the number of its slot. -/
def IdsOk (s : Kernel) : Prop := ∀ e, (s.envs e).envStatus ≠ .free → envx (s.envs e).envId = e

section

variable {s s' : Kernel} {cpunum : Nat} {curenv : Option EnvIx} {cur e : EnvIx} {cpu : Cpu}
  {next : Next} {t : Trap} {tf : Trapframe} {env : Env} {forced : Prop}

theorem IdsOk.update (h : IdsOk s) (henvs : s'.envs = Function.update s.envs e env)
    (hid : env.envStatus ≠ .free → envx env.envId = e) : IdsOk s' := by
  intro x hx
  rw [henvs] at hx ⊢
  by_cases hxe : x = e
  · subst hxe
    rw [Function.update_self] at hx ⊢
    exact hid hx
  · rw [Function.update_of_ne hxe] at hx ⊢
    exact h x hx

theorem IdsOk.same (h : IdsOk s) (hsame : SameEnvs s s') : IdsOk s' := by
  intro x
  rw [hsame.1]
  exact h x

/-- A change that keeps the id and does not take the slot into use. -/
theorem IdsOk.keep (h : IdsOk s) (henvs : s'.envs = Function.update s.envs e env)
    (hid : env.envId = (s.envs e).envId) (hfree : (s.envs e).envStatus = .free → env.envStatus = .free) :
    IdsOk s' :=
  h.update henvs fun hlive => by
    rw [hid]
    exact h e fun hf => hlive (hfree hf)

theorem IdsOk.destroyed {f : Bool} (h : IdsOk s) (hd : Destroyed s cur e s' f) : IdsOk s' := by
  cases hd with
  | mark running _ envs _ => exact h.keep envs rfl fun hf => by rw [running] at hf; cases hf
  | free _ envs _ => exact h.keep envs rfl fun _ => rfl

theorem IdsOk.envChange {c : Call} {o : Outcome} (h : IdsOk s) (hcur : (s.envs cur).envStatus ≠ .free)
    (hc : EnvChange s cur c o s') : IdsOk s' := by
  cases hc with
  | same hsame => exact h.same hsame
  | yield => exact h
  | fault hd => exact h.destroyed hd
  | destroy _ hd => exact h.destroyed hd
  | @trapframe _ _ e s1 _ _ _ hs envs _ =>
      have h1 : IdsOk s1 := by
        rcases hs with hsame | ⟨_, hd⟩
        · exact h.same hsame
        · exact h.destroyed hd
      exact h1.keep envs rfl fun hf => hf
  | @exofork e p _ s1 _ _ alloc envs _ =>
      have h1 : IdsOk s1 := h.update alloc fun _ => envx_nextEnvId e _
      exact h1.update envs fun _ => by
        rw [alloc, Function.update_self]
        exact envx_nextEnvId e _
  | status target _ envs _ =>
      exact h.keep envs rfl fun hf => absurd hf (envid2env_live hcur target)
  | upcall _ envs _ => exact h.keep envs rfl fun hf => hf
  | deliver target _ envs _ =>
      exact h.keep envs rfl fun hf => absurd hf (envid2env_live hcur target)
  | recv envs _ => exact h.keep envs rfl fun hf => absurd hf hcur

theorem IdsOk.switched (h : IdsOk s) (hsw : Switched s cpunum curenv forced s' cpu)
    (hlive : ∀ e, curenv = some e → (s.envs e).envStatus ≠ .free) : IdsOk s' := by
  have hiff := hsw.free_iff hlive
  intro x hx
  have hx0 : (s.envs x).envStatus ≠ .free := fun hf => hx ((hiff x).mpr hf)
  cases hsw with
  | @run e _ ready envs free =>
      have hid : (switchEnv s.envs cpunum curenv e x).envId = (s.envs x).envId := by
        unfold switchEnv
        split
        · rfl
        · split <;> rfl
      rw [envs, hid]
      exact h x hx0
  | halt => exact h x hx0

/-- The part of a trap before the scheduler. -/
theorem IdsOk.dispatched (h : IdsOk s) (hcur : (s.envs cur).envStatus ≠ .free)
    (hd : Dispatched s cur t next s') : IdsOk s' := by
  cases hd with
  | context hnext tf _ envs free => exact h.keep envs rfl fun hf => absurd hf hcur
  | fault _ hdes => exact h.destroyed hdes
  | @ret c r s1 _ tf run envs free =>
      exact (h.envChange hcur (syscall_envs run)).keep envs rfl fun hf => hf
  | yield run => exact h.envChange hcur (syscall_envs run)
  | gone run => exact h.envChange hcur (syscall_envs run)

theorem IdsOk.saveFrame (h : IdsOk s) (tf : Trapframe) : IdsOk (saveFrame s cur tf) :=
  h.keep saveFrame_envs rfl fun hf => hf

end

section

variable {n : Nat} {R : Nat → Prop} {m m' : Smp n}

theorem IdsOk.step {ev : SmpEvent n} (h : IdsOk m.kern) (hx : ExclInv m) (hstep : SmpStep m ev m')
    (hok : Careful m ev) : IdsOk m'.kern := by
  cases hstep with
  | @trap k cur tf faultVa console r cpu run =>
      obtain ⟨s', c⟩ := r
      have hbusy : Busy m.kern cur := hx.excl.status k cur cpu
      cases entered_trap run with
      | @zombie s1 _ _ dying envs free hswitch =>
          have h1 : IdsOk s1 := h.keep envs rfl fun _ => rfl
          exact h1.switched hswitch (by simp)
      | @dispatch s1 _ _ next alive hdispatch hswitch =>
          have hfree0 : FreeEnvs (Kern.saveFrame m.kern cur tf) :=
            hx.free.update saveFrame_envs rfl Iff.rfl rfl
          have hcur0 : ((Kern.saveFrame m.kern cur tf).envs cur).envStatus ≠ .free := by
            rw [saveFrame_envs, Function.update_self]
            exact hbusy.ne_free
          have hk : DispatchKept m k (Kern.saveFrame m.kern cur tf) cur next s1 :=
            hdispatch.kept hfree0 hcur0 fun c hc => hok cur c cpu alive hc
          exact ((h.saveFrame tf).dispatched hcur0 hdispatch).switched hswitch hk.cur_live
  | @wake k t r cpu run =>
      obtain ⟨s', c⟩ := r
      exact h.switched (switched_trapHalted run) (by simp)
  | store c cpu dir grants => exact h
  | create idle run =>
      rcases envAlloc_envs run with ⟨hsame, _⟩ | ⟨e, p, _, _, henvs, _⟩
      · exact h.same hsame
      · exact h.update henvs fun _ => envx_nextEnvId e _
  | region idle dir low alloc insert =>
      exact h.same ((sameEnvs_pageAlloc alloc).trans (sameEnvs_pageInsert insert))
  | load c idle dir grants => exact h
  | setup idle tf ty => exact h.keep rfl rfl fun hf => hf

theorem SmpRun.idsOk (h : SmpRun R Careful m) : IdsOk m.kern := by
  induction h with
  | boot h => exact fun e he => absurd (h.kern.envs e).1 he
  | step hrun hstep hok ih => exact ih.step hrun.exclInv hstep hok

end

/-! ## The search of the scheduler -/

section

variable {s s1 : Kernel} {cpunum start : Nat} {curenv : Option EnvIx} {cur e last x : EnvIx}
  {t : Trap} {tf : Trapframe} {r : Kernel × Cpu}

/-- The search stops at the first runnable slot. -/
theorem schedPick_eq_some : schedPick s start = some e ↔
    ∃ i < nenv, e = slot (start + i) ∧ (s.envs e).envStatus = .runnable ∧
      ∀ j < i, (s.envs (slot (start + j))).envStatus ≠ .runnable := by
  unfold schedPick
  rw [List.find?_map, Option.map_eq_some_iff]
  constructor
  · rintro ⟨i, hi, rfl⟩
    rw [List.find?_range_eq_some] at hi
    obtain ⟨hrun, hmem, hfirst⟩ := hi
    refine ⟨i, List.mem_range.mp hmem, rfl, by simpa using hrun, fun j hj => ?_⟩
    simpa using hfirst j hj
  · rintro ⟨i, hi, rfl, hrun, hfirst⟩
    refine ⟨i, ?_, rfl⟩
    rw [List.find?_range_eq_some]
    refine ⟨by simpa using hrun, List.mem_range.mpr hi, fun j hj => ?_⟩
    simpa using hfirst j hj

/-- Every slot is looked at. -/
theorem exists_slot (start : Nat) (x : EnvIx) : ∃ i < nenv, x = slot (start + i) := by
  have hx : x.val < nenv := x.isLt
  refine ⟨(x.val + nenv - start % nenv) % nenv, Nat.mod_lt _ (by decide), ?_⟩
  apply Fin.ext
  simp only [slot, nenv] at hx ⊢
  omega

theorem schedPick_of_runnable (start : Nat) (h : (s.envs x).envStatus = .runnable) :
    ∃ e, schedPick s start = some e := by
  obtain ⟨i, hi, rfl⟩ := exists_slot start x
  cases hpick : schedPick s start with
  | some e => exact ⟨e, rfl⟩
  | none =>
      unfold schedPick at hpick
      rw [List.find?_eq_none] at hpick
      exact absurd (by simpa using h)
        (hpick (slot (start + i)) (List.mem_map.mpr ⟨i, List.mem_range.mpr hi, rfl⟩))

/-- The choice that `sched_yield` makes. -/
def schedChoice (s : Kernel) (curenv : Option EnvIx) : Option EnvIx :=
  match schedPick s (schedStart s curenv) with
  | some e => some e
  | none => curenv.filter fun cur => (s.envs cur).envStatus = .running

/-- The environment of the choice is the one that runs. -/
theorem schedYield_choice (h : schedYield s cpunum curenv = some r) (he : schedChoice s curenv = some e) :
    r.2 = .running e := by
  unfold schedChoice at he
  unfold schedYield at h
  cases hpick : schedPick s (schedStart s curenv) with
  | some e' =>
      rw [hpick] at h he
      cases he
      simp only [envRun, Option.bind_eq_bind, Option.bind_eq_some_iff] at h
      obtain ⟨_, _, h⟩ := h
      cases h
      rfl
  | none =>
      rw [hpick] at h he
      simp only [Option.filter_eq_some_iff, decide_eq_true_eq] at he
      obtain ⟨rfl, hrun⟩ := he
      simp only [if_pos hrun, envRun, Option.bind_eq_bind, Option.bind_eq_some_iff] at h
      obtain ⟨_, _, h⟩ := h
      cases h
      rfl

/-! ## The calls of the scheduler -/

/-- The state and the current environment with which a trap of `cur` calls `sched_yield`. -/
def yieldPoint (s : Kernel) (cur : EnvIx) (tf : Trapframe) (t : Trap) :
    Option (Kernel × Option EnvIx) :=
  if (s.envs cur).envStatus = .dying then (envFree s cur).map fun s => (s, none)
  else
    match trapDispatch (Kern.saveFrame s cur tf) cur tf t with
    | some (s, .back) => if (s.envs cur).envStatus = .running then none else some (s, some cur)
    | some (s, .yield) => some (s, some cur)
    | some (s, .gone) => some (s, none)
    | some (_, .run) | none => none

theorem trap_yieldPoint (h : trap s cpunum cur tf t = some r) :
    (∃ s1 c, yieldPoint s cur tf t = some (s1, c) ∧ schedYield s1 cpunum c = some r) ∨
      yieldPoint s cur tf t = none ∧ r.2 = .running cur := by
  have hback : ∀ s1, envRun s1 cpunum (some cur) cur = some r → r.2 = .running cur := by
    intro s1 hrun
    simp only [envRun, Option.bind_eq_bind, Option.bind_eq_some_iff] at hrun
    obtain ⟨_, _, hrun⟩ := hrun
    cases hrun
    rfl
  unfold trap at h
  unfold yieldPoint
  split at h
  · rename_i hdying
    simp only [Option.bind_eq_bind, Option.bind_eq_some_iff] at h
    obtain ⟨s1, hfree, hyield⟩ := h
    rw [if_pos hdying, hfree]
    exact Or.inl ⟨s1, none, rfl, hyield⟩
  · rename_i halive
    simp only [Option.bind_eq_bind, Option.bind_eq_some_iff] at h
    obtain ⟨⟨s1, next⟩, hdispatch, hleave⟩ := h
    rw [if_neg halive, hdispatch]
    cases next with
    | back =>
        simp only [leave] at hleave ⊢
        split at hleave
        · rename_i hrun
          rw [if_pos hrun]
          exact Or.inr ⟨rfl, hback s1 hleave⟩
        · rename_i hrun
          rw [if_neg hrun]
          exact Or.inl ⟨s1, some cur, rfl, hleave⟩
    | run => exact Or.inr ⟨rfl, hback s1 hleave⟩
    | yield => exact Or.inl ⟨s1, some cur, rfl, hleave⟩
    | gone => exact Or.inl ⟨s1, none, rfl, hleave⟩

/-- At a call of `sched_yield` the ids are right, and a current environment is `cur` itself, in
use. -/
theorem yieldPoint_spec (h : yieldPoint s cur tf t = some (s1, curenv)) (hids : IdsOk s)
    (hfree : FreeEnvs s) (hlive : (s.envs cur).envStatus ≠ .free) :
    IdsOk s1 ∧ ∀ e, curenv = some e → e = cur ∧ (s1.envs cur).envStatus ≠ .free := by
  unfold yieldPoint at h
  split at h
  · rw [Option.map_eq_some_iff] at h
    obtain ⟨s2, hs2, heq⟩ := h
    cases heq
    obtain ⟨henvs, _⟩ := envFree_envs hs2
    exact ⟨hids.keep henvs rfl fun _ => rfl, fun e he => by cases he⟩
  · have hlive0 : ((Kern.saveFrame s cur tf).envs cur).envStatus ≠ .free := by
      rw [saveFrame_envs, Function.update_self]
      exact hlive
    have hfree0 : FreeEnvs (Kern.saveFrame s cur tf) := hfree.update saveFrame_envs rfl Iff.rfl rfl
    have hafter : ∀ s2 next, trapDispatch (Kern.saveFrame s cur tf) cur tf t = some (s2, next) →
        IdsOk s2 ∧ ∀ e, next.curenv cur = some e → (s2.envs e).envStatus ≠ .free := by
      intro s2 next hs2
      have hd := dispatched_trapDispatch hs2
      refine ⟨(hids.saveFrame tf).dispatched hlive0 hd, ?_⟩
      -- the statuses of other CPUs do not matter here
      have hno : ∀ c, ¬ Clobbers (⟨s, fun _ => .halted⟩ : Smp 1) 0 (Kern.saveFrame s cur tf) cur c :=
        not_clobbers (fun e ⟨k', hk', _⟩ => hk' (Subsingleton.elim _ _)) _ cur
      exact (hd.kept hfree0 hlive0 fun c _ => hno c).cur_live
    cases hd : trapDispatch (Kern.saveFrame s cur tf) cur tf t with
    | none => rw [hd] at h; cases h
    | some q =>
        obtain ⟨s2, next⟩ := q
        obtain ⟨hids2, hlive2⟩ := hafter s2 next hd
        rw [hd] at h
        cases next with
        | back =>
            simp only at h
            split at h
            · cases h
            · cases h
              exact ⟨hids2, fun e he => by cases he; exact ⟨rfl, hlive2 cur rfl⟩⟩
        | run => cases h
        | yield =>
            cases h
            exact ⟨hids2, fun e he => by cases he; exact ⟨rfl, hlive2 cur rfl⟩⟩
        | gone =>
            cases h
            exact ⟨hids2, fun e he => by cases he⟩

end

/-! ## Runs on one CPU -/

/-- The choice of `sched_yield` at an event. -/
def dispatchOf (m : Smp 1) : SmpEvent 1 → Option EnvIx
  | .trap k tf faultVa console =>
      match m.cpus k with
      | ⟨some cur, true⟩ =>
          match yieldPoint m.kern cur tf (.ofFrame tf faultVa console) with
          | some (s, c) => schedChoice s c
          | none => none
      | _ => none
  | .wake _ .spurious | .wake _ .timer | .wake _ .kbd | .wake _ .serial => schedChoice m.kern none
  | _ => none

/-- The slots that `sched_yield` looks at before it comes to the one after `last` are not runnable. -/
def NoneBefore (s : Kernel) (curenv : Option EnvIx) (last : EnvIx) : Prop :=
  ∀ e : EnvIx, schedStart s curenv ≤ e.val → e ≤ last → (s.envs e).envStatus ≠ .runnable

/-- When the environment on the CPU gives it up, no slot before the next one is runnable. -/
def InTurn (m : Smp 1) : SmpEvent 1 → Prop
  | .trap k tf faultVa console => ∀ cur s c, m.cpus k = .running cur →
      yieldPoint m.kern cur tf (.ofFrame tf faultVa console) = some (s, c) → NoneBefore s c cur
  | _ => True

/-- A part of a run in which `x` is runnable throughout, with the environments that are
dispatched in it. -/
inductive Waiting (ok : Smp 1 → SmpEvent 1 → Prop) (x : EnvIx) : Smp 1 → List EnvIx → Smp 1 → Prop
  | start {m : Smp 1} (h : (m.kern.envs x).envStatus = .runnable) : Waiting ok x m [] m
  | step {m m1 m2 : Smp 1} {l : List EnvIx} {ev : SmpEvent 1} (h : Waiting ok x m l m1)
      (hstep : SmpStep m1 ev m2) (hok : ok m1 ev) (hx : (m2.kern.envs x).envStatus = .runnable) :
      Waiting ok x m (l ++ (dispatchOf m1 ev).toList) m2

section

variable {R : Nat → Prop} {ok : Smp 1 → SmpEvent 1 → Prop} {m m1 m2 : Smp 1} {ev : SmpEvent 1}
  {s s1 : Kernel} {curenv : Option EnvIx} {cur e last x : EnvIx} {l : List EnvIx}

theorem careful_one (m : Smp 1) (ev : SmpEvent 1) : Careful m ev := by
  cases ev with
  | trap k tf faultVa console =>
      intro cur c _ _ _
      exact not_clobbers (fun e ⟨k', hk', _⟩ => hk' (Subsingleton.elim _ _)) _ cur c
  | _ => trivial

theorem SmpRun.careful (h : SmpRun R ok m) : SmpRun R Careful m := by
  induction h with
  | boot h => exact .boot h
  | step _ hstep _ ih => exact .step ih hstep (careful_one _ _)

theorem Waiting.runnable (h : Waiting ok x m l m1) : (m1.kern.envs x).envStatus = .runnable := by
  cases h with
  | start h => exact h
  | step _ _ _ hx => exact hx

theorem Waiting.run (h : Waiting ok x m l m1) (hrun : SmpRun R (fun _ _ => True) m) :
    SmpRun R (fun _ _ => True) m1 := by
  induction h with
  | start h => exact hrun
  | step _ hstep _ _ ih => exact .step ih hstep trivial

/-- The number of slots from `e` on to `x`. -/
def dist (e x : EnvIx) : Nat := ringDist nenv e.val x.val

/-- A search that meets no runnable slot up to `last` chooses a slot nearer to `x`. -/
theorem dist_lt (hpick : schedPick s (schedStart s curenv) = some e) (hnone : NoneBefore s curenv last)
    (hstart : schedStart s curenv ≤ last.val) (hx : (s.envs x).envStatus = .runnable) (hne : x ≠ e) :
    dist e x < dist last x := by
  generalize hs : schedStart s curenv = a at *
  have hlast : last.val < nenv := last.isLt
  obtain ⟨i, hi, rfl, hrun, hfirst⟩ := schedPick_eq_some.mp hpick
  obtain ⟨j, hj, rfl⟩ := exists_slot a x
  have hij : i < j := by
    rcases Nat.lt_trichotomy i j with hlt | heq | hgt
    · exact hlt
    · exact absurd (by rw [heq]) hne
    · exact absurd hx (hfirst j hgt)
  have hil : last.val - a < i := by
    by_contra hle
    have hval : (slot (a + i)).val = a + i := Nat.mod_eq_of_lt (by omega)
    refine hnone (slot (a + i)) ?_ ?_ hrun
    · rw [hs, hval]
      omega
    · rw [Fin.le_def, hval]
      omega
  have hlast' : (a + (last.val - a)) % nenv = last.val := by
    rw [Nat.add_sub_cancel' hstart, Nat.mod_eq_of_lt hlast]
  have h1 : dist (slot (a + i)) (slot (a + j)) = j - i := ringDist_add (by omega) (by omega)
  have h2 : dist last (slot (a + j)) = j - (last.val - a) := by
    have h := ringDist_add (N := nenv) (a := a) (i := last.val - a) (j := j) (by omega) (by omega)
    rw [hlast'] at h
    exact h
  rw [h1, h2]
  omega

/-- The search then comes out as one that begins just after `last`. -/
theorem schedPick_after (hnone : NoneBefore s curenv last) (hstart : schedStart s curenv ≤ last.val) :
    schedPick s (schedStart s curenv) = schedPick s (last.val + 1) := by
  have hlast : last.val < nenv := last.isLt
  generalize hs : schedStart s curenv = a at *
  have hskip : ∀ k, k ≤ last.val - a → (s.envs (slot (a + k))).envStatus ≠ .runnable := by
    intro k hk
    have hval : (slot (a + k)).val = a + k := Nat.mod_eq_of_lt (by omega)
    exact hnone _ (by omega) (by rw [Fin.le_def]; omega)
  have hround : ∀ k, slot (a + (nenv + k)) = slot (a + k) := fun k => by
    apply Fin.ext
    simp only [slot]
    rw [show a + (nenv + k) = a + k + nenv by omega, Nat.add_mod_right]
  apply Option.ext
  intro e
  rw [schedPick_eq_some, schedPick_eq_some]
  constructor
  · rintro ⟨i, hi, rfl, hrun, hfirst⟩
    have hil : last.val - a < i := Nat.lt_of_not_le fun hle => hskip i hle hrun
    refine ⟨i - (last.val + 1 - a), by omega, ?_, hrun, fun j hj => ?_⟩
    · rw [show last.val + 1 + (i - (last.val + 1 - a)) = a + i by omega]
    · have := hfirst (last.val + 1 - a + j) (by omega)
      rwa [show a + (last.val + 1 - a + j) = last.val + 1 + j by omega] at this
  · rintro ⟨i, hi, rfl, hrun, hfirst⟩
    -- the slots before the one after `last` come at the end of this search
    have hin : last.val + 1 - a + i < nenv := by
      by_contra hout
      refine hskip (last.val + 1 - a + i - nenv) (by omega) ?_
      rw [← hround, show a + (nenv + (last.val + 1 - a + i - nenv)) = last.val + 1 + i by omega]
      exact hrun
    refine ⟨last.val + 1 - a + i, hin, ?_, hrun, fun j hj => ?_⟩
    · rw [show a + (last.val + 1 - a + i) = last.val + 1 + i by omega]
    · by_cases hjl : j ≤ last.val - a
      · exact hskip j hjl
      · have := hfirst (j - (last.val + 1 - a)) (by omega)
        rwa [show last.val + 1 + (j - (last.val + 1 - a)) = a + j by omega] at this

/-- What holds of the dispatches while `x` waits: each comes nearer to `x` than the one before, and
the last one is the environment on the CPU. -/
structure Nearing (x : EnvIx) (l : List EnvIx) (cpu : Cpu) : Prop where
  nearer : l.Pairwise fun a b => dist b x < dist a x
  current : l = [] ∨ ∃ cur, cpu = .running cur ∧ ∀ a ∈ l, dist cur x ≤ dist a x

theorem Nearing.dispatch {cpu : Cpu} (h : Nearing x l (.running cur)) (hlt : dist e x < dist cur x)
    (hcpu : cpu = .running e) : Nearing x (l ++ [e]) cpu := by
  rcases h.current with rfl | ⟨c, hc, hnear⟩
  · exact ⟨by simp, Or.inr ⟨e, hcpu, by simp⟩⟩
  · obtain rfl := Cpu.running_inj hc
    have hall : ∀ a ∈ l, dist e x < dist a x := fun a ha => Nat.lt_of_lt_of_le hlt (hnear a ha)
    refine ⟨List.pairwise_append.mpr ⟨h.nearer, by simp, by simpa using hall⟩,
      Or.inr ⟨e, hcpu, fun a ha => ?_⟩⟩
    rcases List.mem_append.mp ha with hmem | hmem
    · exact Nat.le_of_lt (hall a hmem)
    · rw [List.mem_singleton.mp hmem]

theorem Nearing.nil {cpu : Cpu} : Nearing x [] cpu := ⟨.nil, Or.inl rfl⟩

theorem Switched.runnable_before {cpunum : Nat} {forced : Prop} {cpu : Cpu}
    (h : Switched s cpunum curenv forced s1 cpu) (hx : (s1.envs x).envStatus = .runnable)
    (hne : curenv ≠ some x) : (s.envs x).envStatus = .runnable := by
  cases h with
  | @run e _ ready envs free =>
      rw [envs, switchEnv] at hx
      split at hx
      · cases hx
      · rwa [if_neg fun hc => hne hc.1] at hx
  | halt => exact hx

theorem schedChoice_of_pick (h : schedPick s (schedStart s curenv) = some e) :
    schedChoice s curenv = some e := by
  unfold schedChoice
  rw [h]

/-- At a call of `sched_yield` the search begins at slot 0 or at the slot of `cur`. -/
theorem schedStart_le (hids : IdsOk s)
    (hcur : ∀ e, curenv = some e → e = cur ∧ (s.envs cur).envStatus ≠ .free) :
    schedStart s curenv ≤ cur.val := by
  cases curenv with
  | none => exact Nat.zero_le _
  | some e =>
      obtain ⟨rfl, hlive⟩ := hcur e rfl
      rw [schedStart, hids e hlive]

theorem Smp.after_cpus {n : Nat} {m : Smp n} {k : Fin n} {r : Kernel × Cpu} :
    (m.after k r).cpus k = r.2 := Function.update_self ..

theorem dispatchOf_trap {k : Fin 1} {tf : Trapframe} {faultVa : BitVec 32} {console : Int}
    (hcpu : m.cpus k = .running cur) : dispatchOf m (.trap k tf faultVa console) =
      match yieldPoint m.kern cur tf (.ofFrame tf faultVa console) with
      | some (s, c) => schedChoice s c
      | none => none := by
  simp only [dispatchOf, hcpu, Cpu.running]

theorem trapHalted_dispatch {k : Fin 1} {t : Trap} {r : Kernel × Cpu}
    (h : trapHalted m.kern k t = some r) (hd : dispatchOf m (.wake k t) = some e) :
    r.2 = .running e := by
  cases t with
  | spurious | timer | kbd | serial =>
      simp only [trapHalted] at h
      simp only [dispatchOf] at hd
      exact schedYield_choice h hd
  | _ => cases hd

theorem Nearing.step (hrun : SmpRun R Careful m1) (h : Nearing x l (m1.cpus 0))
    (hx1 : (m1.kern.envs x).envStatus = .runnable) (hstep : SmpStep m1 ev m2) (hok : InTurn m1 ev)
    (hx2 : (m2.kern.envs x).envStatus = .runnable) :
    Nearing x (l ++ (dispatchOf m1 ev).toList) (m2.cpus 0) := by
  cases hstep with
  | @trap k cur tf faultVa console r cpu run =>
      obtain rfl : k = 0 := Subsingleton.elim _ _
      have hbusy : Busy m1.kern cur := hrun.exclInv.excl.status 0 cur cpu
      have hxcur : x ≠ cur := by
        rintro rfl
        rcases hbusy with hb | hb <;> rw [hx1] at hb <;> cases hb
      rw [cpu] at h
      rw [Smp.after_cpus, dispatchOf_trap cpu]
      rcases trap_yieldPoint run with ⟨s1, c, hpoint, hyield⟩ | ⟨hpoint, hback⟩
      · obtain ⟨hids, hc⟩ := yieldPoint_spec hpoint hrun.idsOk hrun.exclInv.free hbusy.ne_free
        have hcx : c ≠ some x := fun heq => hxcur (hc x heq).1
        have hsw : Switched s1 (0 : Fin 1) c False r.1 r.2 := switched_schedYield hyield
        have hxs : (s1.envs x).envStatus = .runnable := hsw.runnable_before hx2 hcx
        obtain ⟨e, hpick⟩ := schedPick_of_runnable (schedStart s1 c) hxs
        have hcpu := schedYield_choice hyield (schedChoice_of_pick hpick)
        have hxe : x ≠ e := by
          rintro rfl
          have := hsw.status hcpu
          rw [show (r.1.envs x).envStatus = .runnable from hx2] at this
          cases this
        have hlt := dist_lt hpick (hok cur s1 c cpu hpoint) (schedStart_le hids hc) hxs hxe
        simp only [hpoint, schedChoice_of_pick hpick, Option.toList_some]
        exact h.dispatch hlt hcpu
      · simp only [hpoint, Option.toList_none, List.append_nil, hback]
        exact h
  | @wake k t r cpu run =>
      obtain rfl : k = 0 := Subsingleton.elim _ _
      have hl : l = [] := by
        rcases h.current with hl | ⟨c, hc, _⟩
        · exact hl
        · rw [cpu] at hc
          cases hc
      subst hl
      rw [Smp.after_cpus, List.nil_append]
      cases hd : dispatchOf m1 (.wake 0 t) with
      | none => exact .nil
      | some e =>
          exact ⟨by simp, Or.inr ⟨e, trapHalted_dispatch run hd, by simp⟩⟩
  | _ =>
      simp only [dispatchOf, Option.toList_none, List.append_nil]
      exact h

theorem Waiting.nearing (h : Waiting InTurn x m l m1) (hrun : SmpRun R (fun _ _ => True) m) :
    Nearing x l (m1.cpus 0) := by
  induction h with
  | start h => exact .nil
  | step h hstep hok hx ih => exact ih.step (h.run hrun).careful h.runnable hstep hok hx

/-- While an environment waits for the CPU, runnable, no other environment is dispatched twice, as
long as no runnable environment lies between the slot where `sched_yield` begins and the slot of
the environment that ran. The search then comes out as one that begins after this slot. -/
theorem dispatched_once {R : Nat → Prop} {m m' : Smp 1} {x : EnvIx} {l : List EnvIx}
    (hrun : SmpRun R (fun _ _ => True) m) (h : Waiting InTurn x m l m') :
    l.Nodup ∧ ∀ cur tf faultVa console s c, InTurn m' (.trap 0 tf faultVa console) →
      m'.cpus 0 = .running cur →
      yieldPoint m'.kern cur tf (.ofFrame tf faultVa console) = some (s, c) →
        schedPick s (schedStart s c) = schedPick s (cur.val + 1) := by
  refine ⟨(h.nearing hrun).nearer.imp fun hlt heq => ?_, fun cur tf faultVa console s c hok hcpu hpoint => ?_⟩
  · rw [heq] at hlt
    exact Nat.lt_irrefl _ hlt
  · have hcareful := (h.run hrun).careful
    have hbusy : Busy m'.kern cur := hcareful.exclInv.excl.status 0 cur hcpu
    obtain ⟨hids, hc⟩ := yieldPoint_spec hpoint hcareful.idsOk hcareful.exclInv.free hbusy.ne_free
    exact schedPick_after (hok cur s c hcpu hpoint) (schedStart_le hids hc)

end

/-! ## Executing a run -/

/-- The condition as a test on the commands. -/
def inTurn (m : Smp 1) : SmpCmd 1 → Bool
  | .trap k tf =>
      match m.cpus k with
      | ⟨some cur, true⟩ =>
          match yieldPoint m.kern cur tf (.ofFrame tf 0#32 0) with
          | some (s, c) => (List.range (cur.val + 1)).all fun j =>
              j < schedStart s c || (s.envs (slot j)).envStatus ≠ .runnable
          | none => true
      | _ => true
  | _ => true

theorem inTurn_spec {m : Smp 1} {c : SmpCmd 1} (h : inTurn m c) : InTurn m c.event := by
  cases c with
  | trap k tf =>
      intro cur s c hcpu hpoint e hstart hlast hrun
      simp only [inTurn, hcpu, Cpu.running, hpoint, List.all_eq_true] at h
      have he : slot e.val = e := Fin.ext (Nat.mod_eq_of_lt e.isLt)
      have := h e.val (List.mem_range.mpr (Nat.lt_succ_of_le hlast))
      rw [he] at this
      simp [hrun, Nat.not_lt.mpr hstart] at this
  | create => trivial
  | wake k => trivial

/-- A command while `x` waits, with the list of dispatches. -/
def waitExec (test : Smp 1 → SmpCmd 1 → Bool) (x : EnvIx) (q : Smp 1 × List EnvIx) (c : SmpCmd 1) :
    Option (Smp 1 × List EnvIx) := do
  let m ← smpExecIf test q.1 c
  if (m.kern.envs x).envStatus = .runnable then some (m, q.2 ++ (dispatchOf q.1 c.event).toList)
  else none

theorem Waiting.execAll {ok : Smp 1 → SmpEvent 1 → Prop} {test : Smp 1 → SmpCmd 1 → Bool} {x : EnvIx}
    {m m1 : Smp 1} {l : List EnvIx} {cs : List (SmpCmd 1)} {q : Smp 1 × List EnvIx}
    (htest : ∀ m c, test m c → ok m c.event) (h : Waiting ok x m l m1)
    (hrun : cs.foldlM (waitExec test x) (m1, l) = some q) : Waiting ok x m q.2 q.1 := by
  induction cs generalizing m1 l with
  | nil =>
      cases hrun
      exact h
  | cons c cs ih =>
      simp only [List.foldlM_cons, Option.bind_eq_bind, Option.bind_eq_some_iff] at hrun
      obtain ⟨q1, hq1, hrest⟩ := hrun
      simp only [waitExec, Option.bind_eq_bind, Option.bind_eq_some_iff] at hq1
      obtain ⟨m2, hm2, hq1⟩ := hq1
      split at hq1
      · rename_i hx
        cases hq1
        unfold smpExecIf at hm2
        split at hm2
        · rename_i hc
          exact ih (.step h (smpStep_of_exec hm2) (htest _ c hc) hx) hrest
        · cases hm2
      · cases hq1

/-- One CPU and three environments, none of which has run. -/
def threeReady : Smp 1 :=
  ([.create, .create, .create].foldlM (smpExecIf fun _ _ => true) ⟨small, fun _ => .halted⟩).getD
    ⟨small, fun _ => .halted⟩

theorem threeReady_run : SmpRun smallReserved (fun _ _ => True) threeReady := by
  have hsome : ([SmpCmd.create, .create, .create].foldlM (smpExecIf fun _ _ => true)
      (⟨small, fun _ => .halted⟩ : Smp 1)).isSome := by decide +kernel
  obtain ⟨m, hm⟩ := Option.isSome_iff_exists.mp hsome
  rw [threeReady, hm]
  exact SmpRun.execAll (fun _ _ _ => trivial) (.boot ⟨small_booted, fun _ => rfl⟩) hm

def env2 : EnvIx := ⟨2, by decide⟩

/-- The frame at an interrupt of the timer. -/
def timerFrame : Trapframe := { initTf with tfTrapno := 32#32 }

theorem threeReady_waiting (ok : Smp 1 → SmpEvent 1 → Prop) {test : Smp 1 → SmpCmd 1 → Bool}
    {cs : List (SmpCmd 1)} {l : List EnvIx} (htest : ∀ m c, test m c → ok m c.event)
    (h : (cs.foldlM (waitExec test env2) (threeReady, [])).map Prod.snd = some l) :
    ∃ m, Waiting ok env2 threeReady l m := by
  obtain ⟨q, hq, rfl⟩ := Option.map_eq_some_iff.mp h
  exact ⟨q.1, (Waiting.start (by decide +kernel)).execAll htest hq⟩

theorem dispatched_once_timer : ∃ m, Waiting InTurn env2 threeReady [env0, env1] m ∧
    [env0, env1].Nodup := by
  have hlog : ([SmpCmd.wake 0, .trap 0 timerFrame].foldlM (waitExec inTurn env2)
      (threeReady, [])).map Prod.snd = some [env0, env1] := by decide +kernel
  obtain ⟨m, hm⟩ := threeReady_waiting InTurn (fun _ _ => inTurn_spec) hlog
  exact ⟨m, hm, (dispatched_once threeReady_run hm).1⟩

/-- The second environment ends itself while the third waits: the search begins at slot 0. -/
def secondExits : List (SmpCmd 1) := [.wake 0, .trap 0 timerFrame, .trap 0 (callFrame 3 0 0 0 0 0)]

theorem first_dispatched_twice : ∃ m m' : Smp 1, SmpRun smallReserved (fun _ _ => True) m ∧
    Waiting (fun _ _ => True) env2 m [env0, env1, env0] m' := by
  have hlog : (secondExits.foldlM (waitExec (fun _ _ => true) env2) (threeReady, [])).map Prod.snd =
      some [env0, env1, env0] := by
    unfold waitExec smpExecIf smpExec trap dispatchOf yieldPoint trapDispatch syscall sysEnvDestroy
      envDestroy
    rw [envFree_eq_byte]
    decide +kernel
  obtain ⟨m, hm⟩ := threeReady_waiting (fun _ _ => True) (fun _ _ _ => trivial) hlog
  exact ⟨threeReady, m, threeReady_run, hm⟩

end Jos.Kern
