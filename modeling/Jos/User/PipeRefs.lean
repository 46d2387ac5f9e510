import Jos.User.Fork
import Jos.Kern.RefWrap

/-!
# References to the pages of a pipe

A pipe has three pages: the `struct Fd` of either end, and the `struct Pipe`, which an environment has
mapped once for each descriptor. `_pipeisclosed` compares numbers of references. This module follows
`dup`, `close`, `fork`, `spawn` and `exit` of any number of environments, one system call at a time,
and looks at what the environments have mapped at each moment.

A state has, for each environment, the frame behind each page with its bit `PTE_SHARE`, and where the
environment is in a function of the library. A frame stands for the page that is in it: a frame that
is freed and allocated again is another one. What `sys_page_map` and `sys_page_unmap` do to it is
tied to the kernel at the end.

Main results:
* `LibStep.inv`: a system call of the library keeps the pages of the pipe paired;
* `pipe_not_closed`: the references over a run, and who may see the pipe closed;
* `pipe_looks_closed`: a reader that sees it too early.
-/

namespace Jos.User

open Jos.Lib Jos.Kern Kernel

/-! ## The library -/

/-- A mapping: the frame, and whether `PTE_SHARE` is set. -/
structure Mapping where
  frame : Nat
  share : Bool
  deriving DecidableEq

/-- What each environment has mapped at each page number. -/
abbrev Maps := EnvIx → Nat → Option Mapping

def maxfd : Nat := 32

/-- The page number of `INDEX2FD(i)`. -/
def fdPage (i : Int) : Nat := ((0xD0000 + i) % 2 ^ 20).toNat

/-- The page number of `INDEX2DATA(i)`. -/
def dataPage (i : Int) : Nat := ((0xD0020 + i) % 2 ^ 20).toNat

/-- What follows a `close`: nothing, the rest of `dup`, or the rest of `close_all`. -/
inductive After
  | done
  | dup (old new : Int)
  | all (i : Nat)

inductive CopyKind
  | fork | spawn
  deriving DecidableEq

/-- Where an environment is. Each state of a library function names the system call it makes next. -/
inductive LibState
  /-- The environment does not exist. -/
  | free
  /-- It is a child that `fork` or `spawn` has not started yet. -/
  | unborn
  | idle
  /-- `sys_page_unmap(0, fd)` of `devpipe_close` -/
  | closeFd (i : Int) (a : After)
  /-- `sys_page_unmap(0, fd2data(fd))` of `devpipe_close` -/
  | closeData (i : Int) (a : After)
  /-- `sys_page_unmap(0, fd)` of `fd_close` -/
  | closeRest (i : Int) (a : After)
  /-- `sys_page_map(0, ova, 0, nva, ..)` of `dup` -/
  | dupData (old new : Int)
  /-- `sys_page_map(0, oldfd, 0, newfd, ..)` of `dup` -/
  | dupFd (old new : Int)
  /-- `sys_page_unmap(0, newfd)` of `dup` -/
  | dupErr (new : Int)
  /-- `sys_page_unmap(0, nva)` of `dup` -/
  | dupErrData (new : Int)
  /-- `close_all`, before `close(i)` -/
  | closeAll (i : Nat)
  /-- The loop of `fork` or of `copy_shared_pages` at page `pn`, for the child `c` -/
  | copying (kind : CopyKind) (c : EnvIx) (pn : Nat)
  /-- `duppage` has panicked at page `pn`. -/
  | panicked (c : EnvIx) (pn : Nat)

structure Sharing where
  maps : Maps
  lib : EnvIx → LibState

/-- The maps with another mapping of page `pn` of `e`. -/
def Maps.set (m : Maps) (e : EnvIx) (pn : Nat) (v : Option Mapping) : Maps :=
  Function.update m e (Function.update (m e) pn v)

/-- `fd_lookup`: the frame of the `struct Fd`. -/
def fdLookup (m : Maps) (e : EnvIx) (i : Int) : Option Mapping :=
  if 0 ≤ i ∧ i < maxfd then m e (fdPage i) else none

def After.resume : After → LibState
  | .done => .idle
  | .dup old new => .dupData old new
  | .all i => .closeAll i

section

variable (isPipe : Nat → Bool)

/-- `close(i)` up to its first system call; `isPipe` tells whether the device of a `struct Fd` is the
pipe. -/
def beginClose (m : Maps) (e : EnvIx) (i : Int) (a : After) : LibState :=
  match fdLookup m e i with
  | none => a.resume
  | some v => if isPipe v.frame then .closeFd i a else .closeRest i a

/-- `dup(old, new)` up to the first system call. -/
def beginDup (m : Maps) (e : EnvIx) (old new : Int) : LibState :=
  match fdLookup m e old with
  | none => .idle
  | some _ => beginClose isPipe m e new (.dup old new)

end

/-- `uxstack` as a page number. -/
def uxPage : Nat := uxstack.toNat / 4096

/-- The page is copied by the loop of `fork` or `copy_shared_pages`. -/
def copies (kind : CopyKind) : Option Mapping → Bool
  | none => false
  | some v => kind == .fork || v.share

/-- The three pages of a pipe. -/
structure PipePages where
  r : Nat
  w : Nat
  d : Nat

/-- The mapping is of the `struct Fd` of an end of the pipe. -/
def PipePages.IsEnd (p : PipePages) (v : Option Mapping) : Prop :=
  v = some ⟨p.r, true⟩ ∨ v = some ⟨p.w, true⟩

/-- The mapping is of one of the three pages. -/
def PipePages.IsPart (p : PipePages) (v : Option Mapping) : Prop :=
  ∃ f share, v = some ⟨f, share⟩ ∧ (f = p.r ∨ f = p.w ∨ f = p.d)

/-- `sys_page_map` may fail: there is nothing to map, or the destination is not below `UTOP`, or there
is no page table for it and no memory for one; or the page is not of the pipe, and the rights are
wrong. -/
def MayFail (p : PipePages) (m : Maps) (e : EnvIx) (pn : Nat) (c : EnvIx) (dst : Nat) : Prop :=
  m e pn = none ∨ userPages ≤ dst ∨ (∀ q, q / 1024 = dst / 1024 → m c q = none) ∨ ¬ p.IsPart (m e pn)

/-- What else environments do: they map and unmap pages that are not of the pipe. -/
structure OtherPages (p : PipePages) (s : Sharing) (m' : Maps) : Prop where
  pipe : ∀ e pn, m' e pn = s.maps e pn ∨ ¬ p.IsPart (s.maps e pn) ∧ ¬ p.IsPart (m' e pn)
  free : ∀ e, s.lib e = .free → m' e = s.maps e

inductive LibEvent
  | dup (old new : Int)
  | step

section

variable (isPipe : Nat → Bool) (p : PipePages)

def Sharing.goto (s : Sharing) (e : EnvIx) (x : LibState) : Sharing :=
  { s with lib := Function.update s.lib e x }

/-- A system call of `e` that maps `v` at page `pn` of `c`. -/
def Sharing.put (s : Sharing) (e : EnvIx) (x : LibState) (c : EnvIx) (pn : Nat) (v : Option Mapping) :
    Sharing := ⟨s.maps.set c pn v, Function.update s.lib e x⟩

/-- A step of environment `e`: a call of a library function up to its first system call, or one system
call of the function that it is in, up to the next one. -/
inductive LibStep : Sharing → LibEvent → Sharing → Prop
  | close {s : Sharing} {e : EnvIx} (i : Int) (h : s.lib e = .idle) :
      LibStep s .step (s.goto e (beginClose isPipe s.maps e i .done))
  | dup {s : Sharing} {e : EnvIx} (old new : Int) (h : s.lib e = .idle) :
      LibStep s (.dup old new) (s.goto e (beginDup isPipe s.maps e old new))
  | exit {s : Sharing} {e : EnvIx} (h : s.lib e = .idle) : LibStep s .step (s.goto e (.closeAll 0))
  /-- `sys_exofork` of `fork` or `spawn` -/
  | exofork {s : Sharing} {e c : EnvIx} (kind : CopyKind) (h : s.lib e = .idle) (hc : s.lib c = .free) :
      LibStep s .step ((s.goto e (.copying kind c 0)).goto c .unborn)
  | closeFd {s : Sharing} {e : EnvIx} {i : Int} {a : After} (h : s.lib e = .closeFd i a) :
      LibStep s .step (s.put e (.closeData i a) e (fdPage i) none)
  | closeData {s : Sharing} {e : EnvIx} {i : Int} {a : After} (h : s.lib e = .closeData i a) :
      LibStep s .step (s.put e (.closeRest i a) e (dataPage i) none)
  | closeRest {s : Sharing} {e : EnvIx} {i : Int} {a : After} (h : s.lib e = .closeRest i a) :
      LibStep s .step (s.put e a.resume e (fdPage i) none)
  | closeAll {s : Sharing} {e : EnvIx} {i : Nat} (h : s.lib e = .closeAll i) (hi : i < maxfd) :
      LibStep s .step (s.goto e (beginClose isPipe s.maps e i (.all (i + 1))))
  /-- `sys_env_destroy(0)` -/
  | destroy {s : Sharing} {e : EnvIx} {i : Nat} (h : s.lib e = .closeAll i) (hi : maxfd ≤ i) :
      LibStep s .step
        ⟨Function.update s.maps e fun _ => none, Function.update s.lib e .free⟩
  /-- There is no data page. -/
  | dupSkip {s : Sharing} {e : EnvIx} {old new : Int} (h : s.lib e = .dupData old new)
      (hno : s.maps e (dataPage old) = none) : LibStep s .step (s.goto e (.dupFd old new))
  | dupData {s : Sharing} {e : EnvIx} {old new : Int} (h : s.lib e = .dupData old new)
      (hsrc : s.maps e (dataPage old) ≠ none) (hdst : dataPage new < userPages) :
      LibStep s .step (s.put e (.dupFd old new) e (dataPage new) (s.maps e (dataPage old)))
  | dupDataErr {s : Sharing} {e : EnvIx} {old new : Int} (h : s.lib e = .dupData old new)
      (hsrc : s.maps e (dataPage old) ≠ none)
      (hfail : MayFail p s.maps e (dataPage old) e (dataPage new)) :
      LibStep s .step (s.goto e (.dupErr new))
  | dupFd {s : Sharing} {e : EnvIx} {old new : Int} (h : s.lib e = .dupFd old new)
      (hsrc : s.maps e (fdPage old) ≠ none) (hdst : fdPage new < userPages) :
      LibStep s .step (s.put e .idle e (fdPage new) (s.maps e (fdPage old)))
  | dupFdErr {s : Sharing} {e : EnvIx} {old new : Int} (h : s.lib e = .dupFd old new)
      (hfail : MayFail p s.maps e (fdPage old) e (fdPage new)) :
      LibStep s .step (s.goto e (.dupErr new))
  | dupErr {s : Sharing} {e : EnvIx} {new : Int} (h : s.lib e = .dupErr new) :
      LibStep s .step (s.put e (.dupErrData new) e (fdPage new) none)
  | dupErrData {s : Sharing} {e : EnvIx} {new : Int} (h : s.lib e = .dupErrData new) :
      LibStep s .step (s.put e .idle e (dataPage new) none)
  /-- A page that is not copied. -/
  | copySkip {s : Sharing} {e c : EnvIx} {kind : CopyKind} {pn : Nat}
      (h : s.lib e = .copying kind c pn) (hpn : pn < userPages)
      (hno : copies kind (s.maps e pn) = false) (hux : kind = .fork → pn ≠ uxPage) :
      LibStep s .step (s.goto e (.copying kind c (pn + 1)))
  /-- `fork` gives the child a new exception stack. -/
  | copyStack {s : Sharing} {e c : EnvIx} {f : Nat} (h : s.lib e = .copying .fork c uxPage)
      (hnew : ¬ p.IsPart (some ⟨f, false⟩)) :
      LibStep s .step (s.put e (.copying .fork c (uxPage + 1)) c uxPage (some ⟨f, false⟩))
  | copy {s : Sharing} {e c : EnvIx} {kind : CopyKind} {pn : Nat} (h : s.lib e = .copying kind c pn)
      (hpn : pn < userPages) (hyes : copies kind (s.maps e pn) = true)
      (hux : kind = .fork → pn ≠ uxPage) :
      LibStep s .step (s.put e (.copying kind c (pn + 1)) c pn (s.maps e pn))
  /-- `spawn` does not look at the result. -/
  | copyFail {s : Sharing} {e c : EnvIx} {pn : Nat} (h : s.lib e = .copying .spawn c pn)
      (hpn : pn < userPages) (hfail : MayFail p s.maps e pn c pn) :
      LibStep s .step (s.goto e (.copying .spawn c (pn + 1)))
  | copyPanic {s : Sharing} {e c : EnvIx} {pn : Nat} (h : s.lib e = .copying .fork c pn)
      (hpn : pn < userPages) : LibStep s .step (s.goto e (.panicked c pn))
  /-- `sys_env_set_status(c, ENV_RUNNABLE)` -/
  | copied {s : Sharing} {e c : EnvIx} {kind : CopyKind} (h : s.lib e = .copying kind c userPages) :
      LibStep s .step ((s.goto e .idle).goto c .idle)
  /-- `sys_env_destroy(child)` of a `spawn` that has failed before `copy_shared_pages`. -/
  | spawnDestroy {s : Sharing} {e c : EnvIx} (h : s.lib e = .copying .spawn c 0) :
      LibStep s .step ⟨Function.update s.maps c fun _ => none,
        Function.update (Function.update s.lib e .idle) c .free⟩
  /-- A failing `init_stack`: `spawn` returns and the child stays, without a page of the pipe. That it
  never runs does not matter here. -/
  | spawnLeave {s : Sharing} {e c : EnvIx} (h : s.lib e = .copying .spawn c 0) :
      LibStep s .step ((s.goto e .idle).goto c .idle)
  | other {s : Sharing} {m' : Maps} (h : OtherPages p s m') :
      LibStep s .step { s with maps := m' }

end

/-- What `pipe` does, with three new pages, for the free descriptors `i` and `j` of `e`. -/
def openPipe (m : Maps) (e : EnvIx) (i j : Int) (p : PipePages) : Maps :=
  (((m.set e (fdPage i) (some ⟨p.r, true⟩)).set e (fdPage j) (some ⟨p.w, true⟩)).set e (dataPage i)
    (some ⟨p.d, true⟩)).set e (dataPage j) (some ⟨p.d, true⟩)

/-- The state in which `pipe` returns in environment `e`. -/
structure PipeReturned (isPipe : Nat → Bool) (p : PipePages) (s : Sharing) : Prop where
  distinct : p.r ≠ p.w ∧ p.r ≠ p.d ∧ p.w ≠ p.d
  device : isPipe p.r = true ∧ isPipe p.w = true
  opened : ∃ m e, ∃ i j : Int, (0 ≤ i ∧ i < maxfd) ∧ (0 ≤ j ∧ j < maxfd) ∧ i ≠ j ∧
    s.maps = openPipe m e i j p ∧ s.lib e = .idle ∧ ∀ e' pn, ¬ p.IsPart (m e' pn)
  others : ∀ e, s.lib e = .idle ∨ s.lib e = .free ∧ ∀ pn, s.maps e pn = none

/-- Runs from there, with steps that satisfy `ok`. -/
inductive LibRun (isPipe : Nat → Bool) (p : PipePages) (ok : LibEvent → Prop) : Sharing → Prop
  | pipe {s : Sharing} (h : PipeReturned isPipe p s) : LibRun isPipe p ok s
  | step {s s' : Sharing} {ev : LibEvent} (h : LibRun isPipe p ok s)
      (hstep : LibStep isPipe p s ev s') (hok : ok ev) : LibRun isPipe p ok s'

/-- `pageref`: how many pages of all environments are in frame `f`. -/
def pageref (m : Maps) (f : Nat) : Nat :=
  refCount (fun k : EnvIx × Fin userPages => (m k.1 k.2).map Mapping.frame) f

/-- Every `dup` is to a descriptor number in range. -/
def DupInRange : LibEvent → Prop
  | .dup _ new => 0 ≤ new ∧ new < maxfd
  | .step => True

/-- A `fork` or `spawn` has copied the `struct Fd` of a descriptor of the pipe to the child, and not
yet the data page. -/
def InWindow (p : PipePages) (s : Sharing) : Prop :=
  ∃ e c pn, ∃ i : Int, ((∃ kind, s.lib e = .copying kind c pn) ∨ s.lib e = .panicked c pn) ∧
    (0 ≤ i ∧ i < maxfd) ∧ fdPage i < pn ∧ pn ≤ dataPage i ∧ p.IsEnd (s.maps c (fdPage i))

/-! ## The pages of one environment -/

def InRange (i : Int) : Prop := 0 ≤ i ∧ i < maxfd

theorem fdPage_eq {i : Int} (h : InRange i) : fdPage i = 851968 + i.toNat := by
  obtain ⟨h0, h1⟩ := h
  simp only [maxfd] at h1
  rw [fdPage]
  omega

theorem dataPage_eq {i : Int} (h : InRange i) : dataPage i = 852000 + i.toNat := by
  obtain ⟨h0, h1⟩ := h
  simp only [maxfd] at h1
  rw [dataPage]
  omega

theorem fdPage_inj {i j : Int} (hi : InRange i) (hj : InRange j) (h : fdPage i = fdPage j) : i = j := by
  rw [fdPage_eq hi, fdPage_eq hj] at h
  obtain ⟨hi0, _⟩ := hi
  obtain ⟨hj0, _⟩ := hj
  omega

theorem dataPage_inj {i j : Int} (hi : InRange i) (hj : InRange j) (h : dataPage i = dataPage j) :
    i = j := by
  rw [dataPage_eq hi, dataPage_eq hj] at h
  obtain ⟨hi0, _⟩ := hi
  obtain ⟨hj0, _⟩ := hj
  omega

theorem fdPage_ne_dataPage {i j : Int} (hi : InRange i) (hj : InRange j) : fdPage i ≠ dataPage j := by
  rw [fdPage_eq hi, dataPage_eq hj]
  obtain ⟨hi0, hi1⟩ := hi
  simp only [maxfd] at hi1
  omega

theorem pages_lt {i : Int} (hi : InRange i) : fdPage i < dataPage i ∧ dataPage i < userPages := by
  have hall : userPages = 1024 * 955 := by decide
  rw [fdPage_eq hi, dataPage_eq hi]
  obtain ⟨hi0, hi1⟩ := hi
  simp only [maxfd] at hi1
  omega

/-- The pages of the pipe are at the places of descriptors. -/
def PartsOk (p : PipePages) (f : Nat → Option Mapping) : Prop := ∀ pn, p.IsPart (f pn) →
  p.IsEnd (f pn) ∧ (∃ i, InRange i ∧ pn = fdPage i) ∨
    f pn = some ⟨p.d, true⟩ ∧ ∃ i, InRange i ∧ pn = dataPage i

/-- A descriptor of the pipe has its data page. -/
def Paired (p : PipePages) (f : Nat → Option Mapping) : Prop :=
  ∀ i, InRange i → p.IsEnd (f (fdPage i)) → f (dataPage i) = some ⟨p.d, true⟩

section

variable {p : PipePages} {f : Nat → Option Mapping} {v : Option Mapping} {i j : Int} {pn : Nat}

theorem not_isEnd_none : ¬ p.IsEnd none := by
  rintro (h | h) <;> cases h

theorem not_isPart_none : ¬ p.IsPart none := by
  rintro ⟨_, _, h, _⟩
  cases h

theorem PipePages.IsEnd.isPart (h : p.IsEnd v) : p.IsPart v := by
  rcases h with rfl | rfl
  · exact ⟨_, _, rfl, Or.inl rfl⟩
  · exact ⟨_, _, rfl, Or.inr (Or.inl rfl)⟩

theorem isPart_data : p.IsPart (some ⟨p.d, true⟩) := ⟨_, _, rfl, Or.inr (Or.inr rfl)⟩

theorem PartsOk.update (h : PartsOk p f)
    (hv : p.IsPart v → p.IsEnd v ∧ (∃ i, InRange i ∧ pn = fdPage i) ∨
      v = some ⟨p.d, true⟩ ∧ ∃ i, InRange i ∧ pn = dataPage i) :
    PartsOk p (Function.update f pn v) := by
  intro q hq
  by_cases hqp : q = pn
  · subst hqp
    rw [Function.update_self] at hq ⊢
    exact hv hq
  · rw [Function.update_of_ne hqp] at hq ⊢
    exact h q hq

theorem PartsOk.unmap (h : PartsOk p f) : PartsOk p (Function.update f pn none) :=
  h.update fun hv => absurd hv not_isPart_none

theorem Paired.unmapFd (h : Paired p f) (hi : InRange i) :
    Paired p (Function.update f (fdPage i) none) := by
  intro j hj hend
  have hne : dataPage j ≠ fdPage i := Ne.symm (fdPage_ne_dataPage hi hj)
  rw [Function.update_of_ne hne]
  by_cases hji : fdPage j = fdPage i
  · rw [hji, Function.update_self] at hend
    exact absurd hend not_isEnd_none
  · rw [Function.update_of_ne hji] at hend
    exact h j hj hend

/-- The data page of a descriptor that is not one of the pipe may change. -/
theorem Paired.setData (h : Paired p f) (hi : InRange i) (hno : ¬ p.IsEnd (f (fdPage i))) :
    Paired p (Function.update f (dataPage i) v) := by
  intro j hj hend
  rw [Function.update_of_ne (fdPage_ne_dataPage hj hi)] at hend
  by_cases hji : dataPage j = dataPage i
  · rw [dataPage_inj hj hi hji] at hend
    exact absurd hend hno
  · rw [Function.update_of_ne hji]
    exact h j hj hend

/-- A descriptor with its data page in place may become one of the pipe. -/
theorem Paired.setFd (h : Paired p f) (hi : InRange i)
    (hdata : p.IsEnd v → f (dataPage i) = some ⟨p.d, true⟩) :
    Paired p (Function.update f (fdPage i) v) := by
  intro j hj hend
  have hne : dataPage j ≠ fdPage i := Ne.symm (fdPage_ne_dataPage hi hj)
  rw [Function.update_of_ne hne]
  by_cases hji : fdPage j = fdPage i
  · rw [hji, Function.update_self] at hend
    rw [fdPage_inj hj hi hji]
    exact hdata hend
  · rw [Function.update_of_ne hji] at hend
    exact h j hj hend

end

/-! ## The invariant -/

/-- What follows the `close` of descriptor `i`. -/
def AfterOk (i : Int) : After → Prop
  | .dup old new => i = new ∧ InRange old
  | _ => True

/-- What an environment knows of its pages inside a library function. -/
def StateOk (p : PipePages) (f : Nat → Option Mapping) : LibState → Prop
  | .free => ∀ pn, f pn = none
  | .closeFd i a => InRange i ∧ AfterOk i a
  | .closeData i a => InRange i ∧ AfterOk i a ∧ ¬ p.IsEnd (f (fdPage i))
  | .closeRest i a => InRange i ∧ AfterOk i a ∧ ¬ p.IsEnd (f (fdPage i))
  | .dupData old new => InRange old ∧ InRange new ∧ ¬ p.IsEnd (f (fdPage new))
  | .dupFd old new => InRange old ∧ InRange new ∧ ¬ p.IsEnd (f (fdPage new)) ∧
      (p.IsEnd (f (fdPage old)) → f (dataPage new) = some ⟨p.d, true⟩)
  | .dupErr new => InRange new
  | .dupErrData new => InRange new ∧ ¬ p.IsEnd (f (fdPage new))
  | _ => True

/-- The environment makes the child `c`, and is at page `pn`. -/
def Making (c : EnvIx) (pn : Nat) (x : LibState) : Prop :=
  (∃ kind, x = .copying kind c pn) ∨ x = .panicked c pn

/-- The pages of the pipe that a child has got so far. -/
structure ChildOk (p : PipePages) (f g : Nat → Option Mapping) (pn : Nat) : Prop where
  part : ∀ q, p.IsPart (g q) → q < pn ∧ g q = f q
  data : ∀ i, InRange i → p.IsEnd (g (fdPage i)) → dataPage i < pn → g (dataPage i) = f (dataPage i)

structure SharedInv (p : PipePages) (s : Sharing) : Prop where
  parts : ∀ e, PartsOk p (s.maps e)
  paired : ∀ e, s.lib e ≠ .unborn → Paired p (s.maps e)
  state : ∀ e, StateOk p (s.maps e) (s.lib e)
  child : ∀ e c pn, Making c pn (s.lib e) → s.lib c = .unborn ∧ ChildOk p (s.maps e) (s.maps c) pn
  unique : ∀ e e' c pn pn', Making c pn (s.lib e) → Making c pn' (s.lib e') → e = e'
  parent : ∀ c, s.lib c = .unborn → ∃ e pn, Making c pn (s.lib e)

section

variable {p : PipePages} {s s' : Sharing} {e c : EnvIx} {x : LibState} {m' : Maps} {pn : Nat}
  {isPipe : Nat → Bool} {ev : LibEvent}

/-- A state that makes no child and is not one of a child. -/
def Plain (x : LibState) : Prop := x ≠ .unborn ∧ ∀ c pn, ¬ Making c pn x

theorem not_making_unborn : ¬ Making c pn .unborn := by
  rintro (⟨_, h⟩ | h) <;> cases h

/-- A step of `e` that concerns only itself. -/
theorem SharedInv.own (h : SharedInv p s) (hlib : Plain (s.lib e)) (hx : Plain x)
    (hm : ∀ e' ≠ e, m' e' = s.maps e') (hparts : PartsOk p (m' e)) (hpaired : Paired p (m' e))
    (hstate : StateOk p (m' e) x) : SharedInv p ⟨m', Function.update s.lib e x⟩ := by
  have hmake : ∀ e' c' pn', Making c' pn' (Function.update s.lib e x e') →
      e' ≠ e ∧ Making c' pn' (s.lib e') := by
    intro e' c' pn' hmk
    by_cases he : e' = e
    · subst he
      rw [Function.update_self] at hmk
      exact absurd hmk (hx.2 _ _)
    · rw [Function.update_of_ne he] at hmk
      exact ⟨he, hmk⟩
  refine ⟨fun e' => ?_, fun e' hne => ?_, fun e' => ?_, fun e' c' pn' hmk => ?_,
    fun e' e'' c' pn' pn'' hmk hmk' => ?_, fun c' hc' => ?_⟩
  · by_cases he : e' = e
    · subst he
      exact hparts
    · simp only
      rw [hm e' he]
      exact h.parts e'
  · by_cases he : e' = e
    · subst he
      exact hpaired
    · simp only at hne ⊢
      rw [Function.update_of_ne he] at hne
      rw [hm e' he]
      exact h.paired e' hne
  · by_cases he : e' = e
    · subst he
      simp only
      rw [Function.update_self]
      exact hstate
    · simp only
      rw [Function.update_of_ne he, hm e' he]
      exact h.state e'
  · obtain ⟨he, hmk⟩ := hmake _ _ _ hmk
    obtain ⟨hun, hok⟩ := h.child e' c' pn' hmk
    have hce : c' ≠ e := by
      rintro rfl
      exact hlib.1 hun
    simp only
    rw [Function.update_of_ne hce, hm e' he, hm c' hce]
    exact ⟨hun, hok⟩
  · exact h.unique e' e'' c' pn' pn'' (hmake _ _ _ hmk).2 (hmake _ _ _ hmk').2
  · have hce : c' ≠ e := by
      rintro rfl
      simp only at hc'
      rw [Function.update_self] at hc'
      exact hx.1 hc'
    simp only at hc'
    rw [Function.update_of_ne hce] at hc'
    obtain ⟨e', pn', hmk⟩ := h.parent c' hc'
    refine ⟨e', pn', ?_⟩
    have he : e' ≠ e := by
      rintro rfl
      exact hlib.2 _ _ hmk
    simp only
    rw [Function.update_of_ne he]
    exact hmk

/-- A step that changes no page. -/
theorem SharedInv.goto (h : SharedInv p s) (hlib : Plain (s.lib e)) (hx : Plain x)
    (hstate : StateOk p (s.maps e) x) : SharedInv p (s.goto e x) :=
  h.own hlib hx (fun _ _ => rfl) (h.parts e) (h.paired e hlib.1) hstate

/-- A step that changes one page of `e`. -/
theorem SharedInv.put (h : SharedInv p s) {v : Option Mapping} (hlib : Plain (s.lib e)) (hx : Plain x)
    (hparts : PartsOk p (Function.update (s.maps e) pn v))
    (hpaired : Paired p (Function.update (s.maps e) pn v))
    (hstate : StateOk p (Function.update (s.maps e) pn v) x) : SharedInv p (s.put e x e pn v) := by
  have hself : s.maps.set e pn v e = Function.update (s.maps e) pn v := Function.update_self ..
  refine h.own hlib hx (fun e' he => Function.update_of_ne he ..) ?_ ?_ ?_
  · rw [hself]
    exact hparts
  · rw [hself]
    exact hpaired
  · rw [hself]
    exact hstate

theorem plain_of {x : LibState} (h : x ≠ .unborn) (hc : ∀ kind c pn, x ≠ .copying kind c pn)
    (hp : ∀ c pn, x ≠ .panicked c pn) : Plain x := by
  refine ⟨h, fun c pn hmk => ?_⟩
  rcases hmk with ⟨kind, rfl⟩ | rfl
  · exact hc _ _ _ rfl
  · exact hp _ _ rfl

theorem plain_resume (a : After) : Plain a.resume := by
  cases a <;> exact plain_of (by simp [After.resume]) (by simp [After.resume]) (by simp [After.resume])

/-- After a `close` the descriptor is not one of the pipe. -/
theorem stateOk_resume {f : Nat → Option Mapping} {i : Int} {a : After} (hi : InRange i)
    (ha : AfterOk i a) (hno : ¬ p.IsEnd (f (fdPage i))) : StateOk p f a.resume := by
  cases a with
  | done => trivial
  | all i => trivial
  | dup old new =>
      obtain ⟨rfl, hold⟩ := ha
      exact ⟨hold, hi, hno⟩

theorem fdLookup_some {m : Maps} {i : Int} {v : Mapping} (h : fdLookup m e i = some v) :
    InRange i ∧ m e (fdPage i) = some v := by
  rw [fdLookup] at h
  split at h
  · rename_i hi
    exact ⟨hi, h⟩
  · cases h

theorem fdLookup_none {m : Maps} {i : Int} (hi : InRange i) (h : fdLookup m e i = none) :
    m e (fdPage i) = none := by
  rw [fdLookup] at h
  split at h
  · exact h
  · rename_i hno
    exact absurd hi hno

theorem beginClose_ok {i : Int} {a : After} (hdev : isPipe p.r = true ∧ isPipe p.w = true)
    (ha : AfterOk i a) (hr : ∀ old new, a = .dup old new → InRange new) :
    StateOk p (s.maps e) (beginClose isPipe s.maps e i a) ∧
      Plain (beginClose isPipe s.maps e i a) := by
  rw [beginClose]
  cases hl : fdLookup s.maps e i with
  | none =>
      refine ⟨?_, plain_resume a⟩
      cases a with
      | done => trivial
      | all i => trivial
      | dup old new =>
          obtain ⟨rfl, hold⟩ := ha
          have hi := hr old i rfl
          refine ⟨hold, hi, ?_⟩
          rw [fdLookup_none hi hl]
          exact not_isEnd_none
  | some v =>
      obtain ⟨hi, hl⟩ := fdLookup_some hl
      simp only
      split
      · exact ⟨⟨hi, ha⟩, plain_of (by simp) (by simp) (by simp)⟩
      · rename_i hdev'
        refine ⟨⟨hi, ha, ?_⟩, plain_of (by simp) (by simp) (by simp)⟩
        rw [hl]
        rintro (heq | heq) <;> cases heq
        · exact hdev' hdev.1
        · exact hdev' hdev.2

theorem beginDup_ok {old new : Int} (hdev : isPipe p.r = true ∧ isPipe p.w = true)
    (hnew : InRange new) :
    StateOk p (s.maps e) (beginDup isPipe s.maps e old new) ∧
      Plain (beginDup isPipe s.maps e old new) := by
  rw [beginDup]
  cases hl : fdLookup s.maps e old with
  | none => exact ⟨trivial, plain_of (by simp) (by simp) (by simp)⟩
  | some v =>
      refine beginClose_ok hdev ⟨rfl, (fdLookup_some hl).1⟩ fun old' new' heq => ?_
      cases heq
      exact hnew

theorem Making.unique {c' : EnvIx} {pn' : Nat} (h : Making c pn x) (h' : Making c' pn' x) :
    c' = c ∧ pn' = pn := by
  rcases h with ⟨kind, rfl⟩ | rfl
  · rcases h' with ⟨_, heq⟩ | heq <;> cases heq
    exact ⟨rfl, rfl⟩
  · rcases h' with ⟨_, heq⟩ | heq <;> cases heq
    exact ⟨rfl, rfl⟩

theorem Making.stateOk {f : Nat → Option Mapping} (h : Making c pn x) : StateOk p f x := by
  rcases h with ⟨kind, rfl⟩ | rfl <;> trivial

theorem Making.ne_unborn (h : Making c pn x) : x ≠ .unborn := by
  rintro rfl
  exact not_making_unborn h

/-- A step of the loop of `fork` or `spawn`. -/
theorem SharedInv.copy (h : SharedInv p s) {pn' : Nat} (hmk : Making c pn (s.lib e))
    (hx : Making c pn' x) (hm : ∀ e' ≠ c, m' e' = s.maps e') (hparts : PartsOk p (m' c))
    (hchild : ChildOk p (s.maps e) (m' c) pn') : SharedInv p ⟨m', Function.update s.lib e x⟩ := by
  obtain ⟨hun, _⟩ := h.child e c pn hmk
  have hce : c ≠ e := by
    rintro rfl
    exact hmk.ne_unborn hun
  have hlibc : Function.update s.lib e x c = .unborn := by
    rw [Function.update_of_ne hce]
    exact hun
  have hmake : ∀ e' c' pn'', Making c' pn'' (Function.update s.lib e x e') →
      ∃ q, Making c' q (s.lib e') := by
    intro e' c' pn'' hmk'
    by_cases he : e' = e
    · subst he
      rw [Function.update_self] at hmk'
      obtain ⟨rfl, rfl⟩ := hx.unique hmk'
      exact ⟨pn, hmk⟩
    · rw [Function.update_of_ne he] at hmk'
      exact ⟨_, hmk'⟩
  refine ⟨fun e' => ?_, fun e' hne => ?_, fun e' => ?_, fun e' c' pn'' hmk' => ?_,
    fun e' e'' c' q q' hmk' hmk'' => ?_, fun c' hc' => ?_⟩
  · by_cases he : e' = c
    · subst he
      exact hparts
    · simp only
      rw [hm e' he]
      exact h.parts e'
  · simp only at hne ⊢
    have he : e' ≠ c := by
      rintro rfl
      exact hne hlibc
    rw [hm e' he]
    by_cases hee : e' = e
    · subst hee
      exact h.paired e' hmk.ne_unborn
    · rw [Function.update_of_ne hee] at hne
      exact h.paired e' hne
  · simp only
    by_cases hee : e' = e
    · subst hee
      rw [Function.update_self]
      exact hx.stateOk
    · rw [Function.update_of_ne hee]
      by_cases he : e' = c
      · subst he
        rw [hun]
        trivial
      · rw [hm e' he]
        exact h.state e'
  · simp only at hmk' ⊢
    by_cases hee : e' = e
    · subst hee
      rw [Function.update_self] at hmk'
      obtain ⟨rfl, rfl⟩ := hx.unique hmk'
      rw [hm e' (Ne.symm hce)]
      exact ⟨hlibc, hchild⟩
    · rw [Function.update_of_ne hee] at hmk'
      have hc' : c' ≠ c := by
        rintro rfl
        exact hee (h.unique e' e c' _ _ hmk' hmk)
      have hec : e' ≠ c := by
        rintro rfl
        exact hmk'.ne_unborn hun
      obtain ⟨hun', hok'⟩ := h.child e' c' _ hmk'
      have hce' : c' ≠ e := by
        rintro rfl
        exact hmk.ne_unborn hun'
      rw [Function.update_of_ne hce', hm e' hec, hm c' hc']
      exact ⟨hun', hok'⟩
  · obtain ⟨q1, h1⟩ := hmake _ _ _ hmk'
    obtain ⟨q2, h2⟩ := hmake _ _ _ hmk''
    exact h.unique e' e'' c' q1 q2 h1 h2
  · simp only at hc' ⊢
    have hee : c' ≠ e := by
      rintro rfl
      rw [Function.update_self] at hc'
      exact hx.ne_unborn hc'
    rw [Function.update_of_ne hee] at hc'
    obtain ⟨e', q, hq⟩ := h.parent c' hc'
    by_cases he : e' = e
    · subst he
      obtain ⟨rfl, rfl⟩ := hmk.unique hq
      exact ⟨e', pn', by rw [Function.update_self]; exact hx⟩
    · exact ⟨e', q, by rw [Function.update_of_ne he]; exact hq⟩

/-- The next page of the child. -/
theorem ChildOk.next {f g : Nat → Option Mapping} (h : ChildOk p f g pn)
    (hdata : ∀ i, InRange i → p.IsEnd (g (fdPage i)) → pn = dataPage i → g pn = f pn) :
    ChildOk p f g (pn + 1) := by
  refine ⟨fun q hq => ?_, fun i hi hend hlt => ?_⟩
  · obtain ⟨hlt, heq⟩ := h.part q hq
    exact ⟨by omega, heq⟩
  · by_cases hpn : dataPage i < pn
    · exact h.data i hi hend hpn
    · have heq : pn = dataPage i := by omega
      rw [← heq]
      exact hdata i hi hend heq

theorem ChildOk.set {f g : Nat → Option Mapping} {v : Option Mapping} (h : ChildOk p f g pn)
    (hv : v = f pn ∨ ¬ p.IsPart v ∧ ∀ i, InRange i → pn ≠ dataPage i) :
    ChildOk p f (Function.update g pn v) (pn + 1) := by
  refine ⟨fun q hq => ?_, fun i hi hend hlt => ?_⟩
  · by_cases hqp : q = pn
    · subst hqp
      rw [Function.update_self] at hq ⊢
      refine ⟨by omega, ?_⟩
      rcases hv with hv | ⟨hv, _⟩
      · exact hv
      · exact absurd hq hv
    · rw [Function.update_of_ne hqp] at hq ⊢
      obtain ⟨hlt, heq⟩ := h.part q hq
      exact ⟨by omega, heq⟩
  · by_cases hpn : dataPage i = pn
    · rw [hpn, Function.update_self]
      rcases hv with hv | ⟨_, hnot⟩
      · exact hv
      · exact absurd hpn.symm (hnot i hi)
    · rw [Function.update_of_ne hpn]
      by_cases hfp : fdPage i = pn
      · have := (pages_lt hi).1
        omega
      · rw [Function.update_of_ne hfp] at hend
        exact h.data i hi hend (by omega)

/-! ### A new child -/

theorem lib_exofork_self {kind : CopyKind} (hce : c ≠ e) :
    Function.update (Function.update s.lib e (.copying kind c 0)) c .unborn e = .copying kind c 0 := by
  rw [Function.update_of_ne (Ne.symm hce), Function.update_self]

theorem lib_exofork_of_ne {kind : CopyKind} {e' : EnvIx} (h1 : e' ≠ c) (h2 : e' ≠ e) :
    Function.update (Function.update s.lib e (.copying kind c 0)) c .unborn e' = s.lib e' := by
  rw [Function.update_of_ne h1, Function.update_of_ne h2]

/-- Only the parent begins to make a child. -/
theorem making_exofork {kind : CopyKind} {e' c' : EnvIx} {pn' : Nat} (hce : c ≠ e)
    (hmk : Making c' pn' (Function.update (Function.update s.lib e (.copying kind c 0)) c .unborn e')) :
    e' = e ∧ c' = c ∧ pn' = 0 ∨ e' ≠ e ∧ Making c' pn' (s.lib e') := by
  by_cases h1 : e' = c
  · subst h1
    rw [Function.update_self] at hmk
    exact absurd hmk not_making_unborn
  by_cases h2 : e' = e
  · subst h2
    rw [lib_exofork_self hce] at hmk
    obtain ⟨rfl, rfl⟩ := Making.unique (Or.inl ⟨kind, rfl⟩) hmk
    exact Or.inl ⟨rfl, rfl, rfl⟩
  · rw [lib_exofork_of_ne h1 h2] at hmk
    exact Or.inr ⟨h2, hmk⟩

theorem not_making_free (hc : s.lib e = .free) (pn' : Nat) : ¬ Making c pn' (s.lib e) := by
  rw [hc]
  rintro (⟨_, heq⟩ | heq) <;> cases heq

theorem not_making_idle (he : s.lib e = .idle) (pn' : Nat) : ¬ Making c pn' (s.lib e) := by
  rw [he]
  rintro (⟨_, heq⟩ | heq) <;> cases heq

/-- A free slot is nobody's child. -/
theorem SharedInv.not_child_free (h : SharedInv p s) (hc : s.lib c = .free) (e' : EnvIx) (pn' : Nat) :
    ¬ Making c pn' (s.lib e') := by
  intro hmk
  have hun := (h.child e' c pn' hmk).1
  rw [hc] at hun
  cases hun

/-- The new child has no pages, and the other ones are where they were. -/
theorem SharedInv.exofork_child {kind : CopyKind} {e' c' : EnvIx} {pn' : Nat} (h : SharedInv p s)
    (he : s.lib e = .idle) (hc : s.lib c = .free) (hce : c ≠ e)
    (hmk : Making c' pn' (Function.update (Function.update s.lib e (.copying kind c 0)) c .unborn e')) :
    Function.update (Function.update s.lib e (.copying kind c 0)) c .unborn c' = .unborn ∧
      ChildOk p (s.maps e') (s.maps c') pn' := by
  have hnone : ∀ pn, s.maps c pn = none := by
    have := h.state c
    rw [hc] at this
    exact this
  rcases making_exofork hce hmk with ⟨rfl, rfl, rfl⟩ | ⟨h2, hmk1⟩
  · refine ⟨Function.update_self .., fun q hq => ?_, fun i _ hend => ?_⟩
    · rw [hnone] at hq
      exact absurd hq not_isPart_none
    · rw [hnone] at hend
      exact absurd hend not_isEnd_none
  · obtain ⟨hun, hok⟩ := h.child e' c' pn' hmk1
    have h3 : c' ≠ c := by
      rintro rfl
      exact h.not_child_free hc _ _ hmk1
    have h4 : c' ≠ e := by
      rintro rfl
      rw [he] at hun
      cases hun
    exact ⟨(lib_exofork_of_ne h3 h4).trans hun, hok⟩

/-- Every child has a parent that makes it. -/
theorem SharedInv.exofork_parent {kind : CopyKind} {c' : EnvIx} (h : SharedInv p s)
    (he : s.lib e = .idle) (hc : s.lib c = .free) (hce : c ≠ e)
    (hc' : Function.update (Function.update s.lib e (.copying kind c 0)) c .unborn c' = .unborn) :
    ∃ e' pn', Making c' pn'
      (Function.update (Function.update s.lib e (.copying kind c 0)) c .unborn e') := by
  by_cases h1 : c' = c
  · subst h1
    exact ⟨e, 0, Or.inl ⟨kind, lib_exofork_self hce⟩⟩
  have h2 : c' ≠ e := by
    rintro rfl
    rw [lib_exofork_self hce] at hc'
    cases hc'
  rw [lib_exofork_of_ne h1 h2] at hc'
  obtain ⟨e', pn', hmk⟩ := h.parent c' hc'
  refine ⟨e', pn', ?_⟩
  have h3 : e' ≠ c := by
    rintro rfl
    exact not_making_free hc _ hmk
  have h4 : e' ≠ e := by
    rintro rfl
    exact not_making_idle he _ hmk
  rw [lib_exofork_of_ne h3 h4]
  exact hmk

theorem SharedInv.exofork {kind : CopyKind} (h : SharedInv p s) (he : s.lib e = .idle)
    (hc : s.lib c = .free) : SharedInv p ((s.goto e (.copying kind c 0)).goto c .unborn) := by
  have hce : c ≠ e := by
    rintro rfl
    rw [hc] at he
    cases he
  refine ⟨h.parts, fun e' hne => ?_, fun e' => ?_, fun e' c' pn' hmk => h.exofork_child he hc hce hmk,
    fun e' e'' c' q q' hmk hmk' => ?_, fun c' hc' => h.exofork_parent he hc hce hc'⟩
  · simp only [Sharing.goto] at hne
    by_cases h1 : e' = c
    · subst h1
      rw [Function.update_self] at hne
      exact absurd rfl hne
    by_cases h2 : e' = e
    · subst h2
      exact h.paired e' (by rw [he]; simp)
    · rw [lib_exofork_of_ne h1 h2] at hne
      exact h.paired e' hne
  · simp only [Sharing.goto]
    by_cases h1 : e' = c
    · subst h1
      rw [Function.update_self]
      trivial
    by_cases h2 : e' = e
    · subst h2
      rw [lib_exofork_self hce]
      trivial
    · rw [lib_exofork_of_ne h1 h2]
      exact h.state e'
  · rcases making_exofork hce hmk with ⟨rfl, rfl, rfl⟩ | ⟨_, h1⟩
    · rcases making_exofork hce hmk' with ⟨rfl, _⟩ | ⟨_, h2⟩
      · rfl
      · exact absurd h2 (h.not_child_free hc _ _)
    · rcases making_exofork hce hmk' with ⟨_, rfl, _⟩ | ⟨_, h2⟩
      · exact absurd h1 (h.not_child_free hc _ _)
      · exact h.unique e' e'' c' q q' h1 h2

/-- The parent is done with the child, which goes on in a state of its own. -/
theorem SharedInv.finish (h : SharedInv p s) (hmk : Making c pn (s.lib e)) (hx : Plain x)
    (hm : ∀ e' ≠ c, m' e' = s.maps e') (hparts : PartsOk p (m' c)) (hpaired : Paired p (m' c))
    (hstate : StateOk p (m' c) x) :
    SharedInv p ⟨m', Function.update (Function.update s.lib e .idle) c x⟩ := by
  obtain ⟨hun, -⟩ := h.child e c _ hmk
  have hce : c ≠ e := by
    rintro rfl
    exact hmk.ne_unborn hun
  have hlib : ∀ e', e' ≠ c → e' ≠ e →
      Function.update (Function.update s.lib e .idle) c x e' = s.lib e' := by
    intro e' h1 h2
    rw [Function.update_of_ne h1, Function.update_of_ne h2]
  have hlibe : Function.update (Function.update s.lib e .idle) c x e = .idle := by
    rw [Function.update_of_ne (Ne.symm hce), Function.update_self]
  have hmake : ∀ e' c' pn', Making c' pn' (Function.update (Function.update s.lib e .idle) c x e') →
      e' ≠ c ∧ e' ≠ e ∧ Making c' pn' (s.lib e') := by
    intro e' c' pn' hmk'
    by_cases h1 : e' = c
    · subst h1
      rw [Function.update_self] at hmk'
      exact absurd hmk' (hx.2 _ _)
    by_cases h2 : e' = e
    · subst h2
      rw [hlibe] at hmk'
      rcases hmk' with ⟨_, heq⟩ | heq <;> cases heq
    · rw [hlib e' h1 h2] at hmk'
      exact ⟨h1, h2, hmk'⟩
  refine ⟨fun e' => ?_, fun e' hne => ?_, fun e' => ?_, fun e' c' pn' hmk' => ?_,
    fun e' e'' c' q q' h1 h2 => ?_, fun c' hc' => ?_⟩
  · by_cases h1 : e' = c
    · subst h1
      exact hparts
    · dsimp only
      rw [hm e' h1]
      exact h.parts e'
  · by_cases h1 : e' = c
    · subst h1
      exact hpaired
    dsimp only at hne ⊢
    rw [hm e' h1]
    by_cases h2 : e' = e
    · subst h2
      exact h.paired e' hmk.ne_unborn
    · rw [hlib e' h1 h2] at hne
      exact h.paired e' hne
  · dsimp only
    by_cases h1 : e' = c
    · subst h1
      rw [Function.update_self]
      exact hstate
    rw [hm e' h1]
    by_cases h2 : e' = e
    · subst h2
      rw [hlibe]
      trivial
    · rw [hlib e' h1 h2]
      exact h.state e'
  · obtain ⟨h1, h2, hmk1⟩ := hmake e' c' pn' hmk'
    obtain ⟨hun', hok'⟩ := h.child e' c' pn' hmk1
    have h3 : c' ≠ c := by
      rintro rfl
      exact h2 (h.unique e' e c' _ _ hmk1 hmk)
    have h4 : c' ≠ e := by
      rintro rfl
      exact hmk.ne_unborn hun'
    dsimp only
    rw [hm e' h1, hm c' h3]
    exact ⟨(hlib c' h3 h4).trans hun', hok'⟩
  · exact h.unique e' e'' c' q q' (hmake e' c' q h1).2.2 (hmake e'' c' q' h2).2.2
  · dsimp only at hc'
    have h1 : c' ≠ c := by
      rintro rfl
      rw [Function.update_self] at hc'
      exact hx.1 hc'
    have h2 : c' ≠ e := by
      rintro rfl
      rw [hlibe] at hc'
      cases hc'
    rw [hlib c' h1 h2] at hc'
    obtain ⟨e', pn', hmk'⟩ := h.parent c' hc'
    have h3 : e' ≠ c := by
      rintro rfl
      rw [hun] at hmk'
      exact not_making_unborn hmk'
    have h4 : e' ≠ e := by
      rintro rfl
      exact h1 (hmk.unique hmk').1
    refine ⟨e', pn', ?_⟩
    dsimp only
    rw [hlib e' h3 h4]
    exact hmk'

/-- The child has what the parent has, and starts. -/
theorem SharedInv.copied {kind : CopyKind} (h : SharedInv p s)
    (he : s.lib e = .copying kind c userPages) : SharedInv p ((s.goto e .idle).goto c .idle) := by
  have hmk : Making c userPages (s.lib e) := Or.inl ⟨kind, he⟩
  obtain ⟨-, hok⟩ := h.child e c _ hmk
  refine h.finish hmk (plain_of (by simp) (by simp) (by simp)) (fun _ _ => rfl) (h.parts c)
    (fun i hi hend => ?_) trivial
  simp only [Sharing.goto] at hend ⊢
  obtain ⟨hlt, heq⟩ := hok.part _ hend.isPart
  rw [hok.data i hi hend (pages_lt hi).2]
  rw [heq] at hend
  exact h.paired e hmk.ne_unborn i hi hend

/-- `spawn` fails before it shares pages: the child is destroyed. -/
theorem SharedInv.spawnDestroy (h : SharedInv p s) (he : s.lib e = .copying .spawn c 0) :
    SharedInv p ⟨Function.update s.maps c fun _ => none,
      Function.update (Function.update s.lib e .idle) c .free⟩ := by
  refine h.finish (Or.inl ⟨.spawn, he⟩) (plain_of (by simp) (by simp) (by simp))
    (fun e' he => Function.update_of_ne he ..) ?_ ?_ ?_
  · rw [Function.update_self]
    exact fun pn hp => absurd hp not_isPart_none
  · rw [Function.update_self]
    exact fun i _ hend => absurd hend not_isEnd_none
  · rw [Function.update_self]
    exact fun pn => rfl

/-- `spawn` fails and leaves the child, which has no page of the pipe. -/
theorem SharedInv.spawnLeave (h : SharedInv p s) (he : s.lib e = .copying .spawn c 0) :
    SharedInv p ((s.goto e .idle).goto c .idle) := by
  have hmk : Making c 0 (s.lib e) := Or.inl ⟨.spawn, he⟩
  obtain ⟨-, hok⟩ := h.child e c _ hmk
  refine h.finish hmk (plain_of (by simp) (by simp) (by simp)) (fun _ _ => rfl) (h.parts c)
    (fun i hi hend => ?_) trivial
  exact absurd (hok.part _ hend.isPart).1 (Nat.not_lt_zero _)

/-- What a child needs of its parent: the data page of a descriptor that it has. -/
theorem SharedInv.needed (h : SharedInv p s) (hmk : Making c pn (s.lib e)) {i : Int} (hi : InRange i)
    (hend : p.IsEnd (s.maps c (fdPage i))) : s.maps e (dataPage i) = some ⟨p.d, true⟩ := by
  obtain ⟨_, hok⟩ := h.child e c pn hmk
  have hsame := (hok.part _ hend.isPart).2
  rw [hsame] at hend
  exact h.paired e hmk.ne_unborn i hi hend

/-- The data page of a descriptor that the child has can be mapped: its page table is there. -/
theorem SharedInv.not_mayFail (h : SharedInv p s) (hmk : Making c pn (s.lib e)) {i : Int}
    (hi : InRange i) (hend : p.IsEnd (s.maps c (fdPage i))) :
    ¬ MayFail p s.maps e (dataPage i) c (dataPage i) := by
  have hd := h.needed hmk hi hend
  rintro (hnone | hout | htable | hno)
  · rw [hd] at hnone
    cases hnone
  · have := (pages_lt hi).2
    omega
  · have hregion : fdPage i / 1024 = dataPage i / 1024 := by
      rw [fdPage_eq hi, dataPage_eq hi]
      obtain ⟨hi0, hi1⟩ := hi
      simp only [maxfd] at hi1
      omega
    rw [htable _ hregion] at hend
    exact not_isEnd_none hend
  · rw [hd] at hno
    exact hno isPart_data

theorem uxPage_ne_dataPage {i : Int} (hi : InRange i) : uxPage ≠ dataPage i := by
  have hux : uxPage = 977919 := by decide
  rw [hux, dataPage_eq hi]
  obtain ⟨hi0, hi1⟩ := hi
  simp only [maxfd] at hi1
  omega

theorem ne_none_iff_data {f : Nat → Option Mapping} {i : Int} (hparts : PartsOk p f) (hi : InRange i)
    (hp : p.IsPart (f (dataPage i))) : f (dataPage i) = some ⟨p.d, true⟩ := by
  rcases hparts _ hp with ⟨_, j, hj, heq⟩ | ⟨hd, _⟩
  · exact absurd heq.symm (fdPage_ne_dataPage hj hi)
  · exact hd

theorem isEnd_of_isPart {f : Nat → Option Mapping} {i : Int} (hparts : PartsOk p f) (hi : InRange i)
    (hp : p.IsPart (f (fdPage i))) : p.IsEnd (f (fdPage i)) := by
  rcases hparts _ hp with ⟨hend, _⟩ | ⟨_, j, hj, heq⟩
  · exact hend
  · exact absurd heq (fdPage_ne_dataPage hi hj)

/-- One step of `close`. -/
theorem SharedInv.unmapFd (h : SharedInv p s) {i : Int} (hlib : Plain (s.lib e)) (hx : Plain x)
    (hi : InRange i) (hstate : ¬ p.IsEnd (Function.update (s.maps e) (fdPage i) none (fdPage i)) →
      StateOk p (Function.update (s.maps e) (fdPage i) none) x) :
    SharedInv p (s.put e x e (fdPage i) none) := by
  refine h.put hlib hx (h.parts e).unmap ((h.paired e hlib.1).unmapFd hi) (hstate ?_)
  rw [Function.update_self]
  exact not_isEnd_none

theorem SharedInv.setData (h : SharedInv p s) {i : Int} {v : Option Mapping} (hlib : Plain (s.lib e))
    (hx : Plain x) (hi : InRange i) (hno : ¬ p.IsEnd (s.maps e (fdPage i)))
    (hv : p.IsPart v → v = some ⟨p.d, true⟩)
    (hstate : ¬ p.IsEnd (Function.update (s.maps e) (dataPage i) v (fdPage i)) →
      StateOk p (Function.update (s.maps e) (dataPage i) v) x) :
    SharedInv p (s.put e x e (dataPage i) v) := by
  refine h.put hlib hx ((h.parts e).update fun hp => ?_) ((h.paired e hlib.1).setData hi hno)
    (hstate ?_)
  · exact Or.inr ⟨hv hp, i, hi, rfl⟩
  · rw [Function.update_of_ne (fdPage_ne_dataPage hi hi)]
    exact hno

/-- Pages that are not of the pipe come and go. -/
theorem SharedInv.other (h : SharedInv p s) (ho : OtherPages p s m') :
    SharedInv p { s with maps := m' } := by
  have hback : ∀ e pn, p.IsPart (m' e pn) → m' e pn = s.maps e pn := by
    intro e pn hp
    rcases ho.pipe e pn with heq | ⟨_, hno⟩
    · exact heq
    · exact absurd hp hno
  have hforth : ∀ e pn, p.IsPart (s.maps e pn) → m' e pn = s.maps e pn := by
    intro e pn hp
    rcases ho.pipe e pn with heq | ⟨hno, _⟩
    · exact heq
    · exact absurd hp hno
  have hno : ∀ e pn, ¬ p.IsEnd (s.maps e pn) → ¬ p.IsEnd (m' e pn) := by
    intro e pn hn hend
    rw [hback e pn hend.isPart] at hend
    exact hn hend
  have hdata : ∀ e pn, s.maps e pn = some ⟨p.d, true⟩ → m' e pn = some ⟨p.d, true⟩ := by
    intro e pn heq
    rw [hforth e pn (by rw [heq]; exact isPart_data), heq]
  refine ⟨fun e pn hp => ?_, fun e hne i hi hend => ?_, fun e => ?_, fun e c pn hmk => ?_, h.unique,
    h.parent⟩
  · have heq := hback e pn hp
    simp only at hp ⊢
    rw [heq] at hp ⊢
    exact h.parts e pn hp
  · simp only at hend ⊢
    rw [hback e _ hend.isPart] at hend
    exact hdata e _ (h.paired e hne i hi hend)
  · have hst := h.state e
    simp only
    cases hl : s.lib e with
    | free =>
        rw [hl] at hst
        rw [ho.free e hl]
        exact hst
    | closeFd i a =>
        rw [hl] at hst
        exact hst
    | closeData i a =>
        rw [hl] at hst
        exact ⟨hst.1, hst.2.1, hno e _ hst.2.2⟩
    | closeRest i a =>
        rw [hl] at hst
        exact ⟨hst.1, hst.2.1, hno e _ hst.2.2⟩
    | dupData old new =>
        rw [hl] at hst
        exact ⟨hst.1, hst.2.1, hno e _ hst.2.2⟩
    | dupFd old new =>
        rw [hl] at hst
        refine ⟨hst.1, hst.2.1, hno e _ hst.2.2.1, fun hend => ?_⟩
        rw [hback e _ hend.isPart] at hend
        exact hdata e _ (hst.2.2.2 hend)
    | dupErr new =>
        rw [hl] at hst
        exact hst
    | dupErrData new =>
        rw [hl] at hst
        exact ⟨hst.1, hno e _ hst.2⟩
    | unborn => trivial
    | idle => trivial
    | closeAll i => trivial
    | copying kind c pn => trivial
    | panicked c pn => trivial
  · obtain ⟨hun, hok⟩ := h.child e c pn hmk
    refine ⟨hun, fun q hq => ?_, fun i hi hend hlt => ?_⟩
    · have heq := hback c q hq
      simp only at hq ⊢
      rw [heq] at hq ⊢
      obtain ⟨hlt, hsame⟩ := hok.part q hq
      refine ⟨hlt, ?_⟩
      rw [hsame] at hq ⊢
      exact (hforth e q hq).symm
    · simp only at hend ⊢
      rw [hback c _ hend.isPart] at hend
      have hsame := (hok.part _ hend.isPart).2
      have hc := hok.data i hi hend hlt
      rw [hsame] at hend
      have hd := h.paired e hmk.ne_unborn i hi hend
      rw [hd] at hc
      rw [hdata c _ hc, hdata e _ hd]

theorem plain_lib {y : LibState} (hl : s.lib e = y) (h1 : y ≠ .unborn)
    (h2 : ∀ kind c pn, y ≠ .copying kind c pn) (h3 : ∀ c pn, y ≠ .panicked c pn) :
    Plain (s.lib e) := by
  rw [hl]
  exact plain_of h1 h2 h3

/-- `sys_env_destroy(0)`: no page is left. -/
theorem SharedInv.destroy {i : Nat} (h : SharedInv p s) (hl : s.lib e = .closeAll i) :
    SharedInv p ⟨Function.update s.maps e fun _ => none, Function.update s.lib e .free⟩ := by
  refine h.own (plain_lib hl (by simp) (by simp) (by simp)) (plain_of (by simp) (by simp) (by simp))
    (fun e' he => Function.update_of_ne he ..) ?_ ?_ ?_
  · rw [Function.update_self]
    exact fun pn hp => absurd hp not_isPart_none
  · rw [Function.update_self]
    exact fun i _ hend => absurd hend not_isEnd_none
  · rw [Function.update_self]
    exact fun pn => rfl

/-- Without a data page the descriptor is none of the pipe's. -/
theorem SharedInv.dupSkip {old new : Int} (h : SharedInv p s) (hl : s.lib e = .dupData old new)
    (hno : s.maps e (dataPage old) = none) : SharedInv p (s.goto e (.dupFd old new)) := by
  have hst := h.state e
  rw [hl] at hst
  have hpl := plain_lib hl (by simp) (by simp) (by simp)
  refine h.goto hpl (plain_of (by simp) (by simp) (by simp)) ⟨hst.1, hst.2.1, hst.2.2, fun hend => ?_⟩
  have hd := h.paired e hpl.1 old hst.1 hend
  rw [hno] at hd
  cases hd

theorem SharedInv.dupData {old new : Int} (h : SharedInv p s) (hl : s.lib e = .dupData old new) :
    SharedInv p (s.put e (.dupFd old new) e (dataPage new) (s.maps e (dataPage old))) := by
  have hst := h.state e
  rw [hl] at hst
  have hpl := plain_lib hl (by simp) (by simp) (by simp)
  refine h.setData hpl (plain_of (by simp) (by simp) (by simp)) hst.2.1 hst.2.2
    (ne_none_iff_data (h.parts e) hst.1) fun hno => ⟨hst.1, hst.2.1, hno, fun hend => ?_⟩
  rw [Function.update_of_ne (fdPage_ne_dataPage hst.1 hst.2.1)] at hend
  rw [Function.update_self]
  exact h.paired e hpl.1 old hst.1 hend

/-- The data page of the new descriptor is there already. -/
theorem SharedInv.dupFd {old new : Int} (h : SharedInv p s) (hl : s.lib e = .dupFd old new) :
    SharedInv p (s.put e .idle e (fdPage new) (s.maps e (fdPage old))) := by
  have hst := h.state e
  rw [hl] at hst
  have hpl := plain_lib hl (by simp) (by simp) (by simp)
  refine h.put hpl (plain_of (by simp) (by simp) (by simp)) ((h.parts e).update fun hp => ?_)
    ((h.paired e hpl.1).setFd hst.2.1 hst.2.2.2) trivial
  exact Or.inl ⟨isEnd_of_isPart (h.parts e) hst.1 hp, new, hst.2.1, rfl⟩

/-- A page that is passed over is no data page that the child needs. -/
theorem SharedInv.copySkip {kind : CopyKind} (h : SharedInv p s) (hl : s.lib e = .copying kind c pn)
    (hno : copies kind (s.maps e pn) = false) :
    SharedInv p (s.goto e (.copying kind c (pn + 1))) := by
  have hmk : Making c pn (s.lib e) := Or.inl ⟨kind, hl⟩
  refine h.copy hmk (Or.inl ⟨kind, rfl⟩) (fun _ _ => rfl) (h.parts c)
    ((h.child e c pn hmk).2.next fun i hi hend heq => ?_)
  rw [heq, h.needed hmk hi hend] at hno
  simp [copies] at hno

theorem SharedInv.copyStack {f : Nat} (h : SharedInv p s) (hl : s.lib e = .copying .fork c uxPage)
    (hnew : ¬ p.IsPart (some ⟨f, false⟩)) :
    SharedInv p (s.put e (.copying .fork c (uxPage + 1)) c uxPage (some ⟨f, false⟩)) := by
  have hmk : Making c uxPage (s.lib e) := Or.inl ⟨_, hl⟩
  refine h.copy (x := .copying .fork c (uxPage + 1)) hmk (Or.inl ⟨_, rfl⟩)
    (fun e' he => Function.update_of_ne he ..) ?_ ?_
  · rw [Maps.set, Function.update_self]
    exact (h.parts c).update fun hp => absurd hp hnew
  · rw [Maps.set, Function.update_self]
    exact (h.child e c _ hmk).2.set (Or.inr ⟨hnew, fun i hi => uxPage_ne_dataPage hi⟩)

theorem SharedInv.copyPage {kind : CopyKind} (h : SharedInv p s)
    (hl : s.lib e = .copying kind c pn) :
    SharedInv p (s.put e (.copying kind c (pn + 1)) c pn (s.maps e pn)) := by
  have hmk : Making c pn (s.lib e) := Or.inl ⟨kind, hl⟩
  refine h.copy hmk (Or.inl ⟨kind, rfl⟩) (fun e' he => Function.update_of_ne he ..) ?_ ?_
  · rw [Maps.set, Function.update_self]
    exact (h.parts c).update fun hp => h.parts e pn hp
  · rw [Maps.set, Function.update_self]
    exact (h.child e c pn hmk).2.set (Or.inl rfl)

/-- `spawn` passes over a page that cannot be mapped, and the data page always can. -/
theorem SharedInv.copyFail (h : SharedInv p s) (hl : s.lib e = .copying .spawn c pn)
    (hfail : MayFail p s.maps e pn c pn) : SharedInv p (s.goto e (.copying .spawn c (pn + 1))) := by
  have hmk : Making c pn (s.lib e) := Or.inl ⟨_, hl⟩
  refine h.copy hmk (Or.inl ⟨_, rfl⟩) (fun _ _ => rfl) (h.parts c)
    ((h.child e c pn hmk).2.next fun i hi hend heq => ?_)
  subst heq
  exact absurd hfail (h.not_mayFail hmk hi hend)

theorem LibStep.inv (hdev : isPipe p.r = true ∧ isPipe p.w = true) (h : SharedInv p s)
    (hstep : LibStep isPipe p s ev s') (hok : DupInRange ev) : SharedInv p s' := by
  cases hstep with
  | @close e i hl =>
      obtain ⟨hst, hpl⟩ := beginClose_ok (s := s) (e := e) (i := i) hdev (a := .done) trivial
        (by intro _ _ h; cases h)
      exact h.goto (plain_lib hl (by simp) (by simp) (by simp)) hpl hst
  | @dup e old new hl =>
      obtain ⟨hst, hpl⟩ := beginDup_ok (s := s) (e := e) hdev hok
      exact h.goto (plain_lib hl (by simp) (by simp) (by simp)) hpl hst
  | exit hl =>
      exact h.goto (plain_lib hl (by simp) (by simp) (by simp))
        (plain_of (by simp) (by simp) (by simp)) trivial
  | exofork kind hl hc => exact h.exofork hl hc
  | @closeFd e i a hl =>
      have hst := h.state e
      rw [hl] at hst
      exact h.unmapFd (plain_lib hl (by simp) (by simp) (by simp))
        (plain_of (by simp) (by simp) (by simp)) hst.1 fun hno => ⟨hst.1, hst.2, hno⟩
  | @closeData e i a hl =>
      have hst := h.state e
      rw [hl] at hst
      exact h.setData (plain_lib hl (by simp) (by simp) (by simp))
        (plain_of (by simp) (by simp) (by simp)) hst.1 hst.2.2
        (fun hp => absurd hp not_isPart_none) fun hno => ⟨hst.1, hst.2.1, hno⟩
  | @closeRest e i a hl =>
      have hst := h.state e
      rw [hl] at hst
      exact h.unmapFd (plain_lib hl (by simp) (by simp) (by simp)) (plain_resume a) hst.1
        fun hno => stateOk_resume hst.1 hst.2.1 hno
  | @closeAll e i hl hi =>
      obtain ⟨hst, hpl⟩ := beginClose_ok (s := s) (e := e) (i := i) hdev (a := .all (i + 1)) trivial
        (by intro _ _ h; cases h)
      exact h.goto (plain_lib hl (by simp) (by simp) (by simp)) hpl hst
  | destroy hl hi => exact h.destroy hl
  | dupSkip hl hno => exact h.dupSkip hl hno
  | dupData hl hsrc hdst => exact h.dupData hl
  | @dupDataErr e old new hl hsrc hfail =>
      have hst := h.state e
      rw [hl] at hst
      exact h.goto (plain_lib hl (by simp) (by simp) (by simp)) (plain_of (by simp) (by simp) (by simp))
        hst.2.1
  | dupFd hl hsrc hdst => exact h.dupFd hl
  | @dupFdErr e old new hl hfail =>
      have hst := h.state e
      rw [hl] at hst
      exact h.goto (plain_lib hl (by simp) (by simp) (by simp)) (plain_of (by simp) (by simp) (by simp))
        hst.2.1
  | @dupErr e new hl =>
      have hst := h.state e
      rw [hl] at hst
      exact h.unmapFd (plain_lib hl (by simp) (by simp) (by simp))
        (plain_of (by simp) (by simp) (by simp)) hst fun hno => ⟨hst, hno⟩
  | @dupErrData e new hl =>
      have hst := h.state e
      rw [hl] at hst
      exact h.setData (plain_lib hl (by simp) (by simp) (by simp))
        (plain_of (by simp) (by simp) (by simp)) hst.1 hst.2 (fun hp => absurd hp not_isPart_none)
        fun _ => trivial
  | copySkip hl hpn hno hux => exact h.copySkip hl hno
  | copyStack hl hnew => exact h.copyStack hl hnew
  | copy hl hpn hyes hux => exact h.copyPage hl
  | copyFail hl hpn hfail => exact h.copyFail hl hfail
  | @copyPanic e c pn hl hpn =>
      have hmk : Making c pn (s.lib e) := Or.inl ⟨_, hl⟩
      exact h.copy hmk (Or.inr rfl) (fun _ _ => rfl) (h.parts c) (h.child e c pn hmk).2
  | copied hl => exact h.copied hl
  | spawnDestroy hl => exact h.spawnDestroy hl
  | spawnLeave hl => exact h.spawnLeave hl
  | other ho => exact h.other ho

end

/-! ## The counts -/

section

variable {p : PipePages} {s : Sharing} {isPipe : Nat → Bool}

/-- The pages of the environment in which `pipe` has returned. -/
theorem openPipe_self (m : Maps) (e : EnvIx) (i j : Int) : openPipe m e i j p e =
    Function.update (Function.update (Function.update (Function.update (m e) (fdPage i)
      (some ⟨p.r, true⟩)) (fdPage j) (some ⟨p.w, true⟩)) (dataPage i) (some ⟨p.d, true⟩)) (dataPage j)
      (some ⟨p.d, true⟩) := by
  simp only [openPipe, Maps.set, Function.update_self]

theorem openPipe_of_ne (m : Maps) {e e' : EnvIx} (i j : Int) (he : e' ≠ e) :
    openPipe m e i j p e' = m e' := by
  simp only [openPipe, Maps.set, Function.update_of_ne he]

theorem PipeReturned.inv (h : PipeReturned isPipe p s) : SharedInv p s := by
  obtain ⟨m, e, i, j, hi, hj, hij, hmaps, _, hnew⟩ := h.opened
  have hidle : ∀ e', s.lib e' ≠ .unborn ∧ ∀ c pn, ¬ Making c pn (s.lib e') := by
    intro e'
    rcases h.others e' with heq | ⟨heq, _⟩ <;> rw [heq]
    · exact plain_of (by simp) (by simp) (by simp)
    · exact plain_of (by simp) (by simp) (by simp)
  refine ⟨fun e' => ?_, fun e' _ => ?_, fun e' => ?_, fun e' c pn hmk => absurd hmk ((hidle e').2 c pn),
    fun e' _ c pn _ hmk => absurd hmk ((hidle e').2 c pn), fun c hc => absurd hc (hidle c).1⟩
  · rw [hmaps]
    by_cases he : e' = e
    · subst he
      rw [openPipe_self]
      have hbase : PartsOk p (m e') := fun pn hp => absurd hp (hnew e' pn)
      exact (((hbase.update fun _ => Or.inl ⟨Or.inl rfl, i, hi, rfl⟩).update
        fun _ => Or.inl ⟨Or.inr rfl, j, hj, rfl⟩).update
        fun _ => Or.inr ⟨rfl, i, hi, rfl⟩).update fun _ => Or.inr ⟨rfl, j, hj, rfl⟩
    · rw [openPipe_of_ne m i j he]
      exact fun pn hp => absurd hp (hnew e' pn)
  · rw [hmaps]
    intro k hk hend
    by_cases he : e' = e
    · subst he
      rw [openPipe_self] at hend ⊢
      by_cases hkj : dataPage k = dataPage j
      · rw [hkj, Function.update_self]
      rw [Function.update_of_ne hkj]
      by_cases hki : dataPage k = dataPage i
      · rw [hki, Function.update_self]
      have hfi : fdPage k ≠ fdPage i := fun heq => hki (by rw [fdPage_inj hk hi heq])
      have hfj : fdPage k ≠ fdPage j := fun heq => hkj (by rw [fdPage_inj hk hj heq])
      rw [Function.update_of_ne (fdPage_ne_dataPage hk hj),
        Function.update_of_ne (fdPage_ne_dataPage hk hi), Function.update_of_ne hfj,
        Function.update_of_ne hfi] at hend
      exact absurd hend.isPart (hnew e' _)
    · rw [openPipe_of_ne m i j he] at hend
      exact absurd hend.isPart (hnew e' _)
  · rcases h.others e' with heq | ⟨heq, hnone⟩ <;> rw [heq]
    · trivial
    · exact hnone

/-- The pages are three and the device is the pipe's, all along the run. -/
theorem LibRun.pipe_facts {ok : LibEvent → Prop} (h : LibRun isPipe p ok s) :
    (p.r ≠ p.w ∧ p.r ≠ p.d ∧ p.w ≠ p.d) ∧ isPipe p.r = true ∧ isPipe p.w = true := by
  induction h with
  | pipe h => exact ⟨h.distinct, h.device⟩
  | step _ _ _ ih => exact ih

theorem LibRun.inv (h : LibRun isPipe p DupInRange s) : SharedInv p s := by
  induction h with
  | pipe h => exact h.inv
  | step h hstep hok ih => exact hstep.inv h.pipe_facts.2 ih hok

/-- Outside of the window every environment has the data page beside the descriptor. -/
theorem SharedInv.all_paired (h : SharedInv p s) (hwin : ¬ InWindow p s) (e : EnvIx) :
    Paired p (s.maps e) := by
  by_cases hun : s.lib e = .unborn
  · intro i hi hend
    obtain ⟨e', pn, hmk⟩ := h.parent e hun
    obtain ⟨_, hok⟩ := h.child e' e pn hmk
    have hlt := (hok.part _ hend.isPart).1
    have hdone : dataPage i < pn := by
      by_contra hle
      exact hwin ⟨e', e, pn, i, hmk, hi, hlt, Nat.le_of_not_lt hle, hend⟩
    rw [hok.data i hi hend hdone]
    exact h.needed hmk hi hend
  · exact h.paired e hun

/-- The page that holds the data of the descriptor in page `pn`. -/
def dataOf (pn : Fin userPages) : Fin userPages :=
  if h : pn.val + 32 < userPages then ⟨pn.val + 32, h⟩ else pn

theorem dataOf_val {i : Int} (hi : InRange i) {pn : Fin userPages} (h : pn.val = fdPage i) :
    (dataOf pn).val = dataPage i := by
  have hlt := (pages_lt hi).2
  have heq : dataPage i = pn.val + 32 := by
    rw [h, fdPage_eq hi, dataPage_eq hi]
    omega
  rw [dataOf, dif_pos (by omega)]
  exact heq.symm

/-- Every mapping of an end has a mapping of the data page beside it. -/
theorem SharedInv.dataOf_maps (h : SharedInv p s) (hwin : ¬ InWindow p s) {e : EnvIx}
    {pn : Fin userPages} {f : Nat} (hf : f = p.r ∨ f = p.w) (hd : f ≠ p.d)
    (hmap : (s.maps e pn).map Mapping.frame = some f) :
    ∃ i, InRange i ∧ pn.val = fdPage i ∧ (s.maps e (dataOf pn)).map Mapping.frame = some p.d := by
  obtain ⟨v, hv, rfl⟩ := Option.map_eq_some_iff.mp hmap
  have hpart : p.IsPart (s.maps e pn) := by
    refine ⟨v.frame, v.share, hv, ?_⟩
    rcases hf with hf | hf
    · exact Or.inl hf
    · exact Or.inr (Or.inl hf)
  rcases h.parts e _ hpart with ⟨hend, i, hi, hpn⟩ | ⟨heq, _⟩
  · refine ⟨i, hi, hpn, ?_⟩
    rw [hpn] at hend
    rw [dataOf_val hi hpn, h.all_paired hwin e i hi hend]
    rfl
  · rw [hv] at heq
    cases heq
    exact absurd rfl hd

theorem SharedInv.pageref_le (h : SharedInv p s) (hp : p.r ≠ p.w ∧ p.r ≠ p.d ∧ p.w ≠ p.d)
    (hwin : ¬ InWindow p s) : pageref s.maps p.r + pageref s.maps p.w ≤ pageref s.maps p.d := by
  obtain ⟨hrw, hrd, hwd⟩ := hp
  have hends : ∀ k : EnvIx × Fin userPages, (s.maps k.1 k.2).map Mapping.frame = some p.r ∨
      (s.maps k.1 k.2).map Mapping.frame = some p.w →
      ∃ i, InRange i ∧ k.2.val = fdPage i ∧
        (s.maps k.1 (dataOf k.2)).map Mapping.frame = some p.d := by
    rintro k (hk | hk)
    · exact h.dataOf_maps hwin (Or.inl rfl) hrd hk
    · exact h.dataOf_maps hwin (Or.inr rfl) hwd hk
  refine refCount_add_le hrw (fun k => (k.1, dataOf k.2)) (fun k hk => ?_) fun k k' hk hk' heq => ?_
  · obtain ⟨_, _, _, hd⟩ := hends k hk
    exact hd
  · obtain ⟨i, hi, hki, _⟩ := hends k hk
    obtain ⟨i', hi', hki', _⟩ := hends k' hk'
    obtain ⟨he, hdata⟩ := Prod.mk.inj heq
    have hsame : dataPage i = dataPage i' := by
      rw [← dataOf_val hi hki, ← dataOf_val hi' hki', hdata]
    refine Prod.ext he (Fin.ext ?_)
    rw [hki, hki', dataPage_inj hi hi' hsame]

theorem pageref_pos {m : Maps} {f : Nat} (e : EnvIx) (pn : Nat) (hpn : pn < userPages)
    (h : (m e pn).map Mapping.frame = some f) : 0 < pageref m f :=
  refCount_pos.mpr ⟨(e, ⟨pn, hpn⟩), h⟩

/-- As long as every `dup` is to a descriptor number in range, the data page of a pipe has as many
references as its two ends, except while a `fork` or `spawn` has given a child an end without the
data page. So a reader does not see the pipe closed while some environment has the writing end, and
the other way round. -/
theorem pipe_not_closed (h : LibRun isPipe p DupInRange s) (hwin : ¬ InWindow p s) :
    pageref s.maps p.r + pageref s.maps p.w ≤ pageref s.maps p.d ∧
    ((∃ e, ∃ pn < userPages, (s.maps e pn).map Mapping.frame = some p.w) →
      pageref s.maps p.r < pageref s.maps p.d) ∧
    ((∃ e, ∃ pn < userPages, (s.maps e pn).map Mapping.frame = some p.r) →
      pageref s.maps p.w < pageref s.maps p.d) := by
  have hle := h.inv.pageref_le h.pipe_facts.1 hwin
  refine ⟨hle, ?_, ?_⟩
  · rintro ⟨e, pn, hpn, hmap⟩
    have := pageref_pos e pn hpn hmap
    omega
  · rintro ⟨e, pn, hpn, hmap⟩
    have := pageref_pos e pn hpn hmap
    omega

end

/-! ## A pipe of one environment -/

/-- Another mapping at one page. -/
theorem refCount_set {n pn : Nat} (m : Maps) (e : EnvIx) (hpn : pn < n) (v : Option Mapping) (f : Nat) :
    refCount (fun k : EnvIx × Fin n => (m.set e pn v k.1 k.2).map Mapping.frame) f +
        (if (m e pn).map Mapping.frame = some f then 1 else 0) =
      refCount (fun k : EnvIx × Fin n => (m k.1 k.2).map Mapping.frame) f +
        if v.map Mapping.frame = some f then 1 else 0 := by
  have hfun : (fun k : EnvIx × Fin n => (m.set e pn v k.1 k.2).map Mapping.frame) =
      Function.update (fun k : EnvIx × Fin n => (m k.1 k.2).map Mapping.frame) (e, ⟨pn, hpn⟩)
        (v.map Mapping.frame) := by
    funext k
    by_cases hk : k = (e, ⟨pn, hpn⟩)
    · subst hk
      rw [Function.update_self, Maps.set, Function.update_self, Function.update_self]
    · rw [Function.update_of_ne hk, Maps.set]
      by_cases he : k.1 = e
      · rw [he, Function.update_self, Function.update_of_ne]
        exact fun heq => hk (Prod.ext he (Fin.ext heq))
      · rw [Function.update_of_ne he]
  rw [hfun]
  exact refCount_update (fun k : EnvIx × Fin n => (m k.1 k.2).map Mapping.frame) (e, ⟨pn, hpn⟩) _ f

def noMaps : Maps := fun _ _ => none

theorem pageref_empty (f : Nat) : pageref noMaps f = 0 :=
  refCount_eq_zero.mpr fun _ h => by cases h

theorem Maps.set_of_ne {m : Maps} {e e' : EnvIx} {pn pn' : Nat} {v : Option Mapping}
    (h : e' ≠ e ∨ pn' ≠ pn) : m.set e pn v e' pn' = m e' pn' := by
  rw [Maps.set]
  by_cases he : e' = e
  · subst he
    rw [Function.update_self, Function.update_of_ne (h.resolve_left fun hne => hne rfl)]
  · rw [Function.update_of_ne he]

/-- A page that was not mapped. -/
theorem pageref_set_new {m : Maps} {e : EnvIx} {pn : Nat} (hpn : pn < userPages) (hno : m e pn = none)
    (v : Mapping) (f : Nat) :
    pageref (m.set e pn (some v)) f = pageref m f + if v.frame = f then 1 else 0 := by
  have h := refCount_set m e hpn (some v) f
  rw [hno, Option.map_none, if_neg (by simp), Nat.add_zero] at h
  rw [pageref, h, pageref]
  simp only [Option.map_some, Option.some.injEq]

def threePages : PipePages := ⟨1, 2, 3⟩

/-- Every device is the pipe. -/
def allPipes (_ : Nat) : Bool := true

/-- The first environment, alone, has opened a pipe. -/
def piped : Sharing :=
  ⟨openPipe noMaps env0 0 1 threePages, fun e => if e = env0 then .idle else .free⟩

theorem inRange_zero : InRange 0 := ⟨by decide, by decide⟩

theorem inRange_one : InRange 1 := ⟨by decide, by decide⟩

theorem piped_lib (e : EnvIx) : piped.lib e = if e = env0 then .idle else .free := rfl

theorem piped_maps_other {e : EnvIx} (he : e ≠ env0) (pn : Nat) : piped.maps e pn = none := by
  unfold piped
  simp only
  rw [openPipe_of_ne _ 0 1 he]
  rfl

theorem piped_returned : PipeReturned allPipes threePages piped where
  distinct := by decide
  device := ⟨rfl, rfl⟩
  opened := ⟨_, env0, 0, 1, inRange_zero, inRange_one, by decide, rfl, by
    rw [piped_lib, if_pos rfl], fun _ _ => not_isPart_none⟩
  others := by
    intro e
    by_cases he : e = env0
    · exact Or.inl (by rw [piped_lib, if_pos he])
    · exact Or.inr ⟨by rw [piped_lib, if_neg he], piped_maps_other he⟩

/-- The first environment is at page `n` of a `fork`. -/
def forking (n : Nat) : Sharing :=
  ⟨piped.maps, fun e => if e = env0 then .copying .fork env1 n else if e = env1 then .unborn else .free⟩

theorem forking_lib (n : Nat) (e : EnvIx) : (forking n).lib e =
    if e = env0 then .copying .fork env1 n else if e = env1 then .unborn else .free := rfl

theorem Sharing.goto_lib (s : Sharing) (e : EnvIx) (x : LibState) :
    (s.goto e x).lib = Function.update s.lib e x := rfl

theorem Sharing.put_lib (s : Sharing) (e : EnvIx) (x : LibState) (c : EnvIx) (pn : Nat)
    (v : Option Mapping) : (s.put e x c pn v).lib = Function.update s.lib e x := rfl

theorem sharing_ext {s s' : Sharing} (hm : s.maps = s'.maps) (hl : ∀ e, s.lib e = s'.lib e) :
    s = s' := by
  cases s
  cases s'
  cases hm
  congr 1
  exact funext hl

theorem forking_goto (n n' : Nat) : (forking n).goto env0 (.copying .fork env1 n') = forking n' := by
  refine sharing_ext rfl fun e => ?_
  rw [Sharing.goto_lib, forking_lib]
  by_cases he : e = env0
  · subst he
    rw [Function.update_self, if_pos rfl]
  · rw [Function.update_of_ne he, forking_lib, if_neg he, if_neg he]

theorem forking_zero : (piped.goto env0 (.copying .fork env1 0)).goto env1 .unborn = forking 0 := by
  refine sharing_ext rfl fun e => ?_
  rw [Sharing.goto_lib, Sharing.goto_lib, forking_lib]
  by_cases h1 : e = env1
  · subst h1
    rw [Function.update_self, if_neg (by decide), if_pos rfl]
  · rw [Function.update_of_ne h1]
    by_cases he : e = env0
    · subst he
      rw [Function.update_self, if_pos rfl]
    · rw [Function.update_of_ne he, if_neg he, if_neg h1, piped_lib, if_neg he]

theorem piped_maps : piped.maps = (((noMaps.set env0 851968 (some ⟨1, true⟩)).set env0
    851969 (some ⟨2, true⟩)).set env0 852000 (some ⟨3, true⟩)).set env0 852001 (some ⟨3, true⟩) := rfl

/-- Below the descriptors nothing is mapped. -/
theorem piped_low {pn : Nat} (hpn : pn < 851968) : piped.maps env0 pn = none := by
  rw [piped_maps, Maps.set_of_ne (Or.inr (by omega)), Maps.set_of_ne (Or.inr (by omega)),
    Maps.set_of_ne (Or.inr (by omega)), Maps.set_of_ne (Or.inr (by omega))]
  rfl

theorem userPages_eq : userPages = 977920 := by decide

theorem forking_run (n : Nat) (hn : n ≤ 851968) : LibRun allPipes threePages DupInRange (forking n) := by
  induction n with
  | zero =>
      rw [← forking_zero]
      refine .step (.pipe piped_returned) (.exofork .fork ?_ ?_) trivial
      · rw [piped_lib, if_pos rfl]
      · rw [piped_lib, if_neg (by decide)]
  | succ n ih =>
      rw [← forking_goto n (n + 1)]
      have hux : uxPage = 977919 := by decide
      have hall := userPages_eq
      refine .step (ih (by omega)) (.copySkip ?_ (by omega) ?_ fun _ => by omega) trivial
      · rw [forking_lib, if_pos rfl]
      · have hlow : piped.maps env0 n = none := piped_low (by omega)
        change copies .fork (piped.maps env0 n) = false
        rw [hlow]
        rfl

/-- What each page of the pipe is referred to by, in the environment that has opened it. -/
theorem pageref_piped (f : Nat) : pageref piped.maps f =
    (if 1 = f then 1 else 0) + (if 2 = f then 1 else 0) + (if 3 = f then 1 else 0) +
      if 3 = f then 1 else 0 := by
  have hall := userPages_eq
  rw [piped_maps, pageref_set_new (by omega), pageref_set_new (by omega), pageref_set_new (by omega),
    pageref_set_new (by omega), pageref_empty]
  · simp only
    omega
  · rfl
  · rw [Maps.set_of_ne (Or.inr (by omega))]
    rfl
  · rw [Maps.set_of_ne (Or.inr (by omega)), Maps.set_of_ne (Or.inr (by omega))]
    rfl
  · rw [Maps.set_of_ne (Or.inr (by omega)), Maps.set_of_ne (Or.inr (by omega)),
      Maps.set_of_ne (Or.inr (by omega))]
    rfl

/-- In the middle of a `dup` of the reading end the data page has three references. -/
theorem pipe_not_closed_dup : ∃ s, LibRun allPipes threePages DupInRange s ∧
    s.lib env0 = .dupFd 0 2 ∧ pageref s.maps threePages.d = 3 ∧ ¬ InWindow threePages s ∧
    pageref s.maps threePages.r + pageref s.maps threePages.w ≤ pageref s.maps threePages.d := by
  have hall := userPages_eq
  have hbegin : beginDup allPipes piped.maps env0 0 2 = .dupData 0 2 := rfl
  have hsrc : piped.maps env0 (dataPage 0) = some ⟨3, true⟩ := rfl
  have hd2 : dataPage 2 = 852002 := by decide
  have hrun : LibRun allPipes threePages DupInRange ((piped.goto env0 (.dupData 0 2)).put env0
      (.dupFd 0 2) env0 (dataPage 2) (some ⟨3, true⟩)) := by
    rw [← hbegin]
    refine .step (.step (.pipe piped_returned) (.dup 0 2 ?_) ⟨by decide, by decide⟩)
      (.dupData ?_ ?_ ?_) trivial
    · rw [piped_lib, if_pos rfl]
    · rw [Sharing.goto_lib, hbegin, Function.update_self]
    · exact Option.some_ne_none _
    · omega
  have hwin : ¬ InWindow threePages ((piped.goto env0 (.dupData 0 2)).put env0 (.dupFd 0 2) env0
      (dataPage 2) (some ⟨3, true⟩)) := by
    rintro ⟨e, c, pn, i, hmk, _⟩
    have hlib : (Function.update (Function.update piped.lib env0 (.dupData 0 2)) env0 (.dupFd 0 2)) e =
        if e = env0 then .dupFd 0 2 else .free := by
      by_cases he : e = env0
      · subst he
        rw [Function.update_self, if_pos rfl]
      · rw [Function.update_of_ne he, Function.update_of_ne he, piped_lib, if_neg he, if_neg he]
    simp only [Sharing.put, Sharing.goto, hlib] at hmk
    split at hmk <;> rcases hmk with ⟨_, heq⟩ | heq <;> cases heq
  refine ⟨_, hrun, by rw [Sharing.put_lib, Function.update_self], ?_, hwin,
    (pipe_not_closed hrun hwin).1⟩
  change pageref (piped.maps.set env0 (dataPage 2) (some ⟨3, true⟩)) 3 = 3
  rw [hd2, pageref_set_new, pageref_piped]
  · rfl
  · omega
  · rw [piped_maps, Maps.set_of_ne (Or.inr (by omega)), Maps.set_of_ne (Or.inr (by omega)),
      Maps.set_of_ne (Or.inr (by omega)), Maps.set_of_ne (Or.inr (by omega))]
    rfl

/-- A `fork` that has just copied the descriptor of the reading end: it has as many references as the
data page, and the parent has the writing end. -/
theorem pipe_looks_closed : ∃ s, LibRun allPipes threePages DupInRange s ∧
    (s.maps env0 (fdPage 1)).map Mapping.frame = some threePages.w ∧
    pageref s.maps threePages.r = pageref s.maps threePages.d ∧
    ¬ pageref s.maps threePages.r + pageref s.maps threePages.w ≤ pageref s.maps threePages.d := by
  have hall := userPages_eq
  have hux : uxPage = 977919 := by decide
  have hstep : LibStep allPipes threePages (forking 851968) .step
      ((forking 851968).put env0 (.copying .fork env1 851969) env1 851968 (some ⟨1, true⟩)) := by
    have hsrc : (forking 851968).maps env0 851968 = some ⟨1, true⟩ := rfl
    rw [← hsrc]
    refine .copy ?_ (by omega) ?_ fun _ => by omega
    · rw [forking_lib, if_pos rfl]
    · rw [hsrc]
      rfl
  have hcount : ∀ f, pageref (piped.maps.set env1 851968 (some ⟨1, true⟩)) f =
      pageref piped.maps f + if 1 = f then 1 else 0 := by
    intro f
    exact pageref_set_new (by omega) (piped_maps_other (by decide) _) _ f
  have hmaps : ((forking 851968).put env0 (.copying .fork env1 851969) env1 851968
      (some ⟨1, true⟩)).maps = piped.maps.set env1 851968 (some ⟨1, true⟩) := rfl
  refine ⟨_, .step (forking_run 851968 (Nat.le_refl _)) hstep trivial, ?_, ?_, ?_⟩
  · rw [hmaps, Maps.set_of_ne (Or.inl (by decide))]
    rfl
  · rw [hmaps, hcount, hcount, pageref_piped, pageref_piped]
    rfl
  · rw [hmaps, hcount, hcount, hcount, pageref_piped, pageref_piped, pageref_piped]
    decide

/-! ## The maps of the kernel -/

theorem userPage_table {pn : Nat} (h : pn < userPages) : pn / 1024 < pdxUtop := by
  have := userPages_eq
  have hall : pdxUtop = 955 := rfl
  omega

theorem userPage_entry (pn : Nat) : pn % 1024 < nptentries := Nat.mod_lt pn (Nat.succ_pos 1023)

/-- The page table entry of page `pn` of `e`. -/
def userSlot (e : EnvIx) (pn : Nat) (h : pn < userPages) : Slot :=
  (e, ⟨pn / 1024, userPage_table h⟩, ⟨pn % 1024, userPage_entry pn⟩)

/-- What the environments have mapped in a state of the kernel. -/
def mapsOf (s : Kernel) : Maps := fun e pn =>
  if h : pn < userPages then
    (entryTarget (pteOf s (userSlot e pn h))).map fun f =>
      ⟨f, decide (pteOf s (userSlot e pn h) &&& pteShare ≠ 0#32)⟩
  else none

section

variable {R : Nat → Prop} {s s' : Kernel} {e : EnvIx} {f : Nat}

theorem mapsOf_frame (s : Kernel) (e : EnvIx) {pn : Nat} (h : pn < userPages) :
    (mapsOf s e pn).map Mapping.frame = entryTarget (pteOf s (userSlot e pn h)) := by
  rw [mapsOf, dif_pos h, Option.map_map]
  exact Option.map_id'

theorem slot_page_lt (k : Slot) : 1024 * k.2.1.val + k.2.2.val < userPages := by
  have := userPages_eq
  have h1 : k.2.1.val < 955 := k.2.1.isLt
  have h2 : k.2.2.val < 1024 := k.2.2.isLt
  omega

theorem userSlot_page (k : Slot) : userSlot k.1 (1024 * k.2.1.val + k.2.2.val) (slot_page_lt k) = k := by
  have h2 : k.2.2.val < 1024 := k.2.2.isLt
  refine Prod.ext rfl (Prod.ext (Fin.ext ?_) (Fin.ext ?_))
  · change (1024 * k.2.1.val + k.2.2.val) / 1024 = k.2.1.val
    omega
  · change (1024 * k.2.1.val + k.2.2.val) % 1024 = k.2.2.val
    omega

theorem userSlot_inj {e' : EnvIx} {pn pn' : Nat} {h : pn < userPages} {h' : pn' < userPages}
    (heq : userSlot e pn h = userSlot e' pn' h') : e = e' ∧ pn = pn' := by
  have h1 : pn / 1024 = pn' / 1024 := congrArg (fun k : Slot => k.2.1.val) heq
  have h2 : pn % 1024 = pn' % 1024 := congrArg (fun k : Slot => k.2.2.val) heq
  exact ⟨congrArg Prod.fst heq, by omega⟩

/-- The number of references of a page is the number of page table entries for it. -/
theorem pageref_mapsOf (s : Kernel) (f : Nat) : pageref (mapsOf s) f = pteCount s f := by
  refine Nat.le_antisymm ?_ ?_
  · refine refCount_comp_le (fun k : EnvIx × Fin userPages => userSlot k.1 k.2 k.2.isLt) ?_ ?_
    · intro k k' heq
      obtain ⟨h1, h2⟩ := userSlot_inj heq
      exact Prod.ext h1 (Fin.ext h2)
    · intro k hk
      rw [mapsOf_frame s k.1 k.2.isLt] at hk
      exact hk
  · refine refCount_comp_le (fun k : Slot => (k.1, (⟨1024 * k.2.1.val + k.2.2.val, slot_page_lt k⟩ :
      Fin userPages))) ?_ ?_
    · intro k k' heq
      obtain ⟨h1, h2⟩ := Prod.mk.inj heq
      rw [← userSlot_page k, ← userSlot_page k']
      simp only [h1, Fin.mk.inj h2]
    · intro k hk
      rw [mapsOf_frame s k.1 (slot_page_lt k), userSlot_page]
      exact hk

/-- `pageref` reads `pp_ref`, which counts the mappings. -/
theorem Reachable.ppRef_eq_pageref (h : Reachable R s) (hf : Mapped s f) :
    (s.ppRef f).toNat = pageref (mapsOf s) f := by
  rw [h.ppRef_of_mapped hf, pageref_mapsOf]

theorem mapsOf_congr {pn : Nat} {h : pn < userPages}
    (heq : pteOf s' (userSlot e pn h) = pteOf s (userSlot e pn h)) : mapsOf s' e pn = mapsOf s e pn := by
  rw [mapsOf, mapsOf, dif_pos h, dif_pos h, heq]

/-- Another entry at one page. -/
theorem mapsOf_set {c : EnvIx} {q : Nat} (hq : q < userPages)
    (h : ∀ k ≠ userSlot c q hq, pteOf s' k = pteOf s k) :
    mapsOf s' = (mapsOf s).set c q (mapsOf s' c q) := by
  funext e pn
  by_cases hsame : e = c ∧ pn = q
  · obtain ⟨rfl, rfl⟩ := hsame
    rw [Maps.set, Function.update_self, Function.update_self]
  · have hne : e ≠ c ∨ pn ≠ q := by
      by_cases he : e = c
      · exact Or.inr fun hpn => hsame ⟨he, hpn⟩
      · exact Or.inl he
    rw [Maps.set_of_ne hne]
    by_cases hpn : pn < userPages
    · refine mapsOf_congr (h _ fun heq => hsame ?_) (h := hpn)
      exact userSlot_inj heq
    · rw [mapsOf, mapsOf, dif_neg hpn, dif_neg hpn]

/-- `sys_page_map` puts the page of the source at the destination, shared as the rights say. -/
theorem PageShared.mapsOf_eq {src : Slot} {c : EnvIx} {q pg : Nat} {hq : q < userPages}
    {perm : BitVec 32} (h : PageShared s src (userSlot c q hq) perm pg s') :
    mapsOf s' = (mapsOf s).set c q (some ⟨pg, decide (perm &&& pteShare ≠ 0#32)⟩) := by
  have hpte : pteOf s' (userSlot c q hq) = page2pa pg ||| perm ||| pteP := by
    rw [h.pte, Function.update_self]
  have hbit : (page2pa pg ||| perm ||| pteP) &&& pteShare = perm &&& pteShare := by
    rw [BitVec.or_assoc, entry_and (by decide), BitVec.and_or_distrib_right,
      show pteP &&& pteShare = 0#32 by decide, BitVec.or_zero]
  have hnew : mapsOf s' c q = some ⟨pg, decide (perm &&& pteShare ≠ 0#32)⟩ := by
    rw [mapsOf, dif_pos hq, hpte, h.target_eq, hbit]
    rfl
  rw [← hnew]
  exact mapsOf_set hq fun k hk => by rw [h.pte, Function.update_of_ne hk]

/-- `sys_page_unmap` takes it away. -/
theorem mapsOf_unmap {c : EnvIx} {q : Nat} (hq : q < userPages)
    (hgone : entryTarget (pteOf s' (userSlot c q hq)) = none)
    (h : ∀ k ≠ userSlot c q hq, pteOf s' k = pteOf s k) : mapsOf s' = (mapsOf s).set c q none := by
  have hnew : mapsOf s' c q = none := by
    rw [mapsOf, dif_pos hq, hgone]
    rfl
  rw [← hnew]
  exact mapsOf_set hq h

/-- An environment that is destroyed has nothing mapped. -/
theorem PtesGone.mapsOf_eq (h : PtesGone s e s') :
    mapsOf s' = Function.update (mapsOf s) e fun _ => none := by
  funext c pn
  by_cases hpn : pn < userPages
  · by_cases hc : c = e
    · subst hc
      rw [Function.update_self, mapsOf, dif_pos hpn, h.gone _ rfl]
      rfl
    · rw [Function.update_of_ne hc]
      exact mapsOf_congr (h := hpn) (h.pte _ hc)
  · have hnone : mapsOf s' c pn = none := by rw [mapsOf, dif_neg hpn]
    rw [hnone]
    by_cases hc : c = e
    · subst hc
      rw [Function.update_self]
    · rw [Function.update_of_ne hc, mapsOf, dif_neg hpn]

end

end Jos.User
