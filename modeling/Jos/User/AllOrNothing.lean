import Jos.User.FileReqs
import Jos.User.Dup
import Jos.User.Spawn

/-!
# What spawn leaves behind

All of `spawn` of `lib/spawn.c`, with `open`, `init_stack`, `map_segment` and `copy_shared_pages`, on the
pages of the caller and of the child. Any call that can fail may do so, and a call that fails changes
nothing. Only the label `error` destroys the child and closes the file; the returns before it do neither,
and `map_segment` returns with a page at `UTEMP` when the file cannot be read. After that label a page
that cannot be mapped in the child is passed over.

Main results:
* `spawn_all_or_nothing_iff`: which failures `spawn` cleans up after;
* `spawn_leaks_file`: one after which the file stays open.
-/

namespace Jos.User

open Jos.Lib Jos.Kern Kernel

/-- An error that a call returns. -/
abbrev Err := { r : Int // r < 0 }

/-- The results of the calls of `map_segment` for one page; `alloc` has the frame. -/
structure PageCalls where
  alloc : Except Err Nat
  seek : Int
  readn : Int
  map : Int

/-- The results of the calls of `spawn`. -/
structure SpawnCalls where
  /-- `strlen(prog)` -/
  progLen : Nat
  /-- `fsipc(FSREQ_OPEN, fd)`, with the frame of the `struct Fd` -/
  fsipc : Except Err Nat
  /-- The program headers; there are none if the file is short or not a program. -/
  header : Option (List Proghdr)
  exofork : Except Err { child : Int // 0 < child }
  /-- The comparison of `init_stack` lets the arguments pass. -/
  args : Bool
  stackAlloc : Except Err Nat
  stackMap : Int
  /-- For the segment and the page of it. -/
  page : Nat → Nat → PageCalls
  /-- `sys_page_map` of a shared page -/
  share : Nat → Int
  setTrapframe : Int
  setStatus : Int

/-- What `spawn` leaves: the pages of the caller, those of the child if it exists, and the result. -/
structure Spawned where
  caller : AddrSpace
  child : Option AddrSpace
  r : Int

def maxPathLen : Nat := 1024
def eMaxOpen : Int := 10
def eBadPath : Int := 12

/-- `fd_alloc` -/
def fdAlloc (s : AddrSpace) : Option Nat := (List.range maxfd).find? fun i => (s.pages (fdPage i)).isNone

/-! ## The segments -/

/-- The loop of `map_segment` has so many iterations. It does not end for the sizes of the last page, but
such a segment is not below `UTOP`, and a call fails before. -/
def segCount (ph : Proghdr) : Nat := ((ph.pMemsz + BitVec.ofNat 32 (pgoff ph.pVa)).toNat + 4095) / 4096

/-- Nothing of page `j` is in the file. -/
def segBlank (ph : Proghdr) (j : Nat) : Bool :=
  decide (ph.pFilesz + BitVec.ofNat 32 (pgoff ph.pVa) ≤ BitVec.ofNat 32 (4096 * j))

def segPageNo (ph : Proghdr) (j : Nat) : Nat :=
  (ph.pVa - BitVec.ofNat 32 (pgoff ph.pVa) + BitVec.ofNat 32 (4096 * j)).toNat / 4096

section

variable (w : SpawnCalls) (ask : AddrSpace → AddrSpace)

/-- The body of the loop of `map_segment`, for the pages of the caller and of the child. -/
def loadPage (c : PageCalls) (blank : Bool) (pn : Nat) (perm : BitVec 32) (sc : AddrSpace × AddrSpace) :
    Option ((AddrSpace × AddrSpace) × Int) :=
  match c.alloc with
  | .error r => some (sc, r)
  | .ok f =>
      if blank then some ((sc.1, sc.2.set pn ⟨f, perm ||| pteP, or_pteP_present perm⟩), 0)
      else
        let s := sc.1.set utempPage ⟨f, permPUW ||| pteP, or_pteP_present permPUW⟩
        if c.seek < 0 then some ((s, sc.2), c.seek)
        else
          let s := ask s
          if c.readn < 0 then some ((s, sc.2), c.readn)
          else if c.map < 0 then none
          else some ((s.unmap utempPage, sc.2.set pn ⟨f, perm ||| pteP, or_pteP_present perm⟩), 0)

/-- `map_segment`, for the segment with the index `k` -/
def mapSegmentPages (sc : AddrSpace × AddrSpace) (phk : Proghdr × Nat) :
    Option ((AddrSpace × AddrSpace) × Int) :=
  if phk.1.pType ≠ elfProgLoad then some (sc, 0)
  else
    untilError (fun sc j => loadPage ask (w.page phk.2 j) (segBlank phk.1 j) (segPageNo phk.1 j)
      (segPerm phk.1) sc) (List.range (segCount phk.1)) sc

/-! ## The other parts -/

/-- `close(fd)`; the descriptor is a file. -/
def closeFile (s : AddrSpace) (fd : Int) : AddrSpace := s.close ask (fun _ => devFile) fd

/-- `open(prog, O_RDONLY)` -/
def openProg (s : AddrSpace) : AddrSpace × Int :=
  if maxPathLen ≤ w.progLen then (s, -eBadPath)
  else match fdAlloc s with
    | none => (s, -eMaxOpen)
    | some fd =>
        let s := ask s
        match w.fsipc with
        | .error r => (closeFile ask s fd, r)
        | .ok f => (s.set (fdPage fd) ⟨f, fdFlags, fdFlags_present⟩, fd)

/-- `init_stack`, for the pages of the caller and of the child -/
def stackPages (sc : AddrSpace × AddrSpace) : (AddrSpace × AddrSpace) × Int :=
  if w.args = false then (sc, -eNoMem)
  else match w.stackAlloc with
    | .error r => (sc, r)
    | .ok f =>
        let s := sc.1.set utempPage ⟨f, permPUW ||| pteP, or_pteP_present permPUW⟩
        if w.stackMap < 0 then ((s.unmap utempPage, sc.2), w.stackMap)
        else ((s.unmap utempPage, sc.2.set stackPage ⟨f, permPUW ||| pteP, or_pteP_present permPUW⟩), 0)

/-- The body of the loop of `copy_shared_pages`. -/
def copyShared (s c : AddrSpace) (pn : Nat) : AddrSpace :=
  match s.pages pn with
  | none => c
  | some v =>
      if v.flags &&& pteShare ≠ 0#32 ∧ v.flags &&& pteU ≠ 0#32 then
        if w.share pn < 0 then c
        else c.set pn ⟨v.frame, v.flags &&& pteSyscall ||| pteP, or_pteP_present _⟩
      else c

/-- `copy_shared_pages` -/
def copySharedPages (s c : AddrSpace) : AddrSpace := (List.range userPages).foldl (copyShared w s) c

/-- `spawn` from the segments on. -/
def spawnImage (child : { child : Int // 0 < child }) (phs : List Proghdr) (fd : Int)
    (sc : AddrSpace × AddrSpace) : Option Spawned :=
  match untilError (mapSegmentPages w ask) phs.zipIdx sc with
  | none => none
  | some (sc, r) =>
      let s := closeFile ask sc.1 fd
      -- The label `error` destroys the child as well.
      if r < 0 then some ⟨s, none, r⟩
      else
        let c := copySharedPages w s sc.2
        if w.setTrapframe < 0 ∨ w.setStatus < 0 then none
        else some ⟨s, some c, child⟩

/-- `spawn`. `ask` is what a request to the file server does to the pages of the caller. -/
def spawn (s : AddrSpace) : Option Spawned :=
  match openProg w ask s with
  | (s, fd) =>
      if fd < 0 then some ⟨s, none, fd⟩
      else
        let s := ask s
        match w.header with
        | none => some ⟨closeFile ask s fd, none, -eNotExec⟩
        | some phs =>
            match w.exofork with
            | .error r => some ⟨s, none, r⟩
            | .ok child =>
                match stackPages w (s, noPages) with
                | (sc, r) => if r < 0 then some ⟨sc.1, some sc.2, r⟩ else spawnImage w ask child phs fd sc

end

/-! ## What it should leave -/

/-- After a failure there is no child, the descriptors are as before, and no page of `spawn` stays at
`UTEMP` where there was none. After a success the child has the shared pages. -/
structure AllOrNothing (s : AddrSpace) (result : Option Spawned) : Prop where
  failed : ∀ o, result = some o → o.r < 0 → o.child = none ∧
    (∀ q, DescPage q → o.caller.mapping q = s.mapping q) ∧
    (s.mapping utempPage = none → o.caller.mapping utempPage = none)
  shared : ∀ o, result = some o → 0 < o.r → ∃ c, o.child = some c ∧ ∀ pn < userPages, ∀ x,
    o.caller.mapping pn = some x → x.2 &&& pteShare ≠ 0#32 → c.mapping pn = some x

/-- How an iteration of `map_segment` ends it: an allocation fails, the file cannot be read, or the page
cannot be mapped, which is a panic. -/
inductive PageEnd
  | alloc | read | panic
  deriving DecidableEq

def PageCalls.stop (c : PageCalls) (blank : Bool) : Option PageEnd :=
  match c.alloc with
  | .error _ => some .alloc
  | .ok _ =>
      if blank then none
      else if c.seek < 0 ∨ c.readn < 0 then some .read
      else if c.map < 0 then some .panic
      else none

def segStop (w : SpawnCalls) (phk : Proghdr × Nat) : Option PageEnd :=
  if phk.1.pType ≠ elfProgLoad then none
  else (List.range (segCount phk.1)).findSome? fun j => (w.page phk.2 j).stop (segBlank phk.1 j)

/-- How the first failure of `map_segment` ends it. -/
def firstStop (w : SpawnCalls) (phs : List Proghdr) : Option PageEnd := phs.zipIdx.findSome? (segStop w)

def OpenFails (w : SpawnCalls) (s : AddrSpace) : Prop :=
  maxPathLen ≤ w.progLen ∨ fdAlloc s = none ∨ ∃ r, w.fsipc = .error r

/-- No call fails between the check of the header and the first segment. -/
structure SetUp (w : SpawnCalls) : Prop where
  exofork : ∃ child, w.exofork = .ok child
  args : w.args = true
  alloc : ∃ f, w.stackAlloc = .ok f
  map : 0 ≤ w.stackMap

/-- The child can be made runnable. -/
def CanRun (w : SpawnCalls) : Prop := ¬ (w.setTrapframe < 0 ∨ w.setStatus < 0)

/-- The shared pages of the caller can be accessed, and they can be mapped in the child. -/
def CanShare (w : SpawnCalls) (s : AddrSpace) : Prop := ∀ pn < userPages, ¬ pn = utempPage → ∀ x,
  s.mapping pn = some x → x.2 &&& pteShare ≠ 0#32 → x.2 &&& pteU ≠ 0#32 ∧ 0 ≤ w.share pn

/-- When `spawn` is all or nothing. -/
def SpawnFine (w : SpawnCalls) (s : AddrSpace) : Prop :=
  OpenFails w s ∨ w.header = none ∨
    SetUp w ∧ ∀ phs, w.header = some phs →
      (firstStop w phs = some .read → s.mapping utempPage ≠ none) ∧
        (firstStop w phs = none → CanRun w → CanShare w s)

/-! ## The requests to the file server -/

/-- What a request leaves as it is: the descriptors, the page at `UTEMP`, and the shared pages. -/
structure Asked (s t : AddrSpace) : Prop where
  desc : ∀ q, DescPage q → t.mapping q = s.mapping q
  temp : t.mapping utempPage = s.mapping utempPage
  shared : ∀ q x, x.2 &&& pteShare ≠ 0#32 → (t.mapping q = some x ↔ s.mapping q = some x)

/-- The shared pages are the same, but for those of descriptors and at `UTEMP`. -/
def SharedAs (s t : AddrSpace) : Prop := ∀ q, ¬ DescPage q → ¬ q = utempPage → ∀ x,
  x.2 &&& pteShare ≠ 0#32 → (t.mapping q = some x ↔ s.mapping q = some x)

section

variable {w : SpawnCalls} {ask : AddrSpace → AddrSpace} {s t u c : AddrSpace} {sc : AddrSpace × AddrSpace}
  {fd : Int} {k j n pn q buf : Nat} {perm : BitVec 32} {blank : Bool} {e : PageEnd} {room : Nat → Bool}
  {frame : Option Nat} {m m' : Proc}

theorem DescPage.ne_utemp (h : DescPage q) : ¬ q = utempPage := by
  intro heq
  have h1 := h.1
  rw [heq] at h1
  exact absurd h1 (by decide)

theorem SharedAs.refl (s : AddrSpace) : SharedAs s s := fun _ _ _ _ _ => Iff.rfl

theorem SharedAs.asked (h : SharedAs s t) (ha : Asked t u) : SharedAs s u := by
  intro q hdesc htemp x hx
  rw [ha.shared q x hx]
  exact h q hdesc htemp x hx

/-- Only descriptors and the page at `UTEMP` are changed. -/
theorem SharedAs.change (h : SharedAs s t)
    (hu : ∀ q, ¬ DescPage q → ¬ q = utempPage → u.mapping q = t.mapping q) : SharedAs s u := by
  intro q hdesc htemp x hx
  rw [hu q hdesc htemp]
  exact h q hdesc htemp x hx

/-- A store to the page of `fsipcbuf` may copy it, by way of `PFTEMP`. -/
theorem store_mapping (h : m.store room frame buf = some m') (hq : ¬ q = buf) (htemp : ¬ q = pftempPage) :
    m'.space.mapping q = m.space.mapping q := by
  unfold Proc.store at h
  split at h
  · cases h
  split at h
  · cases h
    rfl
  split at h
  · rw [Option.map_eq_some_iff] at h
    obtain ⟨s', hfault, rfl⟩ := h
    obtain ⟨f, hf⟩ := pgfault_mapping hfault
    rw [hf, if_neg htemp, if_neg hq]
  · cases h

/-- The page is not a shared one. -/
def Unshared (s : AddrSpace) (pn : Nat) : Prop := ∀ x, s.mapping pn = some x → x.2 &&& pteShare = 0#32

theorem Unshared.ne_some {x : Nat × BitVec 32} (h : Unshared s pn) (hx : x.2 &&& pteShare ≠ 0#32) :
    ¬ s.mapping pn = some x := fun heq => hx (h x heq)

/-- Where the pages of `fsipcbuf` and `PFTEMP` are not shared, a store leaves both so. -/
theorem store_unshared (h : m.store room frame buf = some m') (hbuf : Unshared m.space buf)
    (htemp : Unshared m.space pftempPage) : Unshared m'.space buf ∧ Unshared m'.space pftempPage := by
  unfold Proc.store at h
  split at h
  · cases h
  split at h
  · cases h
    exact ⟨hbuf, htemp⟩
  split at h
  · rw [Option.map_eq_some_iff] at h
    obtain ⟨s', hfault, rfl⟩ := h
    obtain ⟨f, hf⟩ := pgfault_mapping hfault
    refine ⟨fun x hx => ?_, fun x hx => ?_⟩
    · rw [hf] at hx
      split at hx
      · cases hx
      · rw [if_pos rfl] at hx
        cases hx
        exact (by decide : permPUW &&& pteShare = 0#32)
    · rw [hf, if_pos rfl] at hx
      cases hx
  · cases h

theorem stores_mapping (l : List BufField) (hbuf : Unshared m.space buf) (htemp : Unshared m.space pftempPage)
    (h : l.foldlM (fun m _ => m.store room frame buf) m = some m') :
    (Unshared m'.space buf ∧ Unshared m'.space pftempPage) ∧
      ∀ q, ¬ q = buf → ¬ q = pftempPage → m'.space.mapping q = m.space.mapping q := by
  induction l generalizing m with
  | nil =>
      cases h
      exact ⟨⟨hbuf, htemp⟩, fun _ _ _ => rfl⟩
  | cons a l ih =>
      rw [List.foldlM_cons, Option.bind_eq_bind, Option.bind_eq_some_iff] at h
      obtain ⟨m1, h1, h⟩ := h
      obtain ⟨hbuf1, htemp1⟩ := store_unshared h1 hbuf htemp
      obtain ⟨hboth, hrest⟩ := ih hbuf1 htemp1 h
      refine ⟨hboth, fun q hq hqt => ?_⟩
      rw [hrest q hq hqt, store_mapping h1 hq hqt]

/-- What a request does where neither page is shared. -/
theorem request_asked {r : FileReq} (hdesc : ¬ DescPage buf) (hutemp : ¬ buf = utempPage)
    (hbuf : Unshared m.space buf) (htemp : Unshared m.space pftempPage)
    (h : m.request room frame buf r = some m') : Asked m.space m'.space := by
  obtain ⟨⟨hbuf', htemp'⟩, hrest⟩ := stores_mapping r.stores hbuf htemp h
  refine ⟨fun q hq => ?_, ?_, fun q x hx => ?_⟩
  · refine hrest q (fun heq => hdesc (heq ▸ hq)) fun heq => ?_
    subst heq
    exact absurd hq.1 (by decide)
  · exact hrest utempPage (fun heq => hutemp heq.symm) (by decide)
  · by_cases hqb : q = buf
    · rw [hqb]
      exact iff_of_false (hbuf'.ne_some hx) (hbuf.ne_some hx)
    by_cases hqt : q = pftempPage
    · rw [hqt]
      exact iff_of_false (htemp'.ne_some hx) (htemp.ne_some hx)
    rw [hrest q hqb hqt]

/-- Such pages are not shared later either. -/
theorem SharedAs.unshared (h : SharedAs s t) (hdesc : ¬ DescPage q) (htemp : ¬ q = utempPage)
    (hq : Unshared s q) : Unshared t q := by
  intro x hx
  by_contra hshare
  exact hq.ne_some hshare ((h q hdesc htemp x hshare).mp hx)

/-! ## The file is open -/

/-- The program file is open at `fd`, and the other descriptors are as before. -/
structure FileOpen (s : AddrSpace) (fd : Int) (t : AddrSpace) : Prop where
  shared : SharedAs s t
  isOpen : IsOpen t fd
  desc : ∀ q, DescPage q → ¬ q = fdPage fd → t.mapping q = s.mapping q

theorem IsOpen.descPage (h : IsOpen t fd) : DescPage (fdPage fd) := descPage_of_fd h.1 h.2.1

theorem FileOpen.asked (h : FileOpen s fd t) (ha : Asked t u) : FileOpen s fd u where
  shared := h.shared.asked ha
  isOpen := by
    refine ⟨h.isOpen.1, h.isOpen.2.1, ?_⟩
    rw [ha.desc _ h.isOpen.descPage]
    exact h.isOpen.2.2
  desc q hq hne := by rw [ha.desc q hq, h.desc q hq hne]

/-- Only the page at `UTEMP` is changed. -/
theorem FileOpen.temp (h : FileOpen s fd t) (hu : ∀ q, ¬ q = utempPage → u.mapping q = t.mapping q) :
    FileOpen s fd u where
  shared := h.shared.change fun q _ hq => hu q hq
  isOpen := by
    refine ⟨h.isOpen.1, h.isOpen.2.1, ?_⟩
    rw [hu _ h.isOpen.descPage.ne_utemp]
    exact h.isOpen.2.2
  desc q hq hne := by rw [hu q hq.ne_utemp, h.desc q hq hne]

theorem mapping_closeFile (h : IsOpen t fd) (q : Nat) : (closeFile ask t fd).mapping q =
    if q = fdPage fd then none else (ask t).mapping q := by
  obtain ⟨v, hv⟩ := lookup_isSome.mpr h
  unfold closeFile AddrSpace.close
  rw [hv]
  simp only [devClose, if_true]
  rw [mapping_unmap]
  by_cases hq : q = fdPage fd
  · rw [if_pos ⟨hq, h.descPage.lt⟩, if_pos hq]
  · rw [if_neg fun h => hq h.1, if_neg hq]

theorem closeFile_closed (h : t.mapping (fdPage fd) = none) : closeFile ask t fd = t := by
  have hclosed : ¬ ∃ v, t.lookup fd = some v := fun hv => (lookup_isSome.mp hv).2.2 h
  unfold closeFile AddrSpace.close
  cases hv : t.lookup fd with
  | none => rfl
  | some v => exact absurd ⟨v, hv⟩ hclosed

/-- The descriptors are as before once the file is closed. -/
structure FileClosed (s t u : AddrSpace) : Prop where
  shared : SharedAs s u
  desc : ∀ q, DescPage q → u.mapping q = s.mapping q
  temp : u.mapping utempPage = t.mapping utempPage

theorem FileOpen.close (hask : ∀ t, SharedAs s t → Asked t (ask t)) (hfree : s.mapping (fdPage fd) = none)
    (h : FileOpen s fd t) : FileClosed s t (closeFile ask t fd) := by
  have ha := hask t h.shared
  have hmap := @mapping_closeFile ask t fd h.isOpen
  refine ⟨?_, fun q hq => ?_, ?_⟩
  · refine (h.shared.asked ha).change fun q hq _ => ?_
    rw [hmap, if_neg]
    intro heq
    rw [heq] at hq
    exact hq h.isOpen.descPage
  · rw [hmap]
    split
    · rename_i heq
      rw [heq, hfree]
    · rename_i hne
      rw [ha.desc q hq, h.desc q hq hne]
  · rw [hmap, if_neg fun heq => h.isOpen.descPage.ne_utemp heq.symm, ha.temp]

theorem fdAlloc_some {i : Nat} (h : fdAlloc s = some i) : i < maxfd ∧ s.mapping (fdPage i) = none := by
  have hmem := List.mem_of_find?_eq_some h
  have hnone := List.find?_some h
  rw [Option.isNone_iff_eq_none] at hnone
  exact ⟨List.mem_range.mp hmem, mapping_eq_none.mpr hnone⟩

theorem Asked.refl (s : AddrSpace) : Asked s s where
  desc _ _ := rfl
  temp := rfl
  shared _ _ _ := Iff.rfl

theorem openProg_fails (hask : ∀ t, SharedAs s t → Asked t (ask t)) (h : OpenFails w s) :
    ∃ t r, openProg w ask s = (t, r) ∧ r < 0 ∧ Asked s t := by
  unfold openProg
  split
  · exact ⟨s, _, rfl, by decide, Asked.refl s⟩
  rename_i hlen
  cases hfd : fdAlloc s with
  | none => exact ⟨s, _, rfl, by decide, Asked.refl s⟩
  | some i =>
      obtain ⟨r, hr⟩ := (h.resolve_left hlen).resolve_left fun hnone => by rw [hfd] at hnone; cases hnone
      obtain ⟨hlt, hfree⟩ := fdAlloc_some hfd
      have ha := hask s (SharedAs.refl s)
      rw [hr]
      refine ⟨ask s, r, ?_, r.2, ha⟩
      simp only
      rw [closeFile_closed]
      rw [ha.desc _ (descPage_of_fd (Int.natCast_nonneg i) (Int.ofNat_lt.mpr hlt)), hfree]

theorem openProg_opens (hask : ∀ t, SharedAs s t → Asked t (ask t)) (h : ¬ OpenFails w s) :
    ∃ t fd, openProg w ask s = (t, fd) ∧ s.mapping (fdPage fd) = none ∧ FileOpen s fd t ∧
      t.mapping utempPage = s.mapping utempPage := by
  unfold OpenFails at h
  rw [not_or, not_or] at h
  obtain ⟨hlen, hfd, hfsipc⟩ := h
  obtain ⟨i, hi⟩ := Option.ne_none_iff_exists'.mp hfd
  obtain ⟨hlt, hfree⟩ := fdAlloc_some hi
  have h0 : (0 : Int) ≤ i := Int.natCast_nonneg i
  have h1 : (i : Int) < maxfd := Int.ofNat_lt.mpr hlt
  have hdesc := descPage_of_fd h0 h1
  have ha := hask s (SharedAs.refl s)
  unfold openProg
  rw [if_neg hlen, hi]
  cases hf : w.fsipc with
  | error r => exact absurd ⟨r, hf⟩ hfsipc
  | ok f =>
      refine ⟨_, i, rfl, hfree, ⟨?_, ⟨h0, h1, ?_⟩, fun q hq hne => ?_⟩, ?_⟩
      · refine ((SharedAs.refl s).asked ha).change fun q hq _ => ?_
        rw [mapping_set, if_neg]
        intro heq
        rw [heq] at hq
        exact hq hdesc
      · rw [mapping_set, if_pos rfl]
        exact Option.some_ne_none _
      · rw [mapping_set, if_neg hne, ha.desc q hq]
      · rw [mapping_set, if_neg fun heq => hdesc.ne_utemp heq.symm, ha.temp]

/-! ## Pages of the child -/

/-- No page has `PTE_SHARE`. -/
def NoShare (c : AddrSpace) : Prop := ∀ q, Unshared c q

theorem NoShare.set {v : Pte} (h : NoShare c) (hv : v.flags &&& pteShare = 0#32) : NoShare (c.set pn v) := by
  intro q x hx
  rw [mapping_set] at hx
  split at hx
  · cases hx
    simp only
    rw [BitVec.and_assoc, show pteSyscall &&& pteShare = pteShare by decide, hv]
  · exact h q x hx

theorem segPerm_share (ph : Proghdr) : (segPerm ph ||| pteP) &&& pteShare = 0#32 := by
  unfold segPerm
  split
  · decide
  · decide

theorem utemp_lt : utempPage < userPages := by
  decide

theorem mapping_unmap_temp (s : AddrSpace) (q : Nat) :
    (s.unmap utempPage).mapping q = if q = utempPage then none else s.mapping q := by
  rw [mapping_unmap]
  by_cases hq : q = utempPage
  · rw [if_pos ⟨hq, utemp_lt⟩, if_pos hq]
  · rw [if_neg fun h => hq h.1, if_neg hq]

theorem FileOpen.set_temp (v : Pte) (h : FileOpen s fd t) : FileOpen s fd (t.set utempPage v) := by
  refine h.temp fun q hq => ?_
  rw [mapping_set, if_neg hq]

theorem FileOpen.unmap_temp (h : FileOpen s fd t) : FileOpen s fd (t.unmap utempPage) := by
  refine h.temp fun q hq => ?_
  rw [mapping_unmap_temp, if_neg hq]

/-! ## The segments, one page after the other -/

/-- The file is open, nothing is at `UTEMP`, and the child has no shared page. -/
structure Loading (s : AddrSpace) (fd : Int) (sc : AddrSpace × AddrSpace) : Prop where
  caller : FileOpen s fd sc.1
  temp : sc.1.mapping utempPage = none
  child : NoShare sc.2

/-- What is left when `map_segment` ends early. -/
def Stopped (s : AddrSpace) (fd : Int) (e : PageEnd) (x : Option ((AddrSpace × AddrSpace) × Int)) : Prop :=
  match e with
  | .alloc => ∃ sc r, x = some (sc, r) ∧ r < 0 ∧ FileOpen s fd sc.1 ∧ sc.1.mapping utempPage = none
  | .read => ∃ sc r, x = some (sc, r) ∧ r < 0 ∧ FileOpen s fd sc.1 ∧ sc.1.mapping utempPage ≠ none
  | .panic => x = none

theorem Stopped.ends {x : Option ((AddrSpace × AddrSpace) × Int)} (h : Stopped s fd e x) :
    x = none ∨ ∃ sc r, x = some (sc, r) ∧ r < 0 := by
  cases e with
  | alloc =>
      obtain ⟨sc, r, hx, hr, -⟩ := h
      exact Or.inr ⟨sc, r, hx, hr⟩
  | read =>
      obtain ⟨sc, r, hx, hr, -⟩ := h
      exact Or.inr ⟨sc, r, hx, hr⟩
  | panic => exact Or.inl h

theorem loadPage_goes {a : PageCalls} (hask : ∀ t, SharedAs s t → Asked t (ask t))
    (hperm : (perm ||| pteP) &&& pteShare = 0#32) (hs : a.stop blank = none) (h : Loading s fd sc) :
    ∃ sc' r, loadPage ask a blank pn perm sc = some (sc', r) ∧ 0 ≤ r ∧ Loading s fd sc' := by
  unfold PageCalls.stop at hs
  unfold loadPage
  cases ha : a.alloc with
  | error r =>
      rw [ha] at hs
      cases hs
  | ok f =>
      rw [ha] at hs
      simp only at hs ⊢
      split
      · exact ⟨_, 0, rfl, Int.le_refl 0, h.caller, h.temp, h.child.set hperm⟩
      rename_i hblank
      rw [if_neg hblank] at hs
      split at hs
      · cases hs
      rename_i hread
      split at hs
      · cases hs
      rename_i hmap
      rw [not_or] at hread
      rw [if_neg hread.1, if_neg hread.2, if_neg hmap]
      have hset := h.caller.set_temp ⟨f, permPUW ||| pteP, or_pteP_present permPUW⟩
      refine ⟨_, 0, rfl, Int.le_refl 0, (hset.asked (hask _ hset.shared)).unmap_temp, ?_, h.child.set hperm⟩
      rw [mapping_unmap_temp, if_pos rfl]

theorem loadPage_stops {a : PageCalls} (hask : ∀ t, SharedAs s t → Asked t (ask t))
    (hs : a.stop blank = some e) (h : Loading s fd sc) : Stopped s fd e (loadPage ask a blank pn perm sc) := by
  unfold PageCalls.stop at hs
  unfold loadPage
  cases ha : a.alloc with
  | error r =>
      rw [ha] at hs
      cases hs
      exact ⟨sc, r, rfl, r.2, h.caller, h.temp⟩
  | ok f =>
      rw [ha] at hs
      simp only at hs ⊢
      split at hs
      · cases hs
      rename_i hblank
      rw [if_neg hblank]
      have hset := h.caller.set_temp ⟨f, permPUW ||| pteP, or_pteP_present permPUW⟩
      have htemp : (sc.1.set utempPage ⟨f, permPUW ||| pteP, or_pteP_present permPUW⟩).mapping utempPage ≠
          none := by
        rw [mapping_set, if_pos rfl]
        exact Option.some_ne_none _
      have hasked := hask _ hset.shared
      split at hs
      · rename_i hread
        cases hs
        by_cases hseek : a.seek < 0
        · rw [if_pos hseek]
          exact ⟨_, _, rfl, hseek, hset, htemp⟩
        · rw [if_neg hseek, if_pos (hread.resolve_left hseek)]
          refine ⟨_, _, rfl, hread.resolve_left hseek, hset.asked hasked, ?_⟩
          rw [hasked.temp]
          exact htemp
      rename_i hread
      rw [not_or] at hread
      rw [if_neg hread.1, if_neg hread.2]
      split at hs
      · rename_i hmap
        cases hs
        rw [if_pos hmap]
        rfl
      · cases hs

/-- `map_segment` -/
theorem mapSegmentPages_cases (hask : ∀ t, SharedAs s t → Asked t (ask t)) (phk : Proghdr × Nat)
    (h : Loading s fd sc) :
    (segStop w phk = none → ∃ sc', mapSegmentPages w ask sc phk = some (sc', 0) ∧ Loading s fd sc') ∧
      ∀ e, segStop w phk = some e → Stopped s fd e (mapSegmentPages w ask sc phk) := by
  unfold segStop mapSegmentPages
  split
  · exact ⟨fun _ => ⟨sc, rfl, h⟩, fun e he => nomatch he⟩
  · exact untilError_findSome (Loading s fd) (Stopped s fd) h
      (fun j sc hgo h => loadPage_goes hask (segPerm_share phk.1) hgo h)
      (fun j sc e hs h => loadPage_stops hask hs h) fun e x hx => hx.ends

theorem mapSegments_cases (hask : ∀ t, SharedAs s t → Asked t (ask t)) (phs : List Proghdr)
    (h : Loading s fd sc) :
    (firstStop w phs = none →
      ∃ sc', untilError (mapSegmentPages w ask) phs.zipIdx sc = some (sc', 0) ∧ Loading s fd sc') ∧
      ∀ e, firstStop w phs = some e →
        Stopped s fd e (untilError (mapSegmentPages w ask) phs.zipIdx sc) := by
  refine untilError_findSome (Loading s fd) (Stopped s fd) h (fun phk sc hgo h => ?_)
    (fun phk sc e hs h => (mapSegmentPages_cases hask phk h).2 e hs) fun e x hx => hx.ends
  obtain ⟨sc', hrun, h'⟩ := (mapSegmentPages_cases hask phk h).1 hgo
  exact ⟨sc', 0, hrun, Int.le_refl 0, h'⟩

/-! ## The stack page -/

theorem noShare_noPages : NoShare noPages := fun _ _ hx => nomatch hx

theorem stackPages_ok (h : SetUp w) (hopen : FileOpen s fd t) :
    ∃ sc, stackPages w (t, noPages) = (sc, 0) ∧ Loading s fd sc := by
  obtain ⟨f, hf⟩ := h.alloc
  unfold stackPages
  rw [h.args, if_neg (by decide), hf]
  simp only
  rw [if_neg (Int.not_lt.mpr h.map)]
  have hperm : (permPUW ||| pteP) &&& pteShare = 0#32 := by decide
  refine ⟨_, rfl, (hopen.set_temp _).unmap_temp, ?_, noShare_noPages.set hperm⟩
  rw [mapping_unmap_temp, if_pos rfl]

theorem stackPages_fails (sc : AddrSpace × AddrSpace) (hexo : ∃ child, w.exofork = .ok child)
    (h : ¬ SetUp w) : (stackPages w sc).2 < 0 := by
  unfold stackPages
  split
  · exact (by decide : -eNoMem < 0)
  rename_i hargs
  split
  · rename_i r hr
    exact r.2
  rename_i f hf
  split
  · assumption
  rename_i hmap
  rw [Bool.not_eq_false] at hargs
  exact absurd ⟨hexo, hargs, ⟨f, hf⟩, Int.not_lt.mp hmap⟩ h

/-! ## The shared pages -/

/-- The page is shared, and it is mapped in the child. -/
def Copies (w : SpawnCalls) (s : AddrSpace) (pn : Nat) : Prop := ∃ x, s.mapping pn = some x ∧
  x.2 &&& pteShare ≠ 0#32 ∧ x.2 &&& pteU ≠ 0#32 ∧ 0 ≤ w.share pn

theorem copyShared_skips (h : ¬ Copies w s pn) : copyShared w s c pn = c := by
  unfold copyShared
  split
  · rfl
  rename_i v hv
  split
  · rename_i hflags
    split
    · rfl
    rename_i hshare
    refine absurd ⟨(v.frame, v.flags &&& pteSyscall), mapping_eq_some.mpr ⟨v, hv, rfl, rfl⟩, ?_, ?_,
      Int.not_lt.mp hshare⟩ h
    · rw [and_of_syscall rfl (by decide : pteSyscall &&& pteShare = pteShare)] at hflags
      exact hflags.1
    · rw [and_of_syscall rfl (by decide : pteSyscall &&& pteU = pteU)] at hflags
      exact hflags.2
  · rfl

theorem copyShared_copies (h : Copies w s pn) (q : Nat) :
    (copyShared w s c pn).mapping q = if q = pn then s.mapping pn else c.mapping q := by
  obtain ⟨⟨f, perm⟩, hx, hshare, hu, hmap⟩ := h
  obtain ⟨v, hv, rfl, rfl⟩ := mapping_eq_some.mp hx
  rw [hx]
  rw [← and_of_syscall rfl (by decide : pteSyscall &&& pteShare = pteShare)] at hshare
  rw [← and_of_syscall rfl (by decide : pteSyscall &&& pteU = pteU)] at hu
  unfold copyShared
  rw [hv]
  simp only
  rw [if_pos ⟨hshare, hu⟩, if_neg (Int.not_lt.mpr hmap), mapping_set]
  simp only [and_syscall_or_present v.present]

/-- The pages before `n` that can be copied are in the child as they are in the caller. -/
theorem mapping_copyShared (n q : Nat) :
    (q < n → Copies w s q → ((List.range n).foldl (copyShared w s) c).mapping q = s.mapping q) ∧
      (¬ (q < n ∧ Copies w s q) → ((List.range n).foldl (copyShared w s) c).mapping q = c.mapping q) := by
  induction n with
  | zero => exact ⟨fun h => absurd h (Nat.not_lt_zero q), fun _ => rfl⟩
  | succ n ih =>
      rw [List.range_succ, List.foldl_append, List.foldl_cons, List.foldl_nil]
      generalize (List.range n).foldl (copyShared w s) c = c1 at ih ⊢
      by_cases hn : Copies w s n
      · rw [copyShared_copies hn]
        by_cases hq : q = n
        · rw [if_pos hq, hq]
          exact ⟨fun _ _ => rfl, fun h => absurd ⟨Nat.lt_succ_self n, hn⟩ h⟩
        · rw [if_neg hq]
          exact ⟨fun hlt => ih.1 (by omega), fun h => ih.2 fun h' => h ⟨by omega, h'.2⟩⟩
      · rw [copyShared_skips hn]
        refine ⟨fun hlt hc => ?_, fun h => ih.2 fun h' => h ⟨by omega, h'.2⟩⟩
        have hne : ¬ q = n := fun heq => hn (heq ▸ hc)
        exact ih.1 (by omega) hc

/-- The child has the shared pages if and only if each of them is copied. -/
theorem copySharedPages_iff (h : NoShare c) : (∀ pn < userPages, ∀ x, s.mapping pn = some x →
    x.2 &&& pteShare ≠ 0#32 → (copySharedPages w s c).mapping pn = some x) ↔
    ∀ pn < userPages, ∀ x, s.mapping pn = some x → x.2 &&& pteShare ≠ 0#32 →
      x.2 &&& pteU ≠ 0#32 ∧ 0 ≤ w.share pn := by
  unfold copySharedPages
  refine forall_congr' fun pn => forall_congr' fun hlt => forall_congr' fun x => forall_congr' fun hx =>
    forall_congr' fun hshare => ?_
  obtain ⟨hcopied, hkept⟩ := @mapping_copyShared w s c userPages pn
  constructor
  · intro hall
    by_contra hno
    rw [hkept] at hall
    · exact (h pn).ne_some hshare hall
    rintro ⟨-, y, hy, -, hu, hmap⟩
    rw [hx] at hy
    cases hy
    exact hno ⟨hu, hmap⟩
  · rintro ⟨hu, hmap⟩
    rw [hcopied hlt ⟨x, hx, hshare, hu, hmap⟩, hx]

/-! ## All or nothing -/

theorem allOrNothing_none : AllOrNothing s none where
  failed _ h := nomatch h
  shared _ h := nomatch h

theorem allOrNothing_failed {o : Spawned} (h : o.r < 0) : AllOrNothing s (some o) ↔ o.child = none ∧
    (∀ q, DescPage q → o.caller.mapping q = s.mapping q) ∧
    (s.mapping utempPage = none → o.caller.mapping utempPage = none) := by
  constructor
  · exact fun hall => hall.failed o rfl h
  · refine fun hfailed => ⟨fun o' ho _ => ?_, fun o' ho h' => ?_⟩
    · cases ho
      exact hfailed
    · cases ho
      omega

theorem allOrNothing_child {o : Spawned} (h : o.r < 0) {c : AddrSpace} (hc : o.child = some c) :
    ¬ AllOrNothing s (some o) := by
  rw [allOrNothing_failed h, hc]
  exact fun hall => nomatch hall.1

theorem allOrNothing_open {o : Spawned} (h : o.r < 0) (hopen : FileOpen s fd o.caller)
    (hfree : s.mapping (fdPage fd) = none) : ¬ AllOrNothing s (some o) := by
  rw [allOrNothing_failed h]
  rintro ⟨-, hdesc, -⟩
  have hfd := hdesc _ hopen.isOpen.descPage
  rw [hfree] at hfd
  exact hopen.isOpen.2.2 hfd

theorem allOrNothing_closed {o : Spawned} (h : o.r < 0) (hc : o.child = none)
    (hclosed : FileClosed s t o.caller) : AllOrNothing s (some o) ↔ (s.mapping utempPage = none → t.mapping utempPage = none) := by
  rw [allOrNothing_failed h, hclosed.temp]
  exact ⟨fun hall => hall.2.2, fun htemp => ⟨hc, hclosed.desc, htemp⟩⟩

theorem allOrNothing_done {caller child : AddrSpace} {r : Int} (h : 0 < r) :
    AllOrNothing s (some ⟨caller, some child, r⟩) ↔ ∀ pn < userPages, ∀ x,
      caller.mapping pn = some x → x.2 &&& pteShare ≠ 0#32 → child.mapping pn = some x := by
  constructor
  · intro hall
    obtain ⟨c, hc, hshared⟩ := hall.shared _ rfl h
    cases hc
    exact hshared
  · refine fun hshared => ⟨fun o ho hr => ?_, fun o ho _ => ?_⟩
    · cases ho
      simp only at hr
      omega
    · cases ho
      exact ⟨child, rfl, hshared⟩

/-- The shared pages once the file is closed are those from before. -/
theorem FileClosed.canShare (h : FileClosed s t u) (htemp : t.mapping utempPage = none) :
    (∀ pn < userPages, ∀ x, u.mapping pn = some x → x.2 &&& pteShare ≠ 0#32 →
      x.2 &&& pteU ≠ 0#32 ∧ 0 ≤ w.share pn) ↔ CanShare w s := by
  have hsame : ∀ q, ¬ q = utempPage → ∀ x, x.2 &&& pteShare ≠ 0#32 →
      (u.mapping q = some x ↔ s.mapping q = some x) := by
    intro q hq x hx
    by_cases hdesc : DescPage q
    · rw [h.desc q hdesc]
    · exact h.shared q hdesc hq x hx
  constructor
  · exact fun hall pn hlt hne x hx hshare => hall pn hlt x ((hsame pn hne x hshare).mpr hx) hshare
  · intro hcan pn hlt x hx hshare
    have hne : ¬ pn = utempPage := by
      intro heq
      rw [heq, h.temp, htemp] at hx
      cases hx
    exact hcan pn hlt hne x ((hsame pn hne x hshare).mp hx) hshare

/-- From the segments on. -/
theorem spawnImage_iff (hask : ∀ t, SharedAs s t → Asked t (ask t)) (hfree : s.mapping (fdPage fd) = none)
    (h : Loading s fd sc) (child : { child : Int // 0 < child }) (phs : List Proghdr) :
    AllOrNothing s (spawnImage w ask child phs fd sc) ↔
      (firstStop w phs = some .read → s.mapping utempPage ≠ none) ∧
        (firstStop w phs = none → CanRun w → CanShare w s) := by
  obtain ⟨hgo, hstop⟩ := mapSegments_cases hask phs h (w := w)
  unfold spawnImage
  cases hf : firstStop w phs with
  | none =>
      obtain ⟨sc', hrun, h'⟩ := hgo hf
      rw [hrun]
      dsimp only
      rw [if_neg (by decide)]
      by_cases hcan : w.setTrapframe < 0 ∨ w.setStatus < 0
      · rw [if_pos hcan]
        exact iff_of_true allOrNothing_none ⟨fun hr => (nomatch hr), fun _ hrun => absurd hcan hrun⟩
      · rw [if_neg hcan, allOrNothing_done child.2, copySharedPages_iff h'.child,
          (h'.caller.close hask hfree).canShare h'.temp]
        exact ⟨fun hshare => ⟨fun hr => (nomatch hr), fun _ _ => hshare⟩, fun hall => hall.2 rfl hcan⟩
  | some e =>
      have hs := hstop e hf
      cases e with
      | alloc =>
          obtain ⟨sc', r, hrun, hr, hopen, htemp⟩ := hs
          rw [hrun]
          dsimp only
          rw [if_pos hr, allOrNothing_closed hr rfl (hopen.close hask hfree)]
          exact iff_of_true (fun _ => htemp) ⟨fun hr => (nomatch hr), fun hn => nomatch hn⟩
      | read =>
          obtain ⟨sc', r, hrun, hr, hopen, htemp⟩ := hs
          rw [hrun]
          dsimp only
          rw [if_pos hr, allOrNothing_closed hr rfl (hopen.close hask hfree)]
          exact ⟨fun hall => ⟨fun _ hnone => htemp (hall hnone), fun h => nomatch h⟩,
            fun hall hnone => absurd hnone (hall.1 rfl)⟩
      | panic =>
          rw [show untilError (mapSegmentPages w ask) phs.zipIdx sc = none from hs]
          exact iff_of_true allOrNothing_none ⟨fun hr => (nomatch hr), fun hn => nomatch hn⟩

/-- The pages after a request, where it does not panic. -/
def requestPages (room : Nat → Bool) (frame : Option Nat) (handler : Bool) (buf : Nat) (r : FileReq)
    (s : AddrSpace) : AddrSpace :=
  match (Proc.mk s handler).request room frame buf r with
  | none => s
  | some m => m.space

/-- What `spawn` relies on holds of the requests, where `fsipcbuf` and `PFTEMP` are not shared. -/
theorem requestPages_asked {handler : Bool} {r : FileReq} (hdesc : ¬ DescPage buf)
    (hutemp : ¬ buf = utempPage) (hbuf : Unshared s buf) (htemp : Unshared s pftempPage) (t : AddrSpace) (h : SharedAs s t) :
    Asked t (requestPages room frame handler buf r t) := by
  unfold requestPages
  split
  · exact Asked.refl t
  · rename_i m hrun
    refine request_asked hdesc hutemp (h.unshared hdesc hutemp hbuf) (h.unshared ?_ (by decide) htemp) hrun
    exact fun hq => absurd hq.1 (by decide)

/-- `spawn` is all or nothing if and only if it fails before `sys_exofork`; or the child and its stack
can be made, and then `map_segment` does not fail to read the file, and if it does not fail at all, all
the shared pages can be mapped in the child. -/
theorem spawn_all_or_nothing_iff (hask : ∀ t, SharedAs s t → Asked t (ask t)) :
    AllOrNothing s (spawn w ask s) ↔ SpawnFine w s := by
  unfold spawn SpawnFine
  by_cases hfails : OpenFails w s
  · obtain ⟨t, r, hrun, hr, ha⟩ := openProg_fails hask hfails
    rw [hrun]
    dsimp only
    rw [if_pos hr, allOrNothing_failed hr]
    refine iff_of_true ⟨rfl, ha.desc, fun hnone => ?_⟩ (Or.inl hfails)
    rw [ha.temp, hnone]
  · obtain ⟨t, fd, hrun, hfree, hopen, htemp⟩ := openProg_opens hask hfails
    have ha := hask t hopen.shared
    have hasked := hopen.asked ha
    rw [hrun]
    dsimp only
    rw [if_neg (Int.not_lt.mpr hopen.isOpen.1)]
    cases hheader : w.header with
    | none =>
        dsimp only
        rw [allOrNothing_closed (by decide : -eNotExec < 0) rfl (hasked.close hask hfree), ha.temp, htemp]
        exact iff_of_true (fun h => h) (Or.inr (Or.inl rfl))
    | some phs =>
        have hright : (OpenFails w s ∨ some phs = none ∨ SetUp w ∧ ∀ phs', some phs = some phs' →
            (firstStop w phs' = some .read → s.mapping utempPage ≠ none) ∧
              (firstStop w phs' = none → CanRun w → CanShare w s)) ↔
            SetUp w ∧ (firstStop w phs = some .read → s.mapping utempPage ≠ none) ∧
              (firstStop w phs = none → CanRun w → CanShare w s) := by
          simp only [hfails, Option.some.injEq, reduceCtorEq, false_or, forall_eq']
        rw [hright]
        dsimp only
        cases hexo : w.exofork with
        | error r =>
            -- The file stays open.
            refine iff_of_false (allOrNothing_open r.2 hasked hfree) fun hset => ?_
            obtain ⟨child, hchild⟩ := hset.1.exofork
            rw [hexo] at hchild
            cases hchild
        | ok child =>
            by_cases hset : SetUp w
            · obtain ⟨sc, hstack, hload⟩ := stackPages_ok hset hasked
              rw [hstack]
              dsimp only
              rw [if_neg (by decide), spawnImage_iff hask hfree hload]
              exact ⟨fun h => ⟨hset, h⟩, fun h => h.2⟩
            · have hneg := stackPages_fails (ask t, noPages) ⟨child, hexo⟩ hset
              dsimp only
              rw [if_pos hneg]
              exact iff_of_false (allOrNothing_child hneg rfl) fun h => hset h.1

end

/-! ## A program of two pages -/

/-- A segment of two pages; the second one is blank. -/
def dataHdr : Proghdr := ⟨elfProgLoad, 0x1000#32, 0x802000#32, 0x800#32, 0x1800#32, elfProgFlagWrite⟩

theorem childId_pos : (0 : Int) < 0x1001 := by
  decide

theorem eNoFreeEnv_neg : (-5 : Int) < 0 := by
  decide

/-- No call fails. -/
def allCalls : SpawnCalls where
  progLen := 6
  fsipc := .ok 500
  header := some [dataHdr]
  exofork := .ok ⟨0x1001, childId_pos⟩
  args := true
  stackAlloc := .ok 501
  stackMap := 0
  page := fun _ j => ⟨.ok (502 + j), 0, 0x800, 0⟩
  share := fun _ => 0
  setTrapframe := 0
  setStatus := 0

/-- `sys_exofork` finds no free environment. -/
def noEnvCalls : SpawnCalls := { allCalls with exofork := .error ⟨-5, eNoFreeEnv_neg⟩ }

/-- Descriptor 0 is the console, and `fsipcbuf` is copy-on-write. -/
def shellSpace : AddrSpace := consAt0.set 0x806 ⟨301, permCow ||| pteP, or_pteP_present permCow⟩

theorem shellSpace_mapping {pn : Nat} {x : Nat × BitVec 32} (h : shellSpace.mapping pn = some x) :
    pn = 0x806 ∧ x = (301, permCow) ∨ pn = 0xD0000 ∧ x = (300, fdFlags) := by
  unfold shellSpace at h
  rw [mapping_set] at h
  by_cases hbuf : pn = 0x806
  · rw [if_pos hbuf, Option.some.injEq] at h
    exact Or.inl ⟨hbuf, by rw [← h]; decide⟩
  rw [if_neg hbuf] at h
  unfold AddrSpace.mapping consAt0 at h
  by_cases hpn : pn = 0xD0000
  · simp only [if_pos hpn, Option.map_some, Option.some.injEq] at h
    exact Or.inr ⟨hpn, by rw [← h]; decide⟩
  · simp only [if_neg hpn] at h
    cases h

theorem shellSpace_unshared {pn : Nat} (h : ¬ pn = 0xD0000) : Unshared shellSpace pn := by
  intro x hx
  obtain ⟨-, rfl⟩ := (shellSpace_mapping hx).resolve_right fun hd => h hd.1
  exact (by decide : permCow &&& pteShare = 0#32)

/-- The requests of the caller copy the page of `fsipcbuf`. -/
def shellAsks : AddrSpace → AddrSpace := requestPages (fun _ => true) (some 600) true 0x806 .read

/-- The console of the caller is shared with the child. -/
theorem spawn_all_or_nothing_iff_data : AllOrNothing shellSpace (spawn allCalls shellAsks shellSpace) := by
  refine (spawn_all_or_nothing_iff (requestPages_asked (fun h => absurd h.1 (by decide)) (by decide)
    (shellSpace_unshared (by decide)) (shellSpace_unshared (by decide)))).mpr ?_
  refine Or.inr (Or.inr ⟨⟨⟨_, rfl⟩, rfl, ⟨_, rfl⟩, by decide⟩, fun phs hphs => ?_⟩)
  cases hphs
  have hstop : firstStop allCalls [dataHdr] = none := by decide +kernel
  rw [hstop]
  refine ⟨fun h => (nomatch h), fun _ _ pn _ _ x hx hshare => ⟨?_, Int.le_refl 0⟩⟩
  rcases shellSpace_mapping hx with ⟨-, rfl⟩ | ⟨-, rfl⟩
  · exact absurd (by decide) hshare
  · exact (by decide : fdFlags &&& pteU ≠ 0#32)

/-- When there is no environment for the child, the file stays open at descriptor 1. -/
theorem spawn_leaks_file : ¬ AllOrNothing shellSpace (spawn noEnvCalls shellAsks shellSpace) := by
  intro h
  obtain ⟨o, ho, hr, hfd⟩ : ∃ o, spawn noEnvCalls shellAsks shellSpace = some o ∧ o.r = -5 ∧
      o.caller.mapping (fdPage 1) = some (500, fdFlags) :=
    ⟨_, rfl, rfl, by decide +kernel⟩
  have hdesc := (h.failed o ho (by rw [hr]; decide)).2.1 (fdPage 1) (descPage_of_fd (by decide) (by decide))
  rw [hfd] at hdesc
  rcases shellSpace_mapping hdesc.symm with ⟨hpn, -⟩ | ⟨hpn, -⟩
  · exact absurd hpn (by decide)
  · exact absurd hpn (by decide)

end Jos.User
