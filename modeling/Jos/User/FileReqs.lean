import Jos.User.AddrSpace
import Jos.User.ForkSpec

/-!
# File requests in a tree of forked environments

`fsipc` of `lib/file.c` sends the page of `fsipcbuf` to the file server with `PTE_W`, and the kernel
refuses to send a page with `PTE_W` that the sender cannot write. After a `fork` the page is
copy-on-write in the parent and in the child. Every request but `sync` writes to the page before it is
sent, and so gets a page of its own; `sync` sends it as it is.

Main results:
* `TreeBuffered.run`: who has a writable `fsipcbuf`, over a run of the tree;
* `request_arrives_iff`: which requests arrive;
* `sync_after_fork_panics`: the one that does not.
-/

namespace Jos.User

open Jos.Lib Jos.Kern Kernel

/-- The page of `PFTEMP`. -/
def pftempPage : Nat := 0x7FF

/-- The page of the exception stack. -/
def uxstackPage : Nat := 0xEEBFF

/-- An environment: its pages, and whether it has a handler of page faults, which is `pgfault` after
a `fork`. -/
structure Proc where
  space : AddrSpace
  handler : Bool

/-! ## Faults and forks -/

section

variable (room : Nat → Bool)

/-- `pgfault`, for a write to the page `pn`; `frame` is what `page_alloc` returns. -/
def pgfault (frame : Option Nat) (s : AddrSpace) (pn : Nat) : Option AddrSpace :=
  match s.pages pn with
  | none => none
  | some v =>
      if v.flags &&& pteCow = 0#32 then none
      else match s.alloc room frame pftempPage permPUW with
        | (s, r) =>
            if r < 0 then none
            else match s.map room pftempPage pn permPUW with
              | (s, r) => if r < 0 then none else some (s.unmap pftempPage)

/-- A store to the page `pn`. -/
def Proc.store (frame : Option Nat) (m : Proc) (pn : Nat) : Option Proc :=
  match m.space.pages pn with
  | none => none
  | some v =>
      if v.flags &&& userWrite = userWrite then some m
      else if m.handler then (pgfault room frame m.space pn).map fun s => { m with space := s }
      else none

/-- `set_pgfault_handler` -/
def Proc.setPgfaultHandler (frame : Option Nat) (m : Proc) : Option Proc :=
  if m.handler then some m
  else match m.space.alloc room frame uxstackPage permPUW with
    | (s, r) => if r < 0 then none else some ⟨s, true⟩

/-- `duppage`, of the parent `p` to the child `k` -/
def AddrSpace.duppage (p k : AddrSpace) (pn : Nat) : Option (AddrSpace × AddrSpace) :=
  match p.pages pn with
  | none => none
  | some v =>
      match pageMap room p k pn pn (dupPerm v.flags) with
      | (k, r) =>
          if r < 0 then none
          else if dupPerm v.flags &&& pteCow ≠ 0#32 then
            match p.map room pn pn (dupPerm v.flags) with
            | (p, r) => if r < 0 then none else some (p, k)
          else some (p, k)

/-- What the loops of `fork` do for one page. -/
def dupOrAlloc (frame : Option Nat) (pk : AddrSpace × AddrSpace) (pn : Nat) :
    Option (AddrSpace × AddrSpace) :=
  if pk.1.tables (pn / 1024) = false then some pk
  else if pn = uxstackPage then
    match pk.2.alloc room frame uxstackPage permPUW with
    | (k, r) => if r ≠ 0 then none else some (pk.1, k)
  else match pk.1.pages pn with
    | none => some pk
    | some _ => pk.1.duppage room pk.2 pn

/-- `fork`: the parent and the child. `own` and `stack` are the frames for the exception stacks. -/
def Proc.fork (own stack : Option Nat) (m : Proc) : Option (Proc × Proc) := do
  let m ← m.setPgfaultHandler room own
  let (p, k) ← (List.range userPages).foldlM (dupOrAlloc room stack) (m.space, noPages)
  some (⟨p, m.handler⟩, ⟨k, m.handler⟩)

end

/-! ## Requests -/

/-- What a request writes to `fsipcbuf`. -/
inductive BufField
  | reqPath | reqOmode | reqFileid | reqN | reqBuf | reqSize

/-- The functions of `lib/file.c` that call `fsipc`. -/
inductive FileReq
  | open | flush | read | write | stat | trunc | sync
  deriving DecidableEq

/-- The stores to `fsipcbuf` before the call of `fsipc`. -/
def FileReq.stores : FileReq → List BufField
  | .open => [.reqPath, .reqOmode]
  | .flush => [.reqFileid]
  | .read => [.reqFileid, .reqN]
  | .write => [.reqFileid, .reqN, .reqBuf]
  | .stat => [.reqFileid]
  | .trunc => [.reqFileid, .reqSize]
  | .sync => []

/-- A request up to the call of `ipc_send`; `buf` is the page of `fsipcbuf`. -/
def Proc.request (room : Nat → Bool) (frame : Option Nat) (buf : Nat) (m : Proc) (c : FileReq) : Option Proc :=
  c.stores.foldlM (fun m _ => m.store room frame buf) m

/-- The file server as `sys_ipc_try_send` finds it: whether it waits for a message, whether its
`env_ipc_dstva` is below `UTOP`, and whether the page can be inserted there. -/
structure Receiver where
  recving : Bool
  wants : Bool
  room : Bool

/-- `sys_ipc_try_send` with the page `pn` -/
def ipcTrySend (r : Receiver) (s : AddrSpace) (pn : Nat) (perm : BitVec 32) : Int :=
  if r.recving = false then -eIpcNotRecv
  else if pn < userPages ∧ r.wants = true then
    match s.pages pn with
    | none => -eInval
    | some v =>
        if badPerm perm then -eInval
        else if grantsWrite perm v.flags then -eInval
        else if r.room = false then -eNoMem
        else 0
  else 0

inductive Sent
  | sent | waits
  | panic (e : Int)
  deriving DecidableEq

/-- `ipc_send`; the list has the states of the receiver at each attempt. -/
def ipcSend (s : AddrSpace) (pn : Nat) (perm : BitVec 32) : List Receiver → Sent
  | [] => .waits
  | r :: rs =>
      let result := ipcTrySend r s pn perm
      if result < 0 then
        if result ≠ -eIpcNotRecv then .panic result
        else ipcSend s pn perm rs
      else .sent

/-- The permissions that `fsipc` sends the page with. -/
def sendPerm : BitVec 32 := pteP ||| pteW ||| pteU

/-- What a request finds when it calls `ipc_send`: the page is writable and not copy-on-write, and
the page is not refused. -/
structure Arrives (buf : Nat) (m : Proc) : Prop where
  writable : ∃ v, m.space.pages buf = some v ∧ v.flags &&& pteW ≠ 0#32 ∧ v.flags &&& pteCow = 0#32
  accepted : ∀ r, ipcTrySend r m.space buf sendPerm ≠ -eInval
  sends : ∀ rs, (∀ r ∈ rs, r.room = true) → ∀ e, ipcSend m.space buf sendPerm rs ≠ .panic e

/-! ## Runs -/

/-- The environments of the tree, by their ids. -/
abbrev ProcTree := Nat → Option Proc

inductive ProcEvent
  | fork (e c : Nat)
  | call (e : Nat) (c : FileReq)
  /-- Anything else that leaves the page of `fsipcbuf` alone. -/
  | other (e : Nat)
  /-- It exits or panics. -/
  | gone (e : Nat)

inductive ProcStep (buf : Nat) : ProcTree → ProcEvent → ProcTree → Prop
  | fork {t : ProcTree} {e c : Nat} {m p k : Proc} {room : Nat → Bool} {own stack : Option Nat}
      (proc : t e = some m) (fresh : t c = none) (run : m.fork room own stack = some (p, k)) :
      ProcStep buf t (.fork e c) (Function.update (Function.update t e (some p)) c (some k))
  | call {t : ProcTree} {e : Nat} {c : FileReq} {m m' : Proc} {room : Nat → Bool} {frame : Option Nat}
      {rs : List Receiver} (proc : t e = some m) (run : m.request room frame buf c = some m')
      (sent : ipcSend m'.space buf sendPerm rs = .sent) :
      ProcStep buf t (.call e c) (Function.update t e (some m'))
  | other {t : ProcTree} {e : Nat} {m : Proc} {s : AddrSpace} (proc : t e = some m)
      (kept : s.mapping buf = m.space.mapping buf) :
      ProcStep buf t (.other e) (Function.update t e (some { m with space := s }))
  | gone {t : ProcTree} {e : Nat} : ProcStep buf t (.gone e) (Function.update t e none)

/-- The runs from a tree. -/
inductive ProcRun (buf : Nat) (t : ProcTree) : List ProcEvent → ProcTree → Prop
  | nil : ProcRun buf t [] t
  | snoc {l : List ProcEvent} {ev : ProcEvent} {t1 t2 : ProcTree} :
      ProcRun buf t l t1 → ProcStep buf t1 ev t2 → ProcRun buf t (l ++ [ev]) t2

/-- The tree of a program that has just been started: `fsipcbuf` is on a writable page. -/
structure Started (buf root : Nat) (t : ProcTree) : Prop where
  only : ∀ e ≠ root, t e = none
  page : ∃ m f, t root = some m ∧ m.space.mapping buf = some (f, permPUW)

/-- The linker puts `fsipcbuf` on a page of its own, above the start of the program and below the
descriptors. -/
structure BufPage (buf : Nat) : Prop where
  above : 0x800 ≤ buf
  below : buf < 0xD0000

def ProcEvent.note (w : Nat → Bool) : ProcEvent → Nat → Bool
  | .fork e c => Function.update (Function.update w e false) c false
  | .call e c => if c = .sync then w else Function.update w e true
  | .other _ => w
  | .gone _ => w

/-- The environments that have made a request other than `sync` since they were created by a `fork` and
since they called `fork`; and those for which there was no `fork`. -/
def written (l : List ProcEvent) : Nat → Bool := l.foldl ProcEvent.note fun _ => true

/-! ## The page of `fsipcbuf` -/

/-- A page that `fork` has made copy-on-write. -/
def permCow : BitVec 32 := pteP ||| pteU ||| pteCow

/-- The page is writable if the environment has written to it, and copy-on-write otherwise. -/
structure Buffered (buf : Nat) (w : Bool) (m : Proc) : Prop where
  page : ∃ f, m.space.mapping buf = some (f, if w then permPUW else permCow)
  handler : w = false → m.handler = true

section

variable {buf root e : Nat} {m m' p k : Proc} {s s' t : AddrSpace} {pn q src dst : Nat} {v : Pte}
  {room : Nat → Bool} {frame own stack : Option Nat} {perm : BitVec 32} {f : Nat} {w : Bool}

theorem mapping_eq_some : s.mapping pn = some (f, perm) ↔
    ∃ v, s.pages pn = some v ∧ v.frame = f ∧ v.flags &&& pteSyscall = perm := by
  unfold AddrSpace.mapping
  rw [Option.map_eq_some_iff]
  refine exists_congr fun v => and_congr_right fun _ => ?_
  rw [Prod.mk.injEq]

/-- Only the bits of `PTE_SYSCALL` are looked at. -/
theorem and_of_syscall {w x : BitVec 32} (hw : w &&& pteSyscall = perm) (hx : pteSyscall &&& x = x) :
    w &&& x = perm &&& x := by
  rw [← hw, BitVec.and_assoc, hx]

theorem dupPerm_of_syscall {w : BitVec 32} (hw : w &&& pteSyscall = perm) : dupPerm w = dupPerm perm := by
  have hp : perm &&& pteSyscall = perm := by rw [← hw, BitVec.and_assoc, BitVec.and_self]
  unfold dupPerm
  rw [hw, hp, and_of_syscall hw (by decide : pteSyscall &&& pteShare = pteShare),
    and_of_syscall hw (by decide : pteSyscall &&& pteW = pteW)]

theorem syscall_permPUW : (permPUW ||| pteP) &&& pteSyscall = permPUW := by
  decide

/-- `duppage` makes both kinds of page copy-on-write. -/
theorem dupPerm_buffered (w : Bool) : dupPerm (if w then permPUW else permCow) = permCow := by
  cases w with
  | false => decide
  | true => decide

/-! ## Stores -/

theorem pftempPage_lt : pftempPage < userPages := by
  decide

/-- The page gets a frame of its own, and nothing stays at `PFTEMP`. -/
theorem pgfault_mapping (h : pgfault room frame s pn = some s') : ∃ f, ∀ q, s'.mapping q =
    if q = pftempPage then none else if q = pn then some (f, permPUW) else s.mapping q := by
  unfold pgfault at h
  split at h
  · cases h
  split at h
  · cases h
  rcases alloc_cases room frame s pftempPage permPUW with ⟨r, hr, hrun⟩ | ⟨f, -, -, hrun⟩
  · rw [hrun] at h
    simp only [if_pos hr] at h
    cases h
  · rw [hrun] at h
    simp only [if_neg (show ¬ (0 : Int) < 0 by decide)] at h
    rcases map_cases room (s.set pftempPage ⟨f, permPUW ||| pteP, or_pteP_present _⟩) pftempPage pn permPUW with
      ⟨r, hr, hmap⟩ | ⟨v, -, -, hmap⟩
    · rw [hmap] at h
      simp only [if_pos hr] at h
      cases h
    · rw [hmap] at h
      simp only [if_neg (show ¬ (0 : Int) < 0 by decide)] at h
      cases h
      refine ⟨v.frame, fun q => ?_⟩
      rw [mapping_unmap]
      by_cases hq : q = pftempPage
      · rw [if_pos ⟨hq, pftempPage_lt⟩, if_pos hq]
      · rw [if_neg fun h => hq h.1, if_neg hq, mapping_set, mapping_set, if_neg hq]
        simp only [syscall_permPUW]

theorem Buffered.store (hne : buf ≠ pftempPage) (h : Buffered buf w m)
    (hrun : m.store room frame buf = some m') : Buffered buf true m' := by
  obtain ⟨⟨f, hpage⟩, -⟩ := h
  obtain ⟨v, hv, rfl, hflags⟩ := mapping_eq_some.mp hpage
  have hbits := and_of_syscall hflags (by decide : pteSyscall &&& userWrite = userWrite)
  unfold Proc.store at hrun
  rw [hv] at hrun
  simp only at hrun
  split at hrun
  · -- The page is writable, so it is not copy-on-write.
    rename_i hw
    cases hrun
    cases w with
    | false =>
        rw [hbits] at hw
        exact absurd hw (by decide)
    | true => exact ⟨⟨_, hpage⟩, fun h => by cases h⟩
  split at hrun
  · rw [Option.map_eq_some_iff] at hrun
    obtain ⟨s', hfault, rfl⟩ := hrun
    obtain ⟨f, hf⟩ := pgfault_mapping hfault
    refine ⟨⟨f, ?_⟩, fun h => nomatch h⟩
    rw [hf, if_neg hne, if_pos rfl, if_pos rfl]
  · cases hrun

theorem Buffered.stores (hne : buf ≠ pftempPage) (l : List BufField) (h : Buffered buf w m)
    (hrun : l.foldlM (fun m _ => m.store room frame buf) m = some m') :
    Buffered buf (if l = [] then w else true) m' := by
  induction l generalizing m w with
  | nil =>
      cases hrun
      exact h
  | cons a l ih =>
      rw [List.foldlM_cons, Option.bind_eq_bind, Option.bind_eq_some_iff] at hrun
      obtain ⟨m1, h1, hrun⟩ := hrun
      have h2 := ih (h.store hne h1) hrun
      rw [if_neg (List.cons_ne_nil a l)]
      split at h2
      · exact h2
      · exact h2

theorem stores_eq_nil (c : FileReq) : c.stores = [] ↔ c = .sync := by
  cases c <;> simp [FileReq.stores]

theorem Buffered.request {c : FileReq} (hne : buf ≠ pftempPage) (h : Buffered buf w m)
    (hrun : m.request room frame buf c = some m') : Buffered buf (if c = .sync then w else true) m' := by
  have hst := h.stores hne c.stores hrun
  simp only [stores_eq_nil] at hst
  exact hst

/-! ## Forks -/

theorem Buffered.setPgfaultHandler (hne : buf ≠ uxstackPage) (h : Buffered buf w m)
    (hrun : m.setPgfaultHandler room frame = some m') : Buffered buf w m' ∧ m'.handler = true := by
  unfold Proc.setPgfaultHandler at hrun
  split at hrun
  · rename_i hh
    cases hrun
    exact ⟨h, hh⟩
  rcases alloc_cases room frame m.space uxstackPage permPUW with ⟨r, hr, ha⟩ | ⟨f, -, -, ha⟩
  · rw [ha] at hrun
    simp only [if_pos hr] at hrun
    cases hrun
  · rw [ha] at hrun
    simp only [if_neg (show ¬ (0 : Int) < 0 by decide)] at hrun
    cases hrun
    refine ⟨⟨?_, fun _ => rfl⟩, rfl⟩
    obtain ⟨f', hf'⟩ := h.page
    exact ⟨f', by rw [mapping_set, if_neg hne, hf']⟩

/-- What one page means for the parent `p'` and the child `k'`. -/
theorem duppage_mapping {p k p' k' : AddrSpace} (h : p.duppage room k pn = some (p', k')) :
    ∃ v, p.pages pn = some v ∧
      (∀ q, k'.mapping q = if q = pn then some (v.frame, (dupPerm v.flags ||| pteP) &&& pteSyscall)
        else k.mapping q) ∧
      ∀ q, p'.mapping q = if q = pn ∧ dupPerm v.flags &&& pteCow ≠ 0#32 then
        some (v.frame, (dupPerm v.flags ||| pteP) &&& pteSyscall) else p.mapping q := by
  unfold AddrSpace.duppage at h
  split at h
  · cases h
  rename_i v hv
  rcases pageMap_cases room p k pn pn (dupPerm v.flags) with ⟨r, hr, hrun⟩ | ⟨v1, hv1, -, -, -, -, hrun⟩
  · rw [hrun] at h
    simp only [if_pos hr] at h
    cases h
  rw [hv] at hv1
  cases hv1
  rw [hrun] at h
  simp only [if_neg (show ¬ (0 : Int) < 0 by decide)] at h
  refine ⟨v, hv, ?_⟩
  split at h
  · rename_i hcow
    rcases map_cases room p pn pn (dupPerm v.flags) with ⟨r, hr, hrun2⟩ | ⟨v2, hv2, -, hrun2⟩
    · rw [hrun2] at h
      simp only [if_pos hr] at h
      cases h
    rw [hv] at hv2
    cases hv2
    rw [hrun2] at h
    simp only [if_neg (show ¬ (0 : Int) < 0 by decide)] at h
    cases h
    refine ⟨fun q => mapping_set _ _ _ q, fun q => ?_⟩
    rw [mapping_set]
    simp only [hcow, and_true, not_false_eq_true, ne_eq]
  · rename_i hcow
    cases h
    refine ⟨fun q => mapping_set _ _ _ q, fun q => ?_⟩
    rw [if_neg fun h => hcow h.2]

/-- Before the loop is at the page, the parent has it as it was; then both have it copy-on-write. -/
structure Duplicating (buf : Nat) (w : Bool) (f n : Nat) (pk : AddrSpace × AddrSpace) : Prop where
  parent : pk.1.mapping buf = some (f, if buf < n then permCow else if w then permPUW else permCow)
  child : buf < n → pk.2.mapping buf = some (f, permCow)

theorem Duplicating.next {n : Nat} {pk pk' : AddrSpace × AddrSpace} (hne : buf ≠ uxstackPage)
    (h : Duplicating buf w f n pk) (hrun : dupOrAlloc room frame pk n = some pk') :
    Duplicating buf w f (n + 1) pk' := by
  obtain ⟨v, hv, hf, hflags⟩ := mapping_eq_some.mp h.parent
  unfold dupOrAlloc at hrun
  by_cases hn : n = buf
  · -- The page itself.
    subst hn
    rw [if_neg, if_neg hne, hv] at hrun
    · simp only at hrun
      obtain ⟨v', hv', hk, hp⟩ := duppage_mapping hrun
      rw [hv] at hv'
      cases hv'
      rw [if_neg (Nat.lt_irrefl n)] at hflags
      have hdup : dupPerm v.flags = permCow := by rw [dupPerm_of_syscall hflags, dupPerm_buffered]
      have hnew : (permCow ||| pteP) &&& pteSyscall = permCow := by decide
      have hcow : permCow &&& pteCow ≠ 0#32 := by decide
      refine ⟨?_, fun _ => ?_⟩
      · rw [hp, hdup, if_pos ⟨rfl, hcow⟩, hnew, hf, if_pos (Nat.lt_succ_self n)]
      · rw [hk, if_pos rfl, hdup, hnew, hf]
    · rw [pk.1.mapped n (by rw [hv]; exact fun hc => by cases hc)]
      decide
  · -- Another page.
    have hlt : buf < n + 1 ↔ buf < n := by omega
    have hkeep : ∀ p' k' : AddrSpace, p'.mapping buf = pk.1.mapping buf → k'.mapping buf = pk.2.mapping buf →
        Duplicating buf w f (n + 1) (p', k') := by
      intro p' k' hp hk
      refine ⟨?_, fun h' => ?_⟩
      · simp only [hlt]
        exact hp.trans h.parent
      · exact hk.trans (h.child (hlt.mp h'))
    split at hrun
    · cases hrun
      exact hkeep _ _ rfl rfl
    split at hrun
    · rcases alloc_cases room frame pk.2 uxstackPage permPUW with ⟨r, hr, ha⟩ | ⟨f', -, -, ha⟩
      · rw [ha] at hrun
        simp only [if_pos (show r ≠ 0 by omega)] at hrun
        cases hrun
      · rw [ha] at hrun
        simp only [if_neg (show ¬ (0 : Int) ≠ 0 by decide)] at hrun
        cases hrun
        exact hkeep _ _ rfl (by rw [mapping_set, if_neg hne])
    split at hrun
    · cases hrun
      exact hkeep _ _ rfl rfl
    · obtain ⟨v', -, hk, hp⟩ := duppage_mapping hrun
      exact hkeep _ _ (by rw [hp, if_neg fun h => hn h.1.symm]) (by rw [hk, if_neg fun h => hn h.symm])

theorem Duplicating.run {n : Nat} {pk pk' : AddrSpace × AddrSpace} (hne : buf ≠ uxstackPage)
    (h : Duplicating buf w f 0 pk) (hrun : (List.range n).foldlM (dupOrAlloc room frame) pk = some pk') :
    Duplicating buf w f n pk' := by
  induction n generalizing pk' with
  | zero =>
      cases hrun
      exact h
  | succ n ih =>
      rw [List.range_succ, List.foldlM_append, Option.bind_eq_bind, Option.bind_eq_some_iff] at hrun
      obtain ⟨pk1, h1, hrun⟩ := hrun
      rw [List.foldlM_cons, Option.bind_eq_bind, Option.bind_eq_some_iff] at hrun
      obtain ⟨pk2, h2, hrun⟩ := hrun
      cases hrun
      exact (ih h1).next hne h2

/-- Parent and child have the page copy-on-write. -/
theorem Buffered.fork (hne : buf ≠ uxstackPage) (hlt : buf < userPages) (h : Buffered buf w m)
    (hrun : m.fork room own stack = some (p, k)) : Buffered buf false p ∧ Buffered buf false k := by
  simp only [Proc.fork, Option.bind_eq_bind, Option.bind_eq_some_iff] at hrun
  obtain ⟨m1, h1, pk, h2, hrun⟩ := hrun
  cases hrun
  obtain ⟨⟨⟨f, hpage⟩, -⟩, hh⟩ := h.setPgfaultHandler hne h1
  have hstart : Duplicating buf w f 0 (m1.space, noPages) := by
    refine ⟨?_, fun h => absurd h (Nat.not_lt_zero buf)⟩
    rw [if_neg (Nat.not_lt_zero buf)]
    exact hpage
  obtain ⟨hp, hk⟩ := hstart.run hne h2
  rw [if_pos hlt] at hp
  exact ⟨⟨⟨f, hp⟩, fun _ => hh⟩, ⟨⟨f, hk hlt⟩, fun _ => hh⟩⟩

/-- With enough memory `fork` copies any address space with no read-only shared page. -/
theorem dupOrAlloc_ok {n : Nat} {pk : AddrSpace × AddrSpace} (hn : n < userPages)
    (hok : ∀ v, pk.1.pages n = some v → DupOk v.flags) :
    ∃ pk', dupOrAlloc (fun _ => true) (some f) pk n = some pk' ∧ ∀ q ≠ n, pk'.1.pages q = pk.1.pages q := by
  have hroom : ∀ a : AddrSpace, CanMap (fun _ => true) a n := fun a => ⟨hn, Or.inr rfl⟩
  unfold dupOrAlloc
  split
  · exact ⟨pk, rfl, fun _ _ => rfl⟩
  split
  · rename_i hux
    have halloc := alloc_eq f (hux ▸ hroom pk.2) (by decide : badPerm permPUW = false)
    rw [halloc]
    exact ⟨_, rfl, fun _ _ => rfl⟩
  cases hv : pk.1.pages n with
  | none => exact ⟨pk, rfl, fun _ _ => rfl⟩
  | some v =>
      have hgrant := (grantsWrite_dupPerm v.flags).mpr (hok v hv)
      have hbad := badPerm_dupPerm v.flags
      unfold AddrSpace.duppage
      rw [hv]
      simp only [AddrSpace.map, pageMap_eq hv hn (hroom _) hbad hgrant]
      rw [if_neg (by decide)]
      split
      · rw [if_neg (by decide)]
        refine ⟨_, rfl, fun q hq => ?_⟩
        simp only [AddrSpace.set, Function.update_of_ne hq]
      · exact ⟨_, rfl, fun _ _ => rfl⟩

theorem dupLoop_ok {n : Nat} {a : AddrSpace} (hn : n ≤ userPages)
    (hok : ∀ pn v, a.pages pn = some v → DupOk v.flags) :
    ∃ pk, (List.range n).foldlM (dupOrAlloc (fun _ => true) (some f)) (a, noPages) = some pk ∧
      ∀ q, n ≤ q → pk.1.pages q = a.pages q := by
  induction n with
  | zero => exact ⟨_, rfl, fun _ _ => rfl⟩
  | succ n ih =>
      obtain ⟨pk, hrun, hkept⟩ := ih (Nat.le_of_succ_le hn)
      obtain ⟨pk', hrun', hkept'⟩ := dupOrAlloc_ok (f := f) hn fun v hv =>
        hok n v (by rw [← hkept n (Nat.le_refl n), hv])
      refine ⟨pk', ?_, fun q hq => ?_⟩
      · rw [List.range_succ, List.foldlM_append, hrun]
        simp only [Option.bind_eq_bind, Option.bind_some, List.foldlM_cons, hrun', List.foldlM_nil]
        rfl
      · rw [hkept' q (by omega), hkept q (by omega)]

theorem setPgfaultHandler_pages (m : Proc) (f : Nat) :
    ∃ m', m.setPgfaultHandler (fun _ => true) (some f) = some m' ∧
      ∀ pn v, m'.space.pages pn = some v → m.space.pages pn = some v ∨ v.flags = permPUW ||| pteP := by
  unfold Proc.setPgfaultHandler
  split
  · exact ⟨m, rfl, fun _ _ h => Or.inl h⟩
  · have halloc := @alloc_eq (fun _ => true) m.space uxstackPage permPUW f ⟨by decide, Or.inr rfl⟩ (by decide)
    rw [halloc]
    refine ⟨_, rfl, fun pn v hv => ?_⟩
    simp only [AddrSpace.set, Function.update_apply] at hv
    split at hv
    · cases hv
      exact Or.inr rfl
    · exact Or.inl hv

theorem fork_ok (m : Proc) (f g : Nat) (hok : ∀ pn v, m.space.pages pn = some v → DupOk v.flags) :
    ∃ p k, m.fork (fun _ => true) (some f) (some g) = some (p, k) := by
  obtain ⟨m', hset, hpages⟩ := setPgfaultHandler_pages m f
  have hok' : ∀ pn v, m'.space.pages pn = some v → DupOk v.flags := by
    intro pn v hv
    rcases hpages pn v hv with h | h
    · exact hok pn v h
    · rw [h]
      exact fun hs => absurd (by decide) hs
  obtain ⟨pk, hrun, -⟩ := dupLoop_ok (f := g) (Nat.le_refl userPages) hok'
  refine ⟨⟨pk.1, m'.handler⟩, ⟨pk.2, m'.handler⟩, ?_⟩
  simp only [Proc.fork, Option.bind_eq_bind, Option.bind_eq_some_iff]
  exact ⟨m', hset, pk, hrun, rfl⟩

/-! ## Sending -/

theorem Buffered.arrives (hlt : buf < userPages) (h : Buffered buf true m) : Arrives buf m := by
  obtain ⟨f, hpage⟩ := h.page
  obtain ⟨v, hv, -, hflags⟩ := mapping_eq_some.mp hpage
  rw [if_pos rfl] at hflags
  have hw : v.flags &&& pteW = pteW := by
    rw [and_of_syscall hflags (by decide : pteSyscall &&& pteW = pteW)]
    decide
  have hcow : v.flags &&& pteCow = 0#32 := by
    rw [and_of_syscall hflags (by decide : pteSyscall &&& pteCow = pteCow)]
    decide
  have hbad : badPerm sendPerm = false := by decide
  have hgrant : grantsWrite sendPerm v.flags = false := by
    unfold grantsWrite
    rw [hw]
    decide
  have hsend : ∀ r : Receiver, ipcTrySend r m.space buf sendPerm =
      if r.recving = false then -eIpcNotRecv else if r.wants = true ∧ r.room = false then -eNoMem else 0 := by
    intro r
    unfold ipcTrySend
    rw [hv]
    simp only [hlt, true_and, hbad, hgrant, Bool.false_eq_true, if_false]
    by_cases hr : r.recving = false
    · rw [if_pos hr, if_pos hr]
    rw [if_neg hr, if_neg hr]
    by_cases hwants : r.wants = true
    · rw [if_pos hwants]
      simp only [hwants, true_and]
    · rw [if_neg hwants, if_neg fun h => hwants h.1]
  refine ⟨⟨v, hv, ?_, hcow⟩, fun r => ?_, fun rs hroom e => ?_⟩
  · rw [hw]
    decide
  · rw [hsend]
    split
    · decide
    split
    · decide
    · decide
  · induction rs with
    | nil => exact fun h => by cases h
    | cons r rs ih =>
        have hr : ¬ (r.wants = true ∧ r.room = false) := by
          rw [hroom r List.mem_cons_self]
          exact fun h => by cases h.2
        unfold ipcSend
        simp only [hsend, if_neg hr]
        by_cases hrecv : r.recving = false
        · simp only [if_pos hrecv, ne_eq, not_true_eq_false, if_false]
          rw [if_pos (by decide)]
          exact ih fun r' hr' => hroom r' (List.mem_cons_of_mem r hr')
        · simp only [if_neg hrecv]
          rw [if_neg (by decide)]
          exact fun h => by cases h

/-- A receiver that waits for a page is refused the page. -/
theorem Buffered.refused (hlt : buf < userPages) (h : Buffered buf false m) (r : Bool) :
    ipcTrySend ⟨true, true, r⟩ m.space buf sendPerm = -eInval := by
  obtain ⟨f, hpage⟩ := h.page
  obtain ⟨v, hv, -, hflags⟩ := mapping_eq_some.mp hpage
  have hgrant : grantsWrite sendPerm v.flags = true := by
    unfold grantsWrite
    rw [and_of_syscall hflags (by decide : pteSyscall &&& pteW = pteW)]
    decide
  unfold ipcTrySend
  rw [if_neg (fun h => nomatch h), if_pos ⟨hlt, rfl⟩, hv]
  simp only [hgrant, if_true]
  split
  · rfl
  · rfl

/-! ## The whole tree -/

/-- The invariant of every run. -/
def TreeBuffered (buf : Nat) (w : Nat → Bool) (t : ProcTree) : Prop := ∀ e m, t e = some m → Buffered buf (w e) m

theorem written_snoc (l : List ProcEvent) (ev : ProcEvent) : written (l ++ [ev]) = ev.note (written l) := by
  unfold written
  rw [List.foldl_append, List.foldl_cons, List.foldl_nil]

theorem TreeBuffered.step {t t' : ProcTree} {ev : ProcEvent} {w : Nat → Bool} (hb : BufPage buf)
    (h : TreeBuffered buf w t) (hs : ProcStep buf t ev t') : TreeBuffered buf (ev.note w) t' := by
  have hall := userPages_eq
  have hne : buf ≠ pftempPage := by
    have := hb.above
    simp only [pftempPage]
    omega
  have hne' : buf ≠ uxstackPage := by
    have := hb.below
    simp only [uxstackPage]
    omega
  intro e' m' hm'
  cases hs with
  | @fork e c m p k room own stack proc fresh run =>
      obtain ⟨hp, hk⟩ := (h e m proc).fork hne' (by have := hb.below; omega) run
      unfold ProcEvent.note
      simp only [Function.update_apply] at hm' ⊢
      by_cases hc : e' = c
      · rw [if_pos hc] at hm' ⊢
        cases hm'
        exact hk
      rw [if_neg hc] at hm' ⊢
      by_cases he : e' = e
      · rw [if_pos he] at hm' ⊢
        cases hm'
        exact hp
      · rw [if_neg he] at hm' ⊢
        exact h e' m' hm'
  | @call e c m m1 room frame rs proc run sent =>
      have hreq := (h e m proc).request hne run
      unfold ProcEvent.note
      rw [Function.update_apply] at hm'
      by_cases he : e' = e
      · rw [if_pos he] at hm'
        cases hm'
        subst he
        split at hreq
        · rename_i hc
          simp only [if_pos hc]
          exact hreq
        · rename_i hc
          simp only [if_neg hc, Function.update_self]
          exact hreq
      · rw [if_neg he] at hm'
        have hold := h e' m' hm'
        by_cases hc : c = .sync
        · simp only [if_pos hc]
          exact hold
        · simp only [if_neg hc, Function.update_of_ne he]
          exact hold
  | @other e m s proc kept =>
      rw [Function.update_apply] at hm'
      by_cases he : e' = e
      · rw [if_pos he] at hm'
        cases hm'
        subst he
        have hold := h e' m proc
        refine ⟨?_, hold.handler⟩
        rw [kept]
        exact hold.page
      · rw [if_neg he] at hm'
        exact h e' m' hm'
  | @gone e =>
      rw [Function.update_apply] at hm'
      by_cases he : e' = e
      · rw [if_pos he] at hm'
        cases hm'
      · rw [if_neg he] at hm'
        exact h e' m' hm'

theorem TreeBuffered.start {t : ProcTree} (h : Started buf root t) : TreeBuffered buf (fun _ => true) t := by
  intro e m hm
  obtain ⟨m0, f, hroot, hpage⟩ := h.page
  by_cases he : e = root
  · rw [he, hroot] at hm
    cases hm
    exact ⟨⟨f, hpage⟩, fun h => by cases h⟩
  · rw [h.only e he] at hm
    cases hm

theorem TreeBuffered.run {t t' : ProcTree} {l : List ProcEvent} (hb : BufPage buf) (h : Started buf root t)
    (hrun : ProcRun buf t l t') : TreeBuffered buf (written l) t' := by
  induction hrun with
  | nil => exact TreeBuffered.start h
  | snoc _ hs ih =>
      rw [written_snoc]
      exact ih.step hb hs

/-! ## In the kernel -/

/-- What `duppage` leaves in the page tables is what it leaves in the address spaces. -/
theorem Duplicated.shows {R : Nat → Prop} {s s' : Kernel} {cur c : EnvIx} {i : Fin pdxUtop}
    {j : Fin nptentries} {x : BitVec 32} {p k p' k' : AddrSpace} (h : Duplicated R s cur c i j x s')
    (hne : cur ≠ c) (hx : pteOf s (cur, i, j) = x) (hp : Shows s cur p) (hk : Shows s c k)
    (hrun : p.duppage room k (1024 * i.val + j.val) = some (p', k')) : Shows s' cur p' ∧ Shows s' c k' := by
  have hlt := slot_page_lt (cur, i, j)
  have hslot : ∀ e, userSlot e (1024 * i.val + j.val) hlt = (e, i, j) := fun e => userSlot_page (e, i, j)
  obtain ⟨v, hv, hk', hp'⟩ := duppage_mapping hrun
  have hpage := hp (1024 * i.val + j.val)
  rw [AddrSpace.mapping, hv, Option.map_some, pteMapping, dif_pos hlt, hslot, hx] at hpage
  obtain ⟨f, htarget, heq⟩ := Option.map_eq_some_iff.mp hpage.symm
  rw [Prod.mk.injEq] at heq
  obtain ⟨rfl, hflags⟩ := heq
  obtain ⟨hpres, -⟩ := entryTarget_eq_some.mp htarget
  have hdup : dupPerm x = dupPerm v.flags :=
    (dupPerm_of_syscall hflags).trans (dupPerm_of_syscall rfl).symm
  have hentry : (entryTarget (dupPte x)).map (fun f => (f, dupPte x &&& pteSyscall)) =
      some (v.frame, (dupPerm v.flags ||| pteP) &&& pteSyscall) := by
    rw [entryTarget_dupPte, htarget, Option.map_some, dupPte_of_present hpres, BitVec.or_assoc,
      entry_and (by decide), hdup]
  have hother : ∀ e pn, pn ≠ 1024 * i.val + j.val → pteMapping s' e pn = pteMapping s e pn := by
    intro e pn hpn
    refine pteMapping_congr fun hlt' => ?_
    have hslot' : ∀ e', userSlot e pn hlt' ≠ (e', i, j) := fun e' heq =>
      hpn (userSlot_inj (heq.trans (hslot e').symm)).2
    rw [h.pte, Function.update_of_ne (hslot' cur), Function.update_of_ne (hslot' c)]
  refine ⟨fun pn => ?_, fun pn => ?_⟩
  · by_cases hpn : pn = 1024 * i.val + j.val
    · subst hpn
      rw [hp', pteMapping, dif_pos hlt, hslot, h.pte, Function.update_self, keptPte, hdup]
      by_cases hcow : dupPerm v.flags &&& pteCow ≠ 0#32
      · rw [if_pos ⟨rfl, hcow⟩, if_pos ⟨hpres, hcow⟩, hentry]
      · rw [if_neg fun h => hcow h.2, if_neg fun h => hcow h.2, AddrSpace.mapping, hv, Option.map_some, hpage]
    · rw [hp', if_neg fun h => hpn h.1, hother _ _ hpn, hp pn]
  · by_cases hpn : pn = 1024 * i.val + j.val
    · subst hpn
      rw [hk', if_pos rfl, pteMapping, dif_pos hlt, hslot, h.pte,
        Function.update_of_ne fun heq => hne (congrArg Prod.fst heq).symm, Function.update_self, hentry]
    · rw [hk', if_neg hpn, hother _ _ hpn, hk pn]

/-- `sys_ipc_try_send` of the kernel refuses a page exactly if `ipcTrySend` does. -/
theorem Shows.ipcTrySend {R : Nat → Prop} {s : Kernel} {cur d : EnvIx} {a : AddrSpace}
    {envid value perm : BitVec 32} {r : Receiver} {i : Fin pdxUtop} {j : Fin nptentries}
    (ha : Shows s cur a) (hinv : Inv R s) (hlive : (s.envs cur).envStatus ≠ .free)
    (hd : envid2env s cur envid false = some d) (hrecving : r.recving = (s.envs d).envIpcRecving)
    (hwants : r.wants = decide ((s.envs d).envIpcDstva < utop)) :
    (sysIpcTrySend s cur envid value (pgaddr i j) perm).map Prod.snd = some (.ret (-eInval)) ↔
      ipcTrySend r a (1024 * i.val + j.val) perm = -eInval := by
  have hlt := slot_page_lt (cur, i, j)
  have hlow := pgaddr_lt i j
  have hoff : pgoff (pgaddr i j) = 0 := (badVa_eq_false (badVa_pgaddr i j)).2
  have hslot := slotOf_pgaddr cur i j
  obtain ⟨dir, hdir⟩ := hinv.envs.exists_pgdir hlive
  have hpage := ha (1024 * i.val + j.val)
  rw [pteMapping, dif_pos hlt, userSlot_page (cur, i, j)] at hpage
  unfold sysIpcTrySend Jos.User.ipcTrySend
  rw [hd]
  simp only [hrecving]
  cases hrec : (s.envs d).envIpcRecving with
  | false =>
      simp only [Bool.not_false, if_true, Option.map_some]
      decide
  | true =>
      simp only [Bool.not_true, Bool.false_eq_true, Bool.true_eq_false, if_false]
      by_cases hva : (s.envs d).envIpcDstva < utop
      · rw [if_pos ⟨hlow, hva⟩, if_neg (not_not_intro hoff),
          if_pos ⟨hlt, by rw [hwants, decide_eq_true hva]⟩]
        simp only [Option.bind_eq_bind, hdir, Option.bind_some]
        rcases hinv.pages.pageLookup hdir hlow with ⟨hnone, hlook⟩ | ⟨pg, pte, hsome, hlook, hread⟩
        · rw [hslot] at hnone
          rw [hnone, Option.map_none, mapping_eq_none] at hpage
          rw [hlook, hpage]
          exact iff_of_true rfl rfl
        · rw [hslot] at hsome hread
          rw [hsome, Option.map_some, mapping_eq_some] at hpage
          obtain ⟨v, hv, -, hflags⟩ := hpage
          rw [hlook, hv]
          simp only [Option.bind_some, hread, grantsWrite_congr hflags]
          by_cases hbad : badPerm perm = true
          · rw [if_pos hbad, if_pos hbad]
            exact iff_of_true rfl rfl
          rw [if_neg hbad, if_neg hbad]
          by_cases hgrant : grantsWrite perm (pteOf s (cur, i, j)) = true
          · rw [if_pos hgrant, if_pos hgrant]
            exact iff_of_true rfl rfl
          rw [if_neg hgrant, if_neg hgrant]
          -- From here on neither call returns `-E_INVAL`.
          refine iff_of_false (fun hret => ?_) ?_
          · rw [Option.map_eq_some_iff] at hret
            obtain ⟨x, hx, hret⟩ := hret
            simp only [Option.bind_eq_some_iff] at hx
            obtain ⟨dst, -, ins, -, hx⟩ := hx
            split at hx
            · cases hx
              have hmem : Outcome.ret (-eNoMem) = .ret (-eInval) := hret
              exact absurd hmem (by decide)
            · cases hx
              have hzero : Outcome.ret 0 = .ret (-eInval) := hret
              exact absurd hzero (by decide)
          · split
            · decide
            · decide
      · rw [if_neg fun h => hva h.2, if_neg fun h => by rw [hwants, decide_eq_false hva] at h; cases h.2]
        simp only [Option.map_some]
        decide

end

/-- In every state that any forks and requests lead to, the next request of an environment finds its
page of `fsipcbuf` writable, and is not refused, exactly if it is not `sync` or the environment has
made another request since its last `fork`. -/
theorem request_arrives_iff {buf root e : Nat} {t t' : ProcTree} {l : List ProcEvent} {m : Proc}
    {c : FileReq} (hb : BufPage buf) (h : Started buf root t) (hrun : ProcRun buf t l t') (hm : t' e = some m) :
    (∀ room frame m', m.request room frame buf c = some m' → Arrives buf m') ↔
      c ≠ .sync ∨ written l e = true := by
  have hbuf := TreeBuffered.run hb h hrun e m hm
  have hall := userPages_eq
  have hlt : buf < userPages := by
    have := hb.below
    omega
  have hne : buf ≠ pftempPage := by
    have := hb.above
    simp only [pftempPage]
    omega
  constructor
  · intro harr
    by_contra hnot
    rw [not_or, not_not, Bool.not_eq_true] at hnot
    obtain ⟨rfl, hw⟩ := hnot
    rw [hw] at hbuf
    exact (harr (fun _ => false) none m rfl).accepted _ (hbuf.refused hlt true)
  · intro hc room frame m' hreq
    have hafter := hbuf.request hne hreq
    refine Buffered.arrives hlt ?_
    split at hafter
    · rename_i hs
      rw [hc.resolve_left (not_not_intro hs)] at hafter
      exact hafter
    · exact hafter

/-! ## A child that calls `sync` first -/

theorem permPUW_present : permPUW &&& pteP = pteP := by
  decide

theorem textPerm_present : (pteP ||| pteU) &&& pteP = pteP := by
  decide

/-- The text, `fsipcbuf` and the stack of a small program. -/
def smallPages (pn : Nat) : Option Pte :=
  if pn = 0x800 then some ⟨300, pteP ||| pteU, textPerm_present⟩
  else if pn = 0x806 then some ⟨301, permPUW, permPUW_present⟩
  else if pn = 0xEEBFD then some ⟨302, permPUW, permPUW_present⟩
  else none

theorem smallPages_cases {pn : Nat} (h : smallPages pn ≠ none) : pn = 0x800 ∨ pn = 0x806 ∨ pn = 0xEEBFD := by
  unfold smallPages at h
  by_contra hno
  rw [not_or, not_or] at hno
  rw [if_neg hno.1, if_neg hno.2.1, if_neg hno.2.2] at h
  exact h rfl

theorem smallPages_mapped (pn : Nat) (h : smallPages pn ≠ none) : (pn / 1024 == 2 || pn / 1024 == 954) = true := by
  rcases smallPages_cases h with rfl | rfl | rfl <;> rfl

def smallProgram : Proc where
  space := ⟨smallPages, fun i => i == 2 || i == 954, smallPages_mapped⟩
  handler := false

/-- The tree of this program alone. -/
def smallTree : ProcTree := fun e => if e = 0 then some smallProgram else none

theorem smallTree_started : Started 0x806 0 smallTree :=
  ⟨fun _ he => if_neg he, smallProgram, 301, rfl, by decide⟩

/-- The program forks. -/
theorem smallTree_forks : ∃ t p k, ProcRun 0x806 smallTree [.fork 0 1] t ∧ t 0 = some p ∧ t 1 = some k := by
  have hok : ∀ pn v, smallProgram.space.pages pn = some v → DupOk v.flags := by
    intro pn v hv
    have hv' : smallPages pn = some v := hv
    rcases smallPages_cases (by rw [hv']; exact fun h => nomatch h : smallPages pn ≠ none) with rfl | rfl | rfl
    · cases hv'
      exact fun hs => absurd (by decide) hs
    · cases hv'
      exact fun hs => absurd (by decide) hs
    · cases hv'
      exact fun hs => absurd (by decide) hs
  obtain ⟨p, k, hrun⟩ := fork_ok smallProgram 400 401 hok
  refine ⟨_, p, k, ProcRun.snoc ProcRun.nil (ProcStep.fork rfl rfl hrun), ?_, ?_⟩
  · rw [Function.update_of_ne (by decide), Function.update_self]
  · rw [Function.update_self]

/-- The child may call `fstat`. -/
theorem request_arrives_iff_stat : ∃ t k, ProcRun 0x806 smallTree [.fork 0 1] t ∧ t 1 = some k ∧
    ((∀ room frame m', k.request room frame 0x806 .stat = some m' → Arrives 0x806 m') ↔
      FileReq.stat ≠ .sync ∨ written [.fork 0 1] 1 = true) := by
  obtain ⟨t, p, k, hrun, -, hk⟩ := smallTree_forks
  exact ⟨t, k, hrun, hk, request_arrives_iff ⟨by decide, by decide⟩ smallTree_started hrun hk⟩

/-- Neither the child nor the parent may call `sync`: it panics in `ipc_send`. -/
theorem sync_after_fork_panics : ∃ t p k, ProcRun 0x806 smallTree [.fork 0 1] t ∧ t 0 = some p ∧ t 1 = some k ∧
    ∀ m ∈ [p, k], m.request (fun _ => true) (some 500) 0x806 .sync = some m ∧
      ipcTrySend ⟨true, true, true⟩ m.space 0x806 sendPerm = -eInval ∧
      ipcSend m.space 0x806 sendPerm [⟨true, true, true⟩] = .panic (-eInval) := by
  obtain ⟨t, p, k, hrun, hp, hk⟩ := smallTree_forks
  have hbuf := TreeBuffered.run ⟨by decide, by decide⟩ smallTree_started hrun
  refine ⟨t, p, k, hrun, hp, hk, fun m hm => ?_⟩
  have hm' : Buffered 0x806 false m := by
    rcases List.mem_cons.mp hm with rfl | hm
    · exact hbuf 0 _ hp
    · rw [List.mem_singleton] at hm
      exact hm ▸ hbuf 1 _ hk
  have hsend := hm'.refused (by decide) true
  refine ⟨rfl, hsend, ?_⟩
  unfold ipcSend
  simp only [hsend]
  rfl

end Jos.User
