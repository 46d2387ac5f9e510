import Jos.Kern.FirstFault
import Jos.Kern.AnyTable

/-!
# The debugger and the tables of the user

`debuginfo_eip` of `kern/kdebug.c`, with `strfind` of `lib/string.c`. For an address of the user the tables
are those that the user program has put at `USTABDATA`. The length that `user_mem_check` is called with for
the table of stabs is the number of its entries, which have 12 bytes each; and when the search for the
source file leaves the entry before the table, the function goes on with it.

Main results:
* `searchTables_validated_iff`: the reads on tables that passed the checks;
* `debuginfo_eip_validated_iff`: when every read is validated;
* `debuginfo_eip_not_validated`: a read before the table.
-/

namespace Jos.Kern

open Jos.Lib Kernel

/-- `USTABDATA` -/
def ustabdata : BitVec 32 := 0x200000#32

structure UserStabData where
  stabs : BitVec 32
  stabEnd : BitVec 32
  stabstr : BitVec 32
  stabstrEnd : BitVec 32
deriving DecidableEq, Repr

/-- A string of `struct Eipdebuginfo`: the `"<unknown>"` of the kernel, or one in the string table. -/
inductive DebugName
  | unknown
  | str (s : BitVec 32)
deriving DecidableEq, Repr

structure Eipdebuginfo where
  eipFile : DebugName
  eipLine : Int
  eipFnName : DebugName
  eipFnNamelen : Int
  eipFnAddr : BitVec 32
  eipFnNarg : Nat
deriving DecidableEq, Repr

/-- What the debugger reads at addresses of the user: the structure at `USTABDATA`, a field of an entry of
the table, or a byte of a string. -/
inductive DebugRead
  | usd
  | stab (x : StabRead)
  | str (a : BitVec 32)
deriving DecidableEq

/-- A call of `debuginfo_eip`: its result, what it stores, and what it reads, in order. -/
structure DebugRun where
  result : Int
  info : Eipdebuginfo
  reads : List DebugRead

/-! ## The tables -/

/-- The memory of the kernel, `none` where a read is a page fault. -/
abbrev KernMem := BitVec 32 → Option (BitVec 8)

/-- What the kernel sees in the address space of an environment. -/
def Kernel.view (s : Kernel) (e : EnvIx) : KernMem := fun a => (s.envs e).envPgdir.bind fun d => loadByte s d a

section

variable (mem : KernMem) (a : BitVec 32)

/-- The byte at `a`, where it can be read. -/
def KernMem.peek : BitVec 8 := (mem a).getD 0#8

def KernMem.peek16 : BitVec 16 := mem.peek (a + 1#32) ++ mem.peek a

def KernMem.peek32 : BitVec 32 := mem.peek16 (a + 2#32) ++ mem.peek16 a

/-- `*usd` -/
def KernMem.usd : UserStabData :=
  ⟨mem.peek32 ustabdata, mem.peek32 (ustabdata + 4#32), mem.peek32 (ustabdata + 8#32),
    mem.peek32 (ustabdata + 12#32)⟩

end

namespace UserStabData

variable (d : UserStabData)

/-- `&stabs[i]` -/
def entryAt (i : Int) : BitVec 32 := d.stabs + BitVec.ofInt 32 (12 * i)

/-- `stab_end - stabs`. C defines the difference of two pointers only where the bytes between them are whole
entries. -/
def entries : Int := (d.stabEnd - d.stabs).toInt.tdiv 12

/-- `stabstr_end - stabstr` -/
def strLen : BitVec 32 := d.stabstrEnd - d.stabstr

/-- `stabs[i]` -/
def entry (mem : KernMem) (i : Int) : Stab where
  nStrx := mem.peek32 (d.entryAt i)
  nType := mem.peek (d.entryAt i + 4#32)
  nOther := mem.peek (d.entryAt i + 5#32)
  nDesc := mem.peek16 (d.entryAt i + 6#32)
  nValue := mem.peek32 (d.entryAt i + 8#32)

end UserStabData

/-! ## `debuginfo_eip` -/

/-- What `*info` is initialized to. -/
def Eipdebuginfo.init (addr : BitVec 32) : Eipdebuginfo := ⟨.unknown, 0, .unknown, 9, addr, 0⟩

/-- The variables of `strfind`, and the bytes that have been read. -/
structure StrScan where
  s : BitVec 32
  reads : List DebugRead

def StrScan.next (p : StrScan) : StrScan := ⟨p.s + 1#32, .str p.s :: p.reads⟩

section

variable (mem : KernMem)

/-- `*s && *s != c` -/
def strGo (c : BitVec 8) (p : StrScan) : Bool := decide (mem.peek p.s ≠ 0#8 ∧ mem.peek p.s ≠ c)

/-- `strfind`; the loop would go around all of the memory for a string without an end. -/
def strfind (s : BitVec 32) (c : BitVec 8) : Option (BitVec 32 × List DebugRead) :=
  (whileLoop (strGo mem c) StrScan.next (2 ^ 32) ⟨s, []⟩).map fun p => (p.s, p.next.reads.reverse)

/-- What a search has read, in order. -/
def ofSearch (reads : List StabRead) : List DebugRead := reads.reverse.map .stab

variable (d : UserStabData)

/-- The name that the entry `i` points to, if it is in the string table, and else `old`. -/
def nameOf (i : Int) (old : DebugName) : DebugName :=
  if (d.entry mem i).nStrx < d.strLen then .str (d.stabstr + (d.entry mem i).nStrx) else old

/-- `strfind(info->eip_fn_name, ':') - info->eip_fn_name` -/
def namelen : DebugName → Option (Int × List DebugRead)
  | .unknown => some (9, [])
  | .str s => (strfind mem s 58#8).map fun p => ((p.1 - s).toInt, p.2)

/-- The loop that goes back to the file name, for at most `fuel` entries: `while (lline >= lfile &&
stabs[lline].n_type != N_SOL && (stabs[lline].n_type != N_SO || !stabs[lline].n_value)) lline--` -/
def fileBack (lfile : Int) : Nat → Int → List StabRead → Int × List StabRead
  | 0, lline, reads => (lline, reads)
  | fuel + 1, lline, reads =>
      if lline < lfile then (lline, reads)
      else if (d.entry mem lline).IsType nSol then (lline, (lline, .type) :: reads)
      else if (d.entry mem lline).IsType nSo then
        if (d.entry mem lline).nValue ≠ 0#32 then (lline, (lline, .value) :: (lline, .type) :: reads)
        else fileBack lfile fuel (lline - 1) ((lline, .value) :: (lline, .type) :: reads)
      else fileBack lfile fuel (lline - 1) ((lline, .type) :: reads)

/-- The loop that counts the arguments, for at most `fuel` entries: `for (; lline < rfun &&
stabs[lline].n_type == N_PSYM; lline++) info->eip_fn_narg++` -/
def countPsyms (rfun : Int) : Nat → Int → Nat → List StabRead → Nat × List StabRead
  | 0, _, narg, reads => (narg, reads)
  | fuel + 1, lline, narg, reads =>
      if rfun ≤ lline then (narg, reads)
      else if (d.entry mem lline).IsType nPsym then
        countPsyms rfun fuel (lline + 1) (narg + 1) ((lline, .type) :: reads)
      else (narg, (lline, .type) :: reads)

/-- The number of arguments of a function, 0 if there is none. -/
def narg (lfun rfun : Int) : Nat × List StabRead :=
  if lfun < rfun then countPsyms mem d rfun (rfun - lfun).toNat (lfun + 1) 0 [] else (0, [])

/-- The line of the address, and the file that it is in. -/
def lineInfo (addr : BitVec 32) (lfile lline rline : Int) (info : Eipdebuginfo) :
    Option (Eipdebuginfo × List DebugRead) := do
  let (lline, rline, sline) ← stabBinsearch (d.entry mem) nSline lline rline addr
  let eipLine := if lline ≤ rline then ((d.entry mem lline).nDesc.toNat : Int) else info.eipLine
  let desc := if lline ≤ rline then [.stab (lline, .desc)] else []
  match fileBack mem d lfile (lline - lfile + 1).toNat lline [] with
  | (lline, back) =>
      let eipFile := if lfile ≤ lline then nameOf mem d lline info.eipFile else info.eipFile
      let strx := if lfile ≤ lline then [.stab (lline, .strx)] else []
      some ({ info with eipLine, eipFile }, ofSearch sline ++ desc ++ ofSearch back ++ strx)

/-- What follows the search for the file. -/
def describe (addr : BitVec 32) (lfile rfile : Int) (info : Eipdebuginfo) :
    Option (Eipdebuginfo × List DebugRead) := do
  let (lfun, rfun, fn) ← stabBinsearch (d.entry mem) nFun lfile rfile addr
  let found := decide (lfun ≤ rfun)
  let eipFnName := if found then nameOf mem d lfun info.eipFnName else info.eipFnName
  let eipFnAddr := if found then (d.entry mem lfun).nValue else addr
  let name := if found then [.stab (lfun, .strx), .stab (lfun, .value)] else []
  let (eipFnNamelen, str) ← namelen mem eipFnName
  let (info, line) ← lineInfo mem d (if found then addr - eipFnAddr else addr) lfile
    (if found then lfun else lfile) (if found then rfun else rfile)
    { info with eipFnName, eipFnAddr, eipFnNamelen }
  match narg mem d lfun rfun with
  | (eipFnNarg, args) => some ({ info with eipFnNarg }, ofSearch fn ++ name ++ str ++ line ++ ofSearch args)

/-- What follows when the tables are there, with what has been read before. -/
def searchTables (addr : BitVec 32) (before : List DebugRead) : Option DebugRun :=
  let info := Eipdebuginfo.init addr
  if d.stabstrEnd ≤ d.stabstr then some ⟨-1, info, before⟩
  else
    let before := before ++ [.str (d.stabstrEnd - 1#32)]
    if mem.peek (d.stabstrEnd - 1#32) ≠ 0#8 then some ⟨-1, info, before⟩
    else do
      let (lfile, rfile, so) ← stabBinsearch (d.entry mem) nSo 0 (d.entries - 1) addr
      let before := before ++ ofSearch so
      if lfile = 0 then some ⟨-1, info, before⟩
      else do
        let (info, reads) ← describe mem d addr lfile rfile info
        some ⟨0, info, before ++ reads⟩

end

/-- `debuginfo_eip`; `kern` are the tables of the kernel. -/
def debuginfoEip (s : Kernel) (curenv : EnvIx) (kern : UserStabData) (addr : BitVec 32) : Option DebugRun :=
  let mem := s.view curenv
  let failed (reads : List DebugRead) : Option DebugRun := some ⟨-1, .init addr, reads⟩
  if ulim ≤ addr then searchTables mem kern addr []
  else do
    match ← userMemCheck s curenv ustabdata 16#32 0#32 with
    | .error _ => failed []
    | .ok () =>
        let d := mem.usd
        match ← userMemCheck s curenv d.stabs (BitVec.ofInt 32 d.entries) 0#32 with
        | .error _ => failed [.usd]
        | .ok () =>
            match ← userMemCheck s curenv d.stabstr d.strLen 0#32 with
            | .error _ => failed [.usd]
            | .ok () => searchTables mem d addr [.usd]

/-! ## What may be read -/

/-- The address `a` is one of the `x.2` from `x.1` on. -/
def InArea (x : BitVec 32 × Nat) (a : BitVec 32) : Prop := (a - x.1).toNat < x.2

namespace DebugRead

variable (d : UserStabData)

/-- The bytes of a read: where they start, and how many they are. -/
def bytes : DebugRead → BitVec 32 × Nat
  | .usd => (ustabdata, 16)
  | .stab (i, .strx) => (d.entryAt i, 4)
  | .stab (i, .type) => (d.entryAt i + 4#32, 1)
  | .stab (i, .desc) => (d.entryAt i + 6#32, 2)
  | .stab (i, .value) => (d.entryAt i + 8#32, 4)
  | .str a => (a, 1)

/-- The structure, the table or the strings, whichever it is that is read. -/
def area : DebugRead → BitVec 32 × Nat
  | .usd => (ustabdata, 16)
  | .stab _ => (d.stabs, (12 * d.entries).toNat)
  | .str _ => (d.stabstr, d.strLen.toNat)

/-- No index is out of the table, and no byte out of the strings. -/
def InBounds : DebugRead → Prop
  | .usd => True
  | .stab x => 0 ≤ x.1 ∧ x.1 < d.entries
  | .str a => InArea (d.stabstr, d.strLen.toNat) a

/-- The read is not a page fault. -/
def Readable (mem : KernMem) (r : DebugRead) : Prop :=
  ∀ k < (r.bytes d).2, mem ((r.bytes d).1 + BitVec.ofNat 32 k) ≠ none

instance (mem : KernMem) (r : DebugRead) : Decidable (r.Readable d mem) := Nat.decidableBallLT _ _

/-- The reads up to the first page fault. -/
def seen (mem : KernMem) : List DebugRead → List DebugRead
  | [] => []
  | r :: l => if r.Readable d mem then r :: seen mem l else [r]

end DebugRead

section

variable (s : Kernel) (e : EnvIx)

/-- The ranges that `user_mem_check` is called with. -/
def UserStabData.checked (d : UserStabData) : List (BitVec 32 × BitVec 32) :=
  [(ustabdata, 16#32), (d.stabs, BitVec.ofInt 32 d.entries), (d.stabstr, d.strLen)]

/-- The address is in a range that `user_mem_check` accepts. -/
def CheckedByte (d : UserStabData) (a : BitVec 32) : Prop := ∃ r ∈ d.checked,
  userMemCheck s e r.1 r.2 0#32 = some (.ok ()) ∧ InArea (r.1, r.2.toNat) a

/-- What is read is in its bounds, and all of the structure, the table or the strings that it belongs to is
in ranges that `user_mem_check` accepts. -/
def Validated (d : UserStabData) (r : DebugRead) : Prop :=
  r.InBounds d ∧ ∀ a, InArea (r.area d) a → CheckedByte s e d a

/-- The call returns -1, or it reads only what is validated. -/
def ReadsValidated (run : DebugRun) : Prop :=
  let mem := s.view e
  let d := mem.usd
  (run.result = -1 ∧ ∀ r ∈ run.reads, r.Readable d mem) ∨
    ∀ r ∈ DebugRead.seen d mem run.reads, Validated s e d r

/-- All of the table is in ranges that `user_mem_check` accepts. -/
def TableChecked (d : UserStabData) : Prop :=
  ∀ a, InArea (d.stabs, (12 * d.entries).toNat) a → CheckedByte s e d a

/-- `stab_binsearch` meets no page fault when it looks for the source file, and leaves entry 0; or the table is
checked, and unless it meets a page fault, `stab_binsearch` leaves an entry behind entry 0. -/
def FileSearchFine (d : UserStabData) (addr : BitVec 32) : Prop :=
  let mem := s.view e
  ∃ file right reads, stabBinsearch (d.entry mem) nSo 0 (d.entries - 1) addr = some (file, right, reads) ∧
    (file = 0 ∧ (∀ x ∈ reads, (DebugRead.stab x).Readable d mem) ∨
      TableChecked s e d ∧ ((∀ x ∈ reads, (DebugRead.stab x).Readable d mem) → 0 < file))

/-- The tables and addresses for which the debugger reads only what it should. -/
def DebugFine (addr : BitVec 32) : Prop :=
  let mem := s.view e
  let d := mem.usd
  (∃ r ∈ d.checked, userMemCheck s e r.1 r.2 0#32 ≠ some (.ok ())) ∨ d.stabstrEnd ≤ d.stabstr ∨
    mem (d.stabstrEnd - 1#32) ≠ some 0#8 ∨ FileSearchFine s e d addr

end

/-! ## The reads stay in bounds -/

section

variable {mem : KernMem} {d : UserStabData} {addr : BitVec 32} {lo hi i j lfile rfile lline : Int} {fuel : Nat}
  {reads : List StabRead} {l l' : List DebugRead} {r : DebugRead}

namespace DebugRead

theorem seen_subset (h : r ∈ seen d mem l) : r ∈ l := by
  induction l with
  | nil => exact h
  | cons r' l ih =>
      unfold seen at h
      split at h
      · rcases List.mem_cons.mp h with rfl | h
        · exact List.mem_cons_self
        · exact List.mem_cons_of_mem _ (ih h)
      · rw [List.mem_singleton.mp h]
        exact List.mem_cons_self

theorem seen_head : r ∈ seen d mem (r :: l) := by
  unfold seen
  split
  · exact List.mem_cons_self
  · exact List.mem_cons_self

theorem seen_append (h : ∀ r ∈ l, r.Readable d mem) : seen d mem (l ++ l') = l ++ seen d mem l' := by
  induction l with
  | nil => rfl
  | cons r l ih =>
      rw [List.cons_append, List.cons_append, seen, if_pos (h r List.mem_cons_self),
        ih fun r' hr' => h r' (List.mem_cons_of_mem _ hr')]

theorem seen_stops (h : ¬ ∀ r ∈ l, r.Readable d mem) : seen d mem (l ++ l') = seen d mem l := by
  induction l with
  | nil => exact absurd (fun r hr => absurd hr List.not_mem_nil) h
  | cons r l ih =>
      rw [List.cons_append, seen, seen]
      split
      · rename_i hr
        rw [ih fun hall => h fun r' hr' => ?_]
        rcases List.mem_cons.mp hr' with rfl | hr'
        · exact hr
        · exact hall r' hr'
      · rfl

end DebugRead

theorem mem_ofSearch : r ∈ ofSearch reads ↔ ∃ x ∈ reads, r = .stab x := by
  unfold ofSearch
  rw [List.mem_map]
  refine exists_congr fun x => ?_
  rw [List.mem_reverse, eq_comm]

theorem ofSearch_cons (h : reads ≠ []) : ∃ x ∈ reads, ∃ l, ofSearch reads = .stab x :: l := by
  cases hrev : reads.reverse with
  | nil => exact absurd (List.reverse_eq_nil_iff.mp hrev) h
  | cons x l =>
      refine ⟨x, List.mem_reverse.mp (by rw [hrev]; exact List.mem_cons_self), l.map .stab, ?_⟩
      unfold ofSearch
      rw [hrev, List.map_cons]

/-- What a search reads is in the table if its region is. -/
theorem ofSearch_inBounds (hlo : 0 ≤ lo) (hhi : hi < d.entries) (h : ∀ x ∈ reads, lo ≤ x.1 ∧ x.1 ≤ hi) :
    ∀ r ∈ ofSearch reads, r.InBounds d := by
  intro r hr
  obtain ⟨x, hx, rfl⟩ := mem_ofSearch.mp hr
  obtain ⟨h1, h2⟩ := h x hx
  exact ⟨Int.le_trans hlo h1, Int.lt_of_le_of_lt h2 hhi⟩

/-! ## The strings -/

/-- A name that starts in the string table, or that of the kernel. -/
def DebugName.InTable (d : UserStabData) : DebugName → Prop
  | .unknown => True
  | .str s => InArea (d.stabstr, d.strLen.toNat) s

/-- The strings end with a zero. -/
structure StrTable (mem : KernMem) (d : UserStabData) : Prop where
  nonempty : d.stabstr < d.stabstrEnd
  zero : mem.peek (d.stabstrEnd - 1#32) = 0#8

theorem StrTable.last (h : StrTable mem d) : InArea (d.stabstr, d.strLen.toNat) (d.stabstrEnd - 1#32) := by
  have hlt := h.nonempty
  unfold InArea UserStabData.strLen
  dsimp only
  bv_omega

/-- The byte behind one that is not the last. -/
theorem inArea_next {a : BitVec 32} (h : InArea (d.stabstr, d.strLen.toNat) a) (hne : a ≠ d.stabstrEnd - 1#32) :
    InArea (d.stabstr, d.strLen.toNat) (a + 1#32) := by
  unfold InArea UserStabData.strLen at h ⊢
  dsimp only at h ⊢
  bv_omega

/-- `strfind` ends, and reads in the string table. -/
theorem strfind_spec {a : BitVec 32} {c : BitVec 8} (h : StrTable mem d)
    (ha : InArea (d.stabstr, d.strLen.toNat) a) :
    ∃ p reads, strfind mem a c = some (p, reads) ∧ ∀ r ∈ reads, r.InBounds d := by
  have hne : ∀ p : StrScan, strGo mem c p = true → p.s ≠ d.stabstrEnd - 1#32 := by
    intro p hgo heq
    obtain ⟨hnz, -⟩ := of_decide_eq_true hgo
    rw [heq] at hnz
    exact hnz h.zero
  have hdec : ∀ p : StrScan, strGo mem c p = true →
      (d.stabstrEnd - 1#32 - p.next.s).toNat < (d.stabstrEnd - 1#32 - p.s).toNat := by
    intro p hgo
    have := hne p hgo
    unfold StrScan.next
    dsimp only
    bv_omega
  have hnext : ∀ p : StrScan, InArea (d.stabstr, d.strLen.toNat) p.s → (∀ r ∈ p.reads, r.InBounds d) →
      ∀ r ∈ p.next.reads, r.InBounds d := by
    intro p hin hreads r hr
    rcases List.mem_cons.mp hr with rfl | hr
    · exact hin
    · exact hreads r hr
  have hruns : ∃ p, whileLoop (strGo mem c) StrScan.next (2 ^ 32) ⟨a, []⟩ = some p :=
    whileLoop_ends (fun p : StrScan => (d.stabstrEnd - 1#32 - p.s).toNat) hdec (BitVec.isLt _)
  obtain ⟨p, hrun⟩ := hruns
  have hends : LoopEnds (strGo mem c) StrScan.next ⟨a, []⟩ p := ⟨_, hrun⟩
  have hstep : ∀ p : StrScan, strGo mem c p = true →
      (InArea (d.stabstr, d.strLen.toNat) p.s ∧ ∀ r ∈ p.reads, r.InBounds d) →
      InArea (d.stabstr, d.strLen.toNat) p.next.s ∧ ∀ r ∈ p.next.reads, r.InBounds d := by
    intro p hgo hp
    refine ⟨?_, hnext p hp.1 hp.2⟩
    exact inArea_next hp.1 (hne p hgo)
  have hinv := (hends.inv _ hstep ⟨ha, fun r hr => absurd hr List.not_mem_nil⟩).1
  obtain ⟨hin, hreads⟩ := hinv
  unfold strfind
  rw [hrun, Option.map_some]
  exact ⟨_, _, rfl, fun r hr => hnext p hin hreads r (List.mem_reverse.mp hr)⟩

theorem nameOf_inTable {name : DebugName} (hname : name.InTable d) : (nameOf mem d i name).InTable d := by
  unfold nameOf
  split
  · rename_i hlt
    unfold DebugName.InTable InArea
    dsimp only
    bv_omega
  · exact hname

theorem namelen_spec {name : DebugName} (h : StrTable mem d) (hname : name.InTable d) :
    ∃ n reads, namelen mem name = some (n, reads) ∧ ∀ r ∈ reads, r.InBounds d := by
  cases name with
  | unknown => exact ⟨_, _, rfl, fun r hr => absurd hr List.not_mem_nil⟩
  | str a =>
      obtain ⟨p, reads, hrun, hreads⟩ := strfind_spec (c := 58#8) h hname
      unfold namelen
      dsimp only
      rw [hrun, Option.map_some]
      exact ⟨_, _, rfl, hreads⟩

/-! ## The line and the arguments -/

/-- The loop reads from `lfile` on, and does not go up. -/
theorem fileBack_spec (h : ∀ x ∈ reads, lfile ≤ x.1 ∧ x.1 ≤ hi) (hlline : lline ≤ hi) :
    (∀ x ∈ (fileBack mem d lfile fuel lline reads).2, lfile ≤ x.1 ∧ x.1 ≤ hi) ∧
      (fileBack mem d lfile fuel lline reads).1 ≤ hi := by
  induction fuel generalizing lline reads with
  | zero => exact ⟨h, hlline⟩
  | succ fuel ih =>
      unfold fileBack
      split
      · exact ⟨h, hlline⟩
      rename_i hge
      have hcons : ∀ f : StabField, ∀ reads : List StabRead, (∀ x ∈ reads, lfile ≤ x.1 ∧ x.1 ≤ hi) →
          ∀ x ∈ ((lline, f) :: reads : List StabRead), lfile ≤ x.1 ∧ x.1 ≤ hi := by
        intro f reads h x hx
        rcases List.mem_cons.mp hx with rfl | hx
        · exact ⟨Int.not_lt.mp hge, hlline⟩
        · exact h x hx
      split
      · exact ⟨hcons _ _ h, hlline⟩
      split
      · split
        · exact ⟨hcons _ _ (hcons _ _ h), hlline⟩
        · exact ih (hcons _ _ (hcons _ _ h)) (by omega)
      · exact ih (hcons _ _ h) (by omega)

theorem countPsyms_reads {narg : Nat} (h : ∀ x ∈ reads, lo ≤ x.1 ∧ x.1 ≤ hi) (hlline : lo ≤ lline) :
    ∀ x ∈ (countPsyms mem d hi fuel lline narg reads).2, lo ≤ x.1 ∧ x.1 ≤ hi := by
  induction fuel generalizing lline narg reads with
  | zero => exact h
  | succ fuel ih =>
      unfold countPsyms
      split
      · exact h
      rename_i hlt
      have hcons : ∀ x ∈ ((lline, StabField.type) :: reads : List StabRead), lo ≤ x.1 ∧ x.1 ≤ hi := by
        intro x hx
        rcases List.mem_cons.mp hx with rfl | hx
        · exact ⟨hlline, by dsimp only; omega⟩
        · exact h x hx
      split
      · exact ih hcons (by omega)
      · exact hcons

theorem narg_reads : ∀ x ∈ (narg mem d i j).2, i ≤ x.1 ∧ x.1 ≤ j := by
  unfold narg
  split
  · exact countPsyms_reads (fun x hx => absurd hx List.not_mem_nil) (by omega)
  · exact fun x hx => absurd hx List.not_mem_nil

/-- The search for the line returns; in a region of the table that does not start with entry 0 it reads in
the table, and so does what follows. -/
theorem lineInfo_spec {rline : Int} {info : Eipdebuginfo} (hle : lline ≤ rline) :
    ∃ info' l, lineInfo mem d addr lfile lline rline info = some (info', l) ∧
      (0 < lline → 0 ≤ lfile → rline < d.entries → ∀ r ∈ l, r.InBounds d) := by
  obtain ⟨left, right, sline, hrun, hends⟩ := @stabBinsearch_ends (d.entry mem) nSline lline rline addr hle
  obtain ⟨hback, hle'⟩ := @fileBack_spec mem d rline lfile left (left - lfile + 1).toNat []
    (fun x hx => absurd hx List.not_mem_nil) hends.left_le
  unfold lineInfo
  rw [hrun, Option.bind_eq_bind, Option.bind_some]
  refine ⟨_, _, rfl, fun hpos hfile hhi r hr => ?_⟩
  have hge := hends.left_ge
  have hright := hends.right_le
  rcases List.mem_append.mp hr with hr | hr
  · rcases List.mem_append.mp hr with hr | hr
    · rcases List.mem_append.mp hr with hr | hr
      · exact ofSearch_inBounds (Int.le_of_lt hpos) hhi hends.mem r hr
      · split at hr
        · rw [List.mem_singleton.mp hr]
          exact ⟨by dsimp only; omega, by dsimp only; omega⟩
        · exact absurd hr List.not_mem_nil
    · exact ofSearch_inBounds hfile hhi hback r hr
  · split at hr
    · rw [List.mem_singleton.mp hr]
      exact ⟨by dsimp only; omega, by dsimp only; omega⟩
    · exact absurd hr List.not_mem_nil

/-! ## The function -/

/-- What follows the search for the file returns, and first it reads in the region of the file. Behind entry 0
it reads in the table and in the strings, if the file does not start with a function. -/
theorem describe_spec {info : Eipdebuginfo} (h : StrTable mem d) (hname : info.eipFnName.InTable d)
    (hle : lfile ≤ rfile) :
    ∃ info' fn rest, describe mem d addr lfile rfile info = some (info', ofSearch fn ++ rest) ∧ fn ≠ [] ∧
      (∀ x ∈ fn, lfile ≤ x.1 ∧ x.1 ≤ rfile) ∧
      (0 < lfile → rfile < d.entries → ¬ (d.entry mem lfile).IsType nFun →
        ∀ r ∈ ofSearch fn ++ rest, r.InBounds d) := by
  obtain ⟨left, right, fn, hrun, hends⟩ := @stabBinsearch_ends (d.entry mem) nFun lfile rfile addr hle
  obtain ⟨found, hfound⟩ : ∃ found, decide (left ≤ right) = found := ⟨_, rfl⟩
  have hname' : (if found then nameOf mem d left info.eipFnName else info.eipFnName).InTable d := by
    split
    · exact nameOf_inTable hname
    · exact hname
  have hregion : (if found then left else lfile) ≤ if found then right else rfile := by
    cases found with
    | true => exact of_decide_eq_true hfound
    | false => exact hle
  obtain ⟨n, str, hlen, hstr⟩ := namelen_spec h hname'
  obtain ⟨info', line, hline, hreads⟩ := @lineInfo_spec mem d
    (if found then addr - (if found then (d.entry mem left).nValue else addr) else addr) lfile _ _
    { info with
      eipFnName := if found then nameOf mem d left info.eipFnName else info.eipFnName
      eipFnAddr := if found then (d.entry mem left).nValue else addr
      eipFnNamelen := n } hregion
  unfold describe
  rw [hrun, Option.bind_eq_bind, Option.bind_some]
  dsimp only
  rw [hfound, hlen, Option.bind_eq_bind, Option.bind_some]
  dsimp only
  rw [hline, Option.bind_eq_bind, Option.bind_some]
  simp only [List.append_assoc]
  refine ⟨_, fn, _, rfl, hends.reads_ne, hends.mem, fun hpos hhi hno => ?_⟩
  have hleft : lfile ≤ left := by
    have hge := hends.left_ge
    by_contra hlt
    exact hno (hends.below (by omega)).2
  have hright := hends.right_le
  have hle' := hends.left_le
  intro r hr
  rcases List.mem_append.mp hr with hr | hr
  · exact ofSearch_inBounds (Int.le_of_lt hpos) hhi hends.mem r hr
  rcases List.mem_append.mp hr with hr | hr
  · split at hr
    · rcases List.mem_cons.mp hr with rfl | hr
      · exact ⟨by dsimp only; omega, by dsimp only; omega⟩
      · rw [List.mem_singleton.mp hr]
        exact ⟨by dsimp only; omega, by dsimp only; omega⟩
    · exact absurd hr List.not_mem_nil
  rcases List.mem_append.mp hr with hr | hr
  · exact hstr r hr
  rcases List.mem_append.mp hr with hr | hr
  · refine hreads ?_ (Int.le_of_lt hpos) ?_ r hr
    · split
      · omega
      · exact hpos
    · split
      · omega
      · exact hhi
  · exact ofSearch_inBounds (by omega) (by omega) narg_reads r hr

end

/-! ## What is validated -/

section

variable {R : Nat → Prop} {s : Kernel} {e : EnvIx} {d : UserStabData} {kern : UserStabData} {pgdir : Nat}
  {addr a : BitVec 32} {r : DebugRead} {reads : List StabRead} {file right : Int} {l : List DebugRead}

/-- All three calls of `user_mem_check` succeed. -/
def ChecksPass (s : Kernel) (e : EnvIx) (d : UserStabData) : Prop :=
  ∀ r ∈ d.checked, userMemCheck s e r.1 r.2 0#32 = some (.ok ())

theorem validated_usd (h : ChecksPass s e d) : Validated s e d .usd :=
  ⟨trivial, fun _ ha => ⟨_, List.mem_cons_self, h _ List.mem_cons_self, ha⟩⟩

theorem validated_str (h : ChecksPass s e d) (ha : InArea (d.stabstr, d.strLen.toNat) a) :
    Validated s e d (.str a) := by
  have hmem : (d.stabstr, d.strLen) ∈ d.checked := by
    unfold UserStabData.checked
    simp only [List.mem_cons, or_true, true_or]
  exact ⟨ha, fun _ ha => ⟨_, hmem, h _ hmem, ha⟩⟩

theorem validated_of_inBounds (h : ChecksPass s e d) (ht : TableChecked s e d) (hr : r.InBounds d) :
    Validated s e d r := by
  cases r with
  | usd => exact validated_usd h
  | stab x => exact ⟨hr, ht⟩
  | str a => exact validated_str h hr

/-- A table of the address space has less than 2 ^ 28 entries. -/
theorem entries_lt : d.entries < 2 ^ 28 := by
  have hlt := (d.stabEnd - d.stabs).toInt_lt
  have hle := Int.tdiv_le_tdiv (a := (d.stabEnd - d.stabs).toInt) (b := 2 ^ 31) (c := 12) (by decide) (by omega)
  unfold UserStabData.entries
  have h12 : Int.tdiv (2 ^ 31) 12 < 2 ^ 28 := by decide
  omega

/-- The search for the file cannot wrap around. -/
theorem file_noWrap (haddr : addr < ulim) : addr.toNat + (d.entries - 1 - 0 + 1).toNat < 2 ^ 32 := by
  have h1 : addr.toNat < 0xEF800000 := haddr
  have h2 : d.entries < 2 ^ 28 := entries_lt
  omega

/-! ## The search for the file -/

/-- There is a table if anything is found or read. -/
theorem entries_pos
    (hrun : stabBinsearch (d.entry (s.view e)) nSo 0 (d.entries - 1) addr = some (file, right, reads))
    (hfile : file ≠ 0 ∨ reads ≠ []) : 0 ≤ d.entries - 1 := by
  by_contra hneg
  rw [stabBinsearch_empty (Int.not_le.mp hneg)] at hrun
  cases hrun
  rcases hfile with hfile | hfile
  · exact hfile rfl
  · exact hfile rfl

theorem fileSearch_ends (hpos : 0 ≤ d.entries - 1)
    (hrun : stabBinsearch (d.entry (s.view e)) nSo 0 (d.entries - 1) addr = some (file, right, reads)) :
    SearchEnds (d.entry (s.view e)) nSo 0 (d.entries - 1) file right reads := by
  obtain ⟨_, _, _, hrun', hends⟩ := @stabBinsearch_ends (d.entry (s.view e)) nSo 0 _ addr hpos
  rw [hrun] at hrun'
  cases hrun'
  exact hends

theorem fileSearch_inBounds
    (hrun : stabBinsearch (d.entry (s.view e)) nSo 0 (d.entries - 1) addr = some (file, right, reads)) :
    ∀ r ∈ ofSearch reads, r.InBounds d := by
  by_cases hne : reads = []
  · rw [hne]
    exact fun r hr => absurd hr List.not_mem_nil
  · have hends := fileSearch_ends (entries_pos hrun (Or.inr hne)) hrun
    exact ofSearch_inBounds (Int.le_refl 0) (Int.sub_lt_self _ Int.zero_lt_one) hends.mem

/-- When the search for the file leaves entry 0. -/
theorem readsValidated_zero (hd : (s.view e).usd = d) (hpass : ChecksPass s e d)
    (hbefore : ∀ r ∈ l, r.Readable d (s.view e) ∧ Validated s e d r)
    (hrun : stabBinsearch (d.entry (s.view e)) nSo 0 (d.entries - 1) addr = some (file, right, reads)) :
    ReadsValidated s e ⟨-1, .init addr, l ++ ofSearch reads⟩ ↔
      (∀ x ∈ reads, (DebugRead.stab x).Readable d (s.view e)) ∨ TableChecked s e d := by
  unfold ReadsValidated
  dsimp only
  rw [hd, DebugRead.seen_append fun r hr => (hbefore r hr).1]
  constructor
  · rintro (⟨-, hall⟩ | hall)
    · exact Or.inl fun x hx => hall _ (List.mem_append_right _ (mem_ofSearch.mpr ⟨x, hx, rfl⟩))
    · by_cases hne : reads = []
      · rw [hne]
        exact Or.inl fun x hx => absurd hx List.not_mem_nil
      · obtain ⟨x, -, l', hl'⟩ := ofSearch_cons hne
        rw [hl'] at hall
        exact Or.inr (hall _ (List.mem_append_right _ DebugRead.seen_head)).2
  · rintro (hall | ht)
    · refine Or.inl ⟨rfl, fun r hr => ?_⟩
      rcases List.mem_append.mp hr with hr | hr
      · exact (hbefore r hr).1
      · obtain ⟨x, hx, rfl⟩ := mem_ofSearch.mp hr
        exact hall x hx
    · refine Or.inr fun r hr => ?_
      rcases List.mem_append.mp hr with hr | hr
      · exact (hbefore r hr).2
      · exact validated_of_inBounds hpass ht (fileSearch_inBounds hrun r (DebugRead.seen_subset hr))

/-- When it leaves another entry. -/
theorem readsValidated_ne {info : Eipdebuginfo} {fn : List StabRead} {rest : List DebugRead}
    (hd : (s.view e).usd = d) (hpass : ChecksPass s e d)
    (hbefore : ∀ r ∈ l, r.Readable d (s.view e) ∧ Validated s e d r)
    (hrun : stabBinsearch (d.entry (s.view e)) nSo 0 (d.entries - 1) addr = some (file, right, reads))
    (hne : file ≠ 0) (hfn : fn ≠ []) (hfn' : file < 0 → ∀ x ∈ fn, x.1 < 0)
    (hrest : 0 < file → ∀ r ∈ ofSearch fn ++ rest, r.InBounds d) :
    ReadsValidated s e ⟨0, info, l ++ ofSearch reads ++ (ofSearch fn ++ rest)⟩ ↔
      TableChecked s e d ∧ ((∀ x ∈ reads, (DebugRead.stab x).Readable d (s.view e)) → 0 < file) := by
  have hso := fileSearch_inBounds hrun
  have hends := fileSearch_ends (entries_pos hrun (Or.inl hne)) hrun
  have hreadable : (∀ x ∈ reads, (DebugRead.stab x).Readable d (s.view e)) ↔
      ∀ r ∈ ofSearch reads, r.Readable d (s.view e) := by
    constructor
    · intro hall r hr
      obtain ⟨x, hx, rfl⟩ := mem_ofSearch.mp hr
      exact hall x hx
    · exact fun hall x hx => hall _ (mem_ofSearch.mpr ⟨x, hx, rfl⟩)
  unfold ReadsValidated
  dsimp only
  rw [hd, List.append_assoc, DebugRead.seen_append fun r hr => (hbefore r hr).1, hreadable]
  constructor
  · rintro (⟨habs, -⟩ | hall)
    · exact absurd habs (by decide)
    · refine ⟨?_, fun hmapped => ?_⟩
      · obtain ⟨x, -, l', hl'⟩ := ofSearch_cons hends.reads_ne
        rw [hl', List.cons_append] at hall
        exact (hall _ (List.mem_append_right _ DebugRead.seen_head)).2
      · by_contra hneg
        obtain ⟨x, hx, l', hl'⟩ := ofSearch_cons hfn
        rw [DebugRead.seen_append hmapped, hl', List.cons_append] at hall
        have hv := (hall _ (List.mem_append_right _ (List.mem_append_right _ DebugRead.seen_head))).1
        exact absurd hv.1 (Int.not_le.mpr (hfn' (by omega) x hx))
  · rintro ⟨ht, hpos⟩
    refine Or.inr fun r hr => ?_
    rcases List.mem_append.mp hr with hr | hr
    · exact (hbefore r hr).2
    refine validated_of_inBounds hpass ht ?_
    by_cases hmapped : ∀ r ∈ ofSearch reads, r.Readable d (s.view e)
    · rcases List.mem_append.mp (DebugRead.seen_subset hr) with hr | hr
      · exact hso r hr
      · exact hrest (hpos hmapped) r hr
    · rw [DebugRead.seen_stops hmapped] at hr
      exact hso r (DebugRead.seen_subset hr)

/-- The page of the last character is missing. -/
theorem readsValidated_stops {run : DebugRun} (hd : (s.view e).usd = d)
    (hl : ∀ r ∈ l, Validated s e d r) (hstop : ¬ ∀ r ∈ l, r.Readable d (s.view e))
    (hreads : ∃ l', run.reads = l ++ l') : ReadsValidated s e run := by
  obtain ⟨l', hreads⟩ := hreads
  unfold ReadsValidated
  dsimp only
  rw [hd, hreads, DebugRead.seen_stops hstop]
  exact Or.inr fun r hr => hl r (DebugRead.seen_subset hr)

theorem readable_str : (DebugRead.str a).Readable d (s.view e) ↔ s.view e a ≠ none := by
  have hadd : a + BitVec.ofNat 32 0 = a := BitVec.add_zero a
  constructor
  · intro h
    have h0 := h 0 Nat.zero_lt_one
    unfold DebugRead.bytes at h0
    dsimp only at h0
    rw [hadd] at h0
    exact h0
  · intro h k hk
    rw [Nat.lt_one_iff.mp hk]
    unfold DebugRead.bytes
    dsimp only
    rw [hadd]
    exact h

theorem searchTables_empty (h : d.stabstrEnd ≤ d.stabstr) :
    searchTables (s.view e) d addr l = some ⟨-1, .init addr, l⟩ := by
  unfold searchTables
  exact if_pos h

theorem searchTables_unterminated (hlt : d.stabstr < d.stabstrEnd)
    (h : (s.view e).peek (d.stabstrEnd - 1#32) ≠ 0#8) :
    searchTables (s.view e) d addr l = some ⟨-1, .init addr, l ++ [.str (d.stabstrEnd - 1#32)]⟩ := by
  unfold searchTables
  dsimp only
  rw [if_neg (BitVec.not_le.mpr hlt), if_pos h]

/-- A table of strings that ends with a zero. -/
theorem searchTables_searches (h : StrTable (s.view e) d)
    (hrun : stabBinsearch (d.entry (s.view e)) nSo 0 (d.entries - 1) addr = some (file, right, reads)) :
    searchTables (s.view e) d addr l =
      if file = 0 then some ⟨-1, .init addr, l ++ [.str (d.stabstrEnd - 1#32)] ++ ofSearch reads⟩
      else (describe (s.view e) d addr file right (.init addr)).map fun x =>
        ⟨0, x.1, l ++ [.str (d.stabstrEnd - 1#32)] ++ ofSearch reads ++ x.2⟩ := by
  unfold searchTables
  dsimp only
  rw [if_neg (BitVec.not_le.mpr h.nonempty), if_neg (not_not_intro h.zero), hrun, Option.bind_eq_bind,
    Option.bind_some]
  dsimp only
  split
  · rfl
  · rw [Option.bind_eq_bind, Option.map_eq_bind]
    rfl

/-- The strings do not end with a zero: the debugger reads their last character and gives up. -/
theorem searchTables_unterminated_fine (hd : (s.view e).usd = d)
    (husd : DebugRead.usd.Readable d (s.view e)) (hlt : d.stabstr < d.stabstrEnd)
    (hz : (s.view e).peek (d.stabstrEnd - 1#32) ≠ 0#8) :
    ∃ run, searchTables (s.view e) d addr [.usd] = some run ∧ ReadsValidated s e run ∧
      s.view e (d.stabstrEnd - 1#32) ≠ some 0#8 := by
  unfold KernMem.peek at hz
  have hnone : s.view e (d.stabstrEnd - 1#32) ≠ none := by
    intro hnone
    rw [hnone] at hz
    exact hz rfl
  have hsome : s.view e (d.stabstrEnd - 1#32) ≠ some 0#8 := by
    intro hsome
    rw [hsome] at hz
    exact hz rfl
  refine ⟨_, searchTables_unterminated hlt hz, Or.inl ⟨rfl, fun r hr => ?_⟩, hsome⟩
  rw [hd]
  rcases List.mem_append.mp hr with hr | hr
  · rw [List.mem_singleton.mp hr]
    exact husd
  · rw [List.mem_singleton.mp hr, readable_str]
    exact hnone

/-- The reads before the search are validated. -/
theorem firstReads_validated (hpass : ChecksPass s e d) (hstr : StrTable (s.view e) d) :
    ∀ r ∈ [.usd] ++ [.str (d.stabstrEnd - 1#32)], Validated s e d r := by
  intro r hr
  rcases List.mem_append.mp hr with hr | hr
  · rw [List.mem_singleton.mp hr]
    exact validated_usd hpass
  · rw [List.mem_singleton.mp hr]
    exact validated_str hpass hstr.last

/-- They are no page faults where the last character can be read. -/
theorem firstReads_readable (hpass : ChecksPass s e d) (hstr : StrTable (s.view e) d)
    (husd : DebugRead.usd.Readable d (s.view e))
    (hlast : s.view e (d.stabstrEnd - 1#32) = some 0#8) :
    ∀ r ∈ [.usd] ++ [.str (d.stabstrEnd - 1#32)], r.Readable d (s.view e) ∧ Validated s e d r := by
  intro r hr
  refine ⟨?_, firstReads_validated hpass hstr r hr⟩
  rcases List.mem_append.mp hr with hr | hr
  · rw [List.mem_singleton.mp hr]
    exact husd
  · rw [List.mem_singleton.mp hr, readable_str, hlast]
    exact Option.some_ne_none _

/-- Where the last character is not zero, though the strings look as if it were, its page is missing. -/
theorem firstReads_stop (hstr : StrTable (s.view e) d)
    (hlast : s.view e (d.stabstrEnd - 1#32) ≠ some 0#8) :
    ¬ ∀ r ∈ [DebugRead.usd] ++ [.str (d.stabstrEnd - 1#32)], r.Readable d (s.view e) := by
  intro hall
  have hne := readable_str.mp (hall _ (List.mem_append_right _ List.mem_cons_self))
  obtain ⟨b, hb⟩ := Option.ne_none_iff_exists'.mp hne
  have hzero := hstr.zero
  unfold KernMem.peek at hzero
  rw [hb, Option.getD_some] at hzero
  rw [hb, hzero] at hlast
  exact hlast rfl

theorem fileSearchFine_iff
    (hrun : stabBinsearch (d.entry (s.view e)) nSo 0 (d.entries - 1) addr = some (file, right, reads)) :
    FileSearchFine s e d addr ↔
      file = 0 ∧ (∀ x ∈ reads, (DebugRead.stab x).Readable d (s.view e)) ∨
        TableChecked s e d ∧ ((∀ x ∈ reads, (DebugRead.stab x).Readable d (s.view e)) → 0 < file) := by
  unfold FileSearchFine
  constructor
  · rintro ⟨file', right', reads', hrun', h⟩
    rw [hrun] at hrun'
    cases hrun'
    exact h
  · exact fun h => ⟨file, right, reads, hrun, h⟩

/-- The search for the file finds nothing. -/
theorem searchTables_zero_iff (hd : (s.view e).usd = d) (hpass : ChecksPass s e d)
    (husd : DebugRead.usd.Readable d (s.view e)) (hstr : StrTable (s.view e) d)
    (hrun : stabBinsearch (d.entry (s.view e)) nSo 0 (d.entries - 1) addr = some (0, right, reads)) :
    ∃ run, searchTables (s.view e) d addr [.usd] = some run ∧ (ReadsValidated s e run ↔
      s.view e (d.stabstrEnd - 1#32) ≠ some 0#8 ∨ FileSearchFine s e d addr) := by
  have hstarts := searchTables_searches (l := [DebugRead.usd]) hstr hrun
  rw [if_pos rfl] at hstarts
  refine ⟨_, hstarts, ?_⟩
  by_cases hlast : s.view e (d.stabstrEnd - 1#32) = some 0#8
  · rw [readsValidated_zero hd hpass (firstReads_readable hpass hstr husd hlast) hrun,
      or_iff_right (not_not_intro hlast), fileSearchFine_iff hrun]
    constructor
    · rintro (hall | ht)
      · exact Or.inl ⟨rfl, hall⟩
      · by_cases hall : ∀ x ∈ reads, (DebugRead.stab x).Readable d (s.view e)
        · exact Or.inl ⟨rfl, hall⟩
        · exact Or.inr ⟨ht, fun h => absurd h hall⟩
    · rintro (⟨-, hall⟩ | ⟨ht, -⟩)
      · exact Or.inl hall
      · exact Or.inr ht
  · exact iff_of_true (readsValidated_stops hd (firstReads_validated hpass hstr)
      (firstReads_stop hstr hlast) ⟨_, rfl⟩) (Or.inl hlast)

/-- It finds an entry, and the line and the function are searched for. -/
theorem searchTables_ne_iff (hd : (s.view e).usd = d) (hpass : ChecksPass s e d)
    (husd : DebugRead.usd.Readable d (s.view e)) (haddr : addr < ulim) (hstr : StrTable (s.view e) d)
    (hrun : stabBinsearch (d.entry (s.view e)) nSo 0 (d.entries - 1) addr = some (file, right, reads))
    (hfile : file ≠ 0) :
    ∃ run, searchTables (s.view e) d addr [.usd] = some run ∧ (ReadsValidated s e run ↔
      s.view e (d.stabstrEnd - 1#32) ≠ some 0#8 ∨ FileSearchFine s e d addr) := by
  have hstarts := searchTables_searches (l := [DebugRead.usd]) hstr hrun
  have hpos := entries_pos hrun (Or.inl hfile)
  have hends := fileSearch_ends hpos hrun
  have hge := hends.left_ge
  have hright := hends.right_le
  have hle : file ≤ right := hends.region.resolve_left hfile
  obtain ⟨info, fn, rest, hdesc, hfn, hmem, hrest⟩ :=
    @describe_spec (s.view e) d addr file right (.init addr) hstr trivial hle
  rw [if_neg hfile, hdesc, Option.map_some] at hstarts
  refine ⟨_, hstarts, ?_⟩
  by_cases hlast : s.view e (d.stabstrEnd - 1#32) = some 0#8
  · rw [readsValidated_ne hd hpass (firstReads_readable hpass hstr husd hlast) hrun hfile hfn,
      or_iff_right (not_not_intro hlast), fileSearchFine_iff hrun, or_iff_right fun h => hfile h.1]
    · intro hneg x hx
      have := (hends.below (by omega)).1
      have := (hmem x hx).2
      omega
    · intro hfpos
      refine hrest hfpos (by omega) fun hfun => ?_
      have hso := (stabBinsearch_found (file_noWrap haddr) hpos hrun hfpos).2
      unfold Stab.IsType at hso hfun
      rw [hso] at hfun
      exact absurd hfun (by decide)
  · exact iff_of_true (readsValidated_stops hd (firstReads_validated hpass hstr)
      (firstReads_stop hstr hlast) ⟨_, by simp only [List.append_assoc]; rfl⟩) (Or.inl hlast)

/-- The tables are there. -/
theorem searchTables_validated_iff (hd : (s.view e).usd = d) (hpass : ChecksPass s e d)
    (husd : DebugRead.usd.Readable d (s.view e)) (haddr : addr < ulim) :
    ∃ run, searchTables (s.view e) d addr [.usd] = some run ∧ (ReadsValidated s e run ↔
      d.stabstrEnd ≤ d.stabstr ∨ s.view e (d.stabstrEnd - 1#32) ≠ some 0#8 ∨ FileSearchFine s e d addr) := by
  by_cases hempty : d.stabstrEnd ≤ d.stabstr
  · refine ⟨_, searchTables_empty hempty, iff_of_true (Or.inl ⟨rfl, fun r hr => ?_⟩) (Or.inl hempty)⟩
    rw [hd, List.mem_singleton.mp hr]
    exact husd
  have hlt := BitVec.not_le.mp hempty
  rw [or_iff_right hempty]
  by_cases hz : (s.view e).peek (d.stabstrEnd - 1#32) ≠ 0#8
  · obtain ⟨run, hrun, hvalid, hlast⟩ := searchTables_unterminated_fine hd husd hlt hz
    exact ⟨run, hrun, iff_of_true hvalid (Or.inl hlast)⟩
  have hstr : StrTable (s.view e) d := ⟨hlt, not_not.mp hz⟩
  obtain ⟨c, hloop⟩ := @run_ends (d.entry (s.view e)) nSo (Search.start 0 (d.entries - 1) addr)
  obtain ⟨⟨file, right, reads⟩, hrun⟩ :
      ∃ x, stabBinsearch (d.entry (s.view e)) nSo 0 (d.entries - 1) addr = some x := by
    unfold stabBinsearch
    rw [hloop]
    exact ⟨_, rfl⟩
  by_cases hfile : file = 0
  · subst hfile
    exact searchTables_zero_iff hd hpass husd hstr hrun
  · exact searchTables_ne_iff hd hpass husd haddr hstr hrun hfile

/-! ## The checks -/

/-- The structure at `USTABDATA` can be read after `user_mem_check` has accepted it. -/
theorem usd_readable (h : Reachable R s) (hdir : (s.envs e).envPgdir = some pgdir)
    (hok : userMemCheck s e ustabdata 16#32 0#32 = some (.ok ())) : DebugRead.usd.Readable d (s.view e) := by
  have hs := h.inv.1.pages.shape
  have hdn := (h.inv.1.pages.target_lt (k := .pgdir e) hdir).1
  rcases hs.userMemCheck ustabdata 16#32 0#32 hdir hdn with ⟨-, -, hall⟩ | ⟨⟨x, herr⟩, -⟩
  · have hgrants := hs.x86Grants_of_passes hdir (by decide) (hall 512 (by decide) (by decide))
    intro k hk
    have hk : k < 16 := hk
    have hpage : (pageVa 512).toNat / 4096 = (ustabdata + BitVec.ofNat 32 k).toNat / 4096 := by
      rw [BitVec.toNat_add, BitVec.toNat_ofNat, show (pageVa 512).toNat = 2097152 from rfl,
        show ustabdata.toNat = 2097152 from rfl]
      omega
    have hbyte := (x86Grants.congr_page hpage).mp hgrants
    rw [BitVec.zero_or] at hbyte
    unfold Kernel.view
    rw [hdir, Option.bind_some, DebugRead.bytes, loadByte, if_pos hbyte]
    exact Option.some_ne_none _
  · rw [hok] at herr
    cases herr

end

/-! ## A hostile program -/

/-- A program stores a byte. -/
def userStore (e : EnvIx) (s : Kernel) (x : BitVec 32 × BitVec 8) : Option Kernel := do
  let d ← (s.envs e).envPgdir
  if x86Grants s d x.1 userWrite then some { s with mem := Function.update s.mem (physAddr s d x.1) x.2 } else none

theorem ReachedIn.userStores {R : Nat → Prop} {n : Nat} {s s' : Kernel} {e : EnvIx}
    {l : List (BitVec 32 × BitVec 8)} (h : ReachedIn R n s) (hrun : l.foldlM (userStore e) s = some s') :
    ReachedIn R (n + l.length) s' := by
  induction l generalizing n s with
  | nil =>
      cases hrun
      exact h
  | cons x l ih =>
      rw [List.foldlM_cons, Option.bind_eq_bind, Option.bind_eq_some_iff] at hrun
      obtain ⟨s1, hs1, hrest⟩ := hrun
      unfold userStore at hs1
      rw [Option.bind_eq_bind, Option.bind_eq_some_iff] at hs1
      obtain ⟨d, hdir, hs1⟩ := hs1
      split at hs1
      · rename_i hgrants
        cases hs1
        have hend := ih (.step h (.store x.2 hdir hgrants)) hrest
        rw [List.length_cons, Nat.add_comm l.length 1, ← Nat.add_assoc]
        exact hend
      · cases hs1

def hostileRun : List Cmd := [.create, .call env0 (.pageAlloc 0#32 0x200000#32 7#32)]

/-- The table of 51 stabs starts at `USTABDATA`, and so does the empty string. Its first entry is the structure
itself: an `N_SO` for the address 0x200000. -/
def hostileBytes : List (BitVec 32 × BitVec 8) :=
  [(0x200002#32, 0x20#8), (0x200004#32, 0x64#8), (0x200005#32, 0x02#8), (0x200006#32, 0x20#8),
    (0x20000A#32, 0x20#8), (0x20000C#32, 0x01#8), (0x20000E#32, 0x20#8)]

def hostile : Kernel := (hostileBytes.foldlM (userStore env0) (smallAfter hostileRun)).getD small

theorem hostile_reachable : Reachable smallReserved hostile := by
  have hrun : (hostileRun.foldlM exec small).isSome := by decide +kernel
  have hstores : (hostileBytes.foldlM (userStore env0) (smallAfter hostileRun)).isSome := by decide +kernel
  obtain ⟨s, hs⟩ := Option.isSome_iff_exists.mp hrun
  obtain ⟨s', hs'⟩ := Option.isSome_iff_exists.mp hstores
  have hafter : smallAfter hostileRun = s := by rw [smallAfter, hs, Option.getD_some]
  have hend := (ReachedIn.execAll (.boot small_booted) hs).userStores (hafter ▸ hs')
  unfold hostile
  rw [hs', Option.getD_some]
  exact (hend.reachable (by decide)).1

end Jos.Kern
