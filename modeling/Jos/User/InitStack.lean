import Jos.User.CString
import Jos.User.Spawn

/-!
# The arguments of a new program

`init_stack` of `lib/spawn.c`: it lays out the arguments on a page at `UTEMP`, which then becomes the
stack of the child. The addresses are computed downwards from the end of the page in words of 32 bits,
and one comparison tells whether all of it fits. Where the space that is needed wraps around, the
comparison may let it pass.

Main results:
* `init_stack_iff`: which arguments are handed over or refused as they should be;
* `init_stack_faults`: arguments with which it faults.
-/

namespace Jos.User

open Jos.Lib Jos.Kern Kernel

/-- The memory of the caller: which pages it can read and write, and where it has stored something
since `init_stack` was called. A store to a copy-on-write page succeeds, so such a page is writable. -/
structure UserMem where
  bytes : Mem
  readable : Nat → Bool
  writable : Nat → Bool
  log : List Nat

def UserMem.load (m : UserMem) (a : BitVec 32) : Option (BitVec 8) :=
  if m.readable (a.toNat / 4096) then some (m.bytes a.toNat) else none

def UserMem.load32 (m : UserMem) (a : BitVec 32) : Option (BitVec 32) :=
  if m.readable (a.toNat / 4096) ∧ m.readable ((a.toNat + 3) / 4096) then some (m.bytes.read32 a.toNat)
  else none

def UserMem.store (m : UserMem) (a : BitVec 32) (b : BitVec 8) : Option UserMem :=
  if m.writable (a.toNat / 4096) then
    some { m with bytes := Function.update m.bytes a.toNat b, log := a.toNat :: m.log }
  else none

def UserMem.store32 (m : UserMem) (a v : BitVec 32) : Option UserMem :=
  if m.writable (a.toNat / 4096) ∧ m.writable ((a.toNat + 3) / 4096) then
    some { m with
      bytes := m.bytes.write32 a.toNat v
      log := a.toNat :: (a.toNat + 1) :: (a.toNat + 2) :: (a.toNat + 3) :: m.log }
  else none

/-- `strlen`, with a bound for its loop. In fewer steps than the address space has bytes it comes to
an end or to a page that is not mapped. -/
def UserMem.strlenLoop (m : UserMem) : Nat → BitVec 32 → Option Nat
  | 0, _ => none
  | fuel + 1, s => do
      let c ← m.load s
      if c = 0#8 then some 0
      else do
        let n ← m.strlenLoop fuel (s + 1#32)
        some (n + 1)

def UserMem.strlen (m : UserMem) (s : BitVec 32) : Option Nat := m.strlenLoop (2 ^ 32) s

/-- `strcpy` -/
def UserMem.strcpyLoop : Nat → UserMem → BitVec 32 → BitVec 32 → Option UserMem
  | 0, _, _, _ => none
  | fuel + 1, m, dst, src => do
      let c ← m.load src
      let m ← m.store dst c
      if c = 0#8 then some m else UserMem.strcpyLoop fuel m (dst + 1#32) (src + 1#32)

def UserMem.strcpy (m : UserMem) (dst src : BitVec 32) : Option UserMem :=
  UserMem.strcpyLoop (2 ^ 32) m dst src

/-- The first loop of `init_stack`, from `argv[argc]` on: `argc` and `string_size`. -/
def countArgs (m : UserMem) (argv : BitVec 32) : Nat → Nat → BitVec 32 → Option (Nat × BitVec 32)
  | 0, _, _ => none
  | fuel + 1, argc, stringSize => do
      let p ← m.load32 (argv + BitVec.ofNat 32 (4 * argc))
      if p = 0#32 then some (argc, stringSize)
      else do
        let n ← m.strlen p
        countArgs m argv fuel (argc + 1) (stringSize + BitVec.ofNat 32 (n + 1))

/-- `UTEMP2USTACK` -/
def utemp2ustack (a : BitVec 32) : BitVec 32 := a + (ustacktop - 4096#32) - utemp

/-- The second loop of `init_stack`, for `n` arguments from `argv[i]` on. -/
def copyArgs (argv argvStore : BitVec 32) : Nat → Nat → UserMem → BitVec 32 → Option (UserMem × BitVec 32)
  | 0, _, m, stringStore => some (m, stringStore)
  | n + 1, i, m, stringStore => do
      let m ← m.store32 (argvStore + BitVec.ofNat 32 (4 * i)) (utemp2ustack stringStore)
      let p ← m.load32 (argv + BitVec.ofNat 32 (4 * i))
      let m ← m.strcpy stringStore p
      let p ← m.load32 (argv + BitVec.ofNat 32 (4 * i))
      let len ← m.strlen p
      copyArgs argv argvStore n (i + 1) m (stringStore + BitVec.ofNat 32 (len + 1))

/-- `sys_page_alloc(0, UTEMP, ..)` when it succeeds -/
def UserMem.allocTemp (m : UserMem) : UserMem :=
  { m with
    bytes := m.bytes.fill utemp.toNat 0#8 4096
    readable := Function.update m.readable utempPage true
    writable := Function.update m.writable utempPage true }

/-- `sys_page_unmap(0, UTEMP)` -/
def UserMem.unmapTemp (m : UserMem) : UserMem :=
  { m with
    readable := Function.update m.readable utempPage false
    writable := Function.update m.writable utempPage false }

/-- What `init_stack` leaves: the memory of the caller, its result, `*init_esp`, and the page of the
child below `USTACKTOP`, if it has got one. -/
structure Stacked where
  mem : UserMem
  r : Int
  esp : BitVec 32
  page : Option Mem

/-- The page at `UTEMP`, at the addresses that it has in the child. -/
def stackMem (m : UserMem) : Mem := fun x => m.bytes (utemp.toNat + (x - (ustacktop - 4096#32).toNat))

/-- What `init_stack` writes to the page. -/
def fillTemp (argv argvStore : BitVec 32) (argc : Nat) (m : UserMem) (stringStore : BitVec 32) :
    Option UserMem := do
  let (m, stringStore) ← copyArgs argv argvStore argc 0 m stringStore
  let m ← m.store32 (argvStore + BitVec.ofNat 32 (4 * argc)) 0#32
  if stringStore ≠ utemp + 4096#32 then none
  else do
    let m ← m.store32 (argvStore - 4#32) (utemp2ustack argvStore)
    m.store32 (argvStore - 8#32) (BitVec.ofNat 32 argc)

section

variable (avail : Bool) (mapped : Int) (m : UserMem) (argv esp : BitVec 32)

/-- `init_stack` after the first loop. `avail` tells whether there is memory for the page at `UTEMP`, and
`mapped` is the result of `sys_page_map` to the child. -/
def placeArgs (argc : Nat) (stringSize : BitVec 32) : Option Stacked :=
  let stringStore := utemp + 4096#32 - stringSize
  let argvStore := stringStore - stringStore % 4#32 - BitVec.ofNat 32 (4 * (argc + 1))
  if argvStore - 8#32 < utemp then some ⟨m, -eNoMem, esp, none⟩
  else if avail = false then some ⟨m, -eNoMem, esp, none⟩
  else
    match fillTemp argv argvStore argc m.allocTemp stringStore with
    | none => none
    | some m =>
        let esp := utemp2ustack (argvStore - 8#32)
        if mapped < 0 then some ⟨m.unmapTemp, mapped, esp, none⟩
        else some ⟨m.unmapTemp, 0, esp, some (stackMem m)⟩

/-- `init_stack` -/
def initStack : Option Stacked :=
  (countArgs m argv (2 ^ 32) 0 0#32).bind fun x => placeArgs avail mapped m argv esp x.1 x.2

end

/-! ## What it should do -/

/-- The environment can read the address. It is not on the page at `UTEMP`, which is for temporary
mappings only. -/
def Own (m : UserMem) (x : Nat) : Prop := m.readable (x / 4096) = true ∧ x / 4096 ≠ utempPage

/-- A string of the environment. -/
structure StringAt (m : UserMem) (p : BitVec 32) (s : List (BitVec 8)) : Prop where
  bound : p.toNat + s.length < 2 ^ 32
  own : ∀ k ≤ s.length, Own m (p.toNat + k)
  nonzero : ∀ c ∈ s, c ≠ 0#8
  text : CString m.bytes p.toNat s

/-- The pointers and the strings of the arguments. -/
structure ArgsAt (m : UserMem) (argv : BitVec 32) (args : List (List (BitVec 8))) : Prop where
  bound : argv.toNat + 4 * args.length + 4 ≤ 2 ^ 32
  own : ∀ a < 4 * args.length + 4, Own m (argv.toNat + a)
  pointer : ∀ i (h : i < args.length), m.bytes.read32 (argv.toNat + 4 * i) ≠ 0#32 ∧
    StringAt m (m.bytes.read32 (argv.toNat + 4 * i)) (args.get ⟨i, h⟩)
  null : m.bytes.read32 (argv.toNat + 4 * args.length) = 0#32

/-- The bytes of the strings with their zeros. -/
def stringBytes : List (List (BitVec 8)) → Nat
  | [] => 0
  | s :: l => s.length + 1 + stringBytes l

/-- The space that the arguments need: the strings in whole words, a pointer to each, a null pointer,
and two words. -/
def argSpace (args : List (List (BitVec 8))) : Nat :=
  4 * ((stringBytes args + 3) / 4) + 4 * (args.length + 1) + 8

/-- The addresses of the stack page of the child. -/
def OnStackPage (x : Nat) : Prop := 0xEEBFD000 ≤ x ∧ x < 0xEEBFE000

/-- The stack of the child has the arguments: at `esp` there are their number and the address of the
pointers, and all of it is on the page. -/
structure ArgStack (c : Mem) (esp : BitVec 32) (args : List (List (BitVec 8))) : Prop where
  esp_page : OnStackPage esp.toNat ∧ OnStackPage (esp.toNat + 7)
  argc : c.read32 esp.toNat = BitVec.ofNat 32 args.length
  pointers_page : OnStackPage (c.read32 (esp.toNat + 4)).toNat ∧
    OnStackPage ((c.read32 (esp.toNat + 4)).toNat + 4 * args.length + 3)
  pointer : ∀ i (h : i < args.length), ∃ q, c.read32 ((c.read32 (esp.toNat + 4)).toNat + 4 * i) = q ∧
    OnStackPage q.toNat ∧ OnStackPage (q.toNat + (args.get ⟨i, h⟩).length) ∧
    CString c q.toNat (args.get ⟨i, h⟩)
  null : c.read32 ((c.read32 (esp.toNat + 4)).toNat + 4 * args.length) = 0#32

/-- The arguments are handed over, or refused because they do not fit. -/
structure HandsOver (avail : Bool) (mapped : Int) (m : UserMem) (args : List (List (BitVec 8)))
    (esp : BitVec 32) (result : Option Stacked) : Prop where
  full : 4096 < argSpace args → result = some ⟨m, -eNoMem, esp, none⟩
  fits : argSpace args ≤ 4096 → avail = true → mapped = 0 → ∃ st page, result = some st ∧ st.r = 0 ∧
    (∀ a ∈ st.mem.log, a ∈ m.log ∨ a / 4096 = utempPage) ∧ st.page = some page ∧ ArgStack page st.esp args

section

variable {m m1 m2 : UserMem} {a p q argv dst base : BitVec 32} {s : List (BitVec 8)} {c b : BitVec 8}
  {args : List (List (BitVec 8))} {fuel i k n : Nat} {esp : BitVec 32} {avail : Bool} {mapped : Int}

/-! ## Strings -/

theorem toNat_add_ofNat (h : a.toNat + k < 2 ^ 32) : (a + BitVec.ofNat 32 k).toNat = a.toNat + k := by
  rw [BitVec.toNat_add, BitVec.toNat_ofNat, Nat.mod_eq_of_lt (by omega : k < 2 ^ 32), Nat.mod_eq_of_lt h]

theorem StringAt.tail (h : StringAt m p (c :: s)) : StringAt m (p + 1#32) s := by
  have hb := h.bound
  rw [List.length_cons] at hb
  have hp : (p + 1#32).toNat = p.toNat + 1 := toNat_add_ofNat (k := 1) (by omega)
  refine ⟨by omega, fun k hk => ?_, fun x hx => h.nonzero x (List.mem_cons_of_mem c hx), ?_⟩
  · rw [hp, Nat.add_assoc, Nat.add_comm 1 k]
    exact h.own (k + 1) (Nat.succ_le_succ hk)
  · rw [hp]
    exact h.text.tail

theorem StringAt.load_cons (h : StringAt m p (c :: s)) : m.load p = some c := by
  have hr : m.readable (p.toNat / 4096) = true := (h.own 0 (Nat.zero_le _)).1
  unfold UserMem.load
  rw [if_pos hr]
  exact congrArg some (h.text.byte 0 (Nat.succ_pos _))

theorem StringAt.load_nil (h : StringAt m p []) : m.load p = some 0#8 := by
  have hr : m.readable (p.toNat / 4096) = true := (h.own 0 (Nat.zero_le _)).1
  unfold UserMem.load
  rw [if_pos hr]
  exact congrArg some h.text.zero

theorem strlenLoop_ok (h : StringAt m p s) (hfuel : s.length < fuel) : m.strlenLoop fuel p = some s.length := by
  induction s generalizing p fuel with
  | nil =>
      cases fuel with
      | zero => exact absurd hfuel (Nat.not_lt_zero _)
      | succ fuel =>
          unfold UserMem.strlenLoop
          simp only [h.load_nil, Option.bind_eq_bind, Option.bind_some, if_true]
          rfl
  | cons c s ih =>
      cases fuel with
      | zero => exact absurd hfuel (Nat.not_lt_zero _)
      | succ fuel =>
          have hc := h.nonzero c List.mem_cons_self
          unfold UserMem.strlenLoop
          simp only [h.load_cons, Option.bind_eq_bind, Option.bind_some, if_neg hc]
          rw [ih h.tail (Nat.lt_of_succ_lt_succ hfuel)]
          rfl

theorem StringAt.strlen (h : StringAt m p s) : m.strlen p = some s.length :=
  strlenLoop_ok h (Nat.lt_of_le_of_lt (Nat.le_add_left _ _) h.bound)

/-! ## Counting -/

theorem ArgsAt.load32 (h : ArgsAt m argv args) (hi : i ≤ args.length) :
    m.load32 (argv + BitVec.ofNat 32 (4 * i)) = some (m.bytes.read32 (argv.toNat + 4 * i)) := by
  have hb := h.bound
  have hp : (argv + BitVec.ofNat 32 (4 * i)).toNat = argv.toNat + 4 * i := toNat_add_ofNat (by omega)
  unfold UserMem.load32
  have hlast : m.readable ((argv.toNat + 4 * i + 3) / 4096) = true := by
    rw [Nat.add_assoc]
    exact (h.own _ (by omega)).1
  rw [hp, if_pos ⟨(h.own _ (by omega)).1, hlast⟩]

theorem stringBytes_drop (h : i < args.length) : stringBytes (args.drop i) =
    (args.get ⟨i, h⟩).length + 1 + stringBytes (args.drop (i + 1)) := by
  rw [List.drop_eq_getElem_cons h]
  rfl

/-- The size of the strings is a number of 32 bits. -/
theorem countArgs_ok {size : BitVec 32} (h : ArgsAt m argv args) (hn : i + n = args.length) (hfuel : n < fuel) :
    countArgs m argv fuel i size =
      some (args.length, size + BitVec.ofNat 32 (stringBytes (args.drop i))) := by
  induction n generalizing i fuel size with
  | zero =>
      cases fuel with
      | zero => exact absurd hfuel (Nat.not_lt_zero _)
      | succ fuel =>
          rw [Nat.add_zero] at hn
          subst hn
          unfold countArgs
          simp only [h.load32 (Nat.le_refl _), h.null, Option.bind_eq_bind, Option.bind_some, if_true,
            List.drop_length, stringBytes]
          exact congrArg (fun x => some (args.length, x)) (BitVec.add_zero size).symm
  | succ n ih =>
      cases fuel with
      | zero => exact absurd hfuel (Nat.not_lt_zero _)
      | succ fuel =>
          have hi : i < args.length := by omega
          obtain ⟨hne, hstr⟩ := h.pointer i hi
          unfold countArgs
          simp only [h.load32 (Nat.le_of_lt hi), Option.bind_eq_bind, Option.bind_some, if_neg hne, hstr.strlen]
          rw [ih (by omega) (Nat.lt_of_succ_lt_succ hfuel), stringBytes_drop hi, BitVec.add_assoc,
            ← BitVec.ofNat_add]

theorem ArgsAt.count (h : ArgsAt m argv args) : countArgs m argv (2 ^ 32) 0 0#32 =
    some (args.length, BitVec.ofNat 32 (stringBytes args)) := by
  have hb := h.bound
  rw [countArgs_ok h (Nat.zero_add _) (by omega), BitVec.zero_add, List.drop_zero]

/-! ## The comparison -/

/-- `string_store` and `argv_store` at the start, as `init_stack` computes them. -/
def stringBase (args : List (List (BitVec 8))) : BitVec 32 := utemp + 4096#32 - BitVec.ofNat 32 (stringBytes args)

def argvBase (args : List (List (BitVec 8))) : BitVec 32 :=
  stringBase args - stringBase args % 4#32 - BitVec.ofNat 32 (4 * (args.length + 1))

theorem sub_toNat (a b : BitVec 32) : (a - b).toNat + b.toNat = a.toNat ∨
    (a - b).toNat + b.toNat = a.toNat + 4294967296 := by
  have ha := a.isLt
  have hb := b.isLt
  rw [BitVec.toNat_sub]
  omega

theorem twoWords_toNat (args : List (List (BitVec 8))) :
    (argvBase args - 8#32).toNat = (4198400 + 4294967296 - argSpace args % 4294967296) % 4294967296 := by
  have hut : (utemp + 4096#32).toNat = 4198400 := by decide
  simp only [argvBase, stringBase, argSpace]
  generalize stringBytes args = size
  generalize args.length = n
  -- One step for each subtraction of the source.
  have h1 := sub_toNat (utemp + 4096#32) (BitVec.ofNat 32 size)
  generalize utemp + 4096#32 - BitVec.ofNat 32 size = x1 at h1 ⊢
  have h2 := sub_toNat x1 (x1 % 4#32)
  have hmod : (x1 % 4#32).toNat = x1.toNat % 4 := BitVec.toNat_umod
  generalize x1 - x1 % 4#32 = x2 at h2 ⊢
  have h3 := sub_toNat x2 (BitVec.ofNat 32 (4 * (n + 1)))
  generalize x2 - BitVec.ofNat 32 (4 * (n + 1)) = x3 at h3 ⊢
  have h4 := sub_toNat x3 8#32
  generalize x3 - 8#32 = x4 at h4 ⊢
  have hlt1 := x1.isLt
  have hlt2 := x2.isLt
  have hlt4 := x4.isLt
  have hsize : (BitVec.ofNat 32 size).toNat = size % 4294967296 := BitVec.toNat_ofNat size 32
  have hptrs : (BitVec.ofNat 32 (4 * (n + 1))).toNat = (4 * (n + 1)) % 4294967296 := BitVec.toNat_ofNat _ 32
  have height : (8#32).toNat = 8 := rfl
  rw [hut, hsize] at h1
  rw [hmod] at h2
  rw [hptrs] at h3
  rw [height] at h4
  omega

/-- What is refused: the space, as a number of 32 bits, is more than the page, and not more than what is
below its end. -/
theorem twoWords_lt : argvBase args - 8#32 < utemp ↔
    4096 < argSpace args % 2 ^ 32 ∧ argSpace args % 2 ^ 32 ≤ 0x401000 := by
  have hut : utemp.toNat = 4194304 := by decide
  rw [BitVec.lt_def, twoWords_toNat, hut]
  have := Nat.mod_lt (argSpace args) (by decide : 4294967296 > 0)
  omega

/-! ## Stores to the temporary page -/

/-- Since `m` the page at `UTEMP` has been mapped, and only this page has changed. -/
structure OnTemp (m m1 : UserMem) : Prop where
  readable : ∀ pn ≠ utempPage, m1.readable pn = m.readable pn
  writable : m1.writable utempPage = true
  bytes : ∀ x, x / 4096 ≠ utempPage → m1.bytes x = m.bytes x
  log : ∀ x ∈ m1.log, x ∈ m.log ∨ x / 4096 = utempPage

theorem OnTemp.alloc (m : UserMem) : OnTemp m m.allocTemp where
  readable pn hpn := Function.update_of_ne hpn _ _
  writable := by simp only [UserMem.allocTemp, Function.update_self]
  bytes x hx := by
    have hut : utemp.toNat = 4194304 := by decide
    simp only [utempPage] at hx
    exact Mem.fill_of_disjoint _ _ (by omega)
  log _ hx := Or.inl hx

theorem OnTemp.store (h : OnTemp m m1) (ha : a.toNat / 4096 = utempPage) (b : BitVec 8) :
    ∃ m2, m1.store a b = some m2 ∧ OnTemp m m2 ∧ m2.bytes = Function.update m1.bytes a.toNat b := by
  unfold UserMem.store
  rw [if_pos (by rw [ha]; exact h.writable)]
  refine ⟨_, rfl, ⟨h.readable, h.writable, fun x hx => ?_, fun x hx => ?_⟩, rfl⟩
  · have hne : x ≠ a.toNat := fun heq => hx (heq ▸ ha)
    rw [← h.bytes x hx]
    exact Function.update_of_ne hne _ _
  · rcases List.mem_cons.mp hx with rfl | hx
    · exact Or.inr ha
    · exact h.log x hx

theorem OnTemp.store32 (h : OnTemp m m1) (hlo : 0x400000 ≤ a.toNat) (hhi : a.toNat + 3 < 0x401000)
    (v : BitVec 32) : ∃ m2, m1.store32 a v = some m2 ∧ OnTemp m m2 ∧ m2.bytes = m1.bytes.write32 a.toNat v := by
  have hpage : ∀ c < 4, (a.toNat + c) / 4096 = utempPage := by
    intro c hc
    simp only [utempPage]
    omega
  have h0 := hpage 0 (by decide)
  have h3 := hpage 3 (by decide)
  rw [Nat.add_zero] at h0
  unfold UserMem.store32
  rw [if_pos ⟨by rw [h0]; exact h.writable, by rw [h3]; exact h.writable⟩]
  refine ⟨_, rfl, ⟨h.readable, h.writable, fun x hx => ?_, fun x hx => ?_⟩, rfl⟩
  · rw [← h.bytes x hx]
    simp only [utempPage] at hx
    exact Mem.write32_of_disjoint _ _ (by omega)
  · rcases List.mem_cons.mp hx with rfl | hx
    · exact Or.inr h0
    rcases List.mem_cons.mp hx with rfl | hx
    · exact Or.inr (hpage 1 (by decide))
    rcases List.mem_cons.mp hx with rfl | hx
    · exact Or.inr (hpage 2 (by decide))
    rcases List.mem_cons.mp hx with rfl | hx
    · exact Or.inr h3
    · exact h.log x hx

/-- What is not on the page is as it was. -/
theorem OnTemp.own (h : OnTemp m m1) {x : Nat} (hx : Own m x) : Own m1 x ∧ m1.bytes x = m.bytes x :=
  ⟨⟨by rw [h.readable _ hx.2, hx.1], hx.2⟩, h.bytes x hx.2⟩

theorem StringAt.keep (hs : StringAt m p s) (h : OnTemp m m1) : StringAt m1 p s where
  bound := hs.bound
  own k hk := (h.own (hs.own k hk)).1
  nonzero := hs.nonzero
  text := by
    refine ⟨fun k hk => ?_, ?_⟩
    · rw [(h.own (hs.own k (Nat.le_of_lt hk))).2, hs.text.byte k hk]
    · rw [(h.own (hs.own _ (Nat.le_refl _))).2, hs.text.zero]

theorem ArgsAt.read32_keep (ha : ArgsAt m argv args) (h : OnTemp m m1) (hi : i ≤ args.length) :
    m1.bytes.read32 (argv.toNat + 4 * i) = m.bytes.read32 (argv.toNat + 4 * i) := by
  refine Mem.read32_congr fun x h1 h2 => (h.own ?_).2
  have hx : x = argv.toNat + (x - argv.toNat) := by omega
  rw [hx]
  exact ha.own _ (by omega)

theorem ArgsAt.keep (ha : ArgsAt m argv args) (h : OnTemp m m1) : ArgsAt m1 argv args where
  bound := ha.bound
  own x hx := (h.own (ha.own x hx)).1
  pointer i hi := by
    rw [ha.read32_keep h (Nat.le_of_lt hi)]
    exact ⟨(ha.pointer i hi).1, (ha.pointer i hi).2.keep h⟩
  null := by
    rw [ha.read32_keep h (Nat.le_refl _), ha.null]

/-- `strcpy` of a string of the caller to the page. -/
theorem strcpyLoop_ok (h : OnTemp m m1) (hs : StringAt m p s)
    (hlo : 0x400000 ≤ a.toNat) (hhi : a.toNat + s.length < 0x401000) (hfuel : s.length < fuel) :
    ∃ m2, UserMem.strcpyLoop fuel m1 a p = some m2 ∧ OnTemp m m2 ∧ CString m2.bytes a.toNat s ∧
      ∀ x, x < a.toNat ∨ a.toNat + s.length < x → m2.bytes x = m1.bytes x := by
  have hpage : a.toNat / 4096 = utempPage := by
    simp only [utempPage]
    omega
  induction s generalizing a p m1 fuel with
  | nil =>
      cases fuel with
      | zero => exact absurd hfuel (Nat.not_lt_zero _)
      | succ fuel =>
          obtain ⟨m2, hrun, hon, hbytes⟩ := h.store hpage 0#8
          refine ⟨m2, ?_, hon, ⟨fun k hk => absurd hk (Nat.not_lt_zero _), ?_⟩, fun x hx => ?_⟩
          · unfold UserMem.strcpyLoop
            simp only [(hs.keep h).load_nil, Option.bind_eq_bind, Option.bind_some, hrun, if_true]
          · rw [hbytes]
            exact Function.update_self _ _ _
          · rw [hbytes]
            rw [List.length_nil] at hx
            exact Function.update_of_ne (by omega) _ _
  | cons c s ih =>
      cases fuel with
      | zero => exact absurd hfuel (Nat.not_lt_zero _)
      | succ fuel =>
          rw [List.length_cons] at hhi
          obtain ⟨m2, hrun, hon, hbytes⟩ := h.store hpage c
          have ha : (a + 1#32).toNat = a.toNat + 1 := toNat_add_ofNat (k := 1) (by omega)
          have hne := hs.nonzero c List.mem_cons_self
          obtain ⟨m3, hrun3, hon3, htext, hkept⟩ := ih (a := a + 1#32) hon hs.tail (by omega) (by omega)
            (Nat.lt_of_succ_lt_succ hfuel) (by rw [ha]; simp only [utempPage]; omega)
          rw [ha] at htext hkept
          refine ⟨m3, ?_, hon3, ⟨fun k hk => ?_, ?_⟩, fun x hx => ?_⟩
          · unfold UserMem.strcpyLoop
            simp only [(hs.keep h).load_cons, Option.bind_eq_bind, Option.bind_some, hrun, if_neg hne, hrun3]
          · cases k with
            | zero =>
                rw [Nat.add_zero, hkept _ (by omega), hbytes]
                exact Function.update_self _ _ _
            | succ k =>
                have hx : a.toNat + (k + 1) = a.toNat + 1 + k := by omega
                rw [hx, htext.byte k (Nat.lt_of_succ_lt_succ hk)]
                rfl
          · rw [List.length_cons, Nat.add_comm s.length 1, ← Nat.add_assoc]
            exact htext.zero
          · rw [List.length_cons] at hx
            rw [hkept x (by omega), hbytes]
            exact Function.update_of_ne (by omega) _ _

/-! ## Copying -/

/-- The strings from argument `i` on are copied from `dst` on, and the pointers to them are stored. -/
structure ArgsCopied (args : List (List (BitVec 8))) (base dst : BitVec 32) (i : Nat) (m1 m2 : UserMem) :
    Prop where
  kept : ∀ x, x < base.toNat + 4 * i ∨ base.toNat + 4 * args.length ≤ x ∧ x < dst.toNat →
    m2.bytes x = m1.bytes x
  pointer : ∀ k, i ≤ k → ∀ h : k < args.length, ∃ q : BitVec 32,
    m2.bytes.read32 (base.toNat + 4 * k) = utemp2ustack q ∧ dst.toNat ≤ q.toNat ∧
    q.toNat + (args.get ⟨k, h⟩).length < 0x401000 ∧ CString m2.bytes q.toNat (args.get ⟨k, h⟩)

theorem copyArgs_ok (ha : ArgsAt m argv args) (h : OnTemp m m1)
    (hn : i + n = args.length) (hdst : dst.toNat + stringBytes (args.drop i) = 0x401000)
    (hlo : 0x400000 ≤ base.toNat) (hhi : base.toNat + 4 * (args.length + 1) ≤ dst.toNat) :
    ∃ m2, copyArgs argv base n i m1 dst = some (m2, utemp + 4096#32) ∧ OnTemp m m2 ∧
      ArgsCopied args base dst i m1 m2 := by
  induction n generalizing i m1 dst with
  | zero =>
      rw [Nat.add_zero] at hn
      subst hn
      rw [List.drop_length] at hdst
      refine ⟨m1, ?_, h, ⟨fun _ _ => rfl, fun k hk hk' => absurd hk' (Nat.not_lt.mpr hk)⟩⟩
      have hend : dst = utemp + 4096#32 := BitVec.eq_of_toNat_eq hdst
      unfold copyArgs
      rw [hend]
  | succ n ih =>
      have hi : i < args.length := by omega
      rw [stringBytes_drop hi] at hdst
      have hslot : (base + BitVec.ofNat 32 (4 * i)).toNat = base.toNat + 4 * i := toNat_add_ofNat (by omega)
      -- The pointer.
      obtain ⟨m2, hrun2, hon2, hbytes2⟩ := h.store32 (a := base + BitVec.ofNat 32 (4 * i)) (by omega) (by omega)
        (utemp2ustack dst)
      rw [hslot] at hbytes2
      -- The string.
      obtain ⟨-, hstr⟩ := ha.pointer i hi
      obtain ⟨m3, hrun3, hon3, htext3, hkept3⟩ := strcpyLoop_ok hon2 hstr (a := dst) (by omega) (by omega)
        (Nat.lt_of_le_of_lt (Nat.le_add_left _ _) hstr.bound)
      have hnext : (dst + BitVec.ofNat 32 ((args.get ⟨i, hi⟩).length + 1)).toNat =
          dst.toNat + ((args.get ⟨i, hi⟩).length + 1) := toNat_add_ofNat (by omega)
      generalize hdst' : dst + BitVec.ofNat 32 ((args.get ⟨i, hi⟩).length + 1) = dst' at hnext
      -- The other arguments.
      obtain ⟨m4, hrun4, hon4, hcop⟩ := @ih m3 dst' (i + 1) hon3 (by omega) (by omega) (by omega)
      have hload2 := (ha.keep hon2).load32 (Nat.le_of_lt hi)
      have hload3 := (ha.keep hon3).load32 (Nat.le_of_lt hi)
      rw [ha.read32_keep hon2 (Nat.le_of_lt hi)] at hload2
      rw [ha.read32_keep hon3 (Nat.le_of_lt hi)] at hload3
      have hkept4 := hcop.kept
      rw [hnext] at hkept4
      refine ⟨m4, ?_, hon4, ⟨fun x hx => ?_, fun k hk hk' => ?_⟩⟩
      · unfold copyArgs
        simp only [Option.bind_eq_bind, hrun2, Option.bind_some, hload2, UserMem.strcpy, hrun3, hload3,
          (hstr.keep hon3).strlen, hdst', hrun4]
      · rw [hkept4 x (by omega), hkept3 x (by omega), hbytes2, Mem.write32_of_disjoint _ _ (by omega)]
      · by_cases hki : k = i
        · subst hki
          refine ⟨dst, ?_, Nat.le_refl _, by omega, ?_⟩
          · rw [Mem.read32_congr fun x h1 h2 => hkept4 x (by omega),
              Mem.read32_congr fun x h1 h2 => hkept3 x (by omega), hbytes2, Mem.read32_write32_self]
          · exact htext3.keep fun x h1 h2 => hkept4 x (by omega)
        · obtain ⟨q, hq, hle, hlast, htext⟩ := hcop.pointer k (by omega) hk'
          rw [hnext] at hle
          exact ⟨q, hq, by omega, hlast, htext⟩

/-! ## A page that is large enough -/

theorem stringBase_toNat (h : argSpace args ≤ 4096) : (stringBase args).toNat = 0x401000 - stringBytes args := by
  have hut : (utemp + 4096#32).toNat = 4198400 := by decide
  unfold argSpace at h
  rw [stringBase, BitVec.toNat_sub, hut, BitVec.toNat_ofNat]
  omega

theorem argvBase_toNat (h : argSpace args ≤ 4096) : (argvBase args).toNat + argSpace args = 0x401000 + 8 := by
  have hstr := stringBase_toNat h
  have hmod : (stringBase args % 4#32).toNat = (stringBase args).toNat % 4 := BitVec.toNat_umod
  unfold argSpace at h ⊢
  rw [argvBase, BitVec.toNat_sub, BitVec.toNat_sub, hmod, hstr, BitVec.toNat_ofNat]
  omega

/-- How far the page is moved. -/
def stackShift : Nat := 0xEE7FD000

theorem stackShift_eq : stackShift = 4001353728 := rfl

theorem utemp2ustack_toNat (hlo : 0x400000 ≤ a.toNat) (hhi : a.toNat < 0x401000) :
    (utemp2ustack a).toNat = a.toNat + stackShift := by
  have hbase : (ustacktop - 4096#32).toNat = 4005548032 := by decide
  have hut : utemp.toNat = 4194304 := by decide
  rw [utemp2ustack, BitVec.toNat_sub, BitVec.toNat_add, hbase, hut, stackShift_eq]
  omega

theorem stackMem_eq (m : UserMem) (hlo : 0x400000 ≤ n) : stackMem m (n + stackShift) = m.bytes n := by
  have hbase : (ustacktop - 4096#32).toNat = 4005548032 := by decide
  have hut : utemp.toNat = 4194304 := by decide
  have hx : 4194304 + (n + stackShift - 4005548032) = n := by
    rw [stackShift_eq]
    omega
  unfold stackMem
  rw [hbase, hut, hx]

theorem stackMem_read32 (m : UserMem) (hlo : 0x400000 ≤ n) :
    (stackMem m).read32 (n + stackShift) = m.bytes.read32 n := by
  refine Mem.read32_shift fun c _ => ?_
  rw [Nat.add_right_comm, stackMem_eq m (by omega)]

theorem CString.onStack (h : CString m.bytes n s) (hlo : 0x400000 ≤ n) :
    CString (stackMem m) (n + stackShift) s := by
  refine ⟨fun k hk => ?_, ?_⟩
  · rw [Nat.add_right_comm, stackMem_eq m (by omega), h.byte k hk]
  · rw [Nat.add_right_comm, stackMem_eq m (by omega), h.zero]

/-- The words and the strings, before the page is mapped in the child. -/
structure LaidOut (args : List (List (BitVec 8))) (base : BitVec 32) (m : UserMem) : Prop where
  low : 0x400008 ≤ base.toNat
  high : base.toNat + 4 * (args.length + 1) ≤ 0x401000
  argc : m.bytes.read32 (base.toNat - 8) = BitVec.ofNat 32 args.length
  argv : m.bytes.read32 (base.toNat - 4) = utemp2ustack base
  pointer : ∀ k (h : k < args.length), ∃ q : BitVec 32,
    m.bytes.read32 (base.toNat + 4 * k) = utemp2ustack q ∧ 0x400000 ≤ q.toNat ∧
    q.toNat + (args.get ⟨k, h⟩).length < 0x401000 ∧ CString m.bytes q.toNat (args.get ⟨k, h⟩)
  null : m.bytes.read32 (base.toNat + 4 * args.length) = 0#32

theorem LaidOut.argStack (h : LaidOut args base m) :
    ArgStack (stackMem m) (utemp2ustack (base - 8#32)) args := by
  obtain ⟨hlo, hhi, hargc, hargv, hptr, hnull⟩ := h
  have hshift := stackShift_eq
  have h8 : (base - 8#32).toNat = base.toNat - 8 := by
    rw [BitVec.toNat_sub, show (8#32).toNat = 8 from rfl]
    omega
  have hesp : (utemp2ustack (base - 8#32)).toNat = base.toNat - 8 + stackShift := by
    rw [utemp2ustack_toNat (by omega) (by omega), h8]
  have hbase : (utemp2ustack base).toNat = base.toNat + stackShift := utemp2ustack_toNat (by omega) (by omega)
  have hread : (stackMem m).read32 ((utemp2ustack (base - 8#32)).toNat + 4) = utemp2ustack base := by
    rw [hesp, Nat.add_right_comm, stackMem_read32 m (by omega), show base.toNat - 8 + 4 = base.toNat - 4 by omega,
      hargv]
  refine ⟨⟨?_, ?_⟩, ?_, ⟨?_, ?_⟩, fun i hi => ?_, ?_⟩
  · rw [hesp]
    exact ⟨by omega, by omega⟩
  · rw [hesp]
    exact ⟨by omega, by omega⟩
  · rw [hesp, stackMem_read32 m (by omega), hargc]
  · rw [hread, hbase]
    exact ⟨by omega, by omega⟩
  · rw [hread, hbase]
    exact ⟨by omega, by omega⟩
  · obtain ⟨q, hq, hqlo, hqhi, htext⟩ := hptr i hi
    have hq' : (utemp2ustack q).toNat = q.toNat + stackShift := utemp2ustack_toNat hqlo (by omega)
    refine ⟨utemp2ustack q, ?_, ?_, ?_, ?_⟩
    · rw [hread, hbase, Nat.add_right_comm, stackMem_read32 m (by omega), hq]
    · rw [hq']
      exact ⟨by omega, by omega⟩
    · rw [hq']
      exact ⟨by omega, by omega⟩
    · rw [hq']
      exact htext.onStack hqlo
  · rw [hread, hbase, Nat.add_right_comm, stackMem_read32 m (by omega), hnull]

theorem ArgsAt.initStack (ha : ArgsAt m argv args) : initStack avail mapped m argv esp =
    placeArgs avail mapped m argv esp args.length (BitVec.ofNat 32 (stringBytes args)) := by
  rw [Jos.User.initStack, ha.count, Option.bind_some]

theorem fillTemp_ok (ha : ArgsAt m argv args) (hfits : argSpace args ≤ 4096) : ∃ m', LaidOut args (argvBase args) m' ∧ OnTemp m m' ∧
      fillTemp argv (argvBase args) args.length m.allocTemp (stringBase args) = some m' := by
  have hstr := stringBase_toNat hfits
  have hbase := argvBase_toNat hfits
  have hspace : stringBytes args ≤ 4 * ((stringBytes args + 3) / 4) := by omega
  have hdef : argSpace args = 4 * ((stringBytes args + 3) / 4) + 4 * (args.length + 1) + 8 := rfl
  obtain ⟨m1, hrun1, hon1, hcop⟩ := @copyArgs_ok m m.allocTemp argv (stringBase args) (argvBase args) args 0
    args.length ha (OnTemp.alloc m) (Nat.zero_add _) (by rw [hstr, List.drop_zero]; omega) (by omega)
    (by rw [hstr]; omega)
  generalize argvBase args = base at hbase hrun1 hcop ⊢
  -- The null pointer and the two words.
  have hnull : (base + BitVec.ofNat 32 (4 * args.length)).toNat = base.toNat + 4 * args.length :=
    toNat_add_ofNat (by omega)
  obtain ⟨m2, hrun2, hon2, hbytes2⟩ := hon1.store32 (a := base + BitVec.ofNat 32 (4 * args.length))
    (by omega) (by omega) 0#32
  have h4 : (base - 4#32).toNat = base.toNat - 4 := by
    rw [BitVec.toNat_sub, show (4#32).toNat = 4 from rfl]
    omega
  obtain ⟨m3, hrun3, hon3, hbytes3⟩ := hon2.store32 (a := base - 4#32) (by omega) (by omega)
    (utemp2ustack base)
  have h8 : (base - 8#32).toNat = base.toNat - 8 := by
    rw [BitVec.toNat_sub, show (8#32).toNat = 8 from rfl]
    omega
  obtain ⟨m4, hrun4, hon4, hbytes4⟩ := hon3.store32 (a := base - 8#32) (by omega) (by omega)
    (BitVec.ofNat 32 args.length)
  rw [hnull] at hbytes2
  rw [h4] at hbytes3
  rw [h8] at hbytes4
  -- What is not one of these three words is as it was.
  have hkept : ∀ x, x < base.toNat - 8 ∨ base.toNat ≤ x ∧
      (x < base.toNat + 4 * args.length ∨ base.toNat + 4 * args.length + 4 ≤ x) → m4.bytes x = m1.bytes x := by
    intro x hx
    rw [hbytes4, Mem.write32_of_disjoint _ _ (by omega), hbytes3, Mem.write32_of_disjoint _ _ (by omega), hbytes2,
      Mem.write32_of_disjoint _ _ (by omega)]
  refine ⟨m4, ⟨by omega, by omega, ?_, ?_, fun k hk => ?_, ?_⟩, hon4, ?_⟩
  · rw [hbytes4, Mem.read32_write32_self]
  · rw [hbytes4, Mem.read32_write32_of_disjoint _ _ (by omega), hbytes3, Mem.read32_write32_self]
  · obtain ⟨q, hq, hle, hlast, htext⟩ := hcop.pointer k (Nat.zero_le _) hk
    refine ⟨q, ?_, by omega, hlast, htext.keep fun x h1 h2 => hkept x (by omega)⟩
    rw [Mem.read32_congr fun x h1 h2 => hkept x (by omega), hq]
  · rw [hbytes4, Mem.read32_write32_of_disjoint _ _ (by omega), hbytes3,
      Mem.read32_write32_of_disjoint _ _ (by omega), hbytes2, Mem.read32_write32_self]
  · unfold fillTemp
    simp only [Option.bind_eq_bind, hrun1, Option.bind_some, hrun2, ne_eq, not_true_eq_false, if_false, hrun3,
      hrun4]

/-! ## Stores are not taken back -/

theorem log_store (h : m.store a b = some m1) : m.log.length ≤ m1.log.length := by
  unfold UserMem.store at h
  split at h
  · cases h
    exact Nat.le_succ _
  · cases h

theorem log_store32 {v : BitVec 32} (h : m.store32 a v = some m1) : m.log.length < m1.log.length := by
  unfold UserMem.store32 at h
  split at h
  · cases h
    simp only [List.length_cons]
    omega
  · cases h

theorem log_strcpyLoop (h : UserMem.strcpyLoop fuel m a p = some m1) : m.log.length ≤ m1.log.length := by
  induction fuel generalizing m a p with
  | zero => cases h
  | succ fuel ih =>
      unfold UserMem.strcpyLoop at h
      simp only [Option.bind_eq_bind, Option.bind_eq_some_iff] at h
      obtain ⟨c, -, m2, hstore, h⟩ := h
      have hle := log_store hstore
      split at h
      · cases h
        exact hle
      · exact Nat.le_trans hle (ih h)

theorem log_copyArgs {r : UserMem × BitVec 32} (h : copyArgs argv base n i m dst = some r) :
    m.log.length ≤ r.1.log.length := by
  induction n generalizing i m dst with
  | zero =>
      cases h
      exact Nat.le_refl _
  | succ n ih =>
      unfold copyArgs at h
      simp only [Option.bind_eq_bind, Option.bind_eq_some_iff, UserMem.strcpy] at h
      obtain ⟨m2, h2, _, -, m3, h3, _, -, _, -, h⟩ := h
      exact Nat.le_trans (Nat.le_of_lt (log_store32 h2)) (Nat.le_trans (log_strcpyLoop h3) (ih h))

theorem log_fillTemp (h : fillTemp argv base n m dst = some m1) : m.log.length < m1.log.length := by
  unfold fillTemp at h
  simp only [Option.bind_eq_bind, Option.bind_eq_some_iff] at h
  obtain ⟨r, hcopy, m2, h2, h⟩ := h
  have hle := Nat.lt_of_le_of_lt (log_copyArgs hcopy) (log_store32 h2)
  split at h
  · cases h
  · rw [Option.bind_eq_some_iff] at h
    obtain ⟨m3, h3, h⟩ := h
    exact Nat.lt_trans hle (Nat.lt_trans (log_store32 h3) (log_store32 h))

/-! ## Handed over or refused -/

theorem placeArgs_eq (args : List (List (BitVec 8))) :
    placeArgs avail mapped m argv esp args.length (BitVec.ofNat 32 (stringBytes args)) =
      if argvBase args - 8#32 < utemp then some ⟨m, -eNoMem, esp, none⟩
      else if avail = false then some ⟨m, -eNoMem, esp, none⟩
      else match fillTemp argv (argvBase args) args.length m.allocTemp (stringBase args) with
        | none => none
        | some m =>
            if mapped < 0 then some ⟨m.unmapTemp, mapped, utemp2ustack (argvBase args - 8#32), none⟩
            else some ⟨m.unmapTemp, 0, utemp2ustack (argvBase args - 8#32), some (stackMem m)⟩ := rfl

/-- Arguments that do not fit but pass the comparison are not refused. -/
theorem placeArgs_ne (hpass : ¬ argvBase args - 8#32 < utemp) :
    placeArgs true mapped m argv esp args.length (BitVec.ofNat 32 (stringBytes args)) ≠
      some ⟨m, -eNoMem, esp, none⟩ := by
  rw [placeArgs_eq, if_neg hpass]
  simp only [Bool.true_eq_false, if_false]
  cases hfill : fillTemp argv (argvBase args) args.length m.allocTemp (stringBase args) with
  | none => exact fun h => by cases h
  | some m1 =>
      have hlog : m.allocTemp.log.length < m1.log.length := log_fillTemp hfill
      have hsame : m.allocTemp.log = m.log := rfl
      rw [hsame] at hlog
      simp only
      intro h
      have hmem : m1.unmapTemp.log = m.log := by
        split at h
        · exact congrArg (fun st => st.mem.log) (Option.some.inj h)
        · exact congrArg (fun st => st.mem.log) (Option.some.inj h)
      have heq : m1.log.length = m.log.length := congrArg List.length hmem
      omega

end

/-- `init_stack` hands the arguments over or refuses them, as it should, exactly if the space that they
need is at most a page, or is too large in a way that the comparison sees; or there is no memory at all. -/
theorem init_stack_iff {m : UserMem} {argv esp : BitVec 32} {args : List (List (BitVec 8))} {avail : Bool}
    {mapped : Int} (ha : ArgsAt m argv args) :
    HandsOver avail mapped m args esp (initStack avail mapped m argv esp) ↔
      argSpace args ≤ 4096 ∨ avail = false ∨
        4096 < argSpace args % 2 ^ 32 ∧ argSpace args % 2 ^ 32 ≤ 0x401000 := by
  rw [ha.initStack, ← twoWords_lt]
  by_cases hfits : argSpace args ≤ 4096
  · -- It fits.
    refine iff_of_true ⟨fun h => absurd h (Nat.not_lt.mpr hfits), fun _ havail hmap => ?_⟩ (Or.inl hfits)
    obtain ⟨m1, hlaid, hon, hfill⟩ := fillTemp_ok ha hfits
    have hpass : ¬ argvBase args - 8#32 < utemp := by
      rw [twoWords_lt, Nat.mod_eq_of_lt (by omega)]
      omega
    refine ⟨⟨m1.unmapTemp, 0, utemp2ustack (argvBase args - 8#32), some (stackMem m1)⟩, stackMem m1, ?_, rfl,
      hon.log, rfl, hlaid.argStack⟩
    rw [placeArgs_eq, if_neg hpass, hfill]
    simp only [havail, hmap, Bool.true_eq_false, if_false]
    rw [if_neg (by decide)]
  · have hfull : 4096 < argSpace args := Nat.lt_of_not_le hfits
    constructor
    · intro h
      have hrefused := h.full hfull
      by_contra hno
      rw [not_or, not_or, Bool.not_eq_false] at hno
      rw [hno.2.1] at hrefused
      exact placeArgs_ne hno.2.2 hrefused
    · intro h
      refine ⟨fun _ => ?_, fun hle => absurd hle hfits⟩
      rw [placeArgs_eq]
      rcases h with h | h | h
      · exact absurd h hfits
      · rw [if_pos h]
        split
        · rfl
        · rfl
      · rw [if_pos h]

/-! ## Two arguments -/

/-- The arguments `ls` and `-l` at 0x900100 and 0x900104, with the pointers at 0x900000. -/
def lsMem : UserMem where
  bytes := fun x =>
    if x = 0x900001 then 0x01#8 else if x = 0x900002 then 0x90#8
    else if x = 0x900004 then 0x04#8 else if x = 0x900005 then 0x01#8 else if x = 0x900006 then 0x90#8
    else if x = 0x900100 then 0x6C#8 else if x = 0x900101 then 0x73#8
    else if x = 0x900104 then 0x2D#8 else if x = 0x900105 then 0x6C#8
    else 0#8
  readable := fun pn => pn == 0x900
  writable := fun pn => pn == 0x900
  log := []

theorem lsMem_own {x : Nat} (h1 : 0x900000 ≤ x) (h2 : x < 0x900200) : Own lsMem x := by
  have hx : x / 4096 = 0x900 := by omega
  unfold Own
  rw [hx]
  exact ⟨rfl, by decide⟩

/-- A string of two characters. -/
theorem lsMem_string {p : BitVec 32} {c d : BitVec 8} (h : 0x900100 ≤ p.toNat ∧ p.toNat < 0x900180)
    (hc : lsMem.bytes p.toNat = c) (hd : lsMem.bytes (p.toNat + 1) = d)
    (hz : lsMem.bytes (p.toNat + 2) = 0#8) (hne : c ≠ 0#8 ∧ d ≠ 0#8) : StringAt lsMem p [c, d] := by
  have hlen : [c, d].length = 2 := rfl
  refine ⟨by omega, fun k hk => lsMem_own (by omega) (by omega), fun x hx => ?_, fun k hk => ?_, hz⟩
  · rcases List.mem_cons.mp hx with rfl | hx
    · exact hne.1
    · rw [List.mem_singleton.mp hx]
      exact hne.2
  · have hk2 : k < 2 := hk
    rcases (by omega : k = 0 ∨ k = 1) with rfl | rfl
    · exact hc
    · exact hd

theorem lsMem_args : ArgsAt lsMem 0x900000#32 [[0x6C#8, 0x73#8], [0x2D#8, 0x6C#8]] := by
  have hbase : (0x900000#32).toNat = 0x900000 := rfl
  have hlen : [[0x6C#8, 0x73#8], [0x2D#8, 0x6C#8]].length = 2 := rfl
  refine ⟨by decide, fun x hx => lsMem_own (by omega) (by omega), fun i hi => ?_, by decide⟩
  rcases (by omega : i = 0 ∨ i = 1) with rfl | rfl
  · have hp : lsMem.bytes.read32 ((0x900000#32).toNat + 4 * 0) = 0x900100#32 := by decide
    rw [hp]
    exact ⟨by decide, lsMem_string (by decide) rfl rfl rfl (by decide)⟩
  · have hp : lsMem.bytes.read32 ((0x900000#32).toNat + 4 * 1) = 0x900104#32 := by decide
    rw [hp]
    exact ⟨by decide, lsMem_string (by decide) rfl rfl rfl (by decide)⟩

/-- They are handed over. -/
theorem init_stack_iff_ls : HandsOver true 0 lsMem [[0x6C#8, 0x73#8], [0x2D#8, 0x6C#8]] 0#32
    (initStack true 0 lsMem 0x900000#32 0#32) :=
  (init_stack_iff lsMem_args).mpr (Or.inl (by decide))

/-- An argument of 0x401000 characters at 0x1000000, with the pointers at 0x900000. -/
def bigMem : UserMem where
  bytes := fun x =>
    if x = 0x900003 then 0x01#8
    else if 0x1000000 ≤ x ∧ x < 0x1401000 then 0x61#8
    else 0#8
  readable := fun pn => pn == 0x900 || decide (0x1000 ≤ pn ∧ pn ≤ 0x1401)
  writable := fun pn => pn == 0x900 || decide (0x1000 ≤ pn ∧ pn ≤ 0x1401)
  log := []

def bigArg : List (BitVec 8) := List.replicate 0x401000 0x61#8

theorem bigArg_length : bigArg.length = 0x401000 := List.length_replicate

theorem bigMem_args : ArgsAt bigMem 0x900000#32 [bigArg] := by
  have hptr : bigMem.bytes.read32 0x900000 = 0x1000000#32 := by decide
  have hbase : (0x900000#32).toNat = 0x900000 := rfl
  have hstr : (0x1000000#32).toNat = 0x1000000 := rfl
  refine ⟨by decide, fun x hx => ?_, fun i hi => ?_, by decide⟩
  · simp only [List.length_singleton] at hx
    have hx' : ((0x900000#32).toNat + x) / 4096 = 0x900 := by
      rw [hbase]
      omega
    unfold Own
    rw [hx']
    exact ⟨rfl, by decide⟩
  · rw [List.length_singleton] at hi
    have hi0 : i = 0 := by omega
    subst hi0
    have hp : bigMem.bytes.read32 ((0x900000#32).toNat + 4 * 0) = 0x1000000#32 := hptr
    have hget : [bigArg].get ⟨0, hi⟩ = bigArg := rfl
    rw [hp, hget]
    refine ⟨by decide, ?_, fun k hk => ?_, fun c hc => ?_, ⟨fun k hk => ?_, ?_⟩⟩
    · rw [bigArg_length]
      decide
    · rw [bigArg_length] at hk
      unfold Own
      rw [hstr]
      refine ⟨?_, by simp only [utempPage]; omega⟩
      simp only [bigMem, Bool.or_eq_true, decide_eq_true_eq]
      right
      omega
    · rw [List.eq_of_mem_replicate hc]
      decide
    · rw [bigArg_length] at hk
      rw [hstr]
      simp only [bigMem]
      rw [if_neg (by omega), if_pos (by omega)]
      exact (List.getElem_replicate ..).symm
    · rw [bigArg_length, hstr]
      simp only [bigMem]
      rw [if_neg (by omega), if_neg (by omega)]

/-- It is not refused: `init_stack` faults at an address of the kernel. -/
theorem init_stack_faults : ArgsAt bigMem 0x900000#32 [bigArg] ∧ 4096 < argSpace [bigArg] ∧
    initStack true 0 bigMem 0x900000#32 0#32 = none ∧
    ¬ HandsOver true 0 bigMem [bigArg] 0#32 (initStack true 0 bigMem 0x900000#32 0#32) := by
  have hsize : stringBytes [bigArg] = 0x401001 := by
    rw [stringBytes, stringBytes, bigArg_length]
  have hspace : argSpace [bigArg] = 4198420 := by
    rw [argSpace, hsize, List.length_singleton]
  have hbase : argvBase [bigArg] = 0xFFFFFFF4#32 := by
    rw [argvBase, stringBase, hsize, List.length_singleton]
    decide
  have hnone : initStack true 0 bigMem 0x900000#32 0#32 = none := by
    rw [bigMem_args.initStack, placeArgs_eq, hbase, if_neg (by decide), if_neg (by decide)]
    generalize stringBase [bigArg] = dst
    have hfill : fillTemp 0x900000#32 0xFFFFFFF4#32 1 bigMem.allocTemp dst = none := rfl
    rw [List.length_singleton, hfill]
  refine ⟨bigMem_args, by rw [hspace]; decide, hnone, fun h => ?_⟩
  have hfull := h.full (by rw [hspace]; decide)
  rw [hnone] at hfull
  cases hfull

end Jos.User
