import Jos.Kern.FreePages
import Jos.Kern.UserPointer

/-!
# Loading a program in the kernel

`region_alloc` and `load_icode` of `kern/env.c`. The binary is linked into the kernel, in memory
that loading does not change, so it is given by its bytes. The kernel writes to the pages of the new
environment through its page directory.
-/

namespace Jos.Kern

open Jos.Lib Kernel

/-! ## ELF -/

def elfMagic : BitVec 32 := 0x464C457F#32
def elfProgLoad : BitVec 32 := 1#32
def elfProgFlagWrite : BitVec 32 := 2#32

/-- The fields of `struct Elf` that the loaders read. -/
def eMagic (img : Mem) : BitVec 32 := img.read32 0
def eEntry (img : Mem) : BitVec 32 := img.read32 24
def ePhoff (img : Mem) : BitVec 32 := img.read32 28
def ePhnum (img : Mem) : BitVec 16 := img 45 ++ img 44

/-- The fields of `struct Proghdr` that the loaders read. -/
structure Proghdr where
  pType : BitVec 32
  pOffset : BitVec 32
  pVa : BitVec 32
  pFilesz : BitVec 32
  pMemsz : BitVec 32
  pFlags : BitVec 32
deriving DecidableEq

/-- The program header at offset `a`. -/
def proghdrAt (img : Mem) (a : Nat) : Proghdr where
  pType := img.read32 a
  pOffset := img.read32 (a + 4)
  pVa := img.read32 (a + 8)
  pFilesz := img.read32 (a + 16)
  pMemsz := img.read32 (a + 20)
  pFlags := img.read32 (a + 24)

/-- The program headers, from `ph` up to `ph_end`. -/
def proghdrs (img : Mem) : List Proghdr :=
  (List.range (ePhnum img).toNat).map fun k => proghdrAt img ((ePhoff img).toNat + 32 * k)

/-! ## The loader -/

/-- One round of `region_alloc`. -/
def regionPage (s : Kernel) (pgdir : Nat) (va : BitVec 32) : Option Kernel := do
  match ← pageAlloc s false with
  | (_, none) => none
  | (s, some p) =>
      let (s, r) ← pageInsert s pgdir p va (pteW ||| pteU)
      if r ≠ 0 then none else some s

/-- `region_alloc`: one round for each page from `comienzo` up to `final`. -/
def regionAlloc (s : Kernel) (pgdir : Nat) (va len : BitVec 32) : Option Kernel :=
  let comienzo := roundDown va
  let final := roundUp (va + len)
  (List.range ((final.toNat - comienzo.toNat) / 4096)).foldlM
    (fun s i => regionPage s pgdir (comienzo + BitVec.ofNat 32 (4096 * i))) s

/-- Store `n` bytes from `dst` on. -/
def copyBytes (store : Kernel → BitVec 32 → BitVec 8 → Option Kernel) (s : Kernel) (dst : BitVec 32)
    (src : Nat → BitVec 8) (n : Nat) : Option Kernel :=
  (List.range n).foldlM (fun s i => store s (dst + BitVec.ofNat 32 i) (src i)) s

/-- `memcpy` and `memset` in the kernel, with a page directory loaded. -/
def kernCopy (pgdir : Nat) : Kernel → BitVec 32 → (Nat → BitVec 8) → Nat → Option Kernel :=
  copyBytes fun s va b => storeByte s pgdir va b

/-- The body of the loop of `load_icode`. -/
def loadSegment (pgdir : Nat) (img : Mem) (s : Kernel) (ph : Proghdr) : Option Kernel :=
  if ph.pType = elfProgLoad then do
    let s ← regionAlloc s pgdir ph.pVa ph.pMemsz
    let s ← kernCopy pgdir s ph.pVa (fun i => img (ph.pOffset.toNat + i)) ph.pFilesz.toNat
    kernCopy pgdir s (ph.pVa + ph.pFilesz) (fun _ => 0#8) (ph.pMemsz - ph.pFilesz).toNat
  else some s

/-- `load_icode` -/
def loadIcode (s : Kernel) (e : EnvIx) (img : Mem) : Option Kernel :=
  if eMagic img ≠ elfMagic then none
  else do
    let pgdir ← (s.envs e).envPgdir
    let s ← (proghdrs img).foldlM (loadSegment pgdir img) s
    let s := s.setEnv e fun env => { env with envTf := { env.envTf with tfEip := eEntry img } }
    regionAlloc s pgdir (ustacktop - 4096#32) 4096#32

/-! ## What an environment sees -/

/-- The number of pages below `UTOP`. -/
def lowPages : Nat := 977920

/-- The slot of page `n`, for `n < lowPages`. -/
def pageSlot (e : EnvIx) (n : Nat) : Slot :=
  (e, ⟨n / 1024 % pdxUtop, Nat.mod_lt _ (by decide)⟩, ⟨n % 1024, Nat.mod_lt _ (by decide)⟩)

/-- The frame of page `n`. -/
def frameOf (s : Kernel) (e : EnvIx) (n : Nat) : Option Nat := entryTarget (pteOf s (pageSlot e n))

/-- The physical address of an address, if its page is mapped. -/
def physOf (s : Kernel) (e : EnvIx) (a : Nat) : Option Nat :=
  (frameOf s e (a / 4096)).map fun f => 4096 * f + a % 4096

/-- The byte at an address, if its page is mapped. -/
def userByte (s : Kernel) (e : EnvIx) (a : Nat) : Option (BitVec 8) := (physOf s e a).map s.mem

/-- The environment may write page `n`. -/
def PageWritable (s : Kernel) (e : EnvIx) (n : Nat) : Prop :=
  pteOf s (pageSlot e n) &&& userWrite = userWrite

section

variable {R : Nat → Prop} {s s' : Kernel} {e : EnvIx} {d n k : Nat} {w : BitVec 32}

theorem pageSlot_inj (hn : n < lowPages) (hk : k < lowPages) (h : pageSlot e n = pageSlot e k) :
    n = k := by
  have h1 : n / 1024 % pdxUtop = k / 1024 % pdxUtop := congrArg (fun x : Slot => x.2.1.val) h
  have h2 : n % 1024 = k % 1024 := congrArg (fun x : Slot => x.2.2.val) h
  simp only [lowPages, pdxUtop] at hn hk h1
  omega

theorem pageVa_lt_utop (hn : n < lowPages) : pageVa n < utop := by
  simp only [lowPages] at hn
  rw [BitVec.lt_def, pageVa_toNat (by omega), show utop.toNat = 4005560320 from rfl]
  omega

theorem slotOf_pageVa (hn : n < lowPages) (hva : pageVa n < utop) :
    slotOf e (pageVa n) hva = pageSlot e n := by
  simp only [lowPages] at hn
  have h1 := pdx_pageVa (n := n) (by omega)
  have h2 := ptx_pageVa (n := n) (by omega)
  have h3 : n / 1024 % pdxUtop = n / 1024 := Nat.mod_eq_of_lt (by simp only [pdxUtop]; omega)
  simp only [slotOf, pageSlot, h1, h2, h3]

theorem frameOf_update (hpte : pteOf s' = Function.update (pteOf s) (pageSlot e n) w)
    (hn : n < lowPages) {e' : EnvIx} (hk : k < lowPages) :
    frameOf s' e' k = if e' = e ∧ k = n then entryTarget w else frameOf s e' k := by
  rw [frameOf, hpte]
  split
  · rename_i heq
    rw [heq.1, heq.2, Function.update_self]
  · rename_i hne
    rw [Function.update_of_ne, frameOf]
    intro heq
    have he : e' = e := congrArg Prod.fst heq
    subst he
    exact hne ⟨rfl, pageSlot_inj hk hn heq⟩

theorem physOf_eq_some {a x : Nat} : physOf s e a = some x ↔
    ∃ f, frameOf s e (a / 4096) = some f ∧ x = 4096 * f + a % 4096 := by
  rw [physOf, Option.map_eq_some_iff]
  constructor
  · rintro ⟨f, hf, rfl⟩
    exact ⟨f, hf, rfl⟩
  · rintro ⟨f, hf, rfl⟩
    exact ⟨f, hf, rfl⟩

/-- Two addresses with one physical address. -/
theorem physOf_same {e' : EnvIx} {a b x : Nat} (ha : physOf s e a = some x)
    (hb : physOf s e' b = some x) :
    frameOf s e (a / 4096) = frameOf s e' (b / 4096) ∧ a % 4096 = b % 4096 := by
  obtain ⟨f, hf, rfl⟩ := physOf_eq_some.mp ha
  obtain ⟨g, hg, hx⟩ := physOf_eq_some.mp hb
  have hfg : f = g := by omega
  subst hfg
  exact ⟨hf.trans hg.symm, by omega⟩

theorem PageWritable.frameOf_ne (h : PageWritable s e n) : ∃ f, frameOf s e n = some f := by
  have hpres : isPresent (pteOf s (pageSlot e n)) = true := by
    have hp : pteOf s (pageSlot e n) &&& pteP = pteP := by
      have hsub : userWrite &&& pteP = pteP := by decide
      rw [← hsub, ← BitVec.and_assoc, h]
    rw [isPresent, hp]
    rfl
  exact ⟨_, by rw [frameOf, entryTarget, if_pos hpres]⟩

theorem slotOf_eq {va : BitVec 32} (hva : va < utop) : slotOf e va hva = pageSlot e (va.toNat / 4096) := by
  have hlt : va.toNat < 4005560320 := hva
  have h1 : va.toNat / 2 ^ 22 = va.toNat / 4096 / 1024 % pdxUtop := by
    rw [Nat.mod_eq_of_lt (by simp only [pdxUtop]; omega)]
    omega
  simp only [slotOf, pageSlot, pdx_eq, ptx_eq, h1]

/-! ## Copying bytes -/

/-- `s'` is `s` after bytes were stored to the range of `n` bytes from `dst` on. -/
structure Stored (R : Nat → Prop) (s : Kernel) (e : EnvIx) (dst n : Nat) (src : Nat → BitVec 8)
    (s' : Kernel) : Prop where
  inv : Inv R s'
  envs : s'.envs = s.envs
  ppLink : s'.ppLink = s.ppLink
  free : s'.pageFreeList = s.pageFreeList
  maps : SameMaps s s'
  written : ∀ i < n, ∀ x, physOf s e (dst + i) = some x → s'.mem x = src i
  kept : ∀ x, (∀ i < n, physOf s e (dst + i) ≠ some x) → s'.mem x = s.mem x

theorem SameMaps.frameOf_eq (h : SameMaps s s') : frameOf s' e n = frameOf s e n := by
  rw [frameOf, frameOf, h.2]

theorem SameMaps.physOf_eq (h : SameMaps s s') {a : Nat} : physOf s' e a = physOf s e a := by
  rw [physOf, physOf, h.frameOf_eq]

theorem SameMaps.writable (h : SameMaps s s') : PageWritable s' e n ↔ PageWritable s e n := by
  rw [PageWritable, PageWritable, h.2]

/-- A store of one byte to a page that the environment may write. -/
theorem storeByte_stored {va : BitVec 32} {b : BitVec 8} {a : Nat} (h : Inv R s)
    (hd : (s.envs e).envPgdir = some d) (ha : va.toNat = a) (hlow : a / 4096 < lowPages)
    (hw : PageWritable s e (a / 4096)) :
    x86Grants s d va userWrite ∧
      ∃ s', storeByte s d va b = some s' ∧ Stored R s e a 1 (fun _ => b) s' := by
  simp only [lowPages] at hlow
  have hva : va < utop := by
    rw [BitVec.lt_def, ha, show utop.toNat = 4005560320 from rfl]
    omega
  have hslot : slotOf e va hva = pageSlot e (a / 4096) := by rw [slotOf_eq, ha]
  have hgr : x86Grants s d va userWrite := by
    rw [h.pages.shape.x86Grants_low hd hva (by decide), hslot]
    exact hw
  obtain ⟨f, hf, hphys⟩ := h.pages.physAddr_eq hd hva (by decide) hgr
  rw [pgoff_eq, ha] at hphys
  have hst := h.pages.sameTables_store ⟨_, hf⟩ (x := physAddr s d va) (by omega) (by omega) b
  have hx : physOf s e a = some (physAddr s d va) := by
    rw [hslot] at hf
    exact physOf_eq_some.mpr ⟨f, hf, hphys⟩
  refine ⟨hgr, _, by rw [storeByte, if_pos (hgr.mono (by decide))],
    hst.inv h rfl rfl rfl rfl rfl, rfl, rfl, rfl, ⟨hst.target_eq, hst.pteOf_eq⟩, ?_, ?_⟩
  · intro i hi x hix
    obtain rfl : i = 0 := by omega
    rw [Nat.add_zero, hx] at hix
    cases hix
    exact Function.update_self ..
  · intro x hxne
    have hne : x ≠ physAddr s d va := by
      rintro rfl
      exact hxne 0 (by omega) hx
    exact Function.update_of_ne hne ..

/-- A copy to pages that the environment may write and that have frames of their own. -/
theorem copyBytes_stored {store : Kernel → BitVec 32 → BitVec 8 → Option Kernel} (dst : BitVec 32)
    (src : Nat → BitVec 8) (hstore : ∀ s va b, x86Grants s d va userWrite →
      store s va b = storeByte s d va b)
    (h : Inv R s) (hd : (s.envs e).envPgdir = some d) (hend : dst.toNat + n ≤ 4096 * lowPages)
    (hw : ∀ i < n, PageWritable s e ((dst.toNat + i) / 4096))
    (hown : ∀ i < n, ∀ j < n, ∀ f, frameOf s e ((dst.toNat + i) / 4096) = some f →
      frameOf s e ((dst.toNat + j) / 4096) = some f →
        (dst.toNat + i) / 4096 = (dst.toNat + j) / 4096) :
    ∃ s', copyBytes store s dst src n = some s' ∧ Stored R s e dst.toNat n src s' := by
  simp only [lowPages] at hend
  -- the invariant: the first `i` bytes are stored
  refine foldlM_range_inv (fun i s' => Stored R s e dst.toNat i src s') ?_ ?_
  · exact ⟨h, rfl, rfl, rfl, ⟨rfl, rfl⟩, fun i hi => absurd hi (Nat.not_lt_zero i), fun _ _ => rfl⟩
  · intro i hi s1 h1
    have hnat : (dst + BitVec.ofNat 32 i).toNat = dst.toNat + i := by
      rw [BitVec.toNat_add, BitVec.toNat_ofNat]
      omega
    obtain ⟨hgr, s2, hrun, h2⟩ := storeByte_stored (b := src i) h1.inv (by rw [h1.envs, hd]) hnat
      (by simp only [lowPages]; omega) (h1.maps.writable.mpr (hw i hi))
    refine ⟨s2, by rw [hstore _ _ _ hgr, hrun], h2.inv, h2.envs.trans h1.envs,
      h2.ppLink.trans h1.ppLink, h2.free.trans h1.free, h1.maps.trans h2.maps, ?_, ?_⟩
    · intro j hj x hx
      rcases Nat.lt_succ_iff_lt_or_eq.mp hj with hlt | rfl
      · rw [← h1.written j hlt x hx]
        refine h2.kept x fun k hk hkx => ?_
        obtain rfl : k = 0 := by omega
        rw [Nat.add_zero, h1.maps.physOf_eq] at hkx
        obtain ⟨hframe, hoff⟩ := physOf_same hx hkx
        obtain ⟨f, hf, _⟩ := physOf_eq_some.mp hx
        have hpage := hown j (by omega) i hi f hf (by rw [← hframe, hf])
        omega
      · exact h2.written 0 (by omega) x (by rw [Nat.add_zero, h1.maps.physOf_eq, hx])
    · intro x hx
      rw [h2.kept x, h1.kept x fun j hj => hx j (by omega)]
      intro k hk hkx
      obtain rfl : k = 0 := by omega
      rw [Nat.add_zero, h1.maps.physOf_eq] at hkx
      exact hx i (by omega) hkx

/-! ## New pages -/

/-- What an environment reads on a page that keeps its frame. -/
theorem PageOp.userByte_eq (hop : PageOp R s s') {a : Nat}
    (hframe : frameOf s' e (a / 4096) = frameOf s e (a / 4096)) : userByte s' e a = userByte s e a := by
  rw [userByte, userByte, physOf, physOf, hframe]
  cases hf : frameOf s e (a / 4096) with
  | none => rfl
  | some f =>
      have hdata := hop.data f ⟨_, hf⟩ ⟨_, hframe.trans hf⟩ (4096 * f + a % 4096) (by omega) (by omega)
      simp only [Option.map_some, hdata]

/-- What loading has done to a new environment: exactly the pages of `P` are mapped below `UTOP`,
each with a frame of its own, and `B` holds of the bytes. -/
structure Loaded (R : Nat → Prop) (e : EnvIx) (d : Nat) (P : Nat → Prop) (B : Nat → BitVec 8 → Prop)
    (s : Kernel) : Prop where
  inv : Inv R s
  dir : (s.envs e).envPgdir = some d
  unmapped : ∀ n < lowPages, ¬ P n → frameOf s e n = none
  writable : ∀ n < lowPages, P n → PageWritable s e n
  own : ∀ n < lowPages, ∀ k < lowPages, ∀ f, frameOf s e n = some f → frameOf s e k = some f → n = k
  bytes : ∀ a b, B a b → a / 4096 < lowPages ∧ userByte s e a = some b

variable {P : Nat → Prop} {B : Nat → BitVec 8 → Prop}

theorem Loaded.congr {P' : Nat → Prop} {B' : Nat → BitVec 8 → Prop} (h : Loaded R e d P B s)
    (hP : ∀ n, P' n ↔ P n) (hB : ∀ a b, B' a b → B a b) : Loaded R e d P' B' s where
  inv := h.inv
  dir := h.dir
  unmapped n hn hnP := h.unmapped n hn fun hp => hnP ((hP n).mpr hp)
  writable n hn hp := h.writable n hn ((hP n).mp hp)
  own := h.own
  bytes a b hab := h.bytes a b (hB a b hab)

theorem Loaded.mapped_iff (h : Loaded R e d P B s) (hn : n < lowPages) :
    (frameOf s e n).isSome = true ↔ P n := by
  constructor
  · intro hsome
    by_contra hp
    rw [h.unmapped n hn hp] at hsome
    cases hsome
  · intro hp
    obtain ⟨f, hf⟩ := (h.writable n hn hp).frameOf_ne
    rw [hf]
    rfl

/-- A round of `region_alloc` at a page that is not mapped. -/
theorem Loaded.regionPage (h : Loaded R e d P B s) (hn : n < lowPages) (hp : ¬ P n)
    (hs : Spare s (k + 2)) :
    ∃ s', regionPage s d (pageVa n) = some s' ∧ s'.envs = s.envs ∧
      Loaded R e d (fun m => P m ∨ m = n) B s' ∧ Spare s' k := by
  have hva := pageVa_lt_utop hn
  have hslot := slotOf_pageVa (e := e) hn hva
  rcases h.inv.pages.pageAlloc false with ⟨hnone, _⟩ | ⟨pg, s1, hal, htk⟩
  · exact absurd hnone hs.ne_none
  have hs1 := spare_pageAlloc hs hal
  have hd1 : (s1.envs e).envPgdir = some d := by rw [htk.envs, h.dir]
  have hdrop : DropOk s1 (placeOf (slotOf e (pageVa n) hva)) := by
    intro q hq
    have hfree := h.unmapped n hn hp
    rw [htk.same.target_eq, target_placeOf, hslot, ← frameOf, hfree] at hq
    cases hq
  rcases htk.inv.pageInsert (pteW ||| pteU) (Or.inr ⟨rfl, by simp⟩) hd1 rfl rfl (by decide)
      (i := ⟨pdx (pageVa n), pdx_lt_of_lt_utop hva⟩) (j := ⟨ptx (pageVa n), ptx_lt _⟩) hdrop with
    ⟨hfull, _⟩ | ⟨s2, hins, h2⟩
  · exact absurd hfull hs1.ne_none
  obtain ⟨hop, hfresh, hpte, _⟩ := htk.pageOp h2 h.inv
  rw [show (e, ⟨pdx (pageVa n), _⟩, ⟨ptx (pageVa n), _⟩) = pageSlot e n from hslot] at hpte
  have hframe : ∀ m < lowPages, frameOf s2 e m = if m = n then some pg else frameOf s e m := by
    intro m hm
    rw [frameOf_update hpte hn hm, h2.target_eq]
    simp
  have hother : ∀ m < lowPages, ∀ f, frameOf s2 e m = some f → m ≠ n →
      frameOf s e m = some f ∧ f ≠ pg := by
    intro m hm f hf hne
    rw [hframe m hm, if_neg hne] at hf
    refine ⟨hf, ?_⟩
    rintro rfl
    exact hfresh ⟨_, hf⟩
  refine ⟨s2, by simp [Kern.regionPage, hal, hins], hop.envs,
    ⟨hop.inv, by rw [hop.envs, h.dir], ?_, ?_, ?_, ?_⟩, spare_pageInsert htk.inv hd1 hva hs1 hins⟩
  · intro m hm hnot
    rw [hframe m hm, if_neg fun heq => hnot (Or.inr heq)]
    exact h.unmapped m hm fun hpm => hnot (Or.inl hpm)
  · intro m hm hpm
    rw [PageWritable, hpte]
    by_cases hmn : m = n
    · rw [hmn, Function.update_self, BitVec.or_assoc, entry_and (by decide)]
      decide
    · rw [Function.update_of_ne fun heq => hmn (pageSlot_inj hm hn heq)]
      exact h.writable m hm (hpm.resolve_right hmn)
  · intro m hm m' hm' f hf hf'
    by_cases hmn : m = n
    · by_contra hne
      have hne' : m' ≠ n := fun heq => hne (hmn.trans heq.symm)
      obtain ⟨_, hfpg⟩ := hother m' hm' f hf' hne'
      rw [hframe m hm, if_pos hmn] at hf
      cases hf
      exact hfpg rfl
    · obtain ⟨hf0, hfpg⟩ := hother m hm f hf hmn
      by_cases hmn' : m' = n
      · rw [hframe m' hm', if_pos hmn'] at hf'
        cases hf'
        exact absurd rfl hfpg
      · exact h.own m hm m' hm' f hf0 (hother m' hm' f hf' hmn').1
  · intro a b hab
    obtain ⟨hlow, hbyte⟩ := h.bytes a b hab
    refine ⟨hlow, ?_⟩
    rw [hop.userByte_eq, hbyte]
    rw [hframe _ hlow, if_neg]
    intro heq
    rw [userByte, physOf, heq, h.unmapped n hn hp] at hbyte
    cases hbyte

/-- `region_alloc` for a region with no page mapped. -/
theorem Loaded.regionAlloc (h : Loaded R e d P B s) (va len : BitVec 32) {lo up : Nat}
    (hlo : va.toNat / 4096 = lo) (hhi : (va.toNat + len.toNat + 4095) / 4096 = up)
    (hlow : up ≤ lowPages) (hp : ∀ n, lo ≤ n → n < up → ¬ P n) (hs : Spare s (k + 2 * (up - lo))) :
    ∃ s', regionAlloc s d va len = some s' ∧ s'.envs = s.envs ∧
      Loaded R e d (fun n => P n ∨ lo ≤ n ∧ n < up) B s' ∧ Spare s' k := by
  have hlow' := hlow
  simp only [lowPages] at hlow'
  have hsum : (va + len).toNat = va.toNat + len.toNat := by
    rw [BitVec.toNat_add]
    omega
  have hcount : ((roundUp (va + len)).toNat - (roundDown va).toNat) / 4096 = up - lo := by
    rw [roundUp_toNat, roundDown_toNat, hsum]
    omega
  have hstep : ∀ i < up - lo, roundDown va + BitVec.ofNat 32 (4096 * i) = pageVa (lo + i) := by
    intro i hi
    apply BitVec.eq_of_toNat_eq
    rw [BitVec.toNat_add, roundDown_toNat, BitVec.toNat_ofNat, pageVa_toNat (by omega)]
    omega
  have hle : lo ≤ up := by omega
  simp only [Kern.regionAlloc, hcount]
  -- the invariant: `i` pages are mapped
  obtain ⟨s', hrun, henvs, hload, hspare⟩ := foldlM_range_inv (n := up - lo) (s := s)
    (f := fun s i => Kern.regionPage s d (roundDown va + BitVec.ofNat 32 (4096 * i)))
    (fun i s' => s'.envs = s.envs ∧ Loaded R e d (fun n => P n ∨ lo ≤ n ∧ n < lo + i) B s' ∧
      Spare s' (k + 2 * (up - lo - i)))
    ⟨rfl, h.congr (fun n => ⟨fun h => h.resolve_right (by omega), Or.inl⟩) fun _ _ h => h, hs⟩
    (by
      rintro i hi s1 ⟨henvs, hload, hspare⟩
      obtain ⟨s2, hrun, he2, hload2, hspare2⟩ := hload.regionPage (n := lo + i) (by omega)
        (by
          rintro (hp' | hp')
          · exact hp (lo + i) (by omega) (by omega) hp'
          · omega)
        (hspare.mono (k := k + 2 * (up - lo - (i + 1)) + 2) (by omega))
      refine ⟨s2, by rw [hstep i hi, hrun], he2.trans henvs, hload2.congr (fun n => ?_) fun _ _ h => h,
        hspare2⟩
      rw [or_assoc]
      refine or_congr Iff.rfl ?_
      omega)
  refine ⟨s', hrun, henvs, hload.congr (fun n => ?_) fun _ _ h => h, ?_⟩
  · rw [show lo + (up - lo) = up by omega]
  · exact hspare.mono (by omega)

/-- A copy to mapped pages. -/
theorem Loaded.kernCopy (h : Loaded R e d P B s) (dst : BitVec 32) (src : Nat → BitVec 8)
    (hend : dst.toNat + n ≤ 4096 * lowPages) (hp : ∀ i < n, P ((dst.toNat + i) / 4096)) :
    ∃ s', kernCopy d s dst src n = some s' ∧ s'.envs = s.envs ∧
      Loaded R e d P (fun a b => dst.toNat ≤ a ∧ a < dst.toNat + n ∧ b = src (a - dst.toNat) ∨
        ¬ (dst.toNat ≤ a ∧ a < dst.toNat + n) ∧ B a b) s' ∧ (∀ m, Spare s m → Spare s' m) := by
  have hend' := hend
  simp only [lowPages] at hend'
  have hlow : ∀ i < n, (dst.toNat + i) / 4096 < lowPages := by
    intro i hi
    simp only [lowPages]
    omega
  obtain ⟨s', hrun, hst⟩ := copyBytes_stored dst src (fun s va b _ => (rfl : storeByte s d va b = _)) h.inv h.dir hend (fun i hi => h.writable _ (hlow i hi) (hp i hi))
    fun i hi j hj f hf hf' => h.own _ (hlow i hi) _ (hlow j hj) f hf hf'
  have hm := hst.maps
  refine ⟨s', hrun, hst.envs, ⟨hst.inv, by rw [hst.envs, h.dir], ?_, ?_, ?_, ?_⟩,
    fun m hs => hs.congr hst.ppLink hst.free⟩
  · intro m hlt hnp
    rw [hm.frameOf_eq, h.unmapped m hlt hnp]
  · intro m hlt hpm
    exact hm.writable.mpr (h.writable m hlt hpm)
  · intro m hlt m' hlt' f hf hf'
    rw [hm.frameOf_eq] at hf hf'
    exact h.own m hlt m' hlt' f hf hf'
  · rintro a b (⟨ha, ha', rfl⟩ | ⟨hout, hab⟩)
    · have ha0 : dst.toNat + (a - dst.toNat) = a := by omega
      have hpage := hlow (a - dst.toNat) (by omega)
      rw [ha0] at hpage
      refine ⟨hpage, ?_⟩
      obtain ⟨f, hf⟩ := (h.writable _ hpage (by rw [← ha0]; exact hp _ (by omega))).frameOf_ne
      have hx : physOf s e a = some (4096 * f + a % 4096) := physOf_eq_some.mpr ⟨f, hf, rfl⟩
      rw [userByte, hm.physOf_eq, hx, Option.map_some,
        hst.written (a - dst.toNat) (by omega) _ (by rw [ha0, hx])]
    · obtain ⟨hpage, hbyte⟩ := h.bytes a b hab
      refine ⟨hpage, ?_⟩
      rw [← hbyte, userByte, userByte, hm.physOf_eq]
      cases hx : physOf s e a with
      | none => rfl
      | some x =>
          rw [Option.map_some, Option.map_some, hst.kept x]
          intro i hi hix
          obtain ⟨hframe, hoff⟩ := physOf_same hx hix
          obtain ⟨f, hf, _⟩ := physOf_eq_some.mp hx
          have := h.own _ hpage _ (hlow i hi) f hf (by rw [← hframe, hf])
          omega

/-! ## Segments -/

/-- Page `n` is in the region of a segment, rounded to pages. -/
def Proghdr.HasPage (ph : Proghdr) (n : Nat) : Prop :=
  ph.pVa.toNat / 4096 ≤ n ∧ n < (ph.pVa.toNat + ph.pMemsz.toNat + 4095) / 4096

/-- The number of these pages. -/
def Proghdr.pages (ph : Proghdr) : Nat :=
  (ph.pVa.toNat + ph.pMemsz.toNat + 4095) / 4096 - ph.pVa.toNat / 4096

/-- The addresses of a segment. -/
def Proghdr.HasAddr (ph : Proghdr) (a : Nat) : Prop :=
  ph.pVa.toNat ≤ a ∧ a < ph.pVa.toNat + ph.pMemsz.toNat

/-- The byte of a segment at an address: from the file, and zero behind its bytes. -/
def Proghdr.byteAt (img : Mem) (ph : Proghdr) (a : Nat) : BitVec 8 :=
  if a < ph.pVa.toNat + ph.pFilesz.toNat then img (ph.pOffset.toNat + (a - ph.pVa.toNat)) else 0#8

/-- The segments that are loaded. -/
def loadable (l : List Proghdr) : List Proghdr := l.filter fun ph => ph.pType = elfProgLoad

def SegPage (l : List Proghdr) (n : Nat) : Prop := ∃ ph ∈ loadable l, ph.HasPage n

def SegByte (img : Mem) (l : List Proghdr) (a : Nat) (b : BitVec 8) : Prop :=
  ∃ ph ∈ loadable l, ph.HasAddr a ∧ b = ph.byteAt img a

/-- The pages of all segments. -/
def regionPages (l : List Proghdr) : Nat := ((loadable l).map Proghdr.pages).sum

/-- What the linker guarantees of a segment in a file of `len` bytes. -/
structure SegOk (len : Nat) (ph : Proghdr) : Prop where
  filesz_le : ph.pFilesz.toNat ≤ ph.pMemsz.toNat
  same_off : pgoff ph.pVa = pgoff ph.pOffset
  inside : ph.pOffset.toNat + ph.pFilesz.toNat ≤ len
  below : ph.pVa.toNat + ph.pMemsz.toNat ≤ (ustacktop - 4096#32).toNat

/-- No page is in the regions of both. -/
def Apart (ph ph' : Proghdr) : Prop := ∀ n, ph.HasPage n → ¬ ph'.HasPage n

/-- Segments that can be loaded one after another. -/
structure SegsOk (len : Nat) (l : List Proghdr) : Prop where
  ok : ∀ ph ∈ loadable l, SegOk len ph
  apart : (loadable l).Pairwise Apart

/-- The page of the stack. -/
def stackPage : Nat := 977917

theorem loadable_cons_of_pos {ph : Proghdr} (l : List Proghdr) (h : ph.pType = elfProgLoad) :
    loadable (ph :: l) = ph :: loadable l := by
  rw [loadable, List.filter_cons_of_pos (by simpa using h), loadable]

theorem loadable_cons_of_neg {ph : Proghdr} (l : List Proghdr) (h : ph.pType ≠ elfProgLoad) :
    loadable (ph :: l) = loadable l := by
  rw [loadable, List.filter_cons_of_neg (by simpa using h), loadable]

/-- The loop over the program headers, for a loader whose state is described by the pages that are
mapped, the bytes that are known and the number of free pages. A page of a segment takes at most `c`
pages. -/
theorem segments_loop (img : Mem) (len c : Nat) {f : Kernel → Proghdr → Option Kernel}
    {G : (Nat → Prop) → (Nat → BitVec 8 → Prop) → Nat → Kernel → Prop}
    (hskip : ∀ s ph, ph.pType ≠ elfProgLoad → f s ph = some s)
    (hstep : ∀ P B k s ph, ph.pType = elfProgLoad → SegOk len ph → (∀ n, ph.HasPage n → ¬ P n) →
      G P B (k + c * ph.pages) s → ∃ s', f s ph = some s' ∧
        G (fun n => P n ∨ ph.HasPage n) (fun a b => B a b ∨ ph.HasAddr a ∧ b = ph.byteAt img a) k s')
    (l : List Proghdr) (hl : SegsOk len l) (hp : ∀ n, SegPage l n → ¬ P n)
    (hG : G P B (k + c * regionPages l) s) :
    ∃ s', l.foldlM f s = some s' ∧
      G (fun n => P n ∨ SegPage l n) (fun a b => B a b ∨ SegByte img l a b) k s' := by
  induction l generalizing s P B with
  | nil => exact ⟨s, rfl, by simpa [SegPage, SegByte, loadable, regionPages] using hG⟩
  | cons ph l ih =>
      by_cases hty : ph.pType = elfProgLoad
      · have hcons := loadable_cons_of_pos l hty
        have hok := hl.ok
        have hap := hl.apart
        rw [hcons] at hok hap
        obtain ⟨hph, hrest⟩ := List.pairwise_cons.mp hap
        have hsum : k + c * regionPages (ph :: l) = k + c * regionPages l + c * ph.pages := by
          rw [regionPages, hcons, List.map_cons, List.sum_cons, ← regionPages, Nat.mul_add]
          omega
        rw [hsum] at hG
        obtain ⟨s1, hrun1, hG1⟩ := hstep P B _ s ph hty (hok ph List.mem_cons_self)
          (fun n hn => hp n ⟨ph, by rw [hcons]; exact List.mem_cons_self, hn⟩) hG
        obtain ⟨s2, hrun2, hG2⟩ := ih ⟨fun ph' hmem => hok ph' (List.mem_cons_of_mem _ hmem), hrest⟩
          (by
            rintro n ⟨ph', hmem, hn⟩ (hpn | hpn)
            · exact hp n ⟨ph', by rw [hcons]; exact List.mem_cons_of_mem _ hmem, hn⟩ hpn
            · exact hph ph' hmem n hpn hn) hG1
        refine ⟨s2, by simp only [List.foldlM_cons, hrun1, Option.bind_eq_bind, Option.bind_some, hrun2],
          ?_⟩
        have hP : (fun n => (P n ∨ ph.HasPage n) ∨ SegPage l n) = fun n => P n ∨ SegPage (ph :: l) n := by
          ext n
          simp only [SegPage, hcons, List.exists_mem_cons_iff, or_assoc]
        have hB : (fun a b => (B a b ∨ ph.HasAddr a ∧ b = ph.byteAt img a) ∨ SegByte img l a b) =
            fun a b => B a b ∨ SegByte img (ph :: l) a b := by
          ext a b
          simp only [SegByte, hcons, List.exists_mem_cons_iff, or_assoc]
        rwa [hP, hB] at hG2
      · have hcons := loadable_cons_of_neg l hty
        obtain ⟨s2, hrun2, hG2⟩ := ih (s := s) (P := P) (B := B) ⟨by rw [← hcons]; exact hl.ok,
          by rw [← hcons]; exact hl.apart⟩ (by simpa only [SegPage, hcons] using hp)
          (by simpa only [regionPages, hcons] using hG)
        refine ⟨s2, by simp only [List.foldlM_cons, hskip s ph hty, Option.bind_eq_bind,
          Option.bind_some, hrun2], ?_⟩
        simpa only [SegPage, SegByte, hcons] using hG2

/-- Bytes that are known are on mapped pages. -/
theorem Loaded.page_of_byte (h : Loaded R e d P B s) {a : Nat} {b : BitVec 8} (hab : B a b) :
    P (a / 4096) := by
  obtain ⟨hlow, hbyte⟩ := h.bytes a b hab
  by_contra hp
  rw [userByte, physOf, h.unmapped _ hlow hp] at hbyte
  cases hbyte

/-- `load_icode` on one segment. -/
theorem Loaded.loadSegment {img : Mem} {len : Nat} {ph : Proghdr} (hty : ph.pType = elfProgLoad)
    (hok : SegOk len ph) (hp : ∀ n, ph.HasPage n → ¬ P n) (h : Loaded R e d P B s)
    (hs : Spare s (k + 2 * ph.pages)) :
    ∃ s', loadSegment d img s ph = some s' ∧ Loaded R e d (fun n => P n ∨ ph.HasPage n)
      (fun a b => B a b ∨ ph.HasAddr a ∧ b = ph.byteAt img a) s' ∧ Spare s' k := by
  obtain ⟨hfs, -, -, hbelow⟩ := hok
  rw [show (ustacktop - 4096#32).toNat = 4005548032 from rfl] at hbelow
  obtain ⟨s1, hrun1, -, h1, hs1⟩ := h.regionAlloc ph.pVa ph.pMemsz rfl rfl
    (by simp only [lowPages]; omega) (fun n hn hn' => hp n ⟨hn, hn'⟩) hs
  obtain ⟨s2, hrun2, -, h2, hs2⟩ := h1.kernCopy (n := ph.pFilesz.toNat) ph.pVa
    (fun i => img (ph.pOffset.toNat + i)) (by simp only [lowPages]; omega)
    (fun i hi => Or.inr ⟨by omega, by omega⟩)
  have hdst : (ph.pVa + ph.pFilesz).toNat = ph.pVa.toNat + ph.pFilesz.toNat := by
    rw [BitVec.toNat_add]
    omega
  have hrest : (ph.pMemsz - ph.pFilesz).toNat = ph.pMemsz.toNat - ph.pFilesz.toNat :=
    BitVec.toNat_sub_of_le hfs
  obtain ⟨s3, hrun3, -, h3, hs3⟩ := h2.kernCopy (n := (ph.pMemsz - ph.pFilesz).toNat)
    (ph.pVa + ph.pFilesz) (fun _ => 0#8)
    (by simp only [lowPages, hdst, hrest]; omega)
    (fun i hi => Or.inr (by rw [hrest] at hi; rw [hdst]; exact ⟨by omega, by omega⟩))
  refine ⟨s3, ?_, h3.congr (fun n => Iff.rfl) ?_, hs3 k (hs2 k hs1)⟩
  · simp only [Kern.loadSegment, if_pos hty, hrun1, hrun2, hrun3, Option.bind_eq_bind, Option.bind_some]
  · -- bytes known before are not in the region; those of the segment are in one of the two copies
    rintro a b (hab | ⟨⟨ha, ha'⟩, rfl⟩)
    · have hpage := h.page_of_byte hab
      have hout : ¬ (ph.pVa.toNat ≤ a ∧ a < ph.pVa.toNat + ph.pMemsz.toNat) := by
        rintro ⟨ha, ha'⟩
        exact hp _ ⟨by omega, by omega⟩ hpage
      rw [hdst, hrest]
      exact Or.inr ⟨by omega, Or.inr ⟨by omega, hab⟩⟩
    · rw [hdst, hrest, Proghdr.byteAt]
      by_cases hin : a < ph.pVa.toNat + ph.pFilesz.toNat
      · rw [if_pos hin]
        exact Or.inr ⟨by omega, Or.inl ⟨ha, hin, rfl⟩⟩
      · rw [if_neg hin]
        exact Or.inl ⟨by omega, by omega, rfl⟩

/-- An image whose segments satisfy what the linker guarantees. Its size is a 32-bit number. -/
structure ElfOk (img : Mem) (len : Nat) : Prop where
  long : 512 ≤ len
  size : len < 2 ^ 32
  magic : eMagic img = elfMagic
  headers : ∀ k < (ePhnum img).toNat, (ePhoff img).toNat + 32 * k + 32 ≤ 512
  segs : SegsOk len (proghdrs img)

theorem SegOk.page_lt {len : Nat} {ph : Proghdr} (h : SegOk len ph) (hn : ph.HasPage n) :
    n < stackPage := by
  have hbelow := h.below
  rw [show (ustacktop - 4096#32).toNat = 4005548032 from rfl] at hbelow
  obtain ⟨_, hn'⟩ := hn
  simp only [stackPage]
  omega

theorem SegsOk.page_lt {len : Nat} {l : List Proghdr} (h : SegsOk len l) (hn : SegPage l n) :
    n < stackPage := by
  obtain ⟨ph, hmem, hph⟩ := hn
  exact (h.ok ph hmem).page_lt hph

/-- `load_icode` for an environment with nothing mapped. -/
theorem loadIcode_loaded {img : Mem} {len : Nat} (h : Inv R s) (hd : (s.envs e).envPgdir = some d)
    (hnew : ∀ n < lowPages, frameOf s e n = none) (hok : ElfOk img len)
    (hs : Spare s (2 + 2 * regionPages (proghdrs img))) :
    ∃ s', loadIcode s e img = some s' ∧ (s'.envs e).envTf.tfEip = eEntry img ∧
      Loaded R e d (fun n => SegPage (proghdrs img) n ∨ n = stackPage) (SegByte img (proghdrs img)) s' := by
  have hstart : Loaded R e d (fun _ => False) (fun _ _ => False) s :=
    ⟨h, hd, fun n hn _ => hnew n hn, fun _ _ hp => hp.elim,
      (fun n hn k hk f hf => by rw [hnew n hn] at hf; cases hf), fun _ _ hb => hb.elim⟩
  obtain ⟨s1, hrun1, h1, hs1⟩ := segments_loop img len 2
    (f := loadSegment d img) (G := fun P B k s => Loaded R e d P B s ∧ Spare s k)
    (fun s ph hty => by rw [loadSegment, if_neg hty])
    (fun P B k s ph hty hseg hp hG => hG.1.loadSegment hty hseg hp hG.2)
    (proghdrs img) hok.segs (fun _ _ hp => hp) ⟨hstart, hs⟩
  -- setting the entry point maps nothing
  have hmaps : SameMaps s1 (s1.setEnv e fun env =>
      { env with envTf := { env.envTf with tfEip := eEntry img } }) := target_setEnv rfl
  have h2 : Loaded R e d (fun n => False ∨ SegPage (proghdrs img) n)
      (fun a b => False ∨ SegByte img (proghdrs img) a b)
      (s1.setEnv e fun env => { env with envTf := { env.envTf with tfEip := eEntry img } }) := by
    refine ⟨h1.inv.setEnv rfl rfl Iff.rfl (h1.inv.envs.dstva_ok e), ?_, ?_, ?_, ?_, ?_⟩
    · rw [setEnv_self, h1.dir]
    · intro n hn hp
      rw [hmaps.frameOf_eq, h1.unmapped n hn hp]
    · intro n hn hp
      exact hmaps.writable.mpr (h1.writable n hn hp)
    · intro n hn k hk f hf hf'
      rw [hmaps.frameOf_eq] at hf hf'
      exact h1.own n hn k hk f hf hf'
    · intro a b hab
      rw [userByte, hmaps.physOf_eq]
      exact h1.bytes a b hab
  obtain ⟨s3, hrun3, henvs, h3, -⟩ := h2.regionAlloc (k := 0) (ustacktop - 4096#32) 4096#32
    (show _ = stackPage by decide) (show _ = stackPage + 1 by decide) (by decide)
    (by
      rintro n hn hn' (hF | hp)
      · exact hF
      · exact absurd (hok.segs.page_lt hp) (by omega))
    ((hs1.mono (by rw [Nat.add_sub_cancel_left])).congr rfl rfl)
  refine ⟨s3, ?_, by rw [henvs, setEnv_self], h3.congr (fun n => ?_) fun _ _ h => Or.inr h⟩
  · simp only [loadIcode, hok.magic, ne_eq, not_true_eq_false, if_false, hd, Option.bind_eq_bind,
      Option.bind_some, hrun1, hrun3]
  · rw [false_or]
    refine or_congr Iff.rfl ?_
    omega

end

end Jos.Kern
