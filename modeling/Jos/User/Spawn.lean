import Jos.Kern.Load
import Jos.User.ForkSpec

/-!
# Spawning a program

The part of `spawn` of `lib/spawn.c` that loads the program, with `map_segment`, as the environment
`cur` runs it. The program is a file of the file system, given by its bytes and its size; reading from
it succeeds. A function returns `none` when the environment panics or faults.

Main results:
* `Spawning.segment`: one segment, mapped and filled;
* `loaders_agree`: the kernel and `spawn` load an image alike.
-/

namespace Jos.User

open Jos.Lib Jos.Kern Kernel

def utemp : BitVec 32 := 0x400000#32

def eNotExec : Int := 14

/-- Stores of the environment itself. -/
def userCopy (pgdir : Nat) : Kernel → BitVec 32 → (Nat → BitVec 8) → Nat → Option Kernel :=
  copyBytes fun s va b => if x86Grants s pgdir va userWrite then storeByte s pgdir va b else none

section

variable (cur : EnvIx) (child : BitVec 32) (file : Mem) (len : Nat)

/-- `seek` to `off` and `readn` of `n` bytes to `dst`; at the end of the file there are fewer. -/
def readAt (s : Kernel) (off dst n : BitVec 32) : Option Kernel := do
  let pgdir ← (s.envs cur).envPgdir
  userCopy pgdir s dst (fun i => file (off.toNat + i)) (min n.toNat (len - off.toNat))

/-- The body of the loop of `map_segment`. -/
def mapPage (va filesz fileoffset perm : BitVec 32) (s : Kernel) (i : BitVec 32) :
    Option (Kernel × Int) :=
  if filesz ≤ i then
    match sysPageAlloc s cur child (va + i) perm with
    | some (s, .ret r) => some (s, r)
    | _ => none
  else
    match sysPageAlloc s cur 0#32 utemp (pteP ||| pteU ||| pteW) with
    | some (s, .ret r) =>
        if r < 0 then some (s, r)
        else do
          let s ← readAt cur file len s (fileoffset + i) utemp
            (if 4096#32 ≤ filesz - i then 4096#32 else filesz - i)
          let s ← orPanic (· < 0) (sysPageMap s cur 0#32 utemp child (va + i) perm)
          let (s, _) ← sysPageUnmap s cur 0#32 utemp
          some (s, 0)
    | _ => none

/-- `map_segment`. Its loop does not end when the counter passes the last page of the address space
before it reaches `memsz`. -/
def mapSegment (s : Kernel) (va memsz filesz fileoffset perm : BitVec 32) : Option (Kernel × Int) :=
  let i := BitVec.ofNat 32 (pgoff va)
  let va := va - i
  let memsz := memsz + i
  let filesz := filesz + i
  let fileoffset := fileoffset - i
  if 0xFFFFF000#32 < memsz then none
  else
    untilError (fun s n => mapPage cur child file len va filesz fileoffset perm s
      (BitVec.ofNat 32 (4096 * n))) (List.range ((memsz.toNat + 4095) / 4096)) s

/-- The permissions of the pages of a segment. -/
def segPerm (ph : Proghdr) : BitVec 32 :=
  if ph.pFlags &&& elfProgFlagWrite ≠ 0#32 then pteP ||| pteU ||| pteW else pteP ||| pteU

/-- The body of the loop of `spawn` over the program headers. -/
def spawnSegment (s : Kernel) (ph : Proghdr) : Option (Kernel × Int) :=
  if ph.pType ≠ elfProgLoad then some (s, 0)
  else mapSegment cur child file len s ph.pVa ph.pMemsz ph.pFilesz ph.pOffset (segPerm ph)

/-- `elf_buf`: 512 bytes of the file, and behind them what is on the stack. -/
def elfBuf (stack : Mem) : Mem := fun a => if a < 512 then file a else stack a

/-- The loading part of `spawn`: the check of the header, `child_tf`, and the segments. `child` is the
environment that `sys_exofork` has made after the check, and `esp` is what `init_stack` has left in
`child_tf`. The result is `child_tf` as it is then passed to `sys_env_set_trapframe`, but for its
flags, or an error. -/
def spawnLoad (stack : Mem) (s : Kernel) (esp : BitVec 32) : Option (Kernel × Except Int Trapframe) :=
  let elf := elfBuf file stack
  if len < 512 ∨ eMagic elf ≠ elfMagic then some (s, .error (-eNotExec))
  else do
    let childTf := { (s.envs (envx child)).envTf with tfEip := eEntry elf, tfEsp := esp }
    let (s, r) ← untilError (spawnSegment cur child file len) (proghdrs elf) s
    if r < 0 then do
      let (s, _) ← sysEnvDestroy s cur child
      some (s, .error r)
    else some (s, .ok childTf)

end

/-! ## Pages of the child -/

/-- The rights that a user program needs for a read. -/
def userRead : BitVec 32 := pteP ||| pteU

/-- The environment may read page `n`. -/
def PageReadable (s : Kernel) (e : EnvIx) (n : Nat) : Prop :=
  pteOf s (pageSlot e n) &&& userRead = userRead

/-- The page at `UTEMP`. -/
def utempPage : Nat := 1024

/-- What `spawn` has done: exactly the pages of `P` are mapped in the child below its stack, `B` holds
of their bytes, and nothing is mapped at `UTEMP`. -/
structure Spawning (R : Nat → Prop) (cur c : EnvIx) (child : BitVec 32) (P : Nat → Prop)
    (B : Nat → BitVec 8 → Prop) (s : Kernel) : Prop where
  inv : Inv R s
  live : (s.envs cur).envStatus ≠ .free
  env : envid2env s cur child true = some c
  ne : c ≠ cur
  temp : frameOf s cur utempPage = none
  unmapped : ∀ n < stackPage, ¬ P n → frameOf s c n = none
  readable : ∀ n < stackPage, P n → PageReadable s c n
  bytes : ∀ a b, B a b → a / 4096 < stackPage ∧ userByte s c a = some b

section

variable {R : Nat → Prop} {s s' : Kernel} {e cur c : EnvIx} {child va perm : BitVec 32} {n k pg : Nat}
  {P : Nat → Prop} {B : Nat → BitVec 8 → Prop}

theorem lt_lowPages (hn : n < stackPage) : n < lowPages := Nat.lt_trans hn (by decide)

theorem badVa_pageVa (hn : n < lowPages) : badVa (pageVa n) = false := by
  have hva := pageVa_lt_utop hn
  simp only [lowPages] at hn
  have hoff : pgoff (pageVa n) = 0 := by
    rw [pgoff_eq, pageVa_toNat (by omega)]
    omega
  simp only [badVa, hoff, bne_self_eq_false, Bool.or_false, decide_eq_false_iff_not]
  exact BitVec.not_le.mpr hva

theorem pageVa_utempPage : pageVa utempPage = utemp := by decide

/-- Bytes on a page whose frame is not written to. -/
theorem userByte_of_stored {dst m a : Nat} {src : Nat → BitVec 8} (h : Stored R s e dst m src s')
    (hne : ∀ i < m, ∀ f, frameOf s e ((dst + i) / 4096) = some f → frameOf s c (a / 4096) ≠ some f) :
    userByte s' c a = userByte s c a := by
  rw [userByte, userByte, h.maps.physOf_eq]
  cases hx : physOf s c a with
  | none => rfl
  | some x =>
      rw [Option.map_some, Option.map_some, h.kept x]
      intro i hi hix
      obtain ⟨f, hf, _⟩ := physOf_eq_some.mp hix
      refine hne i hi f hf ?_
      rw [(physOf_same hx hix).1, hf]

theorem userByte_eq_some {a f : Nat} (hf : frameOf s c (a / 4096) = some f) :
    userByte s c a = some (s.mem (4096 * f + a % 4096)) := by
  rw [userByte, physOf, hf]
  rfl

/-- One more page for the child. -/
theorem Spawning.grow {v : Nat → BitVec 8} (h : Spawning R cur c child P B s) (hn : n < stackPage)
    (hp : ¬ P n) (hinv : Inv R s') (henvs : s'.envs = s.envs) (htemp : frameOf s' cur utempPage = none)
    (hpte : ∀ m < stackPage, m ≠ n → pteOf s' (pageSlot c m) = pteOf s (pageSlot c m))
    (hread : PageReadable s' c n)
    (hkept : ∀ a, a / 4096 < stackPage → a / 4096 ≠ n → userByte s' c a = userByte s c a)
    (hnew : ∀ a, a / 4096 = n → userByte s' c a = some (v a)) :
    Spawning R cur c child (fun m => P m ∨ m = n) (fun a b => B a b ∨ a / 4096 = n ∧ b = v a) s' where
  inv := hinv
  live := by rw [henvs]; exact h.live
  env := by rw [envid2env_congr henvs, h.env]
  ne := h.ne
  temp := htemp
  unmapped m hm hnot := by
    rw [frameOf, hpte m hm fun heq => hnot (Or.inr heq), ← frameOf]
    exact h.unmapped m hm fun hpm => hnot (Or.inl hpm)
  readable m hm hpm := by
    by_cases hmn : m = n
    · rw [hmn]
      exact hread
    · rw [PageReadable, hpte m hm hmn]
      exact h.readable m hm (hpm.resolve_right hmn)
  bytes a b hab := by
    rcases hab with hab | ⟨ha, rfl⟩
    · obtain ⟨hlow, hbyte⟩ := h.bytes a b hab
      refine ⟨hlow, ?_⟩
      rw [hkept a hlow, hbyte]
      intro heq
      rw [userByte, physOf, heq, h.unmapped n hn hp] at hbyte
      cases hbyte
    · exact ⟨by rw [ha]; exact hn, hnew a ha⟩

/-- A blank page. -/
theorem Spawning.blank (h : Spawning R cur c child P B s) (hn : n < stackPage) (hp : ¬ P n)
    (hperm : badPerm perm = false) (hread : perm &&& userRead = userRead) (hs : Spare s (k + 2)) :
    ∃ s', sysPageAlloc s cur child (pageVa n) perm = some (s', .ret 0) ∧ Spare s' k ∧
      Spawning R cur c child (fun m => P m ∨ m = n) (fun a b => B a b ∨ a / 4096 = n ∧ b = 0#8) s' := by
  have hlow := lt_lowPages hn
  have hva := pageVa_lt_utop hlow
  have hslot := slotOf_pageVa (e := c) hlow hva
  have hdrop : DropOk s (placeOf (slotOf c (pageVa n) hva)) := by
    intro q hq
    rw [target_placeOf, hslot, ← frameOf, h.unmapped n hn hp] at hq
    cases hq
  obtain ⟨s', pg, hrun, hop, hal⟩ := sysPageAlloc_ok h.inv h.live h.env (badVa_pageVa hlow) hva hperm
    hdrop (Or.inl (hs.mono (by omega)))
  have hpte := hal.pte
  rw [hslot] at hpte
  have hframe : ∀ (e' : EnvIx) (m : Nat), m < lowPages →
      frameOf s' e' m = if e' = c ∧ m = n then some pg else frameOf s e' m := by
    intro e' m hm
    rw [frameOf_update hpte hlow hm, hal.target_eq]
  refine ⟨s', hrun, spare_sysPageAlloc h.inv hs hrun, h.grow hn hp hop.inv hop.envs ?_ ?_ ?_ ?_ ?_⟩
  · rw [hframe cur utempPage (by decide), if_neg fun heq => h.ne heq.1.symm, h.temp]
  · intro m hm hmn
    rw [hpte, Function.update_of_ne fun heq => hmn (pageSlot_inj (lt_lowPages hm) hlow heq)]
  · have hsub : perm ||| pteP = pteP ||| perm := BitVec.or_comm ..
    rw [PageReadable, hpte, Function.update_self, BitVec.or_assoc, entry_and (by decide), hsub]
    rw [BitVec.and_comm, BitVec.and_or_distrib_left, BitVec.and_comm userRead perm, hread]
    decide
  · intro a ha hne
    exact hop.userByte_eq (by rw [hframe c _ (lt_lowPages ha), if_neg fun heq => hne heq.2])
  · intro a ha
    have hf : frameOf s' c (a / 4096) = some pg := by
      rw [hframe c _ (by rw [ha]; exact hlow), if_pos ⟨rfl, ha⟩]
    rw [userByte_eq_some hf, hal.zero _ (by omega) (by omega)]

/-! ## The temporary page -/

/-- A new page at `UTEMP` has been filled with the values `v`. -/
structure TempFilled (R : Nat → Prop) (s : Kernel) (cur c : EnvIx) (pg : Nat) (v : Nat → BitVec 8)
    (s' : Kernel) : Prop where
  inv : Inv R s'
  envs : s'.envs = s.envs
  fresh : ¬ Mapped s pg
  pte : ∃ w, pteOf s' = Function.update (pteOf s) (pageSlot cur utempPage) w ∧
    entryTarget w = some pg ∧ w &&& pteW ≠ 0#32
  data : ∀ j < 4096, s'.mem (4096 * pg + j) = v j
  kept : ∀ a, userByte s' c a = userByte s c a
  count_le : refCount (target s') pg ≤ 2

/-- What is at `UTEMP` after a new page was put there and a part of the file was read into it. -/
def tempBytes (file : Mem) (off cnt : Nat) (j : Nat) : BitVec 8 :=
  if j < cnt then file (off + j) else 0#8

theorem slotOf_utemp (hva : utemp < utop) : slotOf e utemp hva = pageSlot e utempPage := by
  rw [slotOf_eq]
  rfl

theorem tempFilled (file : Mem) (len : Nat) (off cnt : BitVec 32) (h : Spawning R cur c child P B s)
    (hcnt : cnt.toNat ≤ 4096) (hin : off.toNat + cnt.toNat ≤ len) (hs : Spare s (k + 2)) :
    ∃ s1 s2 pg, sysPageAlloc s cur 0#32 utemp (pteP ||| pteU ||| pteW) = some (s1, .ret 0) ∧
      readAt cur file len s1 off utemp cnt = some s2 ∧ Spare s2 k ∧
      TempFilled R s cur c pg (tempBytes file off.toNat cnt.toNat) s2 := by
  have hva : utemp < utop := by decide
  have hslot := slotOf_utemp (e := cur) hva
  have hdrop : DropOk s (placeOf (slotOf cur utemp hva)) := by
    intro q hq
    rw [target_placeOf, hslot, ← frameOf, h.temp] at hq
    cases hq
  have hperm : badPerm (pteP ||| pteU ||| pteW) = false := by decide
  obtain ⟨s1, pg, hrun1, hop, hal⟩ := sysPageAlloc_ok
    h.inv h.live (envid2env_zero s cur true) (by decide) hva hperm hdrop
    (Or.inl (hs.mono (by omega)))
  obtain ⟨d, hd⟩ := h.inv.envs.exists_pgdir h.live
  have hd1 : (s1.envs cur).envPgdir = some d := by rw [hop.envs, hd]
  have hpte := hal.pte
  rw [hslot] at hpte
  have hframe : ∀ (e' : EnvIx) (m : Nat), m < lowPages →
      frameOf s1 e' m = if e' = cur ∧ m = utempPage then some pg else frameOf s e' m := by
    intro e' m hm
    rw [frameOf_update hpte (by decide) hm, hal.target_eq]
  have htemp : frameOf s1 cur utempPage = some pg := by rw [hframe cur _ (by decide), if_pos ⟨rfl, rfl⟩]
  have hut : utemp.toNat = 4096 * utempPage := by decide
  have hpage : ∀ i < cnt.toNat, (utemp.toNat + i) / 4096 = utempPage := by
    intro i hi
    rw [hut]
    omega
  have hwr : PageWritable s1 cur utempPage := by
    rw [PageWritable, hpte, Function.update_self, BitVec.or_assoc, entry_and (by decide)]
    decide
  obtain ⟨s2, hrun2, hst⟩ := copyBytes_stored (e := cur) (d := d) (n := cnt.toNat)
    utemp (fun i => file (off.toNat + i)) (fun s va b (hgr : x86Grants s d va userWrite) => if_pos hgr)
    hop.inv hd1
    (by simp only [lowPages, hut, utempPage]; omega) (fun i hi => by rw [hpage i hi]; exact hwr)
    (fun i hi j hj f _ _ => by rw [hpage i hi, hpage j hj])
  have hx : ∀ j < 4096, physOf s1 cur (utemp.toNat + j) = some (4096 * pg + j) := by
    intro j hj
    refine physOf_eq_some.mpr ⟨pg, ?_, ?_⟩
    · rw [hut, show (4096 * utempPage + j) / 4096 = utempPage by omega, htemp]
    · rw [hut]
      omega
  refine ⟨s1, s2, pg, hrun1, ?_, (spare_sysPageAlloc h.inv hs hrun1).congr hst.ppLink hst.free,
    hst.inv, hst.envs.trans hop.envs, hal.fresh, ⟨_, by rw [hst.maps.2, hpte], hal.target_eq, ?_⟩, ?_, ?_, ?_⟩
  · have hmin : min cnt.toNat (len - off.toNat) = cnt.toNat := Nat.min_eq_left (by omega)
    simp only [readAt, hd1, Option.bind_eq_bind, Option.bind_some, hmin]
    exact hrun2
  · rw [BitVec.or_assoc, entry_and (by decide)]
    decide
  · intro j hj
    rw [tempBytes]
    split
    · rename_i hlt
      exact hst.written j hlt _ (hx j hj)
    · rename_i hge
      rw [hst.kept, hal.zero _ (by omega) (by omega)]
      intro i hi hix
      rw [hx i (by omega)] at hix
      have := Option.some.inj hix
      omega
  · intro a
    -- the new frame is not the child's
    by_cases hc : c = cur
    · exact absurd hc h.ne
    have hptec : ∀ m, pteOf s1 (pageSlot c m) = pteOf s (pageSlot c m) := by
      intro m
      rw [hpte, Function.update_of_ne fun heq => hc (congrArg Prod.fst heq)]
    rw [userByte_of_stored hst, hop.userByte_eq (by rw [frameOf, hptec, ← frameOf])]
    intro i hi f hf hfc
    rw [hpage i hi, htemp] at hf
    cases hf
    rw [frameOf, hptec] at hfc
    exact hal.fresh ⟨_, hfc⟩
  · have hzero : refCount (target s) pg = 0 := by
      refine refCount_eq_zero.mpr fun k => ?_
      obtain ⟨free, hlink, hled, _⟩ := h.inv.pages.accounts.pages
      rw [hal.head] at hlink
      exact hled.free_unref pg hlink.head_mem k
    have hle := hop.count_le pg
    rw [hst.maps.1]
    omega

/-- A page that is filled at `UTEMP`, mapped in the child and unmapped at `UTEMP`. -/
theorem Spawning.fromTemp {v : Nat → BitVec 8} {s2 : Kernel} (h : Spawning R cur c child P B s)
    (hf : TempFilled R s cur c pg v s2) (hn : n < stackPage) (hp : ¬ P n)
    (hperm : badPerm perm = false) (hread : perm &&& userRead = userRead) (hs : Spare s2 (k + 1)) :
    ∃ s3 s4, sysPageMap s2 cur 0#32 utemp child (pageVa n) perm = some (s3, .ret 0) ∧
      sysPageUnmap s3 cur 0#32 utemp = some (s4, .ret 0) ∧ Spare s4 k ∧
      Spawning R cur c child (fun m => P m ∨ m = n)
        (fun a b => B a b ∨ a / 4096 = n ∧ b = v (a % 4096)) s4 := by
  have hlow := lt_lowPages hn
  have hva := pageVa_lt_utop hlow
  have hut : utemp < utop := by decide
  have hslot := slotOf_pageVa (e := c) hlow hva
  have hsrc := slotOf_utemp (e := cur) hut
  obtain ⟨w, hpte2, hw, hwrite⟩ := hf.pte
  have hne : ∀ m, pageSlot c m ≠ pageSlot cur utempPage := fun m heq => h.ne (congrArg Prod.fst heq)
  have hpte2c : ∀ m, pteOf s2 (pageSlot c m) = pteOf s (pageSlot c m) := by
    intro m
    rw [hpte2, Function.update_of_ne (hne m)]
  have hpte2t : pteOf s2 (pageSlot cur utempPage) = w := by rw [hpte2, Function.update_self]
  have hlive2 : (s2.envs cur).envStatus ≠ .free := by rw [hf.envs]; exact h.live
  have hdrop : DropOk s2 (placeOf (slotOf c (pageVa n) hva)) := by
    intro q hq
    rw [target_placeOf, hslot, hpte2c, ← frameOf, h.unmapped n hn hp] at hq
    cases hq
  have hgw : grantsWrite perm (pteOf s2 (slotOf cur utemp hut)) = false := by
    rw [hsrc, hpte2t, grantsWrite, Bool.and_eq_false_iff]
    exact Or.inr (by simpa using hwrite)
  rcases hf.inv.sysPageMap_checked (p := pg) hlive2 (envid2env_zero s2 cur true)
      (by rw [envid2env_congr hf.envs, h.env])
      (by rw [badVa_pageVa hlow, ← pageVa_utempPage, badVa_pageVa (by decide)]; rfl) hut hva
      (by rw [hsrc, hpte2t, hw]) hperm hgw hdrop with ⟨hfull, _⟩ | ⟨s3, hrun3, hop3, hsh, _⟩
  · exact absurd hfull hs.ne_none
  have hs3 := spare_sysPageMap hf.inv hva hs hrun3
  have hpte3 := hsh.pte
  rw [hslot] at hpte3
  have hpte3c : ∀ m < stackPage, m ≠ n → pteOf s3 (pageSlot c m) = pteOf s (pageSlot c m) := by
    intro m hm hmn
    rw [hpte3, Function.update_of_ne fun heq => hmn (pageSlot_inj (lt_lowPages hm) hlow heq), hpte2c]
  have hpte3n : pteOf s3 (pageSlot c n) = page2pa pg ||| perm ||| pteP := by
    rw [hpte3, Function.update_self]
  -- the page has two references now, so that unmapping it does not free it
  have hdrop3 : DropOk s3 (placeOf (slotOf cur utemp hut)) := by
    intro q hq
    rw [target_placeOf, hsrc, hpte3, Function.update_of_ne (hne n).symm, hpte2t, hw] at hq
    cases hq
    have h1 := hop3.count_le pg
    have h2 := hf.count_le
    omega
  have hlive3 : (s3.envs cur).envStatus ≠ .free := by rw [hop3.envs]; exact hlive2
  rcases hop3.inv.sysPageUnmap hlive3 0#32 utemp (fun e hva' he => by
      rw [envid2env_zero] at he
      cases he
      exact hdrop3) with ⟨r, hr, hrun⟩ | ⟨s4, e, hrun4, hop4, he, hva4, hnone, hpte4⟩
  · exfalso
    obtain ⟨d, hd⟩ := hop3.inv.envs.exists_pgdir hlive3
    have hbad : badVa utemp = false := by decide
    simp only [sysPageUnmap, envid2env_zero, hbad, Bool.false_eq_true, if_false, hd, Option.bind_eq_bind,
      Option.bind_some, Option.bind_eq_some_iff] at hrun
    obtain ⟨_, _, hret⟩ := hrun
    cases hret
    exact hr rfl
  rw [envid2env_zero] at he
  cases he
  rw [slotOf_utemp] at hnone hpte4
  have hframe4 : frameOf s4 c n = some pg := by
    rw [frameOf, hpte4 _ (hne n), hpte3n, hsh.target_eq]
  refine ⟨s3, s4, hrun3, hrun4, spare_sysPageUnmap hop3.inv hs3 hrun4,
    h.grow hn hp hop4.inv (hop4.envs.trans (hop3.envs.trans hf.envs)) hnone ?_ ?_ ?_ ?_⟩
  · intro m hm hmn
    rw [hpte4 _ (hne m), hpte3c m hm hmn]
  · rw [PageReadable, hpte4 _ (hne n), hpte3n, BitVec.or_assoc, entry_and (by decide), BitVec.and_comm,
      BitVec.and_or_distrib_left, BitVec.and_comm userRead perm, hread]
    decide
  · intro a ha hne'
    have h43 : frameOf s4 c (a / 4096) = frameOf s3 c (a / 4096) := by
      rw [frameOf, hpte4 _ (hne _), ← frameOf]
    have h32 : frameOf s3 c (a / 4096) = frameOf s2 c (a / 4096) := by
      rw [frameOf, hpte3c _ ha hne', ← hpte2c, ← frameOf]
    rw [hop4.userByte_eq h43, hop3.userByte_eq h32, hf.kept]
  · intro a ha
    have hf4 : frameOf s4 c (a / 4096) = some pg := by rw [ha, hframe4]
    have hm2 : Mapped s2 pg := ⟨pageSlot cur utempPage, by rw [hpte2t, hw]⟩
    have hm3 : Mapped s3 pg := ⟨pageSlot c n, by rw [hpte3n, hsh.target_eq]⟩
    have hm4 : Mapped s4 pg := ⟨pageSlot c n, hframe4⟩
    rw [userByte_eq_some hf4, hop4.data pg hm3 hm4 _ (by omega) (by omega),
      hop3.data pg hm2 hm3 _ (by omega) (by omega), hf.data _ (by omega)]

/-! ## Segments -/

theorem Spawning.congr {P' : Nat → Prop} {B' : Nat → BitVec 8 → Prop}
    (h : Spawning R cur c child P B s) (hP : ∀ n, P' n ↔ P n) (hB : ∀ a b, B' a b → B a b) :
    Spawning R cur c child P' B' s where
  inv := h.inv
  live := h.live
  env := h.env
  ne := h.ne
  temp := h.temp
  unmapped n hn hnot := h.unmapped n hn fun hp => hnot ((hP n).mpr hp)
  readable n hn hp := h.readable n hn ((hP n).mp hp)
  bytes a b hab := h.bytes a b (hB a b hab)

variable {i : BitVec 32}

/-- A round of the loop of `map_segment`. -/
theorem Spawning.mapPage (file : Mem) (len : Nat) (filesz fileoffset : BitVec 32)
    (h : Spawning R cur c child P B s) (hn : n < stackPage) (hp : ¬ P n)
    (hperm : badPerm perm = false) (hread : perm &&& userRead = userRead)
    (hpage : va + i = pageVa n) (hfile : fileoffset.toNat + filesz.toNat ≤ len)
    (hoff : fileoffset.toNat + filesz.toNat < 2 ^ 32) (hs : Spare s (k + 3)) :
    ∃ s', mapPage cur child file len va filesz fileoffset perm s i = some (s', 0) ∧ Spare s' k ∧
      Spawning R cur c child (fun m => P m ∨ m = n) (fun a b => B a b ∨ a / 4096 = n ∧
        b = tempBytes file (fileoffset.toNat + i.toNat) (filesz.toNat - i.toNat) (a % 4096)) s' := by
  unfold User.mapPage
  by_cases hle : filesz ≤ i
  · -- nothing of the page is in the file
    obtain ⟨s', hrun, hs', h'⟩ := h.blank hn hp hperm hread (hs.mono (k := k + 2) (by omega))
    refine ⟨s', by rw [if_pos hle, hpage, hrun], hs', h'.congr (fun _ => Iff.rfl) ?_⟩
    rintro a b (hab | ⟨ha, rfl⟩)
    · exact Or.inl hab
    · have hz : filesz.toNat - i.toNat = 0 := Nat.sub_eq_zero_of_le hle
      exact Or.inr ⟨ha, by rw [tempBytes, hz, if_neg (Nat.not_lt_zero _)]⟩
  · have hlt : i.toNat < filesz.toNat := BitVec.lt_def.mp (BitVec.not_le.mp hle)
    have hsub : (filesz - i).toNat = filesz.toNat - i.toNat :=
      BitVec.toNat_sub_of_le (BitVec.le_of_lt (BitVec.not_le.mp hle))
    have hadd : (fileoffset + i).toNat = fileoffset.toNat + i.toNat := by
      rw [BitVec.toNat_add]
      omega
    have hcnt : (if 4096#32 ≤ filesz - i then 4096#32 else filesz - i).toNat =
        min 4096 (filesz.toNat - i.toNat) := by
      split
      · rename_i hge
        have hge' : 4096 ≤ (filesz - i).toNat := hge
        rw [show (4096#32).toNat = 4096 from rfl]
        omega
      · rename_i hge
        have hge' : (filesz - i).toNat < 4096 := BitVec.lt_def.mp (BitVec.not_le.mp hge)
        omega
    obtain ⟨s1, s2, pg, hrun1, hrun2, hs2, htemp⟩ := tempFilled file len
      (fileoffset + i) (if 4096#32 ≤ filesz - i then 4096#32 else filesz - i) h
      (by rw [hcnt]; omega) (by rw [hcnt, hadd]; omega) (hs.mono (k := k + 1 + 2) (by omega))
    obtain ⟨s3, s4, hrun3, hrun4, hs4, h4⟩ := h.fromTemp htemp hn hp hperm hread hs2
    refine ⟨s4, ?_, hs4, h4.congr (fun _ => Iff.rfl) ?_⟩
    · rw [if_neg hle, hpage]
      simp [hrun1, hrun2, hrun3, hrun4, orPanic]
    · rintro a b (hab | ⟨ha, rfl⟩)
      · exact Or.inl hab
      · refine Or.inr ⟨ha, ?_⟩
        have hmod : a % 4096 < 4096 := Nat.mod_lt _ (by decide)
        rw [tempBytes, tempBytes, hcnt, hadd]
        by_cases hin : a % 4096 < filesz.toNat - i.toNat
        · rw [if_pos hin, if_pos (by omega)]
        · rw [if_neg hin, if_neg (by omega)]

/-- The arguments of `map_segment`, moved down to the start of their page. -/
structure SegArgs (ph : Proghdr) (va memsz filesz offset : BitVec 32) : Prop where
  va : va.toNat = 4096 * (ph.pVa.toNat / 4096)
  memsz : memsz.toNat = ph.pMemsz.toNat + ph.pVa.toNat % 4096
  filesz : filesz.toNat = ph.pFilesz.toNat + ph.pVa.toNat % 4096
  offset : offset.toNat = ph.pOffset.toNat - ph.pVa.toNat % 4096

theorem segArgs_of_ok {ph : Proghdr} {len : Nat} (hok : SegOk len ph) :
    SegArgs ph (ph.pVa - BitVec.ofNat 32 (pgoff ph.pVa)) (ph.pMemsz + BitVec.ofNat 32 (pgoff ph.pVa))
      (ph.pFilesz + BitVec.ofNat 32 (pgoff ph.pVa)) (ph.pOffset - BitVec.ofNat 32 (pgoff ph.pVa)) := by
  obtain ⟨hfs, hsame, hin, hbelow⟩ := hok
  rw [show (ustacktop - 4096#32).toNat = 4005548032 from rfl] at hbelow
  rw [pgoff_eq, pgoff_eq] at hsame
  have hi : (BitVec.ofNat 32 (pgoff ph.pVa)).toNat = ph.pVa.toNat % 4096 := by
    rw [pgoff_eq, BitVec.toNat_ofNat]
    omega
  constructor
  · rw [BitVec.toNat_sub_of_le (by rw [BitVec.le_def, hi]; exact Nat.mod_le _ _), hi]
    omega
  · rw [BitVec.toNat_add, hi]
    omega
  · rw [BitVec.toNat_add, hi]
    omega
  · rw [BitVec.toNat_sub_of_le (by rw [BitVec.le_def, hi, hsame]; exact Nat.mod_le _ _), hi]

/-- The bytes of page `m` of a segment. -/
theorem SegArgs.byteAt {ph : Proghdr} {va memsz filesz offset : BitVec 32} {a m : Nat}
    (h : SegArgs ph va memsz filesz offset) (file : Mem) (ha : ph.HasAddr a)
    (hpage : a / 4096 = ph.pVa.toNat / 4096 + m) (hoff : ph.pVa.toNat % 4096 ≤ ph.pOffset.toNat) :
    ph.byteAt file a = tempBytes file (offset.toNat + 4096 * m) (filesz.toNat - 4096 * m) (a % 4096) := by
  obtain ⟨ha1, ha2⟩ := ha
  rw [Proghdr.byteAt, tempBytes, h.offset, h.filesz]
  by_cases hin : a < ph.pVa.toNat + ph.pFilesz.toNat
  · rw [if_pos hin, if_pos (by omega)]
    congr 1
    omega
  · rw [if_neg hin, if_neg (by omega)]

/-- What is mapped when the first `m` pages of a segment are. -/
def SegMapped (R : Nat → Prop) (cur c : EnvIx) (child : BitVec 32) (P : Nat → Prop)
    (B : Nat → BitVec 8 → Prop) (ph : Proghdr) (file : Mem) (m : Nat) (s : Kernel) : Prop :=
  Spawning R cur c child (fun n => P n ∨ ph.HasPage n ∧ n < ph.pVa.toNat / 4096 + m)
    (fun a b => B a b ∨ ph.HasAddr a ∧ a / 4096 < ph.pVa.toNat / 4096 + m ∧ b = ph.byteAt file a) s

/-- One page of a segment. -/
theorem SegMapped.page {ph : Proghdr} {file : Mem} {len m : Nat} {va memsz filesz offset : BitVec 32}
    (h : SegMapped R cur c child P B ph file m s) (hargs : SegArgs ph va memsz filesz offset)
    (hok : SegOk len ph) (hlen : len < 2 ^ 32) (hp : ∀ n, ph.HasPage n → ¬ P n) (hm : m < ph.pages)
    (hs : Spare s (k + 3)) :
    ∃ s', User.mapPage cur child file len va filesz offset (segPerm ph) s (BitVec.ofNat 32 (4096 * m)) =
        some (s', 0) ∧ Spare s' k ∧ SegMapped R cur c child P B ph file (m + 1) s' := by
  have hperm : badPerm (segPerm ph) = false ∧ segPerm ph &&& userRead = userRead := by
    unfold segPerm
    split <;> exact ⟨by decide, by decide⟩
  have hlast : ∀ n, ph.HasPage n → n < stackPage := fun n hn => hok.page_lt hn
  obtain ⟨hfs, hsame, hin, hbelow⟩ := hok
  rw [show (ustacktop - 4096#32).toNat = 4005548032 from rfl] at hbelow
  rw [pgoff_eq, pgoff_eq] at hsame
  rw [Proghdr.pages] at hm
  have hm4 : (BitVec.ofNat 32 (4096 * m)).toNat = 4096 * m := by
    rw [BitVec.toNat_ofNat]
    omega
  have hpage : ph.HasPage (ph.pVa.toNat / 4096 + m) := ⟨by omega, by omega⟩
  have hlow := hlast _ hpage
  have hfree : ¬ (P (ph.pVa.toNat / 4096 + m) ∨
      ph.HasPage (ph.pVa.toNat / 4096 + m) ∧ ph.pVa.toNat / 4096 + m < ph.pVa.toNat / 4096 + m) := by
    rintro (hpn | ⟨_, hlt⟩)
    · exact hp _ hpage hpn
    · omega
  have hva : va + BitVec.ofNat 32 (4096 * m) = pageVa (ph.pVa.toNat / 4096 + m) := by
    simp only [stackPage] at hlow
    apply BitVec.eq_of_toNat_eq
    rw [BitVec.toNat_add, hargs.va, hm4, pageVa_toNat (by omega)]
    omega
  obtain ⟨s2, hrun, hs2, h2⟩ := Spawning.mapPage (i := BitVec.ofNat 32 (4096 * m)) (k := k) file len
    filesz offset h hlow hfree hperm.1 hperm.2 hva (by rw [hargs.offset, hargs.filesz]; omega)
    (by rw [hargs.offset, hargs.filesz]; omega) hs
  refine ⟨s2, hrun, hs2, h2.congr (fun n => ?_) ?_⟩
  · constructor
    · rintro (hpn | ⟨hn, hlt⟩)
      · exact Or.inl (Or.inl hpn)
      · by_cases heq : n = ph.pVa.toNat / 4096 + m
        · exact Or.inr heq
        · exact Or.inl (Or.inr ⟨hn, by omega⟩)
    · rintro ((hpn | ⟨hn, hlt⟩) | rfl)
      · exact Or.inl hpn
      · exact Or.inr ⟨hn, by omega⟩
      · exact Or.inr ⟨hpage, by omega⟩
  · rintro a b (hab | ⟨ha, hlt, rfl⟩)
    · exact Or.inl (Or.inl hab)
    · by_cases heq : a / 4096 = ph.pVa.toNat / 4096 + m
      · refine Or.inr ⟨heq, ?_⟩
        rw [hm4]
        exact hargs.byteAt file ha heq (by omega)
      · exact Or.inl (Or.inr ⟨ha, by omega, rfl⟩)

/-- `map_segment` on one segment. -/
theorem Spawning.segment {ph : Proghdr} (h : Spawning R cur c child P B s) (file : Mem) {len : Nat}
    (hty : ph.pType = elfProgLoad) (hok : SegOk len ph) (hlen : len < 2 ^ 32)
    (hp : ∀ n, ph.HasPage n → ¬ P n) (hs : Spare s (k + 3 * ph.pages)) :
    ∃ s', spawnSegment cur child file len s ph = some (s', 0) ∧ Spare s' k ∧
      Spawning R cur c child (fun n => P n ∨ ph.HasPage n)
        (fun a b => B a b ∨ ph.HasAddr a ∧ b = ph.byteAt file a) s' := by
  have hargs := segArgs_of_ok hok
  have hcount : (ph.pMemsz.toNat + ph.pVa.toNat % 4096 + 4095) / 4096 = ph.pages := by
    rw [Proghdr.pages]
    omega
  -- the invariant: the first `m` pages are mapped, with their bytes
  obtain ⟨s', hrun, hs', h'⟩ := foldlM_range_inv (n := ph.pages) (s := s)
    (f := withoutError fun s n => User.mapPage cur child file len
      (ph.pVa - BitVec.ofNat 32 (pgoff ph.pVa)) (ph.pFilesz + BitVec.ofNat 32 (pgoff ph.pVa))
      (ph.pOffset - BitVec.ofNat 32 (pgoff ph.pVa)) (segPerm ph) s (BitVec.ofNat 32 (4096 * n)))
    (fun m s' => Spare s' (k + 3 * (ph.pages - m)) ∧ SegMapped R cur c child P B ph file m s')
    ⟨hs, h.congr (fun n => ⟨fun hn => hn.resolve_right fun hn => absurd hn.1.1 (by omega), Or.inl⟩)
      fun a b hb => hb.resolve_right fun hb => absurd hb.1.1 (by omega)⟩
    (by
      rintro m hm s1 ⟨hs1, h1⟩
      obtain ⟨s2, hrun, hs2, h2⟩ := h1.page (k := k + 3 * (ph.pages - (m + 1))) hargs hok hlen hp hm
        (hs1.mono (by omega))
      exact ⟨s2, by simp [withoutError, hrun], hs2, h2⟩)
  refine ⟨s', ?_, hs'.mono (by omega), h'.congr (fun n => ?_) ?_⟩
  · have hge : ¬ 0xFFFFF000#32 < ph.pMemsz + BitVec.ofNat 32 (pgoff ph.pVa) := by
      have hbelow := hok.below
      rw [show (ustacktop - 4096#32).toNat = 4005548032 from rfl] at hbelow
      rw [BitVec.lt_def, hargs.memsz, show (0xFFFFF000#32).toNat = 4294963200 from rfl]
      omega
    have hwhole := untilError_of_foldlM hrun
    simp only [spawnSegment, mapSegment, hty, ne_eq, not_true_eq_false, if_false, if_neg hge, hargs.memsz,
      hcount]
    exact hwhole
  · refine or_congr Iff.rfl ⟨fun hn => ⟨hn, ?_⟩, fun hn => hn.1⟩
    obtain ⟨_, hn'⟩ := hn
    rw [Proghdr.pages]
    omega
  · rintro a b (hab | ⟨ha, rfl⟩)
    · exact Or.inl hab
    · refine Or.inr ⟨ha, ?_, rfl⟩
      obtain ⟨_, ha'⟩ := ha
      rw [Proghdr.pages]
      omega

/-! ## Both loaders -/

/-- The byte that an environment reads at an address; `none` stands for a fault. -/
def userLoad (s : Kernel) (e : EnvIx) (a : Nat) : Option (BitVec 8) := do
  let d ← (s.envs e).envPgdir
  if x86Grants s d (BitVec.ofNat 32 a) userRead then some (s.mem (physAddr s d (BitVec.ofNat 32 a)))
  else none

theorem userLoad_eq {a : Nat} {b : BitVec 8} (h : Inv R s) (hlive : (s.envs e).envStatus ≠ .free)
    (hlow : a / 4096 < lowPages) (hread : PageReadable s e (a / 4096)) (hb : userByte s e a = some b) :
    userLoad s e a = some b := by
  obtain ⟨d, hd⟩ := h.envs.exists_pgdir hlive
  have hlow' := hlow
  simp only [lowPages] at hlow'
  have hnat : (BitVec.ofNat 32 a).toNat = a := by
    rw [BitVec.toNat_ofNat]
    exact Nat.mod_eq_of_lt (by omega)
  have hva : BitVec.ofNat 32 a < utop := by
    rw [BitVec.lt_def, hnat, show utop.toNat = 4005560320 from rfl]
    omega
  have hslot : slotOf e (BitVec.ofNat 32 a) hva = pageSlot e (a / 4096) := by rw [slotOf_eq, hnat]
  have hgr : x86Grants s d (BitVec.ofNat 32 a) userRead := by
    rw [h.pages.shape.x86Grants_low hd hva (by decide), hslot]
    exact hread
  obtain ⟨f, hf, hphys⟩ := h.pages.physAddr_eq hd hva (by decide) hgr
  rw [hslot] at hf
  rw [userByte_eq_some hf] at hb
  rw [pgoff_eq, hnat] at hphys
  rw [userLoad, hd, Option.bind_eq_bind, Option.bind_some, if_pos hgr, hphys]
  exact hb

theorem readable_of_writable (h : PageWritable s e n) : PageReadable s e n := by
  have hsub : userWrite &&& userRead = userRead := by decide
  rw [PageReadable, ← hsub, ← BitVec.and_assoc, h]

/-- An environment that `env_alloc` has made for `load_icode`: it is in use and has nothing mapped. -/
structure LoadReady (R : Nat → Prop) (s : Kernel) (e : EnvIx) : Prop where
  inv : Inv R s
  live : (s.envs e).envStatus ≠ .free
  empty : ∀ n < lowPages, frameOf s e n = none

/-- The state in which `spawn` comes to the segments: the child has nothing mapped below its stack,
and nothing is mapped at `UTEMP`. -/
structure SpawnReady (R : Nat → Prop) (s : Kernel) (cur c : EnvIx) (child : BitVec 32) : Prop where
  inv : Inv R s
  live : (s.envs cur).envStatus ≠ .free
  env : envid2env s cur child true = some c
  ne : c ≠ cur
  temp : frameOf s cur utempPage = none
  empty : ∀ n < stackPage, frameOf s c n = none

/-- The headers are in the part of the file that `spawn` has read. -/
theorem elfBuf_headers {img : Mem} {len : Nat} (stack : Mem) (hok : ElfOk img len) :
    eMagic (elfBuf img stack) = eMagic img ∧ eEntry (elfBuf img stack) = eEntry img ∧
      proghdrs (elfBuf img stack) = proghdrs img := by
  have hread : ∀ a, a + 4 ≤ 512 → (elfBuf img stack).read32 a = img.read32 a := by
    intro a ha
    exact Mem.read32_congr fun x _ _ => if_pos (by omega)
  have hnum : ePhnum (elfBuf img stack) = ePhnum img := rfl
  have hoff : ePhoff (elfBuf img stack) = ePhoff img := hread 28 (by decide)
  refine ⟨hread 0 (by decide), hread 24 (by decide), ?_⟩
  rw [proghdrs, proghdrs, hnum, hoff]
  refine List.map_congr_left fun k hk => ?_
  have hin := hok.headers k (List.mem_range.mp hk)
  simp only [proghdrAt]
  rw [hread _ (by omega), hread _ (by omega), hread _ (by omega), hread _ (by omega),
    hread _ (by omega), hread _ (by omega)]

/-- `spawn` up to the point where the child gets its trapframe. -/
theorem spawnLoad_spawning {img : Mem} {len : Nat} (stack : Mem) (esp : BitVec 32)
    (h : SpawnReady R s cur c child)
    (hok : ElfOk img len) (hs : Spare s (3 * regionPages (proghdrs img))) :
    ∃ s' tf, spawnLoad cur child img len stack s esp = some (s', .ok tf) ∧ tf.tfEip = eEntry img ∧
      Spawning R cur c child (SegPage (proghdrs img)) (SegByte img (proghdrs img)) s' := by
  obtain ⟨hmagic, hentry, hhdr⟩ := elfBuf_headers stack hok
  have hstart : Spawning R cur c child (fun _ => False) (fun _ _ => False) s :=
    ⟨h.inv, h.live, h.env, h.ne, h.temp, fun n hn _ => h.empty n hn, fun _ _ hp => hp.elim,
      fun _ _ hb => hb.elim⟩
  obtain ⟨s', hrun, -, h'⟩ := segments_loop (k := 0) img len 3
    (f := withoutError (spawnSegment cur child img len))
    (G := fun P B k s => Spare s k ∧ Spawning R cur c child P B s)
    (fun s ph hty => by simp [withoutError, spawnSegment, hty])
    (fun P B k s ph hty hseg hp hG => by
      obtain ⟨s', hrun, hs', h'⟩ := hG.2.segment img hty hseg hok.size hp hG.1
      exact ⟨s', by simp [withoutError, hrun], hs', h'⟩)
    (proghdrs img) hok.segs (fun _ _ hp => hp) ⟨hs.mono (by omega), hstart⟩
  have hwhole := untilError_of_foldlM hrun
  have hcheck : ¬ (len < 512 ∨ eMagic (elfBuf img stack) ≠ elfMagic) := by
    rw [hmagic, hok.magic]
    have := hok.long
    simp only [ne_eq, not_true_eq_false, or_false]
    omega
  refine ⟨s', { (s.envs (envx child)).envTf with tfEip := eEntry (elfBuf img stack), tfEsp := esp },
    ?_, hentry, h'.congr (fun n => ⟨Or.inr, fun hn => hn.resolve_left id⟩) fun a b hb => Or.inr hb⟩
  simp only [spawnLoad, if_neg hcheck, hhdr, hwhole, Option.bind_eq_bind, Option.bind_some,
    show ¬ ((0 : Int) < 0) by decide, if_false]

end

/-- `load_icode` and `spawn` load an image alike: the same pages below the stack, the bytes of the file
and then zero in every segment, and the entry point of the image. -/
theorem loaders_agree {R R' : Nat → Prop} {sk su : Kernel} {e cur c : EnvIx} {child esp : BitVec 32}
    {img stack : Mem} {len : Nat} (hok : ElfOk img len)
    (hk : LoadReady R sk e) (hkmem : Spare sk (2 * regionPages (proghdrs img) + 2))
    (hu : SpawnReady R' su cur c child) (humem : Spare su (3 * regionPages (proghdrs img))) :
    ∃ sk' su' tf, loadIcode sk e img = some sk' ∧
      spawnLoad cur child img len stack su esp = some (su', .ok tf) ∧
      (∀ n < stackPage, ((frameOf sk' e n).isSome ↔ SegPage (proghdrs img) n) ∧
        ((frameOf su' c n).isSome ↔ SegPage (proghdrs img) n)) ∧
      (∀ ph ∈ proghdrs img, ph.pType = elfProgLoad → ∀ a, ph.HasAddr a →
        userLoad sk' e a = some (ph.byteAt img a) ∧ userLoad su' c a = some (ph.byteAt img a)) ∧
      (sk'.envs e).envTf.tfEip = eEntry img ∧ tf.tfEip = eEntry img := by
  obtain ⟨d, hd⟩ := hk.inv.envs.exists_pgdir hk.live
  obtain ⟨sk', hrunk, heip, hload⟩ := loadIcode_loaded hk.inv hd hk.empty hok
    (hkmem.mono (by omega))
  obtain ⟨su', tf, hrunu, htf, hspawn⟩ := spawnLoad_spawning stack esp hu hok humem
  refine ⟨sk', su', tf, hrunk, hrunu, fun n hn => ⟨?_, ?_⟩, ?_, heip, htf⟩
  · rw [hload.mapped_iff (lt_lowPages hn)]
    exact or_iff_left (Nat.ne_of_lt hn)
  · constructor
    · intro hsome
      by_contra hp
      rw [hspawn.unmapped n hn hp] at hsome
      cases hsome
    · intro hp
      rw [frameOf, entryTarget, if_pos]
      · rfl
      · have hr := hspawn.readable n hn hp
        have hpres : pteOf su' (pageSlot c n) &&& pteP = pteP := by
          have hsub : userRead &&& pteP = pteP := by decide
          rw [← hsub, ← BitVec.and_assoc, hr]
        rw [isPresent, hpres]
        rfl
  · intro ph hph hty a ha
    have hmem : ph ∈ loadable (proghdrs img) := List.mem_filter.mpr ⟨hph, by simpa using hty⟩
    have hseg : SegByte img (proghdrs img) a (ph.byteAt img a) := ⟨ph, hmem, ha, rfl⟩
    have hpage : SegPage (proghdrs img) (a / 4096) := by
      obtain ⟨ha1, ha2⟩ := ha
      exact ⟨ph, hmem, by omega, by omega⟩
    obtain ⟨hlow, hbyte⟩ := hload.bytes a _ hseg
    obtain ⟨hlow', hbyte'⟩ := hspawn.bytes a _ hseg
    have hlivek : (sk'.envs e).envStatus ≠ .free := by
      intro hfree
      have hdir := hload.dir
      rw [(hload.inv.envs.pgdir_iff e).mpr hfree] at hdir
      cases hdir
    exact ⟨userLoad_eq hload.inv hlivek hlow (readable_of_writable (hload.writable _ hlow (Or.inl hpage)))
        hbyte,
      userLoad_eq hspawn.inv (envid2env_live hspawn.live hspawn.env) (lt_lowPages hlow')
        (hspawn.readable _ hlow' hpage) hbyte'⟩

/-! ## A small image -/

/-- The ELF header and one program header. -/
def tinyWords : List (BitVec 32) :=
  [0x464C457F#32, 0#32, 0#32, 0#32, 0#32, 0#32, 0x800020#32, 52#32, 0#32, 0#32, 0#32, 1#32, 0#32,
    1#32, 0x1020#32, 0x800020#32, 0x800020#32, 100#32, 5000#32, 7#32, 0x1000#32]

/-- One segment with 100 bytes of the file and 5000 in memory, at an address inside a page. -/
def tinyImage : Mem := Mem.writeWords (fun a => BitVec.ofNat 8 a) 0 (fun k => tinyWords.getD k 0#32) 21

def tinyHeader : Proghdr := ⟨1#32, 0x1020#32, 0x800020#32, 100#32, 5000#32, 7#32⟩

theorem tinyImage_headers : proghdrs tinyImage = [tinyHeader] := by decide +kernel

theorem tinyImage_ok : ElfOk tinyImage 0x2000 := by
  refine ⟨by decide, by decide, by decide +kernel, ?_, ?_, ?_⟩
  · have hnum : (ePhnum tinyImage).toNat = 1 := by decide +kernel
    have hoff : (ePhoff tinyImage).toNat = 52 := by decide +kernel
    intro k hk
    omega
  · rw [tinyImage_headers]
    intro ph hph
    obtain rfl : ph = tinyHeader := List.mem_singleton.mp (List.mem_filter.mp hph).1
    exact ⟨by decide, by decide, by decide, by decide⟩
  · rw [tinyImage_headers]
    exact (List.pairwise_singleton ..).filter _

/-- An environment for `load_icode`, and one that has made a child. -/
def newEnvCmds : List Cmd := [.create]
def newChildCmds : List Cmd := [.create, .call env0 .exofork]

section

variable {s s' : Kernel} {R : Nat → Prop} {cur : EnvIx}

theorem exec_exofork (h : Inv R s) (hrun : exec s (.call cur .exofork) = some s') :
    pteOf s' = pteOf s := by
  have hlive : (s.envs cur).envStatus ≠ .free := by
    intro hfree
    simp [exec, execEvent, hfree] at hrun
  simp only [exec, execEvent, hlive, false_or, Call.isSetTrapframe, Bool.false_eq_true, if_false,
    Option.map_map, Option.map_eq_some_iff, syscall, sysExofork, Option.bind_eq_bind,
    Option.bind_eq_some_iff] at hrun
  obtain ⟨⟨s1, o⟩, ⟨⟨s2, r⟩, hal, hret⟩, rfl⟩ := hrun
  rcases h.envAlloc_cases hal with ⟨rfl, n, rfl⟩ | ⟨e, rfl, hnew⟩
  · cases hret
    rfl
  · cases hret
    exact (target_setEnv rfl).2.trans hnew.pte

theorem frameOf_newEnv (hrun : newEnvCmds.foldlM exec wide = some s) (e : EnvIx) (n : Nat) :
    frameOf s e n = none := by
  simp only [newEnvCmds, List.foldlM_cons, List.foldlM_nil, Option.bind_eq_bind,
    Option.bind_eq_some_iff] at hrun
  obtain ⟨s1, hs1, hrun⟩ := hrun
  cases hrun
  rw [frameOf, wide_booted.inv.exec_create hs1,
    show pteOf wide _ = 0#32 from pteOf_of_none (target_of_booted wide_booted _) _]
  exact entryTarget_zero

theorem frameOf_newChild (hrun : newChildCmds.foldlM exec wide = some s) (e : EnvIx) (n : Nat) :
    frameOf s e n = none := by
  simp only [newChildCmds, List.foldlM_cons, List.foldlM_nil, Option.bind_eq_bind,
    Option.bind_eq_some_iff] at hrun
  obtain ⟨s1, hs1, s2, hs2, hrun⟩ := hrun
  cases hrun
  have hstep : newEnvCmds.foldlM exec wide = some s1 := by simp [newEnvCmds, hs1]
  have h1 := (((ReachedIn.boot wide_booted).execAll hstep).reachable (by decide)).1.inv.1
  rw [frameOf, exec_exofork h1 hs2, ← frameOf, frameOf_newEnv hstep]

end

/-- The machine after some commands. -/
def wideAfter (l : List Cmd) : Kernel := (l.foldlM exec wide).getD wide

theorem wideAfter_inv {l : List Cmd} (hrun : (l.foldlM exec wide).isSome) (hl : l.length < 2 ^ 15) :
    l.foldlM exec wide = some (wideAfter l) ∧ Inv smallReserved (wideAfter l) := by
  obtain ⟨s, hs⟩ := Option.isSome_iff_exists.mp hrun
  have heq : wideAfter l = s := by rw [wideAfter, hs, Option.getD_some]
  rw [heq]
  exact ⟨hs, (((ReachedIn.boot wide_booted).execAll hs).reachable (by omega)).1.inv.1⟩

set_option maxRecDepth 4000 in
theorem newEnv_ready : LoadReady smallReserved (wideAfter newEnvCmds) env0 ∧
    Spare (wideAfter newEnvCmds) 20 := by
  obtain ⟨hrun, hinv⟩ := wideAfter_inv (l := newEnvCmds) (by decide +kernel) (by decide)
  refine ⟨⟨hinv, by decide +kernel, fun n _ => frameOf_newEnv hrun env0 n⟩, List.range' 3 2045, ?_,
    List.nodup_range', by simp⟩
  decide +kernel

set_option maxRecDepth 4000 in
theorem newChild_ready : SpawnReady smallReserved (wideAfter newChildCmds) env0 env1 0x1001#32 ∧
    Spare (wideAfter newChildCmds) 20 := by
  obtain ⟨hrun, hinv⟩ := wideAfter_inv (l := newChildCmds) (by decide +kernel) (by decide)
  refine ⟨⟨hinv, by decide +kernel, by decide +kernel, by decide, frameOf_newChild hrun env0 _,
    fun n _ => frameOf_newChild hrun env1 n⟩, List.range' 4 2044, ?_, List.nodup_range', by simp⟩
  decide +kernel

theorem loaders_agree_tiny : ∃ sk' su' tf,
    loadIcode (wideAfter newEnvCmds) env0 tinyImage = some sk' ∧
      spawnLoad env0 0x1001#32 tinyImage 0x2000 (fun _ => 0#8) (wideAfter newChildCmds) 0xEEBFDFF0#32 =
        some (su', .ok tf) ∧ (sk'.envs env0).envTf.tfEip = tf.tfEip := by
  have hpages : regionPages (proghdrs tinyImage) = 2 := by
    rw [tinyImage_headers]
    decide
  obtain ⟨sk', su', tf, hk, hu, -, -, heip, htf⟩ := @loaders_agree _ _ _ _ _ _ _ _
    0xEEBFDFF0#32 _ (fun _ => 0#8) _ tinyImage_ok newEnv_ready.1 (newEnv_ready.2.mono (by rw [hpages]; decide))
    newChild_ready.1 (newChild_ready.2.mono (by rw [hpages]; decide))
  exact ⟨sk', su', tf, hk, hu, heip.trans htf.symm⟩

end Jos.User
