import Jos.Fs.SetSize

/-!
# Failed calls

Which calls of `file_write`, `file_set_size` and `file_create` that return an error leave the files
as they were. `file_write` sets the new size before it asks for the first block, and
`dir_alloc_file` makes the directory longer before it asks for the new block; neither takes it back
when the block is refused. `file_set_size` has no errors.

Main results:
* `failed_call_keeps_iff`: which failed calls leave the files alone;
* `failed_write_extends`: a refused write that makes the file longer.
-/

namespace Jos.Fs

open Jos.Lib

/-- The file at `g` reads the same. -/
structure ReadsSame (m m' : Mem) (g : Nat) : Prop where
  file : FileAt m' g
  type : fType m' g = fType m g
  size : fSize m' g = fSize m g
  byte : ∀ i < (fSize m g).toNat, fileByte m' g i = fileByte m g i

/-- All files read the same, and so do the entries of the directories, which are their bytes. -/
def FilesSame (m m' : Mem) : Prop := ∀ g, FileAt m g → ReadsSame m m' g

section

variable {m m' m1 : Mem} {f g buf e : Nat} {offset count newsize : BitVec 32} {r : Int}

theorem ReadsSame.refl (hg : FileAt m g) : ReadsSame m m g := ⟨hg, rfl, rfl, fun _ _ => rfl⟩

theorem ReadsSame.trans (h : ReadsSame m m1 g) (h' : ReadsSame m1 m' g) : ReadsSame m m' g := by
  refine ⟨h'.file, h'.type.trans h.type, h'.size.trans h.size, fun i hi => ?_⟩
  rw [h'.byte i (by rw [h.size]; exact hi), h.byte i hi]

/-! ## `file_write` -/

/-- The result of `file_write` is negative: the count is, or the range is refused. -/
def WriteFails (offset count : BitVec 32) : Prop :=
  2147483648 ≤ count.toNat ∨ (offset < offset + count ∧ maxfilesize < (offset + count).toNat ∧
    (0 ≤ offset.toInt ∨ offset.toInt ≤ -4096))

theorem copyReturn_negative (count : BitVec 32) :
    copyReturn count (.ok ()) < 0 ↔ 2147483648 ≤ count.toNat := by
  have hint := BitVec.toInt_eq_toNat_cond count
  have hlt := count.isLt
  rw [copyReturn]
  split at hint
  · omega
  · omega

theorem writeLoop_negative_iff {res : Except Int Unit}
    (h : writeLoop f (offset + count) copyFuel m buf offset = some (m', e, res)) :
    copyReturn count res < 0 ↔ WriteFails offset count := by
  have hmax : maxfilesize = 4235264 := rfl
  have hcount := count.isLt
  have hofflt := offset.isLt
  rw [WriteFails, BitVec.lt_def, BitVec.toNat_add]
  by_cases hoff : 0 ≤ offset.toInt
  · obtain ⟨hint, hpos⟩ := nonneg_toNat hoff
    obtain ⟨_, rfl⟩ := copyLoop_end hpos h
    rw [loopResult, BitVec.toNat_add]
    split
    · rename_i hend
      rw [copyReturn_negative]
      simp only [stopAt] at hend
      omega
    · rename_i hend
      simp only [stopAt] at hend
      refine iff_of_true (by simp [copyReturn, eInval]) (Or.inr ⟨by omega, by omega, Or.inl hoff⟩)
  · have hneg : offset.toInt < 0 := by omega
    have hnat := neg_toNat hneg
    have hlow := BitVec.le_toInt offset
    rw [writeLoop] at h
    by_cases hwrap : count = 0#32 ∨ 0 ≤ offset.toInt + count.toNat
    · rw [copyFuel, copyLoop_skip hneg hwrap] at h
      cases h
      rw [copyReturn_negative]
      rcases hwrap with rfl | hwrap
      · simp only [BitVec.toNat_ofNat, Nat.zero_mod]
        omega
      · omega
    · rw [not_or] at hwrap
      have hpos := toNat_pos hwrap.1
      by_cases hle : offset.toInt ≤ -4096
      · rw [copyFuel, copyLoop_refused hle hwrap.1 (by omega)] at h
        cases h
        refine iff_of_true (by simp [copyReturn, eInval]) (Or.inr ⟨by omega, by omega, Or.inr hle⟩)
      · rw [copyFuel] at h
        have hok := copyLoop_before hneg (by omega) hwrap.1 (by omega) h
        dsimp only at hok
        rw [hok, copyReturn_negative]
        omega

theorem fileWrite_negative_iff (h : fileWrite m f buf count offset = some (m', e, r)) :
    r < 0 ↔ WriteFails offset count := by
  rw [fileWrite_eq] at h
  obtain ⟨m1, _, h⟩ := Option.bind_eq_some_iff.mp h
  obtain ⟨⟨m2, e', res⟩, hloop, h⟩ := Option.bind_eq_some_iff.mp h
  cases h
  exact writeLoop_negative_iff hloop

theorem fileSetSize_size (h : fileSetSize m f newsize = some m') : fSize m' f = newsize := by
  rw [fileSetSize] at h
  split at h
  · obtain ⟨m1, _, h⟩ := Option.bind_eq_some_iff.mp h
    cases h
    exact Mem.read32_write32_self ..
  · cases h
    exact Mem.read32_write32_self ..

/-- A failed write that has set a size leaves it. -/
theorem fileWrite_grown_regular (hw : Wf m) (hf : Regular m f)
    (hbuf : Beside buf (min count.toNat maxfilesize)) (hoff : 0 ≤ offset.toInt)
    (hlt : fSize m f < offset + count) (h : fileWrite m f buf count offset = some (m', e, r)) :
    fSize m' f = offset + count := by
  obtain ⟨_, hpos⟩ := nonneg_toNat hoff
  rw [fileWrite_eq, if_pos hlt] at h
  obtain ⟨m1, hset, h⟩ := Option.bind_eq_some_iff.mp h
  obtain ⟨⟨m2, e', res⟩, hloop, h⟩ := Option.bind_eq_some_iff.mp h
  cases h
  have hk := fileSetSize_kept hw hf.1 hf.2 hset
  have hf1 := hk.regular hf
  obtain ⟨_, hto, _⟩ := writeLoop_extends hk.wf hf1.1 hf1.2 hpos rfl
    (hbuf.mono (stopAt_le count hpos)) hloop
  rw [hto.rewritten.size f hf1.1, if_pos rfl]
  exact fileSetSize_size hset

theorem fileWrite_grown (hw : Wf m) (hf : FileAt m f)
    (hbuf : Beside buf (min count.toNat maxfilesize)) (hlt : fSize m f < offset + count)
    (hr : r < 0) (h : fileWrite m f buf count offset = some (m', e, r)) :
    fSize m' f = offset + count := by
  by_cases hoff : 0 ≤ offset.toInt
  · have has := asFile_untype hw hf
    obtain ⟨_, hpos⟩ := nonneg_toNat hoff
    have hsame := has.fileWrite_same count hpos (hbuf.mono (stopAt_le count hpos))
    rw [h] at hsame
    obtain ⟨⟨m₁', res⟩, hrun, has', hres⟩ := rel_some_left hsame
    obtain rfl : (e, r) = res := hres
    rw [has'.fSize_eq]
    exact fileWrite_grown_regular has.wf ⟨has.file, has.regular⟩ hbuf hoff
      (by rw [← has.fSize_eq]; exact hlt) hrun
  · -- At a negative offset a failed write copies nothing.
    have hneg : offset.toInt < 0 := by omega
    rw [fileWrite_eq, if_pos hlt] at h
    obtain ⟨m1, hset, h⟩ := Option.bind_eq_some_iff.mp h
    obtain ⟨⟨m2, e', res⟩, hloop, h⟩ := Option.bind_eq_some_iff.mp h
    have hfails := writeLoop_negative_iff hloop
    cases h
    have hfit : RangeFits offset count := by
      have hnat := neg_toNat hneg
      have hcount := count.isLt
      have := hfails.mp hr
      rw [WriteFails, BitVec.lt_def, BitVec.toNat_add] at this
      simp only [RangeFits]
      omega
    obtain ⟨r', hrun, _⟩ := copyLoop_fit (fun m buf a n => m.move a buf n) m1 f buf hfit hneg
    rw [writeLoop, hrun] at hloop
    cases hloop
    exact fileSetSize_size hset

/-- A failed write that sets no size changes nothing. -/
theorem fileWrite_kept (hle : ¬ fSize m f < offset + count)
    (hsize : (fSize m f).toNat ≤ maxfilesize) (hr : r < 0)
    (h : fileWrite m f buf count offset = some (m', e, r)) : m' = m := by
  have hmax : maxfilesize = 4235264 := rfl
  have hfails := (fileWrite_negative_iff h).mp hr
  rw [BitVec.lt_def, BitVec.toNat_add] at hle
  rw [WriteFails, BitVec.lt_def, BitVec.toNat_add] at hfails
  rw [fileWrite_eq, if_neg (by rw [BitVec.lt_def, BitVec.toNat_add]; exact hle), Option.bind_some] at h
  obtain ⟨⟨m2, e', res⟩, hloop, h⟩ := Option.bind_eq_some_iff.mp h
  cases h
  have hskip : ¬ offset < offset + count := by
    rw [BitVec.lt_def, BitVec.toNat_add]
    omega
  rw [writeLoop, copyFuel, copyLoop, if_neg hskip] at hloop
  cases hloop
  rfl

end

/-! ## One look-up -/

/-- The look-up takes a block whose number is stored in the `struct File` of the directory, and
that is in another directory. The pair is a directory and the end of the search in it. -/
def FillsHole (m : Mem) (x : Nat × Nat) : Prop :=
  x.1 ≠ sRoot ∧ ((∃ j < x.2, j < ndirect ∧ blockPtr m x.1 j = 0) ∨
    ndirect < x.2 ∧ indirect m x.1 = 0#32)

section

variable {m m' m1 : Mem} {f g d n x i j k : Nat}

theorem Grows.indirect_keeps (h : Grows f m k m') (hw : Wf m) (hg : FileAt m g)
    (hind : indirect m g ≠ 0#32) : indirect m' g = indirect m g := by
  induction h with
  | refl => rfl
  | step h _ halloc ih =>
      rw [(halloc.edited (h.wf hw)).indirect_eq (h.fileAt hw hg)
        (halloc.ne_indirect (by rw [ih]; exact hind)), ih]

/-- The part of a `struct File` beside the block numbers. -/
theorem Grows.header_rest (h : Grows f m k m') (hw : Wf m) (hf : FileAt m f)
    (hx : f ≤ x ∧ x < f + 136 ∨ f + 180 ≤ x ∧ x < f + 256) : m' x = m x := by
  induction h with
  | refl => rfl
  | @step n b m1 m' p h hfile halloc ih =>
      have hw1 := h.wf hw
      have hf1 := h.fileAt hw hf
      have hbody : InBody m1 x 1 := by
        rcases hw1.file_inBody hf1 with hb | ⟨c, h1, h2, h3, h4⟩
        · exact Or.inl (by omega)
        · exact Or.inr ⟨c, h1, h2, h3, by omega⟩
      have hout : x + 1 ≤ p.addr m1 ∨ p.addr m1 + 4 ≤ x := by
        rcases halloc.valid.cases_addr with hin | ⟨l, hl, _, hind, haddr⟩
        · rw [hfile] at hin
          omega
        · have := hw1.file_indirect_disjoint hf1 halloc.valid.fileAt hind
          simp only [nindirect] at hl
          omega
      rw [halloc.same_body hw1 hbody hout (Nat.le_refl _) (by omega), ih]

/-- Without a new block number in the `struct File`, it is the same. -/
theorem Grows.header_eq (h : Grows f m k m') (hw : Wf m) (hf : FileAt m f)
    (hdirect : ∀ j < ndirect, m'.read32 (fDirect f j) = m.read32 (fDirect f j))
    (hind : indirect m' f = indirect m f) (hx : f ≤ x) (hx' : x < f + 256) : m' x = m x := by
  have hword : ∀ a, a ≤ x → x < a + 4 → m'.read32 a = m.read32 a → m' x = m x := by
    intro a hle hlt heq
    have hc : x - a < 4 := by omega
    have h1 := Mem.byte_eq_extract m' a hc
    have h2 := Mem.byte_eq_extract m a hc
    rw [Nat.add_sub_of_le hle] at h1 h2
    rw [h1, h2, heq]
  by_cases hin : f + 136 ≤ x ∧ x < f + 180
  · by_cases hlt : x < f + 176
    · have hj : (x - (f + 136)) / 4 < ndirect := by
        simp only [ndirect]
        omega
      have hslot : fDirect f ((x - (f + 136)) / 4) = f + 136 + 4 * ((x - (f + 136)) / 4) := rfl
      exact hword _ (by omega) (by omega) (hdirect _ hj)
    · exact hword (f + 176) (by omega) (by omega) hind
  · exact h.header_rest hw hf (by omega)

/-- A look-up that fills no hole changes no file. -/
theorem Searched.readsSame (h : Searched d m 0 n m1) (hw : Wf m) (hd : FileAt m d)
    (hno : ¬ FillsHole m (d, n)) (hg : FileAt m g) (hsize : (fSize m g).toNat ≤ maxfilesize) :
    ReadsSame m m1 g := by
  refine ⟨h.grows.fileAt hw hg, h.grows.type_eq hw hg, h.grows.size_eq hw hg, fun i hi => ?_⟩
  have hi' : i < maxfilesize := Nat.lt_of_lt_of_le hi hsize
  by_cases hin : InEntry m d g i
  · -- The byte is in the entry of the directory, which is then not the root.
    have hroot : d ≠ sRoot := by
      rintro rfl
      exact hw.child_ne_root hg (hw.child_of_inEntry hd hg hi' hin)
    have hkeep := h.grows.blockPtr_keeps hw hg (block_lt hi') hin.1
    rw [fileByte, fileByte, byteAddr, hkeep, ← byteAddr, if_neg hin.1, if_neg hin.1]
    refine h.grows.header_eq hw hd (fun j hj => ?_) ?_ hin.2.1 hin.2.2
    · have hjmax : j < maxblocks := by
        simp only [ndirect, maxblocks] at hj ⊢
        omega
      have hptr : blockPtr m1 d j = blockPtr m d j := by
        by_cases hlt : j < n
        · refine h.grows.blockPtr_keeps hw hd hjmax fun hz => ?_
          exact hno ⟨hroot, Or.inl ⟨j, hlt, hj, hz⟩⟩
        · exact h.rest j hjmax (by omega)
      rw [blockPtr, blockPtr, if_pos hj, if_pos hj] at hptr
      exact BitVec.eq_of_toNat_eq hptr
    · by_cases hlt : n ≤ ndirect
      · exact h.ind hlt
      · exact h.grows.indirect_keeps hw hd fun hz => hno ⟨hroot, Or.inr ⟨by omega, hz⟩⟩
  · exact h.grows.fileByte_eq hw hg hi' hin

/-- `d` is the root, or its entry is among those that a directory shows. -/
def Shown (m : Mem) (d : Nat) : Prop :=
  d = sRoot ∨ ∃ g e, FileAt m g ∧ (fSize m g).toNat ≤ maxfilesize ∧ e < 16 * dirBlocks m g ∧
    blockPtr m g (e / 16) ≠ 0 ∧ d = entryAt m g e

/-- A filled hole is seen in the bytes of the directory that has the entry. -/
theorem filled_ne (hshown : Shown m d) (hhole : FillsHole m (d, n))
    (hpres : Present m' d 0 n)
    (hkeeps : ∀ g, FileAt m g → ∀ k < maxblocks, blockPtr m g k ≠ 0 →
      blockPtr m' g k = blockPtr m g k) : ¬ FilesSame m m' := by
  obtain ⟨hroot, hhole⟩ := hhole
  obtain ⟨g, e, hg, hsize, he, hb, rfl⟩ := hshown.resolve_left hroot
  have hblocks := dirBlocks_eq hsize
  have hle := dirBlocks_le hsize
  generalize hd : entryAt m g e = d at hroot hhole hpres
  -- A word of the entry that was zero and is not any more.
  have hword : ∃ o, o + 4 ≤ 256 ∧ m'.read32 (d + o) ≠ m.read32 (d + o) := by
    rcases hhole with ⟨j, hjn, hj, hz⟩ | ⟨hlt, hz⟩
    · refine ⟨136 + 4 * j, by simp only [ndirect] at hj; omega, fun heq => ?_⟩
      refine hpres j (Nat.zero_le _) hjn ?_
      rw [blockPtr, if_pos hj] at hz ⊢
      rw [fDirect, Nat.add_assoc] at hz ⊢
      rw [heq]
      exact hz
    · refine ⟨176, by omega, fun heq => ?_⟩
      have hz' : indirect m' d = 0#32 := heq.trans hz
      refine hpres ndirect (Nat.zero_le _) hlt ?_
      rw [blockPtr, if_neg (Nat.lt_irrefl _), if_pos hz']
  obtain ⟨o, ho, hne⟩ := hword
  obtain ⟨c, hc, hbyte⟩ := Mem.exists_byte_ne hne
  intro hsame
  have hk : blockPtr m' g (e / 16) = blockPtr m g (e / 16) := hkeeps g hg _ (by omega) hb
  have hsplit : 16 * (e / 16) + e % 16 = e := Nat.div_add_mod e 16
  have hold := fileByte_entry (j := e % 16) (c := o + c) hb (Nat.mod_lt _ (by decide)) (by omega)
  have hnew := fileByte_entry (m := m') (j := e % 16) (c := o + c) (by rw [hk]; exact hb)
    (Nat.mod_lt _ (by decide)) (by omega)
  have hentry : blockAddr (blockPtr m g (e / 16)) + 256 * (e % 16) = d := hd
  rw [hsplit] at hold hnew
  rw [hk] at hnew
  rw [hentry] at hold hnew
  have := (hsame g hg).byte (256 * e + (o + c)) (by omega)
  rw [hold, hnew, ← Nat.add_assoc] at this
  exact hbyte this

end

/-! ## Paths -/

/-- The directories that `walk_path` searches from `f` on, each with the block after the last one
that it looks at. -/
def walkDirs : Nat → Mem → Nat → List (BitVec 8) → List (Nat × Nat)
  | 0, _, _, _ => []
  | fuel + 1, m, f, path =>
      let name := path.takeWhile (· ≠ slash)
      let rest := skipSlash (path.dropWhile (· ≠ slash))
      if path = [] ∨ maxnamelen ≤ name.length ∨ fType m f ≠ ftypeDir then []
      else (f, lookupEnd m f name) :: match lookupEntry m f name with
        | some e => walkDirs fuel m (entryAt m f e) rest
        | none => []

/-- The directory in which the last name of the path is missing. -/
def newEntryDir : Nat → Mem → Nat → List (BitVec 8) → Option Nat
  | 0, _, _, _ => none
  | fuel + 1, m, f, path =>
      let name := path.takeWhile (· ≠ slash)
      let rest := skipSlash (path.dropWhile (· ≠ slash))
      if path = [] ∨ maxnamelen ≤ name.length ∨ fType m f ≠ ftypeDir then none
      else match lookupEntry m f name with
        | some e => newEntryDir fuel m (entryAt m f e) rest
        | none => if rest = [] then some f else none

/-- The directory has as many blocks as a file can have, and no unused entry. -/
def DirFull (m : Mem) (d : Nat) : Prop :=
  maxblocks ≤ dirBlocks m d ∧ (List.range (16 * dirBlocks m d)).any (unusedAt m d) = false

section

variable {m m' m1 : Mem} {f g d n fuel : Nat} {path : List (BitVec 8)} {w : Walk}

theorem SameFile.lookupEnd_eq {name : List (BitVec 8)} (h : SameFile m m' g)
    (hsize : (fSize m g).toNat ≤ maxfilesize) (hname : NameOk name) :
    lookupEnd m' g name = lookupEnd m g name := by
  rw [lookupEnd, lookupEnd, h.lookupEntry_eq hsize hname, dirBlocks, h.size]
  rfl

/-- What a path leads to is read from the files below the directory. -/
theorem walkDirs_congr (hds : DirsOk m) (hg : FileAt m g) (hp : PathOk path)
    (h : ∀ x, Relation.ReflTransGen (Child m) g x → SameFile m m' x) :
    walkDirs fuel m' g path = walkDirs fuel m g path ∧
      newEntryDir fuel m' g path = newEntryDir fuel m g path := by
  induction fuel generalizing g path with
  | zero => exact ⟨rfl, rfl⟩
  | succ fuel ih =>
      have hself := h g .refl
      rw [walkDirs, walkDirs, newEntryDir, newEntryDir, hself.type]
      by_cases hstop : path = [] ∨ maxnamelen ≤ (path.takeWhile (· ≠ slash)).length ∨
          fType m g ≠ ftypeDir
      · rw [if_pos hstop, if_pos hstop, if_pos hstop, if_pos hstop]
        exact ⟨rfl, rfl⟩
      rw [if_neg hstop, if_neg hstop, if_neg hstop, if_neg hstop]
      simp only [not_or, not_not] at hstop
      obtain ⟨hne, hlen, hdir⟩ := hstop
      have hname := hp.first hne hlen
      have hsize := (hds g hg hdir).size_le
      rw [hself.lookupEnd_eq hsize hname, hself.lookupEntry_eq hsize hname]
      cases he : lookupEntry m g (path.takeWhile (· ≠ slash)) with
      | none => exact ⟨rfl, rfl⟩
      | some e =>
          obtain ⟨hi, hb, hchild⟩ := lookupEntry_child hdir hsize hname he
          have hentry : entryAt m' g e = entryAt m g e := by
            rw [entryAt, entryAt, hself.ptr _ hi]
          obtain ⟨h1, h2⟩ := ih (hg.child hchild) (hp.rest hne).1 fun x hx => h x (.head hchild hx)
          simp only [hentry]
          rw [h1, h2]
          exact ⟨rfl, rfl⟩

/-- The directories on a path are below each other, and shown by each other. -/
theorem walkDirs_mem (hds : DirsOk m) (hf : FileAt m f) (hp : PathOk path) (hshown : Shown m f)
    {x : Nat × Nat} (hx : x ∈ walkDirs fuel m f path) :
    Relation.ReflTransGen (Child m) f x.1 ∧ Shown m x.1 := by
  induction fuel generalizing f path with
  | zero => cases hx
  | succ fuel ih =>
      rw [walkDirs] at hx
      by_cases hstop : path = [] ∨ maxnamelen ≤ (path.takeWhile (· ≠ slash)).length ∨
          fType m f ≠ ftypeDir
      · rw [if_pos hstop] at hx
        cases hx
      rw [if_neg hstop] at hx
      simp only [not_or, not_not] at hstop
      obtain ⟨hne, hlen, hdir⟩ := hstop
      have hname := hp.first hne hlen
      have hsize := (hds f hf hdir).size_le
      rcases List.mem_cons.mp hx with rfl | hx
      · exact ⟨.refl, hshown⟩
      cases he : lookupEntry m f (path.takeWhile (· ≠ slash)) with
      | none =>
          rw [he] at hx
          cases hx
      | some e =>
          rw [he] at hx
          obtain ⟨_, hb, hchild⟩ := lookupEntry_child hdir hsize hname he
          obtain ⟨hbelow, hx'⟩ := ih (hf.child hchild) (hp.rest hne).1
            (Or.inr ⟨f, e, hf, hsize, (entryFrom_range he).2, hb, rfl⟩) hx
          exact ⟨.head hchild hbelow, hx'⟩

theorem DirStep.blockPtr_keeps (h : DirStep m m') (hw : Wf m) (hg : FileAt m g) {k : Nat}
    (hk : k < maxblocks) (hb : blockPtr m g k ≠ 0) : blockPtr m' g k = blockPtr m g k := by
  cases h with
  | grows _ _ h => exact h.blockPtr_keeps hw hg hk hb
  | longer hd _ => exact (unmoved_size hw hd _).blockPtr_eq hg hk
  | @name x name hx hlen =>
      refine (unmoved_name hw hx fun y hy => ?_).blockPtr_eq hg hk
      simp only [maxnamelen] at hlen
      rw [strcpy, if_neg (by omega)]

theorem DirSteps.blockPtr_keeps (h : DirSteps m m') (hw : Wf m) (hg : FileAt m g) {k : Nat}
    (hk : k < maxblocks) (hb : blockPtr m g k ≠ 0) : blockPtr m' g k = blockPtr m g k := by
  induction h with
  | refl => rfl
  | tail hsteps hstep ih =>
      have hkept := (DirSteps.entriesKept hsteps hw).kept
      rw [hstep.blockPtr_keeps hkept.wf (hkept.files g hg) hk (by rw [ih]; exact hb), ih]

theorem newEntryDir_mem {d : Nat} (h : newEntryDir fuel m f path = some d) :
    fType m d = ftypeDir ∧ ∃ n, (d, n) ∈ walkDirs fuel m f path := by
  induction fuel generalizing f path with
  | zero => cases h
  | succ fuel ih =>
      rw [newEntryDir] at h
      rw [walkDirs]
      split at h
      · cases h
      rename_i hgo
      rw [if_neg hgo]
      cases he : lookupEntry m f (path.takeWhile (· ≠ slash)) with
      | some e =>
          rw [he] at h
          obtain ⟨hdir, n, hn⟩ := ih h
          exact ⟨hdir, n, List.mem_cons_of_mem _ hn⟩
      | none =>
          rw [he] at h
          simp only at h
          split at h
          · cases h
            simp only [not_or, not_not] at hgo
            exact ⟨hgo.2.2, _, List.mem_cons_self ..⟩
          · cases h

theorem SameFile.fillsHole_iff (h : SameFile m m' d) : FillsHole m' (d, n) ↔ FillsHole m (d, n) := by
  refine and_congr_right fun _ => or_congr ?_ (by rw [h.ind])
  refine exists_congr fun j => and_congr_right fun _ => and_congr_right fun hj => ?_
  simp only [ndirect] at hj
  rw [h.ptr j (by simp only [maxblocks]; omega)]

/-- What `walk_path` leaves, and what it has found for `file_create`. -/
structure WalkEnd (fuel : Nat) (m : Mem) (f : Nat) (path : List (BitVec 8)) (m' : Mem) (w : Walk) :
    Prop where
  same : (∀ x ∈ walkDirs fuel m f path, ¬ FillsHole m x) →
    ∀ g, FileAt m g → (fSize m g).toNat ≤ maxfilesize → ReadsSame m m' g
  present : ∀ x ∈ walkDirs fuel m f path, Present m' x.1 0 x.2
  missing : ∀ d, newEntryDir fuel m f path = some d →
    (∃ name, w = ⟨.error (-eNotFound), some d, name⟩) ∧ Present m' d 0 (dirBlocks m d) ∧
      fSize m' d = fSize m d ∧ ∀ i < maxfilesize, fileByte m' d i = fileByte m d i
  other : newEntryDir fuel m f path = none → ∃ r : Int, r < 0 ∧
    createEnd (m', w) = some (m', .error r)

/-- The walk ends before it looks at a directory. -/
theorem WalkEnd.stop {r : Int}
    (hstop : path = [] ∨ maxnamelen ≤ (path.takeWhile (· ≠ slash)).length ∨ fType m f ≠ ftypeDir)
    (hr : r < 0) (hend : createEnd (m, w) = some (m, .error r)) :
    WalkEnd (fuel + 1) m f path m w := by
  have hdirs : walkDirs (fuel + 1) m f path = [] := by
    rw [walkDirs]
    exact if_pos hstop
  have hnew : newEntryDir (fuel + 1) m f path = none := by
    rw [newEntryDir]
    exact if_pos hstop
  refine ⟨fun _ g hg _ => .refl hg, fun x hx => ?_, fun d hd => ?_, fun _ => ⟨r, hr, hend⟩⟩
  · rw [hdirs] at hx
    cases hx
  · rw [hnew] at hd
    cases hd

/-- The walk ends at a directory that does not have the name. -/
theorem WalkEnd.last (hw : Wf m) (hf : FileAt m f)
    (hgo : ¬ (path = [] ∨ maxnamelen ≤ (path.takeWhile (· ≠ slash)).length ∨
      fType m f ≠ ftypeDir))
    (he : lookupEntry m f (path.takeWhile (· ≠ slash)) = none)
    (h : Searched f m 0 (lookupEnd m f (path.takeWhile (· ≠ slash))) m1) :
    WalkEnd (fuel + 1) m f path m1 (if skipSlash (path.dropWhile (· ≠ slash)) = [] then
      ⟨.error (-eNotFound), some f, path.takeWhile (· ≠ slash)⟩
      else ⟨.error (-eNotFound), none, []⟩) := by
  have hdirs : walkDirs (fuel + 1) m f path =
      [(f, lookupEnd m f (path.takeWhile (· ≠ slash)))] := by
    rw [walkDirs]
    simp only [if_neg hgo, he]
  have hend : lookupEnd m f (path.takeWhile (· ≠ slash)) = dirBlocks m f := by
    rw [lookupEnd, he]
    rfl
  refine ⟨fun hno g hg hsize => ?_, fun x hx => ?_, fun d hnew => ?_, fun hnew => ?_⟩
  · exact h.readsSame hw hf (hno _ (by rw [hdirs]; exact List.mem_cons_self ..)) hg hsize
  · rw [hdirs, List.mem_singleton] at hx
    subst hx
    exact h.present
  · rw [newEntryDir] at hnew
    simp only [if_neg hgo, he] at hnew
    split at hnew
    · rename_i hrest
      cases hnew
      have hbyte : ∀ i < maxfilesize, fileByte m1 f i = fileByte m f i :=
        fun i hi => h.grows.fileByte_self hw hf hi
      refine ⟨⟨_, if_pos hrest⟩, ?_, h.grows.size_eq hw hf, hbyte⟩
      rw [← hend]
      exact h.present
    · cases hnew
  · rw [newEntryDir] at hnew
    simp only [if_neg hgo, he] at hnew
    split at hnew
    · cases hnew
    · rename_i hrest
      rw [if_neg hrest]
      exact ⟨-eNotFound, by decide, rfl⟩

/-- The walk goes on at the entry that it has found. -/
theorem WalkEnd.next {e : Nat} (hw : Wf m) (hds : DirsOk m) (hf : FileAt m f) (hp : PathOk path)
    (hgo : ¬ (path = [] ∨ maxnamelen ≤ (path.takeWhile (· ≠ slash)).length ∨
      fType m f ≠ ftypeDir))
    (he : lookupEntry m f (path.takeWhile (· ≠ slash)) = some e)
    (h : Searched f m 0 (lookupEnd m f (path.takeWhile (· ≠ slash))) m1)
    (hend : WalkEnd fuel m1 (entryAt m f e) (skipSlash (path.dropWhile (· ≠ slash))) m' w)
    (hsteps : DirSteps m1 m') : WalkEnd (fuel + 1) m f path m' w := by
  have hdirs : walkDirs (fuel + 1) m f path = (f, lookupEnd m f (path.takeWhile (· ≠ slash))) ::
      walkDirs fuel m (entryAt m f e) (skipSlash (path.dropWhile (· ≠ slash))) := by
    rw [walkDirs]
    simp only [if_neg hgo, he]
  have hnew : newEntryDir (fuel + 1) m f path =
      newEntryDir fuel m (entryAt m f e) (skipSlash (path.dropWhile (· ≠ slash))) := by
    rw [newEntryDir]
    simp only [if_neg hgo, he]
  simp only [not_or, not_not] at hgo
  obtain ⟨hne, hlen, hdir⟩ := hgo
  have hd := hds f hf hdir
  obtain ⟨_, hb, hchild⟩ := lookupEntry_child hdir hd.size_le (hp.first hne hlen) he
  have hg := hf.child hchild
  -- The files below the entry are the same after the look-up.
  have hsame : ∀ x, Relation.ReflTransGen (Child m) (entryAt m f e) x → SameFile m m1 x := by
    intro x hx
    obtain ⟨hxf, hnot⟩ := hw.below_other hf (Relation.TransGen.head' hchild hx)
    exact h.grows.sameFile hw hf (hg.descendant hx) hxf hnot
  have hprest := (hp.rest hne).1
  obtain ⟨hcdirs, hcnew⟩ := @walkDirs_congr _ _ _ fuel _ hds hg hprest hsame
  have hshown : Shown m (entryAt m f e) :=
    Or.inr ⟨f, e, hf, hd.size_le, (entryFrom_range he).2, hb, rfl⟩
  have hbelow : ∀ x ∈ walkDirs fuel m (entryAt m f e) (skipSlash (path.dropWhile (· ≠ slash))),
      SameFile m m1 x.1 := fun x hx => hsame _ (walkDirs_mem hds hg hprest hshown hx).1
  refine ⟨fun hno g hgm hsize => ?_, fun x hx => ?_, fun d hd' => ?_, fun hno => ?_⟩
  · have h1 := h.readsSame hw hf (hno _ (by rw [hdirs]; exact List.mem_cons_self ..)) hgm hsize
    refine h1.trans (hend.same (fun x hx => ?_) g h1.file (by rw [h1.size]; exact hsize))
    rw [hcdirs] at hx
    rw [(hbelow x hx).fillsHole_iff]
    exact hno x (by rw [hdirs]; exact List.mem_cons_of_mem _ hx)
  · rw [hdirs] at hx
    rcases List.mem_cons.mp hx with rfl | hx
    · intro j hj hlt
      have hle := @lookupEnd_le _ _ (path.takeWhile (· ≠ slash)) hd.size_le
      rw [hsteps.blockPtr_keeps (h.grows.wf hw) (h.grows.fileAt hw hf) (by omega)
        (h.present j hj hlt)]
      exact h.present j hj hlt
    · exact hend.present x (by rw [hcdirs]; exact hx)
  · rw [hnew] at hd'
    obtain ⟨_, n, hn⟩ := newEntryDir_mem hd'
    have hsd := hbelow _ hn
    obtain ⟨hwalk, hpres, hsz, hbyte⟩ := hend.missing d (hcnew.trans hd')
    refine ⟨hwalk, ?_, hsz.trans hsd.size, fun i hi => (hbyte i hi).trans (hsd.byte i hi)⟩
    rw [show dirBlocks m d = dirBlocks m1 d by rw [dirBlocks, dirBlocks, hsd.size]]
    exact hpres
  · rw [hnew] at hno
    exact hend.other (hcnew.trans hno)

theorem walkLoop_end {dir : Option Nat} (hw : Wf m) (hds : DirsOk m) (hf : FileAt m f)
    (hp : PathOk path) (h : walkLoop fuel m dir f path = some (m', w)) :
    WalkEnd fuel m f path m' w := by
  induction fuel generalizing m dir f path with
  | zero => cases h
  | succ fuel ih =>
      rw [walkLoop] at h
      simp only at h
      by_cases hne : path = []
      · rw [if_pos hne] at h
        cases h
        exact .stop (r := -eFileExists) (Or.inl hne) (by decide) rfl
      by_cases hlen : maxnamelen ≤ (path.takeWhile (· ≠ slash)).length
      · rw [if_neg hne, if_pos hlen] at h
        cases h
        exact .stop (r := -eBadPath) (Or.inr (Or.inl hlen)) (by decide) rfl
      by_cases hdir : fType m f ≠ ftypeDir
      · rw [if_neg hne, if_neg hlen, if_pos hdir] at h
        cases h
        exact .stop (r := -eNotFound) (Or.inr (Or.inr hdir)) (by decide) rfl
      have hgo : ¬ (path = [] ∨ maxnamelen ≤ (path.takeWhile (· ≠ slash)).length ∨
          fType m f ≠ ftypeDir) := by
        rintro (h | h | h) <;> contradiction
      rw [if_neg hne, if_neg hlen, if_neg hdir] at h
      rw [not_not] at hdir
      have hname := hp.first hne hlen
      have hd := hds f hf hdir
      rcases dirLookup_exact hw hd hname with ⟨_, hnone⟩ | ⟨m1, hrun, hsearched⟩
      · rw [hnone] at h
        cases h
      have hgrow := hsearched.grows
      have hw1 := hgrow.wf hw
      rw [hrun] at h
      simp only [Option.bind_eq_bind, Option.bind_some] at h
      cases he : lookupEntry m f (path.takeWhile (· ≠ slash)) with
      | none =>
          rw [he] at h
          have hlast := @WalkEnd.last _ _ _ fuel _ hw hf hgo he hsearched
          simp only [searchResult] at h
          split at h
          · rename_i hrest
            cases h
            rw [if_pos hrest.2] at hlast
            exact hlast
          · rename_i hrest
            cases h
            rw [if_neg fun hc => hrest ⟨trivial, hc⟩] at hlast
            exact hlast
      | some e =>
          rw [he] at h
          obtain ⟨hi, hb, hchild⟩ := lookupEntry_child hdir hd.size_le hname he
          have hg1 := hgrow.fileAt hw (hf.child hchild)
          have hentry : entryAt m1 f e = entryAt m f e := by
            rw [entryAt, entryAt, hgrow.blockPtr_keeps hw hf hi hb]
          simp only [searchResult, hentry] at h
          exact .next hw hds hf hp hgo he hsearched (ih hw1 (hds.grows hw hgrow) hg1 (hp.rest hne).1 h)
            (walkLoop_leadsTo hw1 hg1 h).steps

end

/-! ## A new entry -/

section

variable {m m' : Mem} {d : Nat} {name : List (BitVec 8)} {q : Except Int Nat}

/-- The directory is longer by a block that it does not have. -/
theorem dirAllocFile_full (hw : Wf m) (hd : DirOk m d) (hpres : Present m d 0 (dirBlocks m d))
    (hfull : DirFull m d) :
    dirAllocFile m d = some (m.write32 (d + 128) (fSize m d + 4096#32), .error (-eInval)) := by
  obtain ⟨hlen, hno⟩ := hfull
  obtain ⟨r, hrun, hiff, _⟩ := dirAllocLoop_present hw hd.file (dirBlocks_le hd.size_le)
    (Nat.zero_le _) hpres
  rw [Nat.sub_zero, ← List.range_eq_range'] at hrun
  rw [Nat.mul_zero, Nat.sub_zero, ← List.range_eq_range'] at hiff
  rw [hiff.mpr hno] at hrun
  rw [dirAllocFile, if_neg fun hne => hne hd.aligned]
  simp only
  rw [show ((fSize m d).sdiv 4096#32).toNat = dirBlocks m d from rfl]
  simp only [hrun, Option.bind_eq_bind, Option.bind_some]
  exact fileGetBlock_large hlen

theorem dirAllocFile_ok (hw : Wf m) (hd : DirOk m d) (hpres : Present m d 0 (dirBlocks m d))
    (hroom : ¬ DirFull m d) (h : dirAllocFile m d = some (m', q)) : ∃ g, q = .ok g := by
  obtain ⟨r, hrun, hiff, hok⟩ := dirAllocLoop_present hw hd.file (dirBlocks_le hd.size_le)
    (Nat.zero_le _) hpres
  rw [Nat.sub_zero, ← List.range_eq_range'] at hrun
  rw [Nat.mul_zero, Nat.sub_zero, ← List.range_eq_range'] at hiff
  rw [dirAllocFile, if_neg fun hne => hne hd.aligned] at h
  simp only at h
  rw [show ((fSize m d).sdiv 4096#32).toNat = dirBlocks m d from rfl] at h
  simp only [hrun, Option.bind_eq_bind, Option.bind_some] at h
  cases r with
  | some r =>
      cases h
      exact hok _ rfl
  | none =>
      have hlt : dirBlocks m d < maxblocks := Nat.lt_of_not_le fun hle => hroom ⟨hle, hiff.mp rfl⟩
      exact fileGetBlock_ok h hlt

/-- In a directory with room the call does not fail. -/
theorem createEnd_ok (hw : Wf m) (hd : DirOk m d) (hpres : Present m d 0 (dirBlocks m d))
    (hroom : ¬ DirFull m d)
    (h : createEnd (m, ⟨.error (-eNotFound), some d, name⟩) = some (m', q)) : ∃ g, q = .ok g := by
  rw [createEnd] at h
  simp only at h
  rw [if_neg fun hne => hne rfl] at h
  obtain ⟨⟨m1, q1⟩, halloc, h⟩ := Option.bind_eq_some_iff.mp h
  obtain ⟨g, rfl⟩ := dirAllocFile_ok hw hd hpres hroom halloc
  obtain ⟨_, _, h⟩ := Option.bind_eq_some_iff.mp h
  cases h
  exact ⟨g, rfl⟩

theorem createEnd_full (hw : Wf m) (hd : DirOk m d) (hpres : Present m d 0 (dirBlocks m d))
    (hfull : DirFull m d) : createEnd (m, ⟨.error (-eNotFound), some d, name⟩) =
      some (m.write32 (d + 128) (fSize m d + 4096#32), .error (-eInval)) := by
  rw [createEnd]
  simp only
  rw [if_neg fun hne => hne rfl, dirAllocFile_full hw hd hpres hfull]
  rfl

theorem dirFull_congr (hsize : fSize m' d = fSize m d) (hle : (fSize m d).toNat ≤ maxfilesize)
    (hbyte : ∀ i < maxfilesize, fileByte m' d i = fileByte m d i) : DirFull m' d ↔ DirFull m d := by
  have hblocks : dirBlocks m' d = dirBlocks m d := by rw [dirBlocks, dirBlocks, hsize]
  rw [DirFull, DirFull, hblocks, any_unused_congr hle hbyte]

end

/-! ## The three calls -/

inductive ChangeCall
  | write (f buf : Nat) (count offset : BitVec 32)
  | setSize (f : Nat) (newsize : BitVec 32)
  | create (path : List (BitVec 8))

/-- The memory and the returned value. -/
def ChangeCall.run (m : Mem) : ChangeCall → Option (Mem × Int)
  | .write f buf count offset => (fileWrite m f buf count offset).map fun res => (res.1, res.2.2)
  | .setSize f newsize => (fileSetSize m f newsize).map fun m => (m, 0)
  | .create path => (fileCreate m path).map fun res => (res.1, returnOf res.2)

/-- The arguments are those of a call: a file, a buffer beside the disk, a string. -/
def ChangeCall.Ok (m : Mem) : ChangeCall → Prop
  | .write f buf count _ => FileAt m f ∧ Beside buf (min count.toNat maxfilesize)
  | .setSize f _ => FileAt m f
  | .create path => 0#8 ∉ path

/-- When the call returns a negative value, all files read the same as before. -/
def ChangeCall.FailsClean (m : Mem) (c : ChangeCall) : Prop :=
  ∀ m' r, c.run m = some (m', r) → r < 0 → FilesSame m m'

/-- A write that makes the file longer has to succeed, and so has a call that adds an entry; a path
that fails earlier may not take blocks for a directory that is an entry. Or the disk is full, and
the call does not return. -/
def ChangeCall.Clean (m : Mem) : ChangeCall → Prop
  | .write f buf count offset => offset + count ≤ fSize m f ∨ ¬ WriteFails offset count ∨
      (FsCall.write f buf count offset).FindsFull m
  | .setSize _ _ => True
  | .create path => (FsCall.create path).FindsFull m ∨
      match newEntryDir (path.length + 1) m sRoot (skipSlash path) with
      | some d => ¬ DirFull m d
      | none => ∀ x ∈ walkDirs (path.length + 1) m sRoot (skipSlash path), ¬ FillsHole m x

section

variable {m m' : Mem} {f buf : Nat} {count offset : BitVec 32} {path : List (BitVec 8)}

theorem Sound.dirsOk (hs : Sound m) : DirsOk m :=
  fun d hd hdir => ⟨hd, hs.aligned d hd hdir, hs.size_le d hd⟩

theorem write_failsClean_iff (hs : Sound m) (hc : (ChangeCall.write f buf count offset).Ok m) :
    (ChangeCall.write f buf count offset).FailsClean m ↔
      (ChangeCall.write f buf count offset).Clean m := by
  obtain ⟨hf, hbuf⟩ := hc
  constructor
  · intro hclean
    by_contra hnot
    simp only [ChangeCall.Clean, not_or, not_not] at hnot
    obtain ⟨hlt, hfails, hroom⟩ := hnot
    rw [← FsCall.run_none_iff (c := .write f buf count offset) hs ⟨hf, hbuf⟩, FsCall.run,
      Option.map_eq_none_iff] at hroom
    obtain ⟨⟨m', e, r⟩, hrun⟩ := Option.ne_none_iff_exists'.mp hroom
    have hr := (fileWrite_negative_iff hrun).mpr hfails
    have hsize := fileWrite_grown hs.wf hf hbuf (BitVec.not_le.mp hlt) hr hrun
    have hsame := hclean m' r (by rw [ChangeCall.run, hrun]; rfl) hr
    refine hlt ?_
    rw [← hsize, (hsame f hf).size]
    exact BitVec.le_refl _
  · rintro hok m' r hrun hr
    obtain ⟨⟨m2, e, r2⟩, hwrite, heq⟩ := Option.map_eq_some_iff.mp hrun
    cases heq
    rcases hok with hle | hfails | hfull
    · obtain rfl := fileWrite_kept (BitVec.not_lt.mpr hle) (hs.size_le f hf) hr hwrite
      exact fun g hg => .refl hg
    · exact absurd ((fileWrite_negative_iff hwrite).mp hr) hfails
    · rw [← FsCall.run_none_iff (c := .write f buf count offset) hs ⟨hf, hbuf⟩, FsCall.run,
        hwrite] at hfull
      cases hfull

theorem create_failsClean_iff (hs : Sound m) (hc : (ChangeCall.create path).Ok m) :
    (ChangeCall.create path).FailsClean m ↔ (ChangeCall.create path).Clean m := by
  have hnone : (ChangeCall.create path).run m = none ↔ (FsCall.create path).FindsFull m :=
    FsCall.run_none_iff (c := .create path) hs hc
  by_cases hfull : (FsCall.create path).FindsFull m
  · refine iff_of_true (fun m' r hrun => ?_) (Or.inl hfull)
    rw [hnone.mpr hfull] at hrun
    cases hrun
  rw [ChangeCall.Clean, or_iff_right hfull]
  rw [← hnone] at hfull
  obtain ⟨⟨m', r⟩, hrun⟩ := Option.ne_none_iff_exists'.mp hfull
  have hclean : (ChangeCall.create path).FailsClean m ↔ (r < 0 → FilesSame m m') := by
    refine ⟨fun h => h m' r hrun, fun h m2 r2 hrun2 => ?_⟩
    rw [hrun] at hrun2
    cases hrun2
    exact h
  rw [hclean]
  obtain ⟨⟨m2, q⟩, hcall, heq⟩ := Option.map_eq_some_iff.mp hrun
  cases heq
  rw [fileCreate_eq] at hcall
  obtain ⟨⟨m1, w⟩, hwalk, hcall⟩ := Option.bind_eq_some_iff.mp hcall
  have hds := hs.dirsOk
  have hp := skipSlash_ok hc
  have hend := walkLoop_end hs.wf hds .root hp hwalk
  have hsteps := (walkLoop_leadsTo hs.wf .root hwalk).steps
  have hkept := hsteps.entriesKept hs.wf
  cases hnew : newEntryDir (path.length + 1) m sRoot (skipSlash path) with
  | none =>
      obtain ⟨e, he, hcreate⟩ := hend.other hnew
      rw [hcreate] at hcall
      cases hcall
      simp only [returnOf]
      refine ⟨fun h x hx hhole => ?_, fun h _ g hg => hend.same h g hg (hs.size_le g hg)⟩
      have hshown := (walkDirs_mem hds .root hp (Or.inl rfl) hx).2
      exact filled_ne hshown hhole (hend.present x hx)
        (fun g hg k hk hb => hsteps.blockPtr_keeps hs.wf hg hk hb) (h he)
  | some d =>
      obtain ⟨⟨name, rfl⟩, hpres, hsize, hbyte⟩ := hend.missing d hnew
      obtain ⟨hdir, n, hn⟩ := newEntryDir_mem hnew
      have hd : FileAt m d := FileAt.root.descendant (walkDirs_mem hds .root hp (Or.inl rfl) hn).1
      have hle := hs.size_le d hd
      have hd1 : DirOk m1 d := ⟨hkept.kept.files d hd, hkept.size d hd hdir (hs.aligned d hd hdir),
        by rw [hsize]; exact hle⟩
      have hpres1 : Present m1 d 0 (dirBlocks m1 d) := by
        rw [show dirBlocks m1 d = dirBlocks m d by rw [dirBlocks, dirBlocks, hsize]]
        exact hpres
      have hiff := dirFull_congr hsize hle hbyte
      simp only
      rw [← hiff]
      by_cases hroom : DirFull m1 d
      · rw [createEnd_full hkept.kept.wf hd1 hpres1 hroom] at hcall
        cases hcall
        refine iff_of_false (fun h => ?_) fun h => h hroom
        have hgrown : fSize (m1.write32 (d + 128) (fSize m1 d + 4096#32)) d = fSize m1 d + 4096#32 :=
          Mem.read32_write32_self ..
        have hsame := (h (by decide) d hd).size
        rw [hgrown, hsize] at hsame
        bv_omega
      · obtain ⟨g, rfl⟩ := createEnd_ok hkept.kept.wf hd1 hpres1 hroom hcall
        exact iff_of_true (fun hr => absurd hr (by simp [returnOf])) hroom

/-- On every well formed file system a call that fails leaves all files as they were if and only if
it is clean. -/
theorem failed_call_keeps_iff {c : ChangeCall} (hs : Sound m) (hc : c.Ok m) :
    c.FailsClean m ↔ c.Clean m := by
  cases c with
  | write f buf count offset => exact write_failsClean_iff hs hc
  | setSize f newsize =>
      refine iff_of_true (fun m' r hrun hr => ?_) trivial
      obtain ⟨m2, _, heq⟩ := Option.map_eq_some_iff.mp hrun
      cases heq
      exact absurd hr (by decide)
  | create path => exact create_failsClean_iff hs hc

/-- A path through a directory that is not there is refused, and nothing has changed. -/
theorem failed_call_keeps_small : (ChangeCall.create [47#8, 97#8, 47#8, 98#8]).FailsClean smallDisk ∧
    (fileCreate smallDisk [47#8, 97#8, 47#8, 98#8]).map (fun res => returnOf res.2) =
      some (-eNotFound) := by
  have hok : (ChangeCall.create [47#8, 97#8, 47#8, 98#8]).Ok smallDisk := by simp [ChangeCall.Ok]
  refine ⟨(failed_call_keeps_iff smallDisk_sound hok).mpr (Or.inr ?_), by decide +kernel⟩
  have hnew : newEntryDir 5 smallDisk sRoot (skipSlash [47#8, 97#8, 47#8, 98#8]) = none := by
    decide +kernel
  have hdirs : walkDirs 5 smallDisk sRoot (skipSlash [47#8, 97#8, 47#8, 98#8]) = [(sRoot, 1)] := by
    decide +kernel
  simp only [List.length_cons, List.length_nil, hnew, hdirs, List.mem_singleton]
  rintro x rfl ⟨hroot, _⟩
  exact hroot rfl

/-- A write of one byte behind the largest file: it is refused, and the file is longer. -/
theorem failed_write_extends : Sound smallDisk ∧
    (ChangeCall.write smallFile 4096 1#32 4235264#32).Ok smallDisk ∧
    (fileWrite smallDisk smallFile 4096 1#32 4235264#32).map
      (fun res => (res.2.2, fSize res.1 smallFile)) = some (-eInval, 4235265#32) ∧
    ¬ (ChangeCall.write smallFile 4096 1#32 4235264#32).FailsClean smallDisk := by
  have hrun : (fileWrite smallDisk smallFile 4096 1#32 4235264#32).map
      (fun res => (res.2.2, fSize res.1 smallFile)) = some (-eInval, 4235265#32) := by
    decide +kernel
  refine ⟨smallDisk_sound, ⟨smallFile_fileAt, Or.inl (by decide)⟩, hrun, fun hclean => ?_⟩
  obtain ⟨⟨m', e, r⟩, hwrite, heq⟩ := Option.map_eq_some_iff.mp hrun
  obtain ⟨hr, hsize⟩ := Prod.mk.inj heq
  have hneg : r < 0 := by
    rw [show r = -eInval from hr]
    decide
  have hsame := hclean m' r (by rw [ChangeCall.run, hwrite]; rfl) hneg
  have hold : fSize smallDisk smallFile = fSize m' smallFile := (hsame _ smallFile_fileAt).size.symm
  rw [hsize] at hold
  exact absurd hold (by decide +kernel)

end

end Jos.Fs
