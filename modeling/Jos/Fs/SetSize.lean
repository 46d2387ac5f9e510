import Jos.Fs.FullDisk

/-!
# A new size for a file

What `file_set_size` does to a file that is no directory, where the old size and the new one are
sizes of files. The blocks behind the new size are given back, and the indirect block when no block
behind the direct ones is left; the blocks that stay keep their contents, and so does the part of
the last block that lies behind the new size.
-/

namespace Jos.Fs

open Jos.Lib

/-- The file shrinks to `newsize`, and it needs no indirect block any more. -/
def DropsIndirect (m : Mem) (f : Nat) (newsize : BitVec 32) : Prop :=
  newsize.toNat < (fSize m f).toNat ∧ sizeBlocks newsize ≤ ndirect

/-- Block `k` of the file is among those that are given back. -/
def GivenBack (m : Mem) (f : Nat) (newsize : BitVec 32) (k : Nat) : Prop :=
  newsize.toNat < (fSize m f).toNat ∧ sizeBlocks newsize ≤ k ∧ k < sizeBlocks (fSize m f)

/-- Block `k` of the file has no number after the call. -/
def Dropped (m : Mem) (f : Nat) (newsize : BitVec 32) (k : Nat) : Prop :=
  GivenBack m f newsize k ∨ DropsIndirect m f newsize ∧ ndirect ≤ k

instance (m : Mem) (f : Nat) (newsize : BitVec 32) : Decidable (DropsIndirect m f newsize) :=
  inferInstanceAs (Decidable (_ ∧ _))

instance (m : Mem) (f : Nat) (newsize : BitVec 32) (k : Nat) : Decidable (Dropped m f newsize k) :=
  inferInstanceAs (Decidable (_ ∧ _ ∧ _ ∨ _ ∧ _))

/-- The blocks behind `newsize` have been given back; every other file is as before. -/
structure Truncated (m : Mem) (f : Nat) (newsize : BitVec 32) (m' : Mem) : Prop where
  kept : DiskKept m m'
  no_new : ∀ g, FileAt m' g → FileAt m g
  nblocks : sNblocks m' = sNblocks m
  ptr : ∀ k < maxblocks, blockPtr m' f k = if Dropped m f newsize k then 0 else blockPtr m f k
  ind : indirect m' f = if DropsIndirect m f newsize then 0#32 else indirect m f
  data : ∀ k < maxblocks, ¬ Dropped m f newsize k → blockPtr m f k ≠ 0 →
    ∀ x, blockAddr (blockPtr m f k) ≤ x → x < blockAddr (blockPtr m f k) + 4096 → m' x = m x
  other : ∀ g, Regular m g → g ≠ f → SameFile m m' g
  bits : ∀ c < (sNblocks m).toNat, c ≠ 0 → (bitSet m' c ↔ bitSet m c ∨
    (∃ k < maxblocks, GivenBack m f newsize k ∧ blockPtr m f k = c) ∨
      DropsIndirect m f newsize ∧ (indirect m f).toNat = c)

/-- The file at `f` has been given the size `newsize`. -/
structure Resized (m : Mem) (f : Nat) (newsize : BitVec 32) (m' : Mem) : Prop
    extends Truncated m f newsize m' where
  size : fSize m' f = newsize

section

variable {m m' m1 : Mem} {f g b k n new x : Nat} {p : Place} {newsize : BitVec 32}

theorem sizeBlocks_eq (h : newsize.toNat ≤ maxfilesize) :
    sizeBlocks newsize = (newsize.toNat + 4095) / 4096 := by
  simp only [maxfilesize] at h
  have hadd : (newsize + 4096#32 - 1#32).toNat = newsize.toNat + 4095 := by
    rw [BitVec.toNat_sub, BitVec.toNat_add]
    simp only [BitVec.toNat_ofNat]
    omega
  rw [sizeBlocks, sdiv_block (by omega), hadd]

/-! ## One block -/

/-- Giving a block back changes no data. -/
theorem Released.data_eq (h : Released m p b m') (hw : Wf m) (hg : Regular m g) (hk : k < maxblocks)
    (hb : blockPtr m g k ≠ 0) (hx : blockAddr (blockPtr m g k) ≤ x)
    (hx' : x < blockAddr (blockPtr m g k) + 4096) : m' x = m x := by
  have hfile := hw.data_file_disjoint hg.1 hg.2 hk hb h.valid.fileAt
  have hplace := hw.data_place_disjoint hg.1 hk hb h.valid
  exact h.same_body hw (hw.data_inBody hg.1 hk hb) (by omega) hx hx'

/-- The other files are as before. -/
theorem Released.sameFile (h : Released m p b m') (hw : Wf m) (hreg : fType m p.file ≠ ftypeDir)
    (hg : Regular m g) (hne : g ≠ p.file) : SameFile m m' g := by
  have hed := h.edited hw
  have hg' := h.fileAt hw hreg hg.1
  have hptr : ∀ k < maxblocks, blockPtr m' g k = blockPtr m g k := by
    intro k hk
    by_cases hb : blockPtr m g k = 0
    · by_contra hb'
      rw [hb] at hb'
      exact hb' ((h.blockPtr_cases hw hg.1 hk hb').trans hb)
    · refine h.blockPtr_keeps hw hg.1 hg' hk hb (fun heq => hne ?_) fun heq => hne ?_
      · rw [← heq, dataPlace_file]
      · rw [heq]
        rfl
  refine ⟨hed.type g hg.1, hed.size g hg.1, hptr, hed.indirect_eq hg.1 ?_, fun i hi => ?_⟩
  · rintro rfl
    exact hne rfl
  · rw [fileByte, fileByte, byteAddr, hptr _ (block_lt hi), ← byteAddr]
    split
    · rfl
    · rename_i hb
      exact h.data_eq hw hg (block_lt hi) hb (Nat.le_add_right _ _) (by rw [byteAddr]; omega)

theorem SameFile.refl (m : Mem) (g : Nat) : SameFile m m g :=
  ⟨rfl, rfl, fun _ _ => rfl, rfl, fun _ _ => rfl⟩

theorem SameFile.trans (h : SameFile m m1 g) (h' : SameFile m1 m' g) : SameFile m m' g :=
  ⟨h'.type.trans h.type, h'.size.trans h.size, fun k hk => (h'.ptr k hk).trans (h.ptr k hk),
    h'.ind.trans h.ind, fun i hi => (h'.byte i hi).trans (h.byte i hi)⟩

theorem DiskKept.regular (h : DiskKept m m') (hg : Regular m g) : Regular m' g := by
  refine ⟨h.files g hg.1, ?_⟩
  rw [h.type g hg.1]
  exact hg.2

/-! ## The loop of `file_truncate_blocks` -/

/-- The blocks of `f` from block `new` up to block `n` have been given back. -/
structure CutFrom (m : Mem) (f new n : Nat) (m' : Mem) : Prop where
  kept : DiskKept m m'
  no_new : ∀ g, FileAt m' g → FileAt m g
  nblocks : sNblocks m' = sNblocks m
  ptr : ∀ k < maxblocks, blockPtr m' f k = if new ≤ k ∧ k < n then 0 else blockPtr m f k
  ind : indirect m' f = indirect m f
  data : ∀ k < maxblocks, ¬ (new ≤ k ∧ k < n) → blockPtr m f k ≠ 0 →
    ∀ x, blockAddr (blockPtr m f k) ≤ x → x < blockAddr (blockPtr m f k) + 4096 → m' x = m x
  other : ∀ g, Regular m g → g ≠ f → SameFile m m' g
  bits : ∀ c < (sNblocks m).toNat, c ≠ 0 → (bitSet m' c ↔ bitSet m c ∨
    ∃ k < maxblocks, (new ≤ k ∧ k < n) ∧ blockPtr m f k = c)

theorem CutFrom.start (hw : Wf m) : CutFrom m f new new m := by
  refine ⟨.refl hw, fun _ h => h, rfl, fun k _ => ?_, rfl, fun _ _ _ _ _ _ _ => rfl,
    fun _ _ _ => .refl _ _,
    fun c _ _ => ?_⟩
  · rw [if_neg (by omega)]
  · refine ⟨Or.inl, ?_⟩
    rintro (h | ⟨k, _, hk, _⟩)
    · exact h
    · omega

theorem CutFrom.step (h : CutFrom m f new n m1) (hf : Regular m f) (hn : n < maxblocks)
    (hnew : new ≤ n) : ∃ m', (fileFreeBlock m1 f (BitVec.ofNat 32 n)).map (·.1) = some m' ∧
      CutFrom m f new (n + 1) m' := by
  have hw1 := h.kept.wf
  have hf1 := h.kept.regular hf
  have hnat : (BitVec.ofNat 32 n).toNat = n := by
    rw [BitVec.toNat_ofNat]
    simp only [maxblocks] at hn
    omega
  have hptr : blockPtr m1 f n = blockPtr m f n := by rw [h.ptr n hn, if_neg (by omega)]
  obtain ⟨m', r, hrun, hcase⟩ := fileFreeBlock_exact (BitVec.ofNat 32 n) hw1 hf1.1
    (by rw [hnat]; exact hn)
  rw [hnat, hptr] at hcase
  refine ⟨m', by rw [hrun]; rfl, ?_⟩
  -- The bits after one more block, which need not be there.
  have hmore : ∀ c, c ≠ 0 → ((∃ k < maxblocks, (new ≤ k ∧ k < n + 1) ∧ blockPtr m f k = c) ↔
      (∃ k < maxblocks, (new ≤ k ∧ k < n) ∧ blockPtr m f k = c) ∨ c = blockPtr m f n) := by
    intro c _
    constructor
    · rintro ⟨k, hk, hrange, rfl⟩
      by_cases hkn : k = n
      · exact Or.inr (by rw [hkn])
      · exact Or.inl ⟨k, hk, by omega, rfl⟩
    · rintro (⟨k, hk, hrange, rfl⟩ | rfl)
      · exact ⟨k, hk, by omega, rfl⟩
      · exact ⟨n, hn, by omega, rfl⟩
  rcases hcase with ⟨hz, rfl⟩ | hrel
  · refine ⟨h.kept, h.no_new, h.nblocks, fun k hk => ?_, h.ind,
      fun k hk hout => h.data k hk (by omega), h.other, fun c hc hne => ?_⟩
    · rw [h.ptr k hk]
      by_cases hkn : k = n
      · rw [if_neg (by omega), if_pos (by omega), hkn, hz]
      · exact if_congr (by omega) rfl rfl
    · rw [h.bits c hc hne, hmore c hne, hz]
      simp [hne]
  · have hreg1 : fType m1 (dataPlace f n).file ≠ ftypeDir := by
      rw [dataPlace_file]
      exact hf1.2
    refine ⟨h.kept.trans (hrel.kept hw1 hreg1), fun g hg => h.no_new g (hrel.fileAt_of hw1 hg),
      (hrel.nblocks hw1).trans h.nblocks, fun k hk => ?_, ?_,
      fun k hk hout hb x hx hx' => ?_, fun g hg hne => ?_, fun c hc hne => ?_⟩
    · rw [hrel.blockPtr_eq hw1 hf1.1 hf1.2 hk, h.ptr k hk]
      by_cases hkn : k = n
      · rw [if_pos hkn, if_pos (by omega)]
      · rw [if_neg hkn]
        exact if_congr (by omega) rfl rfl
    · rw [(hrel.edited hw1).indirect_eq hf1.1 dataPlace_ne_indirect, h.ind]
    · have hkeep : blockPtr m1 f k = blockPtr m f k := by rw [h.ptr k hk, if_neg (by omega)]
      rw [← h.data k hk (by omega) hb x hx hx']
      rw [← hkeep] at hb hx hx'
      exact hrel.data_eq hw1 hf1 hk hb hx hx'
    · exact (h.other g hg hne).trans (hrel.sameFile hw1 hreg1 (h.kept.regular hg)
        (by rw [dataPlace_file]; exact hne))
    · rw [hrel.bits c (by rw [h.nblocks]; exact hc), h.bits c hc hne, hmore c hne, or_assoc]

/-! ## The indirect block -/

/-- There is no indirect block to give back. -/
theorem CutFrom.truncated (h : CutFrom m f (sizeBlocks newsize) (sizeBlocks (fSize m f)) m')
    (hlt : newsize.toNat < (fSize m f).toNat)
    (hind : DropsIndirect m f newsize → indirect m f = 0#32) : Truncated m f newsize m' := by
  have hcut : ∀ k, GivenBack m f newsize k ↔
      sizeBlocks newsize ≤ k ∧ k < sizeBlocks (fSize m f) := fun k => and_iff_right hlt
  refine ⟨h.kept, h.no_new, h.nblocks, fun k hk => ?_, ?_, fun k hk hout => ?_, h.other,
    fun c hc hne => ?_⟩
  · rw [h.ptr k hk]
    by_cases hgive : GivenBack m f newsize k
    · rw [if_pos ((hcut k).mp hgive), if_pos (show Dropped m f newsize k from Or.inl hgive)]
    · rw [if_neg fun hc => hgive ((hcut k).mpr hc)]
      split
      · rename_i hdrop
        obtain ⟨hd, hge⟩ := hdrop.resolve_left hgive
        rw [blockPtr, if_neg (by omega), if_pos (hind hd)]
      · rfl
  · rw [h.ind]
    split
    · rename_i hd
      exact hind hd
    · rfl
  · exact h.data k hk fun hc => hout (Or.inl ((hcut k).mpr hc))
  · rw [h.bits c hc hne]
    refine or_congr_right ?_
    rw [or_iff_left]
    · exact exists_congr fun k => and_congr_right fun _ => and_congr_left fun _ => (hcut k).symm
    · rintro ⟨hd, hc0⟩
      rw [hind hd] at hc0
      exact hne hc0.symm

/-- The indirect block is given back, with the blocks whose numbers it still has. -/
theorem CutFrom.truncated_indirect
    (h : CutFrom m f (sizeBlocks newsize) (sizeBlocks (fSize m f)) m1) (hf : Regular m f)
    (hd : DropsIndirect m f newsize)
    (hrel : Released m1 (.indirect f) (indirect m f).toNat m') : Truncated m f newsize m' := by
  have hw1 := h.kept.wf
  have hf1 := h.kept.regular hf
  have hed := hrel.edited hw1
  have hind' : indirect m' f = 0#32 := hrel.stored
  have hcut : ∀ k, GivenBack m f newsize k ↔
      sizeBlocks newsize ≤ k ∧ k < sizeBlocks (fSize m f) := fun k => and_iff_right hd.1
  refine ⟨h.kept.trans (hrel.kept hw1 hf1.2), fun g hg => h.no_new g (hrel.fileAt_of hw1 hg),
    (hrel.nblocks hw1).trans h.nblocks, fun k hk => ?_, ?_,
      fun k hk hout hb x hx hx' => ?_, fun g hg hne => ?_, fun c hc hne => ?_⟩
  · by_cases hge : ndirect ≤ k
    · have hdrop : Dropped m f newsize k := Or.inr ⟨hd, hge⟩
      rw [if_pos hdrop, blockPtr, if_neg (by omega), if_pos hind']
    · -- A direct block number is not touched.
      have hother := hed.other (.direct f k) ⟨hf1.1, by omega⟩ (by simp)
      simp only [Place.addr] at hother
      have hsame : blockPtr m' f k = blockPtr m1 f k := by
        rw [blockPtr, blockPtr, if_pos (by omega), if_pos (by omega)]
        exact congrArg BitVec.toNat hother
      rw [hsame, h.ptr k hk]
      refine if_congr ?_ rfl rfl
      rw [Dropped, hcut k]
      exact (or_iff_left fun hc => hge hc.2).symm
  · rw [if_pos hd, hind']
  · have hrange : ¬ (sizeBlocks newsize ≤ k ∧ k < sizeBlocks (fSize m f)) :=
      fun hc => hout (Or.inl ((hcut k).mpr hc))
    have hkeep : blockPtr m1 f k = blockPtr m f k := by rw [h.ptr k hk, if_neg hrange]
    rw [← h.data k hk hrange hb x hx hx']
    rw [← hkeep] at hb hx hx'
    exact hrel.data_eq hw1 hf1 hk hb hx hx'
  · exact (h.other g hg hne).trans (hrel.sameFile hw1 hf1.2 (h.kept.regular hg) hne)
  · rw [hrel.bits c (by rw [h.nblocks]; exact hc), h.bits c hc hne, or_assoc]
    refine or_congr_right (or_congr ?_ ?_)
    · exact exists_congr fun k => and_congr_right fun _ => and_congr_left fun _ => (hcut k).symm
    · exact ⟨fun heq => ⟨hd, heq.symm⟩, fun hc => hc.2.symm⟩

/-- `file_truncate_blocks`, when the file shrinks. -/
theorem fileTruncateBlocks_truncated (hw : Wf m) (hf : Regular m f)
    (hold : (fSize m f).toNat ≤ maxfilesize) (hlt : newsize.toNat < (fSize m f).toNat) :
    ∃ m', fileTruncateBlocks m f newsize = some m' ∧ Truncated m f newsize m' := by
  have hle := sizeBlocks_le hold
  have hmono : sizeBlocks newsize ≤ sizeBlocks (fSize m f) := by
    rw [sizeBlocks_eq hold, sizeBlocks_eq (by omega)]
    omega
  obtain ⟨m1, hloop, hcut⟩ := foldlM_range'_inv (CutFrom m f (sizeBlocks newsize))
    (n := sizeBlocks (fSize m f) - sizeBlocks newsize) (.start hw) fun n h1 h2 m1 hn =>
      hn.step hf (by omega) h1
  rw [Nat.add_sub_of_le hmono] at hcut
  simp only [fileTruncateBlocks, Option.bind_eq_bind, hloop, Option.bind_some, hcut.ind]
  by_cases hind : sizeBlocks newsize ≤ ndirect ∧ indirect m f ≠ 0#32
  · have hf1 := hcut.kept.regular hf
    have hval : (Place.indirect f).value m1 = (indirect m f).toNat := by
      rw [Place.value, ← hcut.ind]
      rfl
    have hne : (Place.indirect f).value m1 ≠ 0 := fun h0 =>
      hind.2 (BitVec.eq_of_toNat_eq (hval.symm.trans h0))
    have hrel := released_place hcut.kept.wf (p := .indirect f) hf1.1 hne
    rw [hval] at hrel
    refine ⟨_, ?_, hcut.truncated_indirect hf ⟨hlt, hind.1⟩ hrel⟩
    rw [if_pos hind, freeBlock, if_neg (by rw [← hval]; exact hne)]
    rfl
  · refine ⟨m1, if_neg hind, hcut.truncated hlt fun hd => ?_⟩
    by_contra hne
    exact hind ⟨hd.2, hne⟩

/-! ## The size -/

theorem truncated_refl (hw : Wf m) (hle : (fSize m f).toNat ≤ newsize.toNat) :
    Truncated m f newsize m := by
  have hgive : ∀ k, ¬ GivenBack m f newsize k := by
    rintro k ⟨hlt, _⟩
    omega
  have hdrop : ¬ DropsIndirect m f newsize := by
    rintro ⟨hlt, _⟩
    omega
  refine ⟨.refl hw, fun _ h => h, rfl, fun k _ => ?_, ?_, fun _ _ _ _ _ _ _ => rfl,
    fun _ _ _ => .refl _ _, fun c _ _ => ⟨Or.inl, ?_⟩⟩
  · rw [if_neg]
    rintro (h | h)
    · exact hgive k h
    · exact hdrop h.1
  · rw [if_neg hdrop]
  · rintro (h | ⟨k, _, h, _⟩ | h)
    · exact h
    · exact absurd h (hgive k)
    · exact absurd h.1 hdrop

/-- A change of the size alone leaves the other files as they are. -/
theorem sameFile_size (hw : Wf m) (hf : FileAt m f) (hg : Regular m g) (hne : g ≠ f)
    (s : BitVec 32) : SameFile m (m.write32 (f + 128) s) g := by
  have hun := unmoved_size hw hf s
  have hre := rewritten_size hw hf s
  refine ⟨hun.type g hg.1, ?_, fun k hk => hun.blockPtr_eq hg.1 hk, hun.indirect_eq hg.1,
    fun i hi => hre.byte g i hg.1 hi (hw.not_inEntry hg.1 hg.2 hf hi) fun heq => absurd heq hne⟩
  rw [hre.size g hg.1, if_neg hne]

theorem Truncated.resized (h : Truncated m f newsize m1) (hf : Regular m f) :
    Resized m f newsize (m1.write32 (f + 128) newsize) := by
  have hw1 := h.kept.wf
  have hf1 := h.kept.regular hf
  have hun := unmoved_size hw1 hf1.1 newsize
  refine ⟨⟨h.kept.trans (hun.kept hw1), fun g hg => h.no_new g (hun.fileAt_iff.mp hg),
    hun.nblocks.trans h.nblocks, fun k hk => ?_, ?_,
      fun k hk hout hb x hx hx' => ?_, fun g hg hne => ?_, fun c hc hne => ?_⟩, ?_⟩
  · rw [hun.blockPtr_eq hf1.1 hk, h.ptr k hk]
  · rw [hun.indirect_eq hf1.1, h.ind]
  · rw [← h.data k hk hout hb x hx hx']
    have hkeep : blockPtr m1 f k = blockPtr m f k := by rw [h.ptr k hk, if_neg hout]
    rw [← hkeep] at hb hx hx'
    have := hw1.data_file_disjoint hf1.1 hf1.2 hk hb hf1.1
    exact Mem.write32_of_disjoint _ _ (by omega)
  · exact (h.other g hg hne).trans (sameFile_size hw1 hf1.1 (h.kept.regular hg) hne newsize)
  · rw [hun.bits c (by rw [h.nblocks]; exact hc), h.bits c hc hne]
  · exact Mem.read32_write32_self ..

/-- `file_set_size` between two sizes of files. -/
theorem fileSetSize_resized (newsize : BitVec 32) (hw : Wf m) (hf : Regular m f)
    (hold : (fSize m f).toNat ≤ maxfilesize) (hnew : newsize.toNat ≤ maxfilesize) :
    ∃ m', fileSetSize m f newsize = some m' ∧ Resized m f newsize m' := by
  simp only [maxfilesize] at hold hnew
  have hslt : newsize.slt (fSize m f) = decide (newsize.toNat < (fSize m f).toNat) := by
    rw [BitVec.slt_eq_decide, toInt_eq (by omega), toInt_eq (by omega)]
    simp
  rw [fileSetSize, hslt]
  by_cases hlt : newsize.toNat < (fSize m f).toNat
  · obtain ⟨m1, hrun, htrunc⟩ := fileTruncateBlocks_truncated hw hf hold hlt
    refine ⟨_, ?_, htrunc.resized hf⟩
    rw [if_pos (by simpa using hlt), hrun]
    rfl
  · refine ⟨_, ?_, (truncated_refl hw (Nat.le_of_not_lt hlt)).resized hf⟩
    rw [if_neg (by simpa using hlt)]
    rfl

/-- The bytes of the file itself: a block that stays keeps its contents. -/
theorem Resized.fileByte_eq (h : Resized m f newsize m') (hk : n < maxfilesize) :
    fileByte m' f n = if Dropped m f newsize (n / 4096) then 0 else fileByte m f n := by
  rw [fileByte, h.ptr _ (block_lt hk)]
  split
  · rw [if_pos rfl]
  · rename_i hout
    rw [fileByte]
    split
    · rfl
    · rename_i hb
      rw [byteAddr, h.ptr _ (block_lt hk), if_neg hout, ← byteAddr]
      exact h.data _ (block_lt hk) hout hb _ (Nat.le_add_right _ _) (by rw [byteAddr]; omega)

theorem FsWf.resized (hw : FsWf m) (h : Resized m f newsize m') (hnew : newsize.toNat ≤ maxfilesize) :
    FsWf m' := by
  refine ⟨h.kept.wf, fun g hg => ?_⟩
  by_cases heq : g = f
  · rw [heq, h.size]
    exact hnew
  · have hg0 := h.no_new g hg.1
    have hreg0 : Regular m g := ⟨hg0, by rw [← h.kept.type g hg0]; exact hg.2⟩
    rw [(h.other g hreg0 heq).size]
    exact hw.size_le g hreg0

end

/-- The file of the small disk has two blocks. -/
theorem smallFile_blockPtr {k : Nat} (hk : 2 ≤ k) : blockPtr smallDisk smallFile k = 0 := by
  have hind : indirect smallDisk smallFile = 0#32 := by decide +kernel
  have hdirect : ∀ k < ndirect, 2 ≤ k → blockPtr smallDisk smallFile k = 0 := by decide +kernel
  by_cases hlt : k < ndirect
  · exact hdirect k hlt hk
  · rw [blockPtr, if_neg hlt, if_pos hind]

end Jos.Fs
