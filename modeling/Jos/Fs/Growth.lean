import Jos.Fs.SetSize

/-!
# What a growing file shows

A file grows by `file_set_size`, or by a `file_write` that begins behind its end, and then shows
bytes that nobody wrote. They are zeros where no block is, and in a block that has just been taken.
But a file that shrinks keeps its last block, with what was in it behind the new size, and when it
grows again these bytes are back. Where nothing but zeros is cut off within a block, a file only
ever grows by zeros.

Main results:
* `GrowthInv.run`: a run keeps the bytes behind the end zero;
* `growth_shows_zeros`: what a file shows where it grows;
* `cut_byte_returns`: a byte that comes back.
-/

namespace Jos.Fs

open Jos.Lib

/-- The calls on a file. -/
inductive FileCall
  | setSize (f : Nat) (newsize : BitVec 32)
  | write (f buf : Nat) (count offset : BitVec 32)
  | read (f buf : Nat) (count offset : BitVec 32)

def FileCall.run (m : Mem) : FileCall → Option Mem
  | .setSize f newsize => fileSetSize m f newsize
  | .write f buf count offset => (fileWrite m f buf count offset).map (·.1)
  | .read f buf count offset => (fileRead m f buf count offset).map (·.1)

/-- The file is no directory, sizes and ranges are those of a file, and the blocks are there. -/
def FileCall.InRange (m : Mem) : FileCall → Prop
  | .setSize f newsize => Regular m f ∧ newsize.toNat ≤ maxfilesize
  | .write f buf count offset => Regular m f ∧ offset.toNat + count.toNat ≤ maxfilesize ∧
      Beside buf count.toNat ∧ RoomFor m f offset.toNat count.toNat
  | .read f buf count offset => Regular m f ∧ offset.toNat + count.toNat ≤ maxfilesize ∧
      Beside buf count.toNat ∧
        RoomFor m f offset.toNat (readLength (fSize m f).toNat count.toNat offset.toNat)

/-- What is cut off within the last block that stays is zero. -/
def CutsZeros (m : Mem) (f : Nat) (newsize : BitVec 32) : Prop :=
  ∀ i, newsize.toNat ≤ i → i < (fSize m f).toNat → i / 4096 < sizeBlocks newsize →
    fileByte m f i = 0

/-- The call does not cut off `f` within a block that has something else than zeros there. -/
def FileCall.CutsClean (f : Nat) (m : Mem) : FileCall → Prop
  | .setSize g newsize => g = f → CutsZeros m f newsize
  | _ => True

/-- The call writes byte `i` of `f`. -/
def FileCall.Writes (f i : Nat) : FileCall → Prop
  | .write g _ count offset => g = f ∧ offset.toNat ≤ i ∧ i < offset.toNat + count.toNat
  | _ => False

/-- Byte `i` lies behind the end of `f`, the call makes the file grow over it, and does not write
it. -/
def FileCall.GrowsOver (m : Mem) (f i : Nat) : FileCall → Prop
  | .setSize g newsize => g = f ∧ (fSize m f).toNat ≤ i ∧ i < newsize.toNat
  | .write g _ _ offset => g = f ∧ (fSize m f).toNat ≤ i ∧ i < offset.toNat
  | .read .. => False

/-- A call in the range of its file that is as `ok` says, or a change of the memory beside the
disk. -/
inductive CallStep (ok : Mem → FileCall → Prop) (m : Mem) : Mem → Prop
  | call {c : FileCall} {m' : Mem} (hin : c.InRange m) (hok : ok m c) (run : c.run m = some m') :
      CallStep ok m m'
  | beside {m' : Mem} (same : SameDisk m m') : CallStep ok m m'

/-- Behind the end of the file there are zeros. -/
def TailZero (m : Mem) (f : Nat) : Prop :=
  ∀ i, (fSize m f).toNat ≤ i → i < maxfilesize → fileByte m f i = 0

section

variable {m m' : Mem} {f i : Nat} {c : FileCall} {newsize : BitVec 32}

/-! ## One call -/

theorem FileCall.fsWf (hw : FsWf m) (hin : c.InRange m) (hrun : c.run m = some m') : FsWf m' := by
  cases c with
  | setSize g newsize =>
      obtain ⟨hg, hnew⟩ := hin
      obtain ⟨m1, hset, hsized⟩ := fileSetSize_resized newsize hw.wf hg (hw.size_le g hg) hnew
      cases hset.symm.trans hrun
      exact hw.resized hsized hnew
  | write g buf count offset =>
      obtain ⟨hg, hrange, hbuf, hroom⟩ := hin
      obtain ⟨⟨m1, e, r⟩, hwrite, rfl⟩ := Option.map_eq_some_iff.mp hrun
      exact (FileStep.write hg hrange hbuf hroom hwrite).fsWf hw
  | read g buf count offset =>
      obtain ⟨hg, hrange, hbuf, hroom⟩ := hin
      obtain ⟨⟨m1, e, r⟩, hread, rfl⟩ := Option.map_eq_some_iff.mp hrun
      exact (FileStep.read hg hrange hbuf hroom hread).fsWf hw

/-- What a call on any file leaves of `f`. -/
structure Called (c : FileCall) (f : Nat) (m m' : Mem) : Prop where
  regular : Regular m' f
  byte : ∀ i < maxfilesize, ¬ c.Writes f i → fileByte m f i = 0 → fileByte m' f i = 0
  tail : c.CutsClean f m → TailZero m f → TailZero m' f

/-- The bytes of `f` have only changed in the range that is written, and the file has not become
shorter. -/
theorem Called.of_rewritten {g : Nat} {s : BitVec 32} {R : Nat → Prop} (h : Rewritten g s R m m')
    (hw : FsWf m) (hf : Regular m f) (hg : FileAt m g) (hR : ∀ i, g = f → R i → c.Writes f i)
    (hs : ∀ i, g = f → s.toNat ≤ i → (fSize m f).toNat ≤ i ∧ ¬ R i) : Called c f m m' := by
  have hbyte : ∀ i < maxfilesize, (f = g → ¬ R i) → fileByte m' f i = fileByte m f i :=
    fun i hi hnot => h.byte f i hf.1 hi (hw.wf.not_inEntry hf.1 hf.2 hg hi) hnot
  refine ⟨(h.regular_iff f).mpr hf, fun i hi hnot hz => ?_, fun _ htail i hsize hi => ?_⟩
  · rw [hbyte i hi fun heq hr => hnot (hR i heq.symm hr), hz]
  · rw [h.size f hf.1] at hsize
    by_cases heq : f = g
    · rw [if_pos heq] at hsize
      obtain ⟨hold, hnot⟩ := hs i heq.symm hsize
      rw [hbyte i hi fun _ => hnot, htail i hold hi]
    · rw [if_neg heq] at hsize
      rw [hbyte i hi fun h' => absurd h' heq, htail i hsize hi]

theorem Resized.called (h : Resized m f newsize m') (hw : FsWf m) (hf : Regular m f) :
    Called (.setSize f newsize) f m m' := by
  refine ⟨h.kept.regular hf, fun i hi _ hz => ?_, fun hclean htail i hsize hi => ?_⟩
  · rw [h.fileByte_eq hi, hz, ite_self]
  · rw [h.size] at hsize
    rw [h.fileByte_eq hi]
    split
    · rfl
    · rename_i hout
      by_cases hold : (fSize m f).toNat ≤ i
      · exact htail i hold hi
      · -- The byte was in the file, and its block stays: it is among those that are cut off.
        refine hclean rfl i hsize (by omega) ?_
        by_contra hge
        refine hout (Or.inl ⟨by omega, by omega, ?_⟩)
        rw [sizeBlocks_eq (hw.size_le f hf)]
        omega

theorem FileCall.called (hw : FsWf m) (hf : Regular m f) (hin : c.InRange m)
    (hrun : c.run m = some m') : Called c f m m' := by
  cases c with
  | setSize g newsize =>
      obtain ⟨hg, hnew⟩ := hin
      obtain ⟨m1, hset, hsized⟩ := fileSetSize_resized newsize hw.wf hg (hw.size_le g hg) hnew
      cases hset.symm.trans hrun
      by_cases heq : f = g
      · subst heq
        exact hsized.called hw hf
      · have hsame := hsized.other f hf heq
        refine ⟨hsized.kept.regular hf, fun i hi _ hz => ?_, fun _ htail i hsize hi => ?_⟩
        · rw [hsame.byte i hi, hz]
        · rw [hsame.size] at hsize
          rw [hsame.byte i hi, htail i hsize hi]
  | write g buf count offset =>
      obtain ⟨hg, hrange, hbuf, hroom⟩ := hin
      obtain ⟨m1, s, hwrite, hre, hs, _⟩ := fileWrite_rewritten hw hg hrange hbuf hroom
      rw [FileCall.run, hwrite] at hrun
      cases hrun
      refine .of_rewritten hre hw hf hg.1 (fun i heq hr => ⟨heq, hr⟩) fun i heq hle => ?_
      subst heq
      omega
  | read g buf count offset =>
      obtain ⟨hg, hrange, hbuf, hroom⟩ := hin
      obtain ⟨m1, hread, hok, _⟩ := fileRead_spec hw hg rfl hrange (hbuf.mono (Nat.min_le_left _ _))
        hroom
      rw [FileCall.run, hread] at hrun
      cases hrun
      refine ⟨(hok.regular_iff f).mpr hf, fun i hi _ hz => ?_, fun _ htail i hsize hi => ?_⟩
      · rw [hok.byte_regular f hf i hi, hz]
      · rw [hok.size f hf.1] at hsize
        rw [hok.byte_regular f hf i hi, htail i hsize hi]

/-! ## Runs -/

theorem SameDisk.fsWf (h : SameDisk m m') (hw : FsWf m) : FsWf m' := (FileStep.beside h).fsWf hw

/-- What holds of `f` after every call that cuts clean. -/
structure GrowthInv (f : Nat) (m : Mem) : Prop where
  wf : FsWf m
  regular : Regular m f
  tail : TailZero m f

theorem GrowthInv.step (h : GrowthInv f m) (hstep : CallStep (FileCall.CutsClean f) m m') :
    GrowthInv f m' := by
  cases hstep with
  | call hin hclean hrun =>
      have hcalled := FileCall.called h.wf h.regular hin hrun
      exact ⟨FileCall.fsWf h.wf hin hrun, hcalled.regular, hcalled.tail hclean h.tail⟩
  | beside same =>
      have hre := same.rewritten h.wf.wf f
      refine ⟨same.fsWf h.wf, (hre.regular_iff f).mpr h.regular, fun i hsize hi => ?_⟩
      rw [hre.size f h.regular.1, if_pos rfl] at hsize
      rw [same.fileByte_eq h.wf.wf h.regular.1 hi, h.tail i hsize hi]

theorem GrowthInv.run (h : GrowthInv f m)
    (hrun : Relation.ReflTransGen (CallStep (FileCall.CutsClean f)) m m') : GrowthInv f m' := by
  induction hrun with
  | refl => exact h
  | tail _ hstep ih => exact ih.step hstep

/-- A byte that is zero stays zero until it is written. -/
structure ByteZero (f i : Nat) (m : Mem) : Prop where
  wf : FsWf m
  regular : Regular m f
  zero : fileByte m f i = 0

theorem ByteZero.step (h : ByteZero f i m) (hi : i < maxfilesize)
    (hstep : CallStep (fun _ c => ¬ c.Writes f i) m m') : ByteZero f i m' := by
  cases hstep with
  | call hin hnot hrun =>
      have hcalled := FileCall.called h.wf h.regular hin hrun
      exact ⟨FileCall.fsWf h.wf hin hrun, hcalled.regular, hcalled.byte i hi hnot h.zero⟩
  | beside same =>
      refine ⟨same.fsWf h.wf, ((same.rewritten h.wf.wf f).regular_iff f).mpr h.regular, ?_⟩
      rw [same.fileByte_eq h.wf.wf h.regular.1 hi, h.zero]

theorem ByteZero.run (h : ByteZero f i m) (hi : i < maxfilesize)
    (hrun : Relation.ReflTransGen (CallStep fun _ c => ¬ c.Writes f i) m m') : ByteZero f i m' := by
  induction hrun with
  | refl => exact h
  | tail _ hstep ih => exact ih.step hi hstep

/-- A file behind whose end there are zeros, and that is never cut off within a block with
something else there: when it grows over a byte, the byte is zero, and it is read as zero until it
is written. -/
theorem growth_shows_zeros {m0 m1 m2 : Mem} (hw : FsWf m0) (hf : Regular m0 f) (htail : TailZero m0 f)
    (hrun : Relation.ReflTransGen (CallStep (FileCall.CutsClean f)) m0 m)
    (hgrow : c.GrowsOver m f i) (hin : c.InRange m) (hc : c.run m = some m1)
    (hlater : Relation.ReflTransGen (CallStep fun _ c => ¬ c.Writes f i) m1 m2) :
    fileByte m2 f i = 0 ∧ ∀ {buf n : Nat} {count offset : BitVec 32},
      readLength (fSize m2 f).toNat count.toNat offset.toNat = n →
      (FileCall.read f buf count offset).InRange m2 →
      ∃ m3, fileRead m2 f buf count offset = some (m3, buf + n, (n : Int)) ∧
        (offset.toNat ≤ i → i < offset.toNat + n → m3 (buf + (i - offset.toNat)) = 0) := by
  have hinv := GrowthInv.run ⟨hw, hf, htail⟩ hrun
  have hcalled := FileCall.called hinv.wf hinv.regular hin hc
  have hold : (fSize m f).toNat ≤ i ∧ i < maxfilesize ∧ ¬ c.Writes f i := by
    cases c with
    | setSize g newsize =>
        obtain ⟨rfl, hle, hlt⟩ := hgrow
        have hnew : newsize.toNat ≤ maxfilesize := hin.2
        exact ⟨hle, by omega, id⟩
    | write g buf count offset =>
        obtain ⟨rfl, hle, hlt⟩ := hgrow
        have hrange : offset.toNat + count.toNat ≤ maxfilesize := hin.2.1
        refine ⟨hle, by omega, fun hwrites => ?_⟩
        have := hwrites.2.1
        omega
    | read g buf count offset => exact hgrow.elim
  obtain ⟨hle, hi, hnot⟩ := hold
  have hzero := ByteZero.run ⟨FileCall.fsWf hinv.wf hin hc, hcalled.regular,
    hcalled.byte i hi hnot (hinv.tail i hle hi)⟩ hi hlater
  refine ⟨hzero.zero, fun {buf n count offset} hn hread => ?_⟩
  obtain ⟨hreg, hrange, hbuf, hroom⟩ := hread
  rw [hn] at hroom
  have hcount : n ≤ count.toNat := by
    rw [← hn]
    exact Nat.min_le_left _ _
  obtain ⟨m3, hcall, hok, _⟩ := fileRead_spec hzero.wf hreg hn hrange (hbuf.mono hcount) hroom
  refine ⟨m3, hcall, fun hlo hhi => ?_⟩
  rw [hok.read _ (by omega), Nat.add_sub_of_le hlo, hzero.zero]

/-- Cut off to `newsize` and grown again, the file shows zeros exactly when nothing but zeros was
cut off within a block. -/
theorem regrow_zero_iff {m1 m2 : Mem} (hw : FsWf m) (hf : Regular m f)
    (hlt : newsize.toNat < (fSize m f).toNat) (h1 : fileSetSize m f newsize = some m1)
    (h2 : fileSetSize m1 f (fSize m f) = some m2) :
    (∀ i, newsize.toNat ≤ i → i < (fSize m f).toNat → fileByte m2 f i = 0) ↔
      CutsZeros m f newsize := by
  have hold := hw.size_le f hf
  obtain ⟨m', hset, hcut⟩ := fileSetSize_resized newsize hw.wf hf hold (by omega)
  cases hset.symm.trans h1
  have hw1 := hw.resized hcut (by omega)
  have hf1 := hcut.kept.regular hf
  obtain ⟨m'', hset, hgrown⟩ := fileSetSize_resized (fSize m f) hw1.wf hf1 (hw1.size_le f hf1) hold
  cases hset.symm.trans h2
  have hbyte : ∀ i < (fSize m f).toNat, newsize.toNat ≤ i → fileByte m2 f i =
      if i / 4096 < sizeBlocks newsize then fileByte m f i else 0 := by
    intro i hi hle
    have hstay : ¬ Dropped m1 f (fSize m f) (i / 4096) := by
      have hsize := hcut.size
      rintro (⟨hlt', _⟩ | ⟨⟨hlt', _⟩, _⟩)
      · rw [hsize] at hlt'
        omega
      · rw [hsize] at hlt'
        omega
    have hdrop : Dropped m f newsize (i / 4096) ↔ ¬ i / 4096 < sizeBlocks newsize := by
      have hnew := sizeBlocks_eq (show newsize.toNat ≤ maxfilesize by omega)
      have hblocks := sizeBlocks_eq hold
      simp only [Dropped, GivenBack, DropsIndirect]
      omega
    rw [hgrown.fileByte_eq (by omega), if_neg hstay, hcut.fileByte_eq (by omega)]
    by_cases hb : i / 4096 < sizeBlocks newsize
    · rw [if_pos hb, if_neg (by rw [hdrop]; exact not_not.mpr hb)]
    · rw [if_neg hb, if_pos (hdrop.mpr hb)]
  constructor
  · intro hzero i hle hi hb
    have hz := hzero i hle hi
    rw [hbyte i hi hle, if_pos hb] at hz
    exact hz
  · intro hcuts i hle hi
    rw [hbyte i hi hle]
    split
    · rename_i hb
      exact hcuts i hle hi hb
    · rfl

end

/-! ## The small disk -/

theorem smallFile_tailZero : TailZero smallDisk smallFile := by
  have hsize : (fSize smallDisk smallFile).toNat = 5000 := by decide +kernel
  have hblock : blockPtr smallDisk smallFile 1 = 5 := by decide +kernel
  have hfree : ∀ x, blockAddr 5 + 4 ≤ x → smallDisk x = 0 :=
    fun x hx => Mem.foldl_write32_of_le (by decide) hx
  intro i hle hi
  rw [hsize] at hle
  rw [fileByte]
  split
  · rfl
  · rename_i hb
    have hone : i / 4096 = 1 := by
      by_contra hne
      exact hb (smallFile_blockPtr (by omega))
    rw [byteAddr, hone, hblock]
    exact hfree _ (by omega)

/-- Cut off at the end of its first block and grown again, the file has a zero where byte 4096 was
seven. -/
theorem growth_shows_zeros_small : fileByte smallDisk smallFile 4096 = 7 ∧
    ∃ m m', fileSetSize smallDisk smallFile 4096#32 = some m ∧
      fileSetSize m smallFile 8192#32 = some m' ∧ fileByte m' smallFile 4096 = 0 := by
  have hsize : (fSize smallDisk smallFile).toNat = 5000 := by decide +kernel
  obtain ⟨m, hset, hcut⟩ := fileSetSize_resized 4096#32 smallDisk_wf smallFile_regular
    (by rw [hsize]; decide) (by decide)
  have hreg := hcut.kept.regular smallFile_regular
  have hw := smallDisk_fsWf.resized hcut (by decide)
  obtain ⟨m', hset', hgrown⟩ := fileSetSize_resized 8192#32 hw.wf hreg
    (hw.size_le _ hreg) (by decide)
  have hclean : (FileCall.setSize smallFile 4096#32).CutsClean smallFile smallDisk := by
    intro _ i hle _ hb
    have hblocks : sizeBlocks 4096#32 = 1 := by decide
    have hle' : 4096 ≤ i := hle
    omega
  have hrun : CallStep (FileCall.CutsClean smallFile) smallDisk m :=
    .call (c := .setSize smallFile 4096#32) ⟨smallFile_regular, by decide⟩ hclean hset
  refine ⟨by decide +kernel, m, m', hset, hset', ?_⟩
  exact (growth_shows_zeros (c := .setSize smallFile 8192#32) smallDisk_fsWf smallFile_regular
    smallFile_tailZero (.single hrun) ⟨rfl, by rw [hcut.size]; decide, by decide⟩ ⟨hreg, by decide⟩
    hset' .refl).1

/-- The small disk and a nine in the memory beside it. -/
def nineBuffer : Mem := smallDisk.write32 4096 9#32

/-- A nine is written at byte 4097, the file is cut off before it and grown again by one byte, and
the nine is back. -/
theorem cut_byte_returns : FsWf nineBuffer ∧ Regular nineBuffer smallFile ∧
    TailZero nineBuffer smallFile ∧
    ∃ m1 m2 m3, (FileCall.write smallFile 4096 1#32 4097#32).InRange nineBuffer ∧
      (FileCall.write smallFile 4096 1#32 4097#32).run nineBuffer = some m1 ∧
      (FileCall.setSize smallFile 4097#32).InRange m1 ∧
      (FileCall.setSize smallFile 4097#32).run m1 = some m2 ∧
      (FileCall.setSize smallFile 4098#32).InRange m2 ∧
      (FileCall.setSize smallFile 4098#32).GrowsOver m2 smallFile 4097 ∧
      (FileCall.setSize smallFile 4098#32).run m2 = some m3 ∧
      fileByte m3 smallFile 4097 = 9 ∧
      ∃ m4, fileRead m3 smallFile 8192 1#32 4097#32 = some (m4, 8193, 1) ∧ m4 8192 = 9 := by
  have hsame : SameDisk smallDisk nineBuffer := fun x hx _ =>
    Mem.write32_of_disjoint _ _ (Or.inr (by have : diskmap = 268435456 := rfl; omega))
  have hre := hsame.rewritten smallDisk_wf smallFile
  have hw := hsame.fsWf smallDisk_fsWf
  have hreg := (hre.regular_iff smallFile).mpr smallFile_regular
  have htail : TailZero nineBuffer smallFile := by
    intro i hle hi
    rw [hre.size _ smallFile_fileAt, if_pos rfl] at hle
    rw [hsame.fileByte_eq smallDisk_wf smallFile_fileAt hi, smallFile_tailZero i hle hi]
  have hroom : RoomFor nineBuffer smallFile 4097 1 := Or.inr (by decide +kernel)
  have hwrite : (FileCall.write smallFile 4096 1#32 4097#32).InRange nineBuffer :=
    ⟨hreg, by decide, Or.inl (by decide), hroom⟩
  have hrun : ((FileCall.write smallFile 4096 1#32 4097#32).run nineBuffer).any (fun m1 =>
      ((FileCall.setSize smallFile 4097#32).run m1).any fun m2 =>
        ((FileCall.setSize smallFile 4098#32).run m2).any fun m3 =>
          (fSize m2 smallFile).toNat = 4097 ∧ fileByte m3 smallFile 4097 = 9 ∧
            (fileRead m3 smallFile 8192 1#32 4097#32).any fun res =>
              res.2 = (8193, 1) ∧ res.1 8192 = 9) = true := by decide +kernel
  simp only [Option.any_eq_true, decide_eq_true_eq] at hrun
  obtain ⟨m1, h1, m2, h2, m3, h3, hsize, hbyte, ⟨m4, e, r⟩, hread, heq, h4⟩ := hrun
  cases heq
  have hw1 := FileCall.fsWf hw hwrite h1
  have hreg1 := (FileCall.called hw hreg hwrite h1).regular
  have hset1 : (FileCall.setSize smallFile 4097#32).InRange m1 := ⟨hreg1, by decide⟩
  have hreg2 := (FileCall.called hw1 hreg1 hset1 h2).regular
  exact ⟨hw, hreg, htail, m1, m2, m3, hwrite, h1, hset1, h2, ⟨hreg2, by decide⟩,
    ⟨rfl, by omega, by decide⟩, h3, hbyte, m4, hread, h4⟩

end Jos.Fs
