import Jos.Fs.ReadWrite

/-!
# Files as byte strings

`file_write` and `file_read` on the files that are no directories, as operations on a size and
a string of bytes for each file. A directory holds the `struct File` of its files, so its own
bytes there change with them.

Main results:
* `files_as_bytes`: what a call writes and reads, after any run;
* `directory_bytes_change`: why directories are aside.
-/

namespace Jos.Fs

open Jos.Lib

/-- A file that is no directory. -/
def Regular (m : Mem) (f : Nat) : Prop := FileAt m f ∧ fType m f ≠ ftypeDir

/-- A disk with sizes that files can have. -/
structure FsWf (m : Mem) : Prop where
  wf : Wf m
  size_le : ∀ f, Regular m f → (fSize m f).toNat ≤ maxfilesize

/-- The free blocks are enough for the blocks of the `n` bytes from `offset` on. -/
def RoomFor (m : Mem) (f offset n : Nat) : Prop :=
  n = 0 ∨ missing m f (offset / 4096) ((offset + n + 4095) / 4096) ≤ (freeBlocks m).length

/-- The `count` bytes at `buf` have been written to position `offset` of `f`. -/
structure WriteOk (m : Mem) (f buf count offset : Nat) (m' : Mem) : Prop where
  size : (fSize m' f).toNat = max (fSize m f).toNat (offset + count)
  written : ∀ j < count, fileByte m' f (offset + j) = m (buf + j)
  kept : ∀ i < (fSize m f).toNat, i < offset ∨ offset + count ≤ i →
    fileByte m' f i = fileByte m f i
  other_size : ∀ g, FileAt m g → g ≠ f → fSize m' g = fSize m g
  other : ∀ g, FileAt m g → g ≠ f → ∀ i < maxfilesize, ¬ InEntry m f g i →
    fileByte m' g i = fileByte m g i
  other_regular : ∀ g, Regular m g → g ≠ f → ∀ i < maxfilesize, fileByte m' g i = fileByte m g i
  regular_iff : ∀ g, Regular m' g ↔ Regular m g

/-- The `n` bytes from position `offset` of `f` are at `buf`. -/
structure ReadOk (m : Mem) (f buf n offset : Nat) (m' : Mem) : Prop where
  read : ∀ j < n, m' (buf + j) = fileByte m f (offset + j)
  size : ∀ g, FileAt m g → fSize m' g = fSize m g
  byte : ∀ g, FileAt m g → ∀ i < maxfilesize, ¬ InEntry m f g i → fileByte m' g i = fileByte m g i
  byte_regular : ∀ g, Regular m g → ∀ i < maxfilesize, fileByte m' g i = fileByte m g i
  regular_iff : ∀ g, Regular m' g ↔ Regular m g

section

variable {m m' : Mem} {f buf : Nat} {count offset : BitVec 32}

theorem Rewritten.regular_iff {s : BitVec 32} {R : Nat → Prop} (h : Rewritten f s R m m') (g : Nat) :
    Regular m' g ↔ Regular m g := by
  rw [Regular, Regular, h.files g]
  refine and_congr_right fun hg => ?_
  rw [h.type g hg]

theorem FsWf.rewritten {s : BitVec 32} {R : Nat → Prop} (hw : FsWf m) (h : Rewritten f s R m m')
    (hs : s.toNat ≤ maxfilesize) : FsWf m' := by
  refine ⟨h.wf, fun g hg => ?_⟩
  have hg0 := (h.regular_iff g).mp hg
  rw [h.size g hg0.1]
  split
  · exact hs
  · exact hw.size_le g hg0

theorem toInt_eq {n : BitVec 32} (h : n.toNat < 2147483648) : n.toInt = n.toNat :=
  BitVec.toInt_eq_toNat_of_lt (by omega)

/-! ## `file_write` -/

theorem fileWrite_eq : fileWrite m f buf count offset =
    (if fSize m f < offset + count then fileSetSize m f (offset + count) else some m).bind fun m1 =>
      (writeLoop f (offset + count) copyFuel m1 buf offset).bind fun res =>
        some (res.1, res.2.1, copyReturn count res.2.2) := by
  rw [fileWrite]
  split <;> rfl

/-- The size is set first when the file grows. -/
theorem fileWrite_size (hw : FsWf m) (hf : Regular m f)
    (hrange : offset.toNat + count.toNat ≤ maxfilesize) :
    ∃ m1 s, (if fSize m f < offset + count then fileSetSize m f (offset + count) else some m) =
        some m1 ∧ Rewritten f s (fun _ => False) m m1 ∧ Unmoved m m1 ∧ OutsideSame m m1 ∧
      s.toNat = max (fSize m f).toNat (offset.toNat + count.toNat) := by
  have hmax : maxfilesize = 4235264 := rfl
  have hsize := hw.size_le f hf
  have hsum : (offset + count).toNat = offset.toNat + count.toNat := by
    rw [BitVec.toNat_add]
    omega
  split
  · rename_i hlt
    rw [BitVec.lt_def, hsum] at hlt
    have hslt : (offset + count).slt (fSize m f) = false := by
      rw [BitVec.slt_eq_decide, toInt_eq (by omega), toInt_eq (by omega), decide_eq_false_iff_not]
      omega
    have hin := (hw.wf.file_inBody hf.1).in_disk hw.wf
    refine ⟨_, offset + count, ?_, rewritten_size hw.wf hf.1 _, unmoved_size hw.wf hf.1 _,
      fun x hx => Mem.write32_of_disjoint _ _ (by omega), by omega⟩
    rw [fileSetSize, hslt]
    rfl
  · rename_i hge
    rw [BitVec.lt_def, hsum] at hge
    exact ⟨m, fSize m f, rfl, .refl hw.wf, ⟨rfl, fun _ _ => rfl, fun _ _ => rfl, fun _ _ => Iff.rfl⟩,
      fun _ _ => rfl, by omega⟩

/-- Only the bytes of the range change, also behind the end of the file. -/
theorem fileWrite_rewritten (hw : FsWf m) (hf : Regular m f)
    (hrange : offset.toNat + count.toNat ≤ maxfilesize) (hbuf : Beside buf count.toNat)
    (hroom : RoomFor m f offset.toNat count.toNat) :
    ∃ m' s, fileWrite m f buf count offset = some (m', buf + count.toNat, (count.toNat : Int)) ∧
      Rewritten f s (fun i => offset.toNat ≤ i ∧ i < offset.toNat + count.toNat) m m' ∧
      s.toNat = max (fSize m f).toNat (offset.toNat + count.toNat) ∧
      ∀ j < count.toNat, fileByte m' f (offset.toNat + j) = m (buf + j) := by
  have hmax : maxfilesize = 4235264 := rfl
  have hsum : (offset + count).toNat = offset.toNat + count.toNat := by
    rw [BitVec.toNat_add]
    omega
  obtain ⟨m1, s, hset, hsized, hun, hout, hs⟩ := fileWrite_size hw hf hrange
  have hf1 := (hsized.files f).mpr hf.1
  have hreg1 : fType m1 f ≠ ftypeDir := by
    rw [hsized.type f hf.1]
    exact hf.2
  have hstop : stopAt offset.toNat (offset + count).toNat = offset.toNat + count.toNat := by
    simp only [stopAt]
    omega
  have hloop := writeLoop_cases buf hsized.wf hf1 hreg1 (by omega) hstop (by
    rw [Nat.add_sub_cancel_left]
    exact hbuf)
  rw [Nat.add_sub_cancel_left] at hloop
  rcases hloop with ⟨hlt, hfull, _⟩ | ⟨m', hrun, hto⟩
  · -- Not possible: the blocks are there.
    exfalso
    rw [hun.freeBlocks_eq, missing_congr (fun j hj => hun.blockPtr_eq hf.1 hj)
      (hun.indirect_eq hf.1) (by simp only [maxblocks]; omega)] at hfull
    rcases hroom with hz | hroom
    · omega
    · omega
  · refine ⟨m', s, ?_, (hsized.next hf.1 hto.rewritten).mono ?_, hs, fun j hj => ?_⟩
    · rw [fileWrite_eq, hset, Option.bind_some, hrun, Option.bind_some, loopResult,
        if_pos (by omega), copyReturn, toInt_eq (by omega)]
    · rintro i (hF | hR)
      · exact hF.elim
      · exact hR
    · rw [hto.copied _ (by omega) (by omega), hout _ (by simp only [Beside] at hbuf; omega),
        Nat.add_sub_cancel_left]

theorem fileWrite_spec (hw : FsWf m) (hf : Regular m f)
    (hrange : offset.toNat + count.toNat ≤ maxfilesize) (hbuf : Beside buf count.toNat)
    (hroom : RoomFor m f offset.toNat count.toNat) :
    ∃ m', fileWrite m f buf count offset = some (m', buf + count.toNat, (count.toNat : Int)) ∧
      WriteOk m f buf count.toNat offset.toNat m' ∧ FsWf m' := by
  have hsize := hw.size_le f hf
  obtain ⟨m', s, hrun, hre, hs, hwritten⟩ := fileWrite_rewritten hw hf hrange hbuf hroom
  refine ⟨m', hrun, ⟨?_, hwritten, fun i hi hr => ?_, fun g hg hne => ?_, fun g hg hne i hi hin => ?_,
    fun g hg hne i hi => ?_, hre.regular_iff⟩, hw.rewritten hre (by omega)⟩
  · rw [hre.size f hf.1, if_pos rfl, hs]
  · exact hre.byte f i hf.1 (by omega) (hw.wf.not_inEntry_self hf.1 (by omega)) fun _ hR => by omega
  · rw [hre.size g hg, if_neg hne]
  · exact hre.byte g i hg hi hin fun heq => absurd heq hne
  · exact hre.byte g i hg.1 hi (hw.wf.not_inEntry hg.1 hg.2 hf.1 hi) fun heq => absurd heq hne

/-! ## `file_read` -/

/-- The number of bytes that `file_read` returns. -/
def readLength (size count offset : Nat) : Nat := min count (size - offset)

theorem readCount_toNat (count : BitVec 32) (h : offset.toNat < (fSize m f).toNat) :
    (readCount m f count offset).toNat = readLength (fSize m f).toNat count.toNat offset.toNat := by
  have hsub : (fSize m f - offset).toNat = (fSize m f).toNat - offset.toNat :=
    BitVec.toNat_sub_of_le (by rw [BitVec.le_def]; omega)
  rw [readCount, readLength]
  split
  · rename_i hle
    rw [BitVec.le_def, hsub] at hle
    omega
  · rename_i hle
    rw [BitVec.le_def, hsub] at hle
    omega

theorem fileRead_spec {n : Nat} (hw : FsWf m) (hf : Regular m f)
    (hn : readLength (fSize m f).toNat count.toNat offset.toNat = n)
    (hrange : offset.toNat + count.toNat ≤ maxfilesize) (hbuf : Beside buf n)
    (hroom : RoomFor m f offset.toNat n) :
    ∃ m', fileRead m f buf count offset = some (m', buf + n, (n : Int)) ∧
      ReadOk m f buf n offset.toNat m' ∧ FsWf m' := by
  have hmax : maxfilesize = 4235264 := rfl
  have hsize := hw.size_le f hf
  rw [fileRead, BitVec.sle_eq_decide, toInt_eq (by omega), toInt_eq (by omega)]
  split
  · rename_i hle
    have hzero : n = 0 := by
      simp only [decide_eq_true_eq, readLength] at hle hn
      omega
    subst hzero
    exact ⟨m, rfl, ⟨by omega, fun _ _ => rfl, fun _ _ _ _ _ => rfl, fun _ _ _ _ => rfl,
      fun _ => Iff.rfl⟩, hw⟩
  · rename_i hlt
    have hlt' : offset.toNat < (fSize m f).toNat := by
      simp only [decide_eq_true_eq] at hlt
      omega
    have hcount := readCount_toNat count hlt'
    rw [hn] at hcount
    have hle : n ≤ count.toNat := by
      rw [← hn]
      exact Nat.min_le_left _ _
    have hsum : (offset + readCount m f count offset).toNat = offset.toNat + n := by
      rw [BitVec.toNat_add, hcount]
      omega
    have hstop : stopAt offset.toNat (offset + readCount m f count offset).toNat =
        offset.toNat + n := by
      simp only [stopAt]
      omega
    have hloop := readLoop_cases buf hw.wf hf.1 (by omega) hstop (by
      rw [Nat.add_sub_cancel_left]
      exact hbuf)
    rw [Nat.add_sub_cancel_left] at hloop
    rcases hloop with ⟨_, hfull, _⟩ | ⟨m', hrun, hto⟩
    · exfalso
      rcases hroom with hz | hroom
      · omega
      · omega
    · have hre := hto.rewritten hf.2
      refine ⟨m', ?_, ⟨fun j hj => hto.copied j (by omega), fun g hg => ?_,
        fun g hg i hi hin => hre.byte g i hg hi hin fun _ => id, fun g hg i hi =>
          hre.byte g i hg.1 hi (hw.wf.not_inEntry hg.1 hg.2 hf.1 hi) fun _ => id,
        hre.regular_iff⟩, hw.rewritten hre hsize⟩
      · simp only [hrun, loopResult, Option.bind_eq_bind, Option.bind_some]
        rw [if_pos (by omega), copyReturn, toInt_eq (by omega), hcount]
      · rw [hre.size g hg]
        split
        · rename_i heq
          rw [heq]
        · rfl

end

/-! ## Runs -/

/-- A call that keeps to the ranges of a file and finds the blocks it needs, or a change of the
memory beside the disk. -/
inductive FileStep (m : Mem) : Mem → Prop
  | write {f buf e : Nat} {count offset : BitVec 32} {m' : Mem} {r : Int} (hf : Regular m f)
      (hrange : offset.toNat + count.toNat ≤ maxfilesize) (hbuf : Beside buf count.toNat)
      (hroom : RoomFor m f offset.toNat count.toNat)
      (run : fileWrite m f buf count offset = some (m', e, r)) : FileStep m m'
  | read {f buf e : Nat} {count offset : BitVec 32} {m' : Mem} {r : Int} (hf : Regular m f)
      (hrange : offset.toNat + count.toNat ≤ maxfilesize) (hbuf : Beside buf count.toNat)
      (hroom : RoomFor m f offset.toNat
        (readLength (fSize m f).toNat count.toNat offset.toNat))
      (run : fileRead m f buf count offset = some (m', e, r)) : FileStep m m'
  | beside {m' : Mem} (same : SameDisk m m') : FileStep m m'

theorem Beside.mono {buf n k : Nat} (h : Beside buf n) (hle : k ≤ n) : Beside buf k := by
  simp only [Beside] at h ⊢
  omega

theorem FileStep.fsWf {m m' : Mem} (h : FileStep m m') (hw : FsWf m) : FsWf m' := by
  cases h with
  | write hf hrange hbuf hroom run =>
      obtain ⟨m1, hrun, _, hw1⟩ := fileWrite_spec hw hf hrange hbuf hroom
      rw [hrun] at run
      cases run
      exact hw1
  | read hf hrange hbuf hroom run =>
      obtain ⟨m1, hrun, _, hw1⟩ := fileRead_spec hw hf rfl hrange
        (hbuf.mono (Nat.min_le_left _ _)) hroom
      rw [hrun] at run
      cases run
      exact hw1
  | beside same =>
      refine ⟨(same.unmoved hw.wf).wf hw.wf, fun g hg => ?_⟩
      have hre := same.rewritten hw.wf g
      have hg0 := (hre.regular_iff g).mp hg
      rw [hre.size g hg0.1, if_pos rfl]
      exact hw.size_le g hg0

theorem fsWf_run {m m' : Mem} (hw : FsWf m) (hrun : Relation.ReflTransGen FileStep m m') :
    FsWf m' := by
  induction hrun with
  | refl => exact hw
  | tail _ hstep ih => exact hstep.fsWf ih

/-- After every run, a call writes its bytes to the file and nothing else, or reads the bytes of
the file. -/
theorem files_as_bytes {m m' : Mem} (hw : FsWf m) (hrun : Relation.ReflTransGen FileStep m m')
    {f buf : Nat} {count offset : BitVec 32} (hf : Regular m' f)
    (hrange : offset.toNat + count.toNat ≤ maxfilesize) (hbuf : Beside buf count.toNat) :
    (RoomFor m' f offset.toNat count.toNat →
      ∃ m'', fileWrite m' f buf count offset = some (m'', buf + count.toNat, (count.toNat : Int)) ∧
        WriteOk m' f buf count.toNat offset.toNat m'') ∧
    ∀ n, readLength (fSize m' f).toNat count.toNat offset.toNat = n → RoomFor m' f offset.toNat n →
      ∃ m'', fileRead m' f buf count offset = some (m'', buf + n, (n : Int)) ∧
        ReadOk m' f buf n offset.toNat m'' := by
  have hw' := fsWf_run hw hrun
  refine ⟨fun hroom => ?_, fun n hn hroom => ?_⟩
  · obtain ⟨m'', hcall, hok, _⟩ := fileWrite_spec hw' hf hrange hbuf hroom
    exact ⟨m'', hcall, hok⟩
  · have hle : n ≤ count.toNat := by
      rw [← hn]
      exact Nat.min_le_left _ _
    obtain ⟨m'', hcall, hok, _⟩ := fileRead_spec hw' hf hn hrange (hbuf.mono hle) hroom
    exact ⟨m'', hcall, hok⟩

theorem smallDisk_fsWf : FsWf smallDisk := by
  refine ⟨smallDisk_wf, fun f hf => ?_⟩
  rcases smallDisk_fileAt hf.1 with rfl | ⟨j, hj, rfl⟩
  · exact absurd (by decide +kernel) hf.2
  · have hsize : ∀ j < blkfiles, (fSize smallDisk (smallFile + 256 * j)).toNat ≤ maxfilesize := by
      decide +kernel
    exact hsize j hj

theorem smallFile_regular : Regular smallDisk smallFile := ⟨smallFile_fileAt, by decide +kernel⟩

/-- Three bytes are written to the last direct block and the first indirect one, and read back. -/
theorem files_as_bytes_small : ∃ m m', fileWrite smallDisk smallFile 4096 3#32 40958#32 =
      some (m, 4099, 3) ∧
    fileRead m smallFile 8192 3#32 40958#32 = some (m', 8195, 3) ∧
      ∀ j < 3, m' (8192 + j) = smallDisk (4096 + j) := by
  have hroom : RoomFor smallDisk smallFile 40958 3 := Or.inr (by decide +kernel)
  have hroom' : (fileWrite smallDisk smallFile 4096 3#32 40958#32).all (fun res =>
      missing res.1 smallFile (40958 / 4096) ((40958 + 3 + 4095) / 4096) ≤
        (freeBlocks res.1).length) = true := by decide +kernel
  obtain ⟨m, hwrite, hok⟩ := (@files_as_bytes _ _ smallDisk_fsWf .refl smallFile 4096 3#32 40958#32
    smallFile_regular (by decide) (Or.inl (by decide))).1 hroom
  have hstep : FileStep smallDisk m :=
    @FileStep.write _ smallFile 4096 _ 3#32 40958#32 _ _ smallFile_regular (by decide)
      (Or.inl (by decide)) hroom hwrite
  have hsize : (fSize m smallFile).toNat = 40961 := by
    rw [hok.size]
    decide +kernel
  rw [hwrite, Option.all_some, decide_eq_true_eq] at hroom'
  obtain ⟨m', hread, hok'⟩ := (@files_as_bytes _ _ smallDisk_fsWf (.single hstep) smallFile 8192 3#32
    40958#32 ((hok.regular_iff _).mpr smallFile_regular) (by decide) (Or.inl (by decide))).2 3 (by rw [hsize]; rfl) (Or.inr hroom')
  refine ⟨m, m', hwrite, hread, fun j hj => ?_⟩
  rw [hok'.read j hj, hok.written j hj]

/-- A directory is a file whose bytes change with the size and the blocks of the files in it, and
a buffer on the disk changes any file. -/
theorem directory_bytes_change : FsWf smallDisk ∧ Regular smallDisk smallFile ∧
    FileAt smallDisk sRoot ∧ sRoot ≠ smallFile ∧
    (∃ res, fileWrite smallDisk smallFile 4096 1#32 5000#32 = some res ∧ res.2.2 = 1 ∧
      fileByte res.1 sRoot 128 ≠ fileByte smallDisk sRoot 128) ∧
    (∃ res, fileWrite smallDisk smallFile 4096 0#32 9000#32 = some res ∧
      ∃ res', fileRead res.1 smallFile 4096 1#32 8192#32 = some res' ∧ res'.2.2 = 1 ∧
        fileByte res'.1 sRoot 144 ≠ fileByte res.1 sRoot 144) ∧
    ∃ res, fileRead smallDisk smallFile (smallFile + 128) 4#32 0#32 = some res ∧ res.2.2 = 4 ∧
      fSize res.1 smallFile ≠ fSize smallDisk smallFile := by
  have hgrow : (fileWrite smallDisk smallFile 4096 1#32 5000#32).any (fun res =>
      res.2.2 = 1 ∧ fileByte res.1 sRoot 128 ≠ fileByte smallDisk sRoot 128) = true := by
    decide +kernel
  have hhole : (fileWrite smallDisk smallFile 4096 0#32 9000#32).any (fun res =>
      (fileRead res.1 smallFile 4096 1#32 8192#32).any fun res' =>
        res'.2.2 = 1 ∧ fileByte res'.1 sRoot 144 ≠ fileByte res.1 sRoot 144) = true := by
    decide +kernel
  have hdisk : (fileRead smallDisk smallFile (smallFile + 128) 4#32 0#32).any (fun res =>
      res.2.2 = 4 ∧ fSize res.1 smallFile ≠ fSize smallDisk smallFile) = true := by
    decide +kernel
  simp only [Option.any_eq_true, decide_eq_true_eq] at hgrow hhole hdisk
  exact ⟨smallDisk_fsWf, smallFile_regular, .root, by decide, hgrow, hhole, hdisk⟩

end Jos.Fs
