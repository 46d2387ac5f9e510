import Jos.Fs.DirSize
import Jos.Fs.Lookup

/-!
# A full disk

`file_block_walk` and `file_get_block` keep the result of `alloc_block` in a `uint32_t`, so the error
`-E_NO_DISK` is not seen: it is stored as a block number, and `diskaddr` panics. A call ends in this
way exactly when it needs more blocks than are free. This module counts what `file_get_block`,
`file_read`, `file_write` and `file_create` need, from the disk as it is before the call.

Main results:
* `FsCall.run_none_iff`: a call stops exactly when the disk gets full under it;
* `full_disk_iff`: which calls report a full disk as they should;
* `full_disk_panics`: a write that needs one block too many.
-/

namespace Jos.Fs

open Jos.Lib

/-! ## The blocks that a range needs -/

/-- The blocks among those from `i` up to `k` that are missing, where block `j` is in `ptr j` and
`ind` says that there is an indirect block. -/
def missingOf (ptr : Nat → Nat) (ind : Bool) (i k : Nat) : Nat :=
  ((List.range' i (k - i)).filter fun j => ptr j = 0).length +
    if i < k ∧ ndirect < k ∧ ind = false then 1 else 0

/-- The blocks of the file that the copying loop asks for: from the first up to the second. At an
offset less than a block before the file it asks for block 0. -/
def loopBlocks (offset count : BitVec 32) : Nat × Nat :=
  if 0 ≤ offset.toInt then
    let stop := stopAt offset.toNat (offset + count).toNat
    (offset.toNat / 4096, if offset.toNat < stop then (stop + 4095) / 4096 else offset.toNat / 4096)
  else if -4096 < offset.toInt ∧ count ≠ 0#32 ∧ offset.toInt + count.toNat < 0 then (0, 1)
  else (0, 0)

section

variable {m m' : Mem} {f buf i k : Nat} {offset count : BitVec 32}

theorem missing_eq_missingOf (m : Mem) (f i k : Nat) :
    missing m f i k = missingOf (blockPtr m f) (decide (indirect m f ≠ 0#32)) i k := by
  rw [missing, missingOf]
  simp

theorem missingOf_congr {ptr ptr' : Nat → Nat} {ind : Bool}
    (h : ∀ j, i ≤ j → j < k → ptr j = ptr' j) : missingOf ptr ind i k = missingOf ptr' ind i k := by
  rw [missingOf, missingOf]
  congr 2
  refine List.filter_congr fun j hj => ?_
  rw [List.mem_range'_1] at hj
  rw [h j (by omega) (by omega)]

theorem missing_self (m : Mem) (f i : Nat) : missing m f i i = 0 := by
  rw [missing, Nat.sub_self, if_neg (by omega)]
  rfl

theorem loopBlocks_le (offset count : BitVec 32) : (loopBlocks offset count).2 ≤ maxblocks ∨
    (loopBlocks offset count).2 = (loopBlocks offset count).1 := by
  rw [loopBlocks]
  split
  · simp only
    split
    · left
      simp only [stopAt, maxfilesize, maxblocks] at *
      omega
    · exact Or.inr rfl
  · split
    · exact Or.inl (by decide)
    · exact Or.inr rfl

/-- A round at the first block, then the end. -/
theorem copyLoop_before_eq {copy : Mem → Nat → Nat → Nat → Mem} {fuel : Nat} (hneg : offset.toInt < 0)
    (hgt : -4096 < offset.toInt) (hcount : count ≠ 0#32) (hend : offset.toInt + count.toNat < 0) :
    copyLoop copy f (offset + count) (fuel + 2) m buf offset = none ↔
      fileGetBlock m f 0#32 = none := by
  rw [copyLoop_before_run hneg hgt hcount hend]
  cases hget : fileGetBlock m f 0#32 with
  | none => simp
  | some res =>
      obtain ⟨m1, r⟩ := res
      obtain ⟨a, rfl⟩ := fileGetBlock_ok hget (by decide)
      simp

theorem fileGetBlock_none_iff (filebno : BitVec 32) (hw : Wf m) (hf : FileAt m f)
    (hi : filebno.toNat < maxblocks) :
    fileGetBlock m f filebno = none ↔ (freeBlocks m).length < blockNeed m f filebno.toNat := by
  rcases fileGetBlock_cases filebno hw hf hi with ⟨hlt, hnone⟩ | ⟨m1, hsome, hgot⟩
  · exact iff_of_true hnone hlt
  · have := hgot.grows.freeBlocks_length hw
    refine iff_of_false ?_ (by omega)
    rw [hsome]
    simp

/-- A loop whose rounds keep the disk well formed fails exactly when the blocks are not there. -/
theorem copyLoop_none_iff {copy : Mem → Nat → Nat → Nat → Mem} {Q : Nat → Nat → Mem → Prop}
    (hwf : ∀ {p b m}, Q p b m → Wf m ∧ FileAt m f)
    (hround : 0 ≤ offset.toInt → ∀ {p b m m1 n}, Q p b m → GotBlock m f (p / 4096) m1 → 0 < n →
      p % 4096 + n ≤ 4096 → p + n ≤ (offset + count).toNat → p + n ≤ maxfilesize →
      Unmoved m1 (copy m1 b (byteAddr m1 f p) n) ∧ Q (p + n) (b + n) (copy m1 b (byteAddr m1 f p) n))
    (hQ : Q offset.toNat buf m) :
    copyLoop copy f (offset + count) copyFuel m buf offset = none ↔
      (freeBlocks m).length < missing m f (loopBlocks offset count).1 (loopBlocks offset count).2 := by
  rw [loopBlocks]
  by_cases hoff : 0 ≤ offset.toInt
  · obtain ⟨hint, hpos⟩ := nonneg_toNat hoff
    rw [if_pos hoff]
    simp only
    rcases copyLoop_exact (Q := Q) hwf (hround hoff) hpos rfl (by decide) (copyFuel_enough rfl)
      hQ with ⟨hlt, hfull, hnone⟩ | ⟨m1, hrun, _, hroom⟩
    · rw [if_pos hlt]
      exact iff_of_true hnone hfull
    · refine iff_of_false (by rw [hrun]; simp) ?_
      split
      · rename_i hlt
        have := hroom hlt
        omega
      · rw [missing_self]
        omega
  · rw [if_neg hoff]
    obtain ⟨hw, hf⟩ := hwf hQ
    by_cases hone : -4096 < offset.toInt ∧ count ≠ 0#32 ∧ offset.toInt + count.toNat < 0
    · rw [if_pos hone]
      simp only
      rw [show copyFuel = 2046 + 2 from rfl,
        copyLoop_before_eq (by omega) hone.1 hone.2.1 hone.2.2, show 1 = 0 + 1 from rfl, missing_one]
      exact fileGetBlock_none_iff 0#32 hw hf (by decide)
    · rw [if_neg hone]
      refine iff_of_false ?_ (by rw [missing_self]; omega)
      by_cases hwrap : count = 0#32 ∨ 0 ≤ offset.toInt + count.toNat
      · rw [show copyFuel = 2047 + 1 from rfl, copyLoop_skip (by omega) hwrap]
        simp
      · rw [not_or] at hwrap
        have hle : offset.toInt ≤ -4096 := by
          by_contra hgt
          exact hone ⟨by omega, hwrap.1, by omega⟩
        rw [show copyFuel = 2047 + 1 from rfl, copyLoop_refused hle hwrap.1 (by omega)]
        simp

/-! ## `file_read` -/

/-- `file_read` on a range that is not behind the end of the file. -/
theorem readLoop_none_iff (offset : BitVec 32) (hw : Wf m) (hf : FileAt m f)
    (hbuf : Beside buf (min count.toNat maxfilesize)) :
    readLoop f (offset + count) copyFuel m buf offset = none ↔
      (freeBlocks m).length < missing m f (loopBlocks offset count).1 (loopBlocks offset count).2 := by
  refine copyLoop_none_iff (Q := ReadTo m f buf offset.toNat) (fun h => ⟨h.wf, h.file⟩)
    (fun hoff _ _ _ _ _ h hgot _ hn hend hmax => h.round hgot hn hmax ?_)
    ⟨hw, hf, Nat.le_refl _, by omega, fun _ _ => rfl, by omega, fun _ _ _ => rfl, fun _ => .refl hw⟩
  have hle := h.le
  obtain ⟨_, hpos⟩ := nonneg_toNat hoff
  have hsum := stopAt_le count hpos
  simp only [Beside, stopAt] at hbuf hsum ⊢
  omega

/-- The blocks that a read needs. -/
def readNeed (m : Mem) (f : Nat) (count offset : BitVec 32) : Nat :=
  if (fSize m f).sle offset then 0
  else
    let blocks := loopBlocks offset (readCount m f count offset)
    missing m f blocks.1 blocks.2

theorem fileRead_none_iff (hw : Wf m) (hf : FileAt m f)
    (hbuf : Beside buf (min count.toNat maxfilesize)) :
    fileRead m f buf count offset = none ↔ (freeBlocks m).length < readNeed m f count offset := by
  rw [fileRead, readNeed]
  split
  · exact iff_of_false (by simp) (by omega)
  · have hle : (readCount m f count offset).toNat ≤ count.toNat := readCount_le
    rw [← readLoop_none_iff offset hw hf (hbuf.mono (k := min
      (readCount m f count offset).toNat maxfilesize) (by omega))]
    cases hrun : readLoop f (offset + readCount m f count offset) copyFuel m buf offset with
    | none => simp [hrun]
    | some res => simp [hrun]

end

/-! ## Truncating a file to nothing -/

section

variable {m m' : Mem} {f d i k b : Nat} {p : Place}

/-- Giving a block back leaves one free block more. -/
theorem Released.freeBlocks_length (h : Released m p b m') (hw : Wf m) :
    (freeBlocks m').length = (freeBlocks m).length + 1 := by
  have hn := h.nblocks hw
  have hlt := h.owned.lt hw
  have hmem : b ∈ freeBlocks m' := by
    rw [mem_freeBlocks, hn, h.bits b hlt]
    exact ⟨hlt, Or.inr rfl⟩
  have heq : freeBlocks m = (freeBlocks m').filter (fun c => c != b) := by
    rw [freeBlocks, freeBlocks, hn, List.filter_filter]
    refine List.filter_congr fun c hc => ?_
    have hc' := List.mem_range.mp hc
    rw [Bool.eq_iff_iff, blockIsFree_iff, Bool.and_eq_true, blockIsFree_iff, hn, h.bits c hc']
    simp only [bne_iff_ne, ne_eq]
    constructor
    · rintro ⟨_, hset⟩
      exact ⟨fun hcb => h.owned.used hw (hcb ▸ hset), hc', Or.inl hset⟩
    · rintro ⟨hcb, _, hset | hset⟩
      · exact ⟨hc', hset⟩
      · exact absurd hset hcb
  have hnd : (freeBlocks m').Nodup := List.nodup_range.filter _
  have := List.length_pos_of_mem hmem
  rw [heq, ← List.Nodup.erase_eq_filter hnd, List.length_erase_of_mem hmem]
  omega

/-- Another block of a file that stays a file stays. -/
theorem Released.blockPtr_keeps (h : Released m p b m') (hw : Wf m) (hd : FileAt m d)
    (hd' : FileAt m' d) (hi : i < maxblocks) (hb : blockPtr m d i ≠ 0) (hpl : dataPlace d i ≠ p)
    (hind : p ≠ .indirect d) : blockPtr m' d i = blockPtr m d i := by
  have hed := h.edited hw
  have hown := owned_data hd hi hb
  have haddr : (dataPlace d i).addr m' = (dataPlace d i).addr m :=
    hed.addr_eq hown.valid fun heq => hind (by rw [heq, dataPlace_file])
  have hvalid' : (dataPlace d i).Valid m' := by
    by_cases hlt : i < ndirect
    · rw [dataPlace, if_pos hlt]
      exact ⟨hd', hlt⟩
    · refine dataPlace_valid_of_indirect hd' hi ?_
      rw [hed.indirect_eq hd hind]
      have hv := hown.valid
      rw [dataPlace, if_neg hlt] at hv
      exact hv.2.1
  rw [← dataPlace_value hvalid', Place.value, haddr, hed.other _ hown.valid hpl, ← hown.value,
    Place.value]

theorem Released.blockPtr_eq (h : Released m (dataPlace f i) b m') (hw : Wf m) (hf : FileAt m f)
    (hreg : fType m f ≠ ftypeDir) (hk : k < maxblocks) :
    blockPtr m' f k = if k = i then 0 else blockPtr m f k := by
  have hf' : FileAt m' f := h.fileAt hw (by rw [dataPlace_file]; exact hreg) hf
  by_cases hz : blockPtr m' f k = 0
  · rw [hz]
    split
    · rfl
    · rename_i hne
      by_contra hold
      have hkeep := h.blockPtr_keeps hw hf hf' hk (fun h0 => hold h0.symm)
        (fun heq => hne (dataPlace_inj heq).2) dataPlace_ne_indirect
      exact hold (by rw [← hkeep, hz])
  · obtain ⟨hv, hval⟩ := dataPlace_valid hf' hk hz
    obtain ⟨_, hne, _⟩ := h.place_cases hw hv (by rw [hval]; exact hz)
    rw [if_neg fun heq => hne (by rw [heq])]
    exact h.blockPtr_cases hw hf hk hz

/-- `file_free_block` gives the block back, if there is one. -/
theorem fileFreeBlock_exact (bno : BitVec 32) (hw : Wf m) (hf : FileAt m f)
    (hi : bno.toNat < maxblocks) : ∃ m' r, fileFreeBlock m f bno = some (m', r) ∧
      (blockPtr m f bno.toNat = 0 ∧ m' = m ∨
        Released m (dataPlace f bno.toNat) (blockPtr m f bno.toNat) m') := by
  have hslot : ∀ slot, slot = (dataPlace f bno.toNat).addr m → (dataPlace f bno.toNat).Valid m →
      ∃ m' r, (if m.read32 slot ≠ 0#32 then (do
          let m ← freeBlock m (m.read32 slot).toNat
          some (m.write32 slot 0#32, (0 : Int))) else some (m, 0)) = some (m', r) ∧
        (blockPtr m f bno.toNat = 0 ∧ m' = m ∨
          Released m (dataPlace f bno.toNat) (blockPtr m f bno.toNat) m') := by
    rintro slot rfl hv
    have hval := dataPlace_value hv
    by_cases hz : m.read32 ((dataPlace f bno.toNat).addr m) = 0#32
    · refine ⟨m, 0, if_neg (by simp [hz]), Or.inl ⟨?_, rfl⟩⟩
      rw [← hval, Place.value, hz]
      rfl
    · have hne : (dataPlace f bno.toNat).value m ≠ 0 := fun h0 => hz (BitVec.eq_of_toNat_eq h0)
      have hrel := released_place hw hv hne
      rw [hval] at hrel
      refine ⟨_, 0, ?_, Or.inr hrel⟩
      rw [if_pos hz, freeBlock, if_neg (by exact hne), show (m.read32 ((dataPlace f bno.toNat).addr
        m)).toNat = blockPtr m f bno.toNat from hval]
      rfl
  rw [fileFreeBlock, fileBlockWalk, if_neg (by omega)]
  by_cases hlt : bno.toNat < ndirect
  · rw [if_pos hlt]
    refine hslot _ ?_ ?_
    · rw [dataPlace, if_pos hlt]
      rfl
    · rw [dataPlace, if_pos hlt]
      exact ⟨hf, hlt⟩
  · rw [if_neg hlt]
    by_cases hind : indirect m f = 0#32
    · rw [if_pos ⟨hind, rfl⟩]
      refine ⟨m, _, rfl, Or.inl ⟨?_, rfl⟩⟩
      rw [blockPtr, if_neg hlt, if_pos hind]
    · have hda := diskaddr_place hw (p := .indirect f) hf fun hz =>
        hind (BitVec.eq_of_toNat_eq hz)
      rw [show m.read32 ((Place.indirect f).addr m) = indirect m f from rfl] at hda
      rw [if_neg fun hc => hind hc.1, if_neg hind]
      simp only [Option.bind_eq_bind, Option.bind_some, hda]
      refine hslot _ ?_ (dataPlace_valid_of_indirect hf hi hind)
      rw [addr_dataPlace (by omega)]
      rfl

/-- The number of blocks that a file has below block `n`. -/
def ownedBelow (m : Mem) (f n : Nat) : Nat :=
  ((List.range n).filter fun i => blockPtr m f i ≠ 0).length

theorem ownedBelow_succ (m : Mem) (f n : Nat) : ownedBelow m f (n + 1) =
    ownedBelow m f n + if blockPtr m f n = 0 then 0 else 1 := by
  rw [ownedBelow, ownedBelow, List.range_succ, List.filter_append, List.length_append]
  by_cases hz : blockPtr m f n = 0
  · simp [hz]
  · simp [hz]

/-- The first `n` blocks of `f` have been given back. -/
structure CutTo (m : Mem) (f n : Nat) (m' : Mem) : Prop where
  kept : DiskKept m m'
  ptr : ∀ k < maxblocks, blockPtr m' f k = if k < n then 0 else blockPtr m f k
  indirect_eq : indirect m' f = indirect m f
  free : (freeBlocks m').length = (freeBlocks m).length + ownedBelow m f n

theorem CutTo.step {n : Nat} (h : CutTo m f n m') (hf : FileAt m f) (hreg : fType m f ≠ ftypeDir)
    (hn : n < maxblocks) : ∃ m'', (fileFreeBlock m' f (BitVec.ofNat 32 n)).map (·.1) = some m'' ∧
      CutTo m f (n + 1) m'' := by
  have hw' := h.kept.wf
  have hf' := h.kept.files f hf
  have hreg' : fType m' f ≠ ftypeDir := by
    rw [h.kept.type f hf]
    exact hreg
  have hnat : (BitVec.ofNat 32 n).toNat = n := by
    rw [BitVec.toNat_ofNat]
    simp only [maxblocks] at hn
    omega
  have hptr : blockPtr m' f n = blockPtr m f n := by rw [h.ptr n hn, if_neg (by omega)]
  obtain ⟨m'', r, hrun, hcase⟩ := fileFreeBlock_exact (BitVec.ofNat 32 n) hw' hf'
    (by rw [hnat]; exact hn)
  rw [hnat, hptr] at hcase
  refine ⟨m'', by rw [hrun]; rfl, ?_⟩
  rcases hcase with ⟨hz, rfl⟩ | hrel
  · refine ⟨h.kept, fun k hk => ?_, h.indirect_eq, ?_⟩
    · rw [h.ptr k hk]
      by_cases hkn : k = n
      · subst hkn
        rw [if_neg (by omega), if_pos (by omega), hz]
      · exact if_congr (by omega) rfl rfl
    · rw [h.free, ownedBelow_succ, if_pos hz, Nat.add_zero]
  · have hed := hrel.edited hw'
    refine ⟨h.kept.trans (hrel.kept hw' (by rw [dataPlace_file]; exact hreg')), fun k hk => ?_, ?_, ?_⟩
    · rw [hrel.blockPtr_eq hw' hf' hreg' hk, h.ptr k hk]
      by_cases hkn : k = n
      · rw [if_pos hkn, if_pos (by omega)]
      · rw [if_neg hkn]
        exact if_congr (by omega) rfl rfl
    · rw [hed.indirect_eq hf' dataPlace_ne_indirect, h.indirect_eq]
    · rw [hrel.freeBlocks_length hw', h.free, ownedBelow_succ, if_neg hrel.ne_zero]
      omega

/-- `file_truncate_blocks` to no block at all. -/
theorem fileTruncateBlocks_none (newsize : BitVec 32) (hw : Wf m) (hf : FileAt m f)
    (hreg : fType m f ≠ ftypeDir) (hold : sizeBlocks (fSize m f) ≤ maxblocks)
    (hnew : sizeBlocks newsize = 0) : ∃ m', fileTruncateBlocks m f newsize = some m' ∧
      DiskKept m m' ∧ indirect m' f = 0#32 ∧
      (∀ k < maxblocks, blockPtr m' f k =
        if k < sizeBlocks (fSize m f) ∨ ndirect ≤ k then 0 else blockPtr m f k) ∧
      (freeBlocks m').length = (freeBlocks m).length + ownedBelow m f (sizeBlocks (fSize m f)) +
        if indirect m f = 0#32 then 0 else 1 := by
  have hstart : CutTo m f 0 m := ⟨.refl hw, fun k _ => by rw [if_neg (by omega)], rfl, rfl⟩
  obtain ⟨m1, hloop, hcut⟩ := foldlM_range_inv (CutTo m f) (n := sizeBlocks (fSize m f)) hstart
    fun i hi m2 h2 => h2.step hf hreg (by omega)
  have hrun : (List.range' 0 (sizeBlocks (fSize m f))).foldlM
      (fun m bno => (fileFreeBlock m f (BitVec.ofNat 32 bno)).map (·.1)) m = some m1 := by
    rw [← List.range_eq_range']
    exact hloop
  have hw1 := hcut.kept.wf
  have hf1 := hcut.kept.files f hf
  have hreg1 : fType m1 f ≠ ftypeDir := by
    rw [hcut.kept.type f hf]
    exact hreg
  have hind := hcut.indirect_eq
  simp only [fileTruncateBlocks, hnew, Nat.sub_zero, Option.bind_eq_bind, hrun, Option.bind_some]
  by_cases hz : indirect m f = 0#32
  · refine ⟨m1, ?_, hcut.kept, by rw [hind, hz], fun k hk => ?_, ?_⟩
    · rw [if_neg (by rw [hind]; simp [hz])]
    · rw [hcut.ptr k hk]
      by_cases hlt : k < sizeBlocks (fSize m f)
      · rw [if_pos hlt, if_pos (Or.inl hlt)]
      · rw [if_neg hlt]
        by_cases hge : ndirect ≤ k
        · rw [if_pos (Or.inr hge), blockPtr, if_neg (by omega), if_pos hz]
        · rw [if_neg (by omega)]
    · rw [hcut.free, if_pos hz]
      omega
  · have hne : (Place.indirect f).value m1 ≠ 0 := fun h0 =>
      hz (by rw [← hind]; exact BitVec.eq_of_toNat_eq h0)
    have hrel := released_place hw1 (p := .indirect f) hf1 hne
    have hed := hrel.edited hw1
    have hkept := hrel.kept hw1 hreg1
    have hind2 : indirect ((setBit m1 ((Place.indirect f).value m1)).write32 ((Place.indirect f).addr m1)
        0#32) f = 0#32 := hrel.stored
    refine ⟨_, ?_, hcut.kept.trans hkept, hind2, fun k hk => ?_, ?_⟩
    · rw [if_pos ⟨Nat.zero_le _, by rw [hind]; exact hz⟩, freeBlock,
        if_neg (show (indirect m1 f).toNat ≠ 0 from hne)]
      rfl
    · by_cases hge : ndirect ≤ k
      · rw [if_pos (Or.inr hge), blockPtr, if_neg (by omega), if_pos hind2]
      · -- A direct block number is not touched.
        have hother := hed.other (.direct f k) ⟨hf1, by omega⟩ (by simp)
        simp only [Place.addr] at hother
        have hsame : blockPtr ((setBit m1 ((Place.indirect f).value m1)).write32
            ((Place.indirect f).addr m1) 0#32) f k = blockPtr m1 f k := by
          rw [blockPtr, blockPtr, if_pos (by omega), if_pos (by omega)]
          exact congrArg BitVec.toNat hother
        rw [hsame, hcut.ptr k hk]
        exact if_congr (by omega) rfl rfl
    · rw [hrel.freeBlocks_length hw1, hcut.free, if_neg hz]

end

/-! ## `file_write` -/

/-- The new size is negative and rounds up to no block: `file_set_size` gives back every block below
the old size. -/
def CutsAll (newsize : BitVec 32) : Prop := -8191 < newsize.toInt ∧ newsize.toInt < 0

instance (newsize : BitVec 32) : Decidable (CutsAll newsize) := inferInstanceAs (Decidable (_ ∧ _))

section

variable {m m' m₁ : Mem} {f buf : Nat} {offset count newsize : BitVec 32}

theorem toInt_add_block (h : newsize.toInt < 0) :
    (newsize + 4096#32 - 1#32).toInt = newsize.toInt + 4095 := by
  have heq : newsize + 4096#32 - 1#32 = newsize + 4095#32 := by
    rw [BitVec.sub_eq_add_neg, BitVec.add_assoc]
    rfl
  have hlow := BitVec.le_toInt newsize
  rw [heq, BitVec.toInt_add, show (4095#32).toInt = 4095 from rfl]
  exact Int.bmod_eq_of_le (by omega) (by omega)

theorem sizeBlocks_cut (h : CutsAll newsize) : sizeBlocks newsize = 0 := by
  obtain ⟨h1, h2⟩ := h
  have hadd := toInt_add_block h2
  by_cases hneg : (newsize + 4096#32 - 1#32).toInt < 0
  · have hdiv := toInt_sdiv_neg hneg
    have hz : (newsize + 4096#32 - 1#32).sdiv 4096#32 = 0#32 := by
      refine BitVec.eq_of_toInt_eq ?_
      rw [hdiv, show (0#32).toInt = 0 from rfl]
      omega
    rw [sizeBlocks, hz]
    rfl
  · obtain ⟨hint, hpos⟩ := nonneg_toNat (by omega : 0 ≤ (newsize + 4096#32 - 1#32).toInt)
    rw [sizeBlocks, sdiv_block hpos]
    omega

theorem sizeBlocks_neg (h : newsize.toInt ≤ -8191) : 2147483648 ≤ sizeBlocks newsize := by
  have hadd := toInt_add_block (show newsize.toInt < 0 by omega)
  have hneg : (newsize + 4096#32 - 1#32).toInt < 0 := by omega
  have hdiv := toInt_sdiv_neg hneg
  have hlow := BitVec.le_toInt newsize
  have hlt : ((newsize + 4096#32 - 1#32).sdiv 4096#32).toInt < 0 := by
    rw [hdiv]
    omega
  have hnat := neg_toNat hlt
  rw [sizeBlocks]
  omega

theorem sizeBlocks_le (h : newsize.toNat ≤ maxfilesize) : sizeBlocks newsize ≤ maxblocks := by
  simp only [maxfilesize] at h
  have hadd : (newsize + 4096#32 - 1#32).toNat = newsize.toNat + 4095 := by
    rw [BitVec.toNat_sub, BitVec.toNat_add]
    simp only [BitVec.toNat_ofNat]
    omega
  rw [sizeBlocks, sdiv_block (by omega), hadd]
  simp only [maxblocks]
  omega

/-- The blocks of the file after the change of the size with which `file_write` begins. -/
def startPtr (m : Mem) (f : Nat) (newsize : BitVec 32) (k : Nat) : Nat :=
  if CutsAll newsize ∧ (k < sizeBlocks (fSize m f) ∨ ndirect ≤ k) then 0 else blockPtr m f k

def startIndirect (m : Mem) (f : Nat) (newsize : BitVec 32) : Bool :=
  ¬ CutsAll newsize ∧ indirect m f ≠ 0#32

/-- The blocks that are free then. -/
def startFree (m : Mem) (f : Nat) (newsize : BitVec 32) : Nat :=
  (freeBlocks m).length + if CutsAll newsize then
    ownedBelow m f (sizeBlocks (fSize m f)) + if indirect m f = 0#32 then 0 else 1 else 0

/-- The memory in which the loop of `file_write` begins. -/
structure SizeSet (m : Mem) (f : Nat) (newsize : BitVec 32) (m1 : Mem) : Prop where
  kept : DiskKept m m1
  ptr : ∀ k < maxblocks, blockPtr m1 f k = startPtr m f newsize k
  ind : decide (indirect m1 f ≠ 0#32) = startIndirect m f newsize
  free : (freeBlocks m1).length = startFree m f newsize

theorem SizeSet.unmoved (h : Unmoved m m') (hw : Wf m) (hf : FileAt m f) (hno : ¬ CutsAll newsize) :
    SizeSet m f newsize m' := by
  refine ⟨h.kept hw, fun k hk => ?_, ?_, ?_⟩
  · rw [startPtr, if_neg fun hc => hno hc.1, h.blockPtr_eq hf hk]
  · rw [startIndirect, h.indirect_eq hf]
    simp [hno]
  · rw [startFree, if_neg hno, h.freeBlocks_eq, Nat.add_zero]

theorem unmoved_refl (m : Mem) : Unmoved m m :=
  ⟨rfl, fun _ _ => rfl, fun _ _ => rfl, fun _ _ => Iff.rfl⟩

theorem sizeStep_set (newsize : BitVec 32) (hw : Wf m) (hf : FileAt m f) (hreg : fType m f ≠ ftypeDir)
    (hsize : (fSize m f).toNat ≤ maxfilesize) :
    ∃ m1, (if fSize m f < newsize then fileSetSize m f newsize else some m) = some m1 ∧
      SizeSet m f newsize m1 := by
  have hmax : maxfilesize = 4235264 := rfl
  have hint := toInt_eq (n := fSize m f) (by omega)
  by_cases hcut : CutsAll newsize
  · have hnat := neg_toNat hcut.2
    have hgt := hcut.1
    obtain ⟨m1, hrun, hkept, hind, hptr, hfree⟩ := fileTruncateBlocks_none newsize hw hf hreg
      (sizeBlocks_le hsize) (sizeBlocks_cut hcut)
    have hf1 := hkept.files f hf
    have hun := unmoved_size hkept.wf hf1 newsize
    refine ⟨m1.write32 (f + 128) newsize, ?_, hkept.trans (hun.kept hkept.wf), fun k hk => ?_, ?_, ?_⟩
    · rw [if_pos (by rw [BitVec.lt_def]; omega), fileSetSize,
        if_pos (by rw [BitVec.slt_eq_decide, hint, decide_eq_true_eq]; have := hcut.2; omega), hrun]
      rfl
    · rw [hun.blockPtr_eq hf1 hk, hptr k hk, startPtr]
      exact if_congr (by simp [hcut]) rfl rfl
    · rw [hun.indirect_eq hf1, hind, startIndirect]
      simp [hcut]
    · rw [hun.freeBlocks_eq, hfree, startFree, if_pos hcut]
      omega
  · split
    · rename_i hlt
      rw [BitVec.lt_def] at hlt
      refine ⟨m.write32 (f + 128) newsize, ?_, .unmoved (unmoved_size hw hf newsize) hw hf hcut⟩
      rw [fileSetSize]
      split
      · rename_i hslt
        rw [BitVec.slt_eq_decide, hint, decide_eq_true_eq] at hslt
        -- The new size is negative, and its number of blocks is large.
        have hneg : newsize.toInt < 0 := by
          by_contra hge
          have := nonneg_toNat (by omega : 0 ≤ newsize.toInt)
          omega
        have hle : newsize.toInt ≤ -8191 := by
          by_contra hgt
          exact hcut ⟨by omega, hneg⟩
        have hbig := sizeBlocks_neg hle
        have hold := sizeBlocks_le hsize
        simp only [maxblocks] at hold
        have htr : fileTruncateBlocks m f newsize = some m := by
          simp only [fileTruncateBlocks]
          rw [show sizeBlocks (fSize m f) - sizeBlocks newsize = 0 by omega]
          simp only [List.range'_zero, List.foldlM_nil, Option.pure_def, Option.bind_eq_bind,
            Option.bind_some]
          rw [if_neg (by simp only [ndirect]; omega)]
        rw [htr]
        rfl
      · rfl
    · exact ⟨m, rfl, .unmoved (unmoved_refl m) hw hf hcut⟩

/-- The loop of `file_write` on a directory fails where it fails on a file. -/
theorem AsFile.writeLoop_none_iff (h : AsFile f m m₁) (offset : BitVec 32)
    (hbuf : Beside buf (min count.toNat maxfilesize)) :
    writeLoop f (offset + count) copyFuel m buf offset = none ↔
      writeLoop f (offset + count) copyFuel m₁ buf offset = none := by
  by_cases hoff : 0 ≤ offset.toInt
  · obtain ⟨_, hpos⟩ := nonneg_toNat hoff
    have hsame : SameResult f (writeLoop f (offset + count) copyFuel m buf offset)
        (writeLoop f (offset + count) copyFuel m₁ buf offset) :=
      h.writeLoop_same hpos (hbuf.mono (stopAt_le count hpos))
    constructor
    · intro hnone
      rw [hnone] at hsame
      cases hrun : writeLoop f (offset + count) copyFuel m₁ buf offset with
      | none => rfl
      | some res =>
          rw [hrun] at hsame
          cases hsame
    · intro hnone
      rw [hnone] at hsame
      exact rel_none_right hsame
  · by_cases hone : -4096 < offset.toInt ∧ count ≠ 0#32 ∧ offset.toInt + count.toNat < 0
    · have hget := h.fileGetBlock_same 0#32
      rw [writeLoop, show copyFuel = 2046 + 2 from rfl,
        copyLoop_before_eq (by omega) hone.1 hone.2.1 hone.2.2,
        copyLoop_before_eq (by omega) hone.1 hone.2.1 hone.2.2]
      constructor
      · intro hnone
        rw [hnone] at hget
        cases hrun : fileGetBlock m₁ f 0#32 with
        | none => rfl
        | some res =>
            rw [hrun] at hget
            cases hget
      · intro hnone
        rw [hnone] at hget
        exact rel_none_right hget
    · by_cases hwrap : count = 0#32 ∨ 0 ≤ offset.toInt + count.toNat
      · rw [writeLoop, show copyFuel = 2047 + 1 from rfl, copyLoop_skip (by omega) hwrap,
          copyLoop_skip (by omega) hwrap]
        simp
      · rw [not_or] at hwrap
        have hle : offset.toInt ≤ -4096 := by
          by_contra hgt
          exact hone ⟨by omega, hwrap.1, by omega⟩
        rw [writeLoop, show copyFuel = 2047 + 1 from rfl, copyLoop_refused hle hwrap.1 (by omega),
          copyLoop_refused hle hwrap.1 (by omega)]
        simp

theorem writeLoop_none_iff (hw : Wf m) (hf : FileAt m f) (hreg : fType m f ≠ ftypeDir)
    (hbuf : Beside buf (min count.toNat maxfilesize)) :
    writeLoop f (offset + count) copyFuel m buf offset = none ↔
      (freeBlocks m).length < missing m f (loopBlocks offset count).1 (loopBlocks offset count).2 := by
  refine copyLoop_none_iff (Q := WrittenTo m f buf offset.toNat)
    (fun h => ⟨h.rewritten.wf, h.file⟩)
    (fun hoff _ _ _ _ _ h hgot hn0 hn hend hmax => h.round hreg hgot hn hn0 hmax ?_)
    ⟨hf, Nat.le_refl _, by omega, Rewritten.refl hw, by omega, fun _ _ => rfl⟩
  have hle := h.le
  obtain ⟨_, hpos⟩ := nonneg_toNat hoff
  have hsum := stopAt_le count hpos
  simp only [Beside, stopAt] at hbuf hsum ⊢
  omega

/-- The blocks that a write needs after the change of the size. -/
def writeNeed (m : Mem) (f : Nat) (count offset : BitVec 32) : Nat :=
  missingOf (startPtr m f (offset + count)) (startIndirect m f (offset + count))
    (loopBlocks offset count).1 (loopBlocks offset count).2

theorem SizeSet.missing_eq {m1 : Mem} {i k : Nat} (h : SizeSet m f newsize m1)
    (hk : k ≤ maxblocks ∨ k = i) : missing m1 f i k =
      missingOf (startPtr m f newsize) (startIndirect m f newsize) i k := by
  rw [missing_eq_missingOf, h.ind]
  exact missingOf_congr fun j hij hjk => h.ptr j (by omega)

theorem fileWrite_none_iff_regular (hw : Wf m) (hf : FileAt m f) (hreg : fType m f ≠ ftypeDir)
    (hsize : (fSize m f).toNat ≤ maxfilesize) (hbuf : Beside buf (min count.toNat maxfilesize)) :
    fileWrite m f buf count offset = none ↔
      startFree m f (offset + count) < writeNeed m f count offset := by
  obtain ⟨m1, hset, hstart⟩ := sizeStep_set (offset + count) hw hf hreg hsize
  have hf1 := hstart.kept.files f hf
  have hreg1 : fType m1 f ≠ ftypeDir := by
    rw [hstart.kept.type f hf]
    exact hreg
  rw [fileWrite_eq, hset, Option.bind_some, writeNeed, ← hstart.missing_eq (loopBlocks_le _ _),
    ← hstart.free, ← writeLoop_none_iff hstart.kept.wf hf1 hreg1 hbuf]
  cases writeLoop f (offset + count) copyFuel m1 buf offset with
  | none => simp
  | some res => simp

theorem AsFile.freeBlocks_eq (h : AsFile f m m₁) : freeBlocks m = freeBlocks m₁ := by
  rw [freeBlocks, freeBlocks, h.nblocks]
  refine List.filter_congr fun c hc => ?_
  exact h.blockIsFree_eq (List.mem_range.mp hc)

theorem AsFile.ownedBelow_eq (h : AsFile f m m₁) {n : Nat} (hn : n ≤ maxblocks) :
    ownedBelow m f n = ownedBelow m₁ f n := by
  rw [ownedBelow, ownedBelow]
  congr 1
  refine List.filter_congr fun i hi => ?_
  have := List.mem_range.mp hi
  rw [h.blockPtr_eq (by omega)]

/-- `file_write` fails exactly when it needs more blocks than are free. -/
theorem fileWrite_none_iff (hw : Wf m) (hf : FileAt m f) (hsize : (fSize m f).toNat ≤ maxfilesize)
    (hbuf : Beside buf (min count.toNat maxfilesize)) :
    fileWrite m f buf count offset = none ↔
      startFree m f (offset + count) < writeNeed m f count offset := by
  have has := asFile_untype hw hf
  have hsize' : (fSize (untype m f) f).toNat ≤ maxfilesize := by
    rw [← has.fSize_eq]
    exact hsize
  have hfree : startFree m f (offset + count) = startFree (untype m f) f (offset + count) := by
    rw [startFree, startFree, has.freeBlocks_eq, has.fSize_eq, has.indirect_eq,
      has.ownedBelow_eq (sizeBlocks_le hsize')]
  have hneed : writeNeed m f count offset = writeNeed (untype m f) f count offset := by
    have hle := loopBlocks_le offset count
    rw [writeNeed, writeNeed, startIndirect, startIndirect, has.indirect_eq]
    refine missingOf_congr fun j hij hjk => ?_
    rw [startPtr, startPtr, has.fSize_eq, has.blockPtr_eq (by omega)]
  rw [hfree, hneed, ← fileWrite_none_iff_regular has.wf has.file has.regular hsize' hbuf,
    fileWrite_eq, fileWrite_eq]
  have hstep := has.sizeStep_same (offset + count)
  obtain ⟨m1, hset, _⟩ := sizeStep_set (offset + count) has.wf has.file has.regular hsize'
  rw [hset] at hstep ⊢
  obtain ⟨m2, hset2, has2⟩ := rel_some_right hstep
  rw [hset2, Option.bind_some, Option.bind_some]
  have hloop := has2.writeLoop_none_iff offset hbuf
  constructor
  · intro hnone
    have h1 : writeLoop f (offset + count) copyFuel m2 buf offset = none := by
      cases hrun : writeLoop f (offset + count) copyFuel m2 buf offset with
      | none => rfl
      | some res => simp [hrun] at hnone
    rw [hloop.mp h1]
    rfl
  · intro hnone
    have h1 : writeLoop f (offset + count) copyFuel m1 buf offset = none := by
      cases hrun : writeLoop f (offset + count) copyFuel m1 buf offset with
      | none => rfl
      | some res => simp [hrun] at hnone
    rw [hloop.mpr h1]
    rfl

end

/-! ## `file_create` -/

/-- Entry `e` of the directory is not used. -/
def unusedAt (m : Mem) (dir e : Nat) : Bool := fileByte m dir (256 * e) = 0#8

/-- The blocks that `dir_alloc_file` needs when the directory has no holes: one for new entries, and
one more for the indirect block. -/
def allocNeed (m : Mem) (dir : Nat) : Nat :=
  if (List.range (16 * dirBlocks m dir)).any (unusedAt m dir) then 0
  else if dirBlocks m dir < maxblocks then blockNeed m dir (dirBlocks m dir)
  else 0

/-- The blocks that `file_create` needs for the path from directory `f` on: those of the look-ups,
and those for the new entry. -/
def createNeed : Nat → Mem → Nat → List (BitVec 8) → Nat
  | 0, _, _, _ => 0
  | fuel + 1, m, f, path =>
      let name := path.takeWhile (· ≠ slash)
      let rest := skipSlash (path.dropWhile (· ≠ slash))
      if path = [] ∨ maxnamelen ≤ name.length ∨ fType m f ≠ ftypeDir then 0
      else lookupNeed m f name + match lookupEntry m f name with
        | some e => createNeed fuel m (entryAt m f e) rest
        | none => if rest = [] then allocNeed m f else 0

/-- The rest of a path: no slash in front, no null byte. -/
structure PathOk (path : List (BitVec 8)) : Prop where
  no_null : 0#8 ∉ path
  no_slash : path.head? ≠ some slash

/-- Every directory can be looked up. -/
def DirsOk (m : Mem) : Prop := ∀ d, FileAt m d → fType m d = ftypeDir → DirOk m d

section

variable {m m' m1 : Mem} {f g dir i n : Nat} {name path : List (BitVec 8)}

theorem head_skipSlash (path : List (BitVec 8)) : (skipSlash path).head? ≠ some slash := by
  intro hhead
  have hnot := List.head?_dropWhile_not (fun c => decide (c = slash)) path
  rw [skipSlash] at hhead
  rw [hhead] at hnot
  simp at hnot

theorem skipSlash_ok (h : 0#8 ∉ path) : PathOk (skipSlash path) :=
  ⟨fun hmem => h ((List.dropWhile_suffix _).subset hmem), head_skipSlash path⟩

theorem skipSlash_length_le (path : List (BitVec 8)) : (skipSlash path).length ≤ path.length :=
  (List.dropWhile_suffix _).length_le

/-- The first name of a path. -/
theorem PathOk.first (h : PathOk path) (hne : path ≠ [])
    (hlen : ¬ maxnamelen ≤ (path.takeWhile (· ≠ slash)).length) :
    NameOk (path.takeWhile (· ≠ slash)) := by
  refine ⟨?_, fun hmem => h.no_null ((List.takeWhile_prefix _).subset hmem), by omega⟩
  cases path with
  | nil => exact absurd rfl hne
  | cons c l =>
      have hc : c ≠ slash := fun heq => h.no_slash (by rw [heq]; rfl)
      rw [List.takeWhile_cons, if_pos (by simpa using hc)]
      exact List.cons_ne_nil _ _

/-- The rest is shorter. -/
theorem rest_length_lt (hne : path ≠ []) (hhead : path.head? ≠ some slash) :
    (skipSlash (path.dropWhile (· ≠ slash))).length < path.length := by
  cases path with
  | nil => exact absurd rfl hne
  | cons c l =>
      have hc : c ≠ slash := fun heq => hhead (by rw [heq]; rfl)
      rw [List.dropWhile_cons, if_pos (by simpa using hc), List.length_cons]
      have h1 := skipSlash_length_le (l.dropWhile (· ≠ slash))
      have h2 : (l.dropWhile (· ≠ slash)).length ≤ l.length := (List.dropWhile_suffix _).length_le
      omega

theorem PathOk.rest (h : PathOk path) (hne : path ≠ []) :
    PathOk (skipSlash (path.dropWhile (· ≠ slash))) ∧
      (skipSlash (path.dropWhile (· ≠ slash))).length < path.length :=
  ⟨skipSlash_ok fun hmem => h.no_null ((List.dropWhile_suffix _).subset hmem),
    rest_length_lt hne h.no_slash⟩

theorem DirsOk.grows {j : Nat} (h : DirsOk m) (hw : Wf m) (hg : Grows f m j m') : DirsOk m' := by
  intro d hd hdir
  have hk := hg.entriesKept hw
  rcases hk.new d hd with hd0 | ⟨hreg, _⟩
  · rw [hg.type_eq hw hd0] at hdir
    have h0 := h d hd0 hdir
    refine ⟨hd, hk.size d hd0 hdir h0.aligned, ?_⟩
    rw [hg.size_eq hw hd0]
    exact h0.size_le
  · exact absurd hdir hreg

theorem any_unused_congr (hsize : (fSize m g).toNat ≤ maxfilesize)
    (h : ∀ i < maxfilesize, fileByte m' g i = fileByte m g i) :
    (List.range (16 * dirBlocks m g)).any (unusedAt m' g) =
      (List.range (16 * dirBlocks m g)).any (unusedAt m g) := by
  have hle := dirBlocks_le hsize
  simp only [maxblocks] at hle
  rw [Bool.eq_iff_iff, List.any_eq_true, List.any_eq_true]
  refine exists_congr fun e => and_congr_right fun he => ?_
  have := List.mem_range.mp he
  rw [unusedAt, unusedAt, h _ (by simp only [maxfilesize]; omega)]

theorem SameFile.allocNeed_eq (h : SameFile m m' g) (hsize : (fSize m g).toNat ≤ maxfilesize) :
    allocNeed m' g = allocNeed m g := by
  have hblocks : dirBlocks m' g = dirBlocks m g := by rw [dirBlocks, dirBlocks, h.size]
  rw [allocNeed, allocNeed, hblocks, any_unused_congr hsize h.byte]
  by_cases hlt : dirBlocks m g < maxblocks
  · rw [if_pos hlt, if_pos hlt, blockNeed, blockNeed, walkNeed, walkNeed, h.ptr _ hlt, h.ind]
  · rw [if_neg hlt, if_neg hlt]

/-- What the path needs is read from the files below the directory. -/
theorem createNeed_congr {fuel : Nat} (hds : DirsOk m) (hg : FileAt m g) (hp : PathOk path)
    (h : ∀ x, Relation.ReflTransGen (Child m) g x → SameFile m m' x) :
    createNeed fuel m' g path = createNeed fuel m g path := by
  induction fuel generalizing g path with
  | zero => rfl
  | succ fuel ih =>
      have hself := h g .refl
      rw [createNeed, createNeed, hself.type]
      by_cases hstop : path = [] ∨ maxnamelen ≤ (path.takeWhile (· ≠ slash)).length ∨
          fType m g ≠ ftypeDir
      · rw [if_pos hstop, if_pos hstop]
      rw [if_neg hstop, if_neg hstop]
      simp only [not_or, not_not] at hstop
      obtain ⟨hne, hlen, hdir⟩ := hstop
      have hname := hp.first hne hlen
      have hsize := (hds g hg hdir).size_le
      rw [hself.lookupNeed_eq hsize hname, hself.lookupEntry_eq hsize hname,
        hself.allocNeed_eq hsize]
      cases he : lookupEntry m g (path.takeWhile (· ≠ slash)) with
      | none => rfl
      | some e =>
          obtain ⟨hi, hb, hchild⟩ := lookupEntry_child hdir hsize hname he
          have hentry : entryAt m' g e = entryAt m g e := by
            rw [entryAt, entryAt, hself.ptr _ hi]
          simp only [hentry]
          rw [ih (hg.child hchild) (hp.rest hne).1 fun x hx => h x (.head hchild hx)]

/-! ### A new entry -/

theorem fileGetBlock_present (hw : Wf m) (hd : FileAt m dir) (hi : i < maxblocks)
    (hb : blockPtr m dir i ≠ 0) :
    fileGetBlock m dir (BitVec.ofNat 32 i) = some (m, .ok (blockAddr (blockPtr m dir i))) := by
  have hnat : (BitVec.ofNat 32 i).toNat = i := by
    rw [BitVec.toNat_ofNat]
    simp only [maxblocks] at hi
    omega
  have hneed : blockNeed m dir i = 0 := by
    rw [blockNeed, if_neg hb, walkNeed, if_neg]
    rintro ⟨hge, hind⟩
    exact hb (by rw [blockPtr, if_neg (by omega), if_pos hind])
  have hcases := fileGetBlock_cases (BitVec.ofNat 32 i) hw hd (by rw [hnat]; exact hi)
  rw [hnat] at hcases
  rcases hcases with ⟨hfull, _⟩ | ⟨m1, hget, hgot⟩
  · omega
  · have hgrow := hgot.grows
    rw [hneed] at hgrow
    cases hgrow
    exact hget

/-- The search of `dir_alloc_file` in a directory without holes. -/
theorem dirAllocLoop_present (hw : Wf m) (hd : FileAt m dir) (hn : n ≤ maxblocks) (hi : i ≤ n)
    (hpres : Present m dir i n) : ∃ r, dirAllocLoop dir m (List.range' i (n - i)) = some (m, r) ∧
      (r = none ↔ (List.range' (16 * i) (16 * (n - i))).any (unusedAt m dir) = false) ∧
      ∀ q, r = some q → ∃ g, q = .ok g := by
  obtain ⟨k, hk⟩ : ∃ k, n = i + k := ⟨n - i, by omega⟩
  induction k generalizing i with
  | zero =>
      have hin : i = n := by omega
      subst hin
      rw [Nat.sub_self]
      exact ⟨none, rfl, by simp, fun q hq => by cases hq⟩
  | succ k ih =>
      have hb := hpres i (Nat.le_refl _) (by omega)
      rw [show n - i = n - (i + 1) + 1 by omega, List.range'_succ, dirAllocLoop,
        fileGetBlock_present hw hd (by omega) hb, show 16 * (n - (i + 1) + 1) =
          16 + 16 * (n - (i + 1)) by omega, ← List.range'_append_1, List.any_append,
        show 16 * i + 16 = 16 * (i + 1) by omega]
      have hblock : unusedEntry m (blockAddr (blockPtr m dir i)) = none ↔
          (List.range' (16 * i) 16).any (unusedAt m dir) = false := by
        rw [unusedEntry, Option.map_eq_none_iff, List.find?_eq_none, List.any_eq_false,
          List.range'_eq_map_range]
        simp only [List.mem_map, List.mem_range, forall_exists_index, and_imp,
          forall_apply_eq_imp_iff₂]
        refine forall_congr' fun j => ⟨fun h hj => ?_, fun h hj => ?_⟩
        · have hbyte := fileByte_entry (c := 0) hb hj (by decide)
          rw [Nat.add_zero] at hbyte
          rw [unusedAt, hbyte]
          exact h hj
        · have hbyte := fileByte_entry (c := 0) hb hj (by decide)
          have h1 := h hj
          rw [Nat.add_zero] at hbyte
          rw [unusedAt, hbyte] at h1
          exact h1
      simp only [Option.bind_eq_bind, Option.bind_some]
      cases hun : unusedEntry m (blockAddr (blockPtr m dir i)) with
      | some g =>
          refine ⟨_, rfl, ?_, fun q hq => ?_⟩
          · have : (List.range' (16 * i) 16).any (unusedAt m dir) = true := by
              rw [← Bool.not_eq_false]
              intro hf
              rw [hblock.mpr hf] at hun
              cases hun
            simp [this]
          · cases hq
            exact ⟨g, rfl⟩
      | none =>
          obtain ⟨r, hrun, hiff, hok⟩ := ih (i := i + 1) (by omega)
            (fun j h1 h2 => hpres j (by omega) h2) (by omega)
          refine ⟨r, hrun, ?_, hok⟩
          rw [hiff, hblock.mp hun, Bool.false_or]

/-- `dir_alloc_file` in a directory without holes. -/
theorem dirAllocFile_none_iff (hw : Wf m) (hd : DirOk m dir)
    (hpres : Present m dir 0 (dirBlocks m dir)) :
    dirAllocFile m dir = none ↔ (freeBlocks m).length < allocNeed m dir := by
  have haligned : ¬ (fSize m dir).srem 4096#32 ≠ 0#32 := fun hne => hne hd.aligned
  have hle := dirBlocks_le hd.size_le
  obtain ⟨r, hrun, hiff, _⟩ := dirAllocLoop_present hw hd.file hle (Nat.zero_le _) hpres
  rw [Nat.sub_zero, ← List.range_eq_range'] at hrun
  rw [Nat.mul_zero, Nat.sub_zero, ← List.range_eq_range'] at hiff
  rw [dirAllocFile, if_neg haligned, allocNeed]
  simp only
  rw [show ((fSize m dir).sdiv 4096#32).toNat = dirBlocks m dir from rfl]
  simp only [hrun, Option.bind_eq_bind, Option.bind_some]
  cases r with
  | some q =>
      have hany : (List.range (16 * dirBlocks m dir)).any (unusedAt m dir) = true := by
        rw [← Bool.not_eq_false]
        intro hf
        have := hiff.mpr hf
        cases this
      rw [if_pos hany]
      exact iff_of_false (by simp) (by omega)
  | none =>
      rw [if_neg (by rw [hiff.mp rfl]; simp)]
      simp only
      have hun := unmoved_size hw hd.file (fSize m dir + 4096#32)
      have hw2 := hun.wf hw
      have hd2 := hun.fileAt_iff.mpr hd.file
      by_cases hlt : dirBlocks m dir < maxblocks
      · rw [if_pos hlt, fileGetBlock_none_iff _ hw2 hd2 hlt, hun.freeBlocks_eq, blockNeed, blockNeed,
          walkNeed, walkNeed, show ((fSize m dir).sdiv 4096#32).toNat = dirBlocks m dir from rfl,
          hun.blockPtr_eq hd.file hlt, hun.indirect_eq hd.file]
      · rw [if_neg hlt, fileGetBlock_large (Nat.le_of_not_lt hlt)]
        exact iff_of_false (by simp) (by omega)

/-! ### The whole call -/

/-- `file_create` after `walk_path`. -/
def createEnd (res : Mem × Walk) : Option (Mem × Except Int Nat) :=
  match res.2.file, res.2.dir with
  | .ok _, _ => some (res.1, .error (-eFileExists))
  | .error r, none => some (res.1, .error r)
  | .error r, some dir =>
      if r ≠ -eNotFound then some (res.1, .error r)
      else do
        match ← dirAllocFile res.1 dir with
        | (m, .error r) => some (m, .error r)
        | (m, .ok f) =>
            let m := strcpy m f res.2.last
            fileFlush m dir
            some (m, .ok f)

theorem fileCreate_eq (m : Mem) (path : List (BitVec 8)) : fileCreate m path =
    (walkLoop (path.length + 1) m none sRoot (skipSlash path)).bind createEnd := rfl

/-- The new entry, in the directory where the name was not found. -/
theorem createEnd_none_iff (hw : Wf m) (hd : DirOk m dir) (hdir : fType m dir = ftypeDir)
    (hname : NameOk name) (hpres : Present m dir 0 (dirBlocks m dir)) :
    createEnd (m, ⟨.error (-eNotFound), some dir, name⟩) = none ↔
      (freeBlocks m).length < allocNeed m dir := by
  rw [← dirAllocFile_none_iff hw hd hpres, createEnd]
  simp only
  rw [if_neg (by simp)]
  cases halloc : dirAllocFile m dir with
  | none => simp
  | some res =>
      obtain ⟨m1, q⟩ := res
      refine iff_of_false ?_ (by simp)
      simp only [Option.bind_eq_bind, Option.bind_some]
      cases q with
      | error r => simp
      | ok g =>
          obtain ⟨hk1, hfile⟩ := (dirAllocFile_leadsTo hw hd.file hdir halloc).foundIn hw
          have hk2 : EntriesKept m1 (strcpy m1 g name) :=
            entriesKept_strcpy hk1.kept.wf (hfile g rfl) hname.length_lt
          simp only
          rw [fileFlush_some hk2.kept.wf (hk2.kept.files dir (hk1.kept.files dir hd.file))]
          simp

/-- No unused entry: the directory has no holes, and the look-up has taken no block. -/
theorem missing_zero (hno : (List.range (16 * dirBlocks m dir)).any (unusedAt m dir) = false) :
    missing m dir 0 (dirBlocks m dir) = 0 := by
  have hall : ∀ j < dirBlocks m dir, blockPtr m dir j ≠ 0 := by
    intro j hj hz
    rw [← Bool.not_eq_true] at hno
    refine hno ?_
    rw [List.any_eq_true]
    refine ⟨16 * j, List.mem_range.mpr (by omega), ?_⟩
    have hdiv : 256 * (16 * j) / 4096 = j := by omega
    rw [unusedAt, fileByte, hdiv, if_pos hz]
    rfl
  have hfilter : (List.range' 0 (dirBlocks m dir - 0)).filter (fun j => blockPtr m dir j = 0) = [] := by
    rw [List.filter_eq_nil_iff]
    intro j hj
    rw [List.mem_range'_1] at hj
    simpa using hall j (by omega)
  rw [missing, hfilter, if_neg]
  · rfl
  · rintro ⟨_, hlt, hind⟩
    refine hall ndirect hlt ?_
    rw [blockPtr, if_neg (by omega), if_pos hind]

theorem walk_none_iff {fuel : Nat} {dir : Option Nat} (hw : Wf m) (hds : DirsOk m) (hf : FileAt m f)
    (hp : PathOk path) (hfuel : path.length < fuel) :
    (walkLoop fuel m dir f path).bind createEnd = none ↔
      (freeBlocks m).length < createNeed fuel m f path := by
  induction fuel generalizing m dir f path with
  | zero => omega
  | succ fuel ih =>
      rw [walkLoop, createNeed]
      simp only
      by_cases hne : path = []
      · rw [if_pos hne, if_pos (Or.inl hne)]
        exact iff_of_false (by simp [createEnd]) (by omega)
      by_cases hlen : maxnamelen ≤ (path.takeWhile (· ≠ slash)).length
      · rw [if_neg hne, if_pos hlen, if_pos (Or.inr (Or.inl hlen))]
        exact iff_of_false (by simp [createEnd]) (by omega)
      by_cases hdir : fType m f ≠ ftypeDir
      · rw [if_neg hne, if_neg hlen, if_pos hdir, if_pos (Or.inr (Or.inr hdir))]
        exact iff_of_false (by simp [createEnd]) (by omega)
      rw [if_neg hne, if_neg hlen, if_neg hdir,
        if_neg (by rintro (h | h | h) <;> contradiction)]
      rw [not_not] at hdir
      have hname := hp.first hne hlen
      obtain ⟨hprest, hlrest⟩ := hp.rest hne
      have hd := hds f hf hdir
      rcases dirLookup_exact hw hd hname with ⟨hfull, hnone⟩ | ⟨m1, hrun, hsearched⟩
      · rw [hnone]
        exact iff_of_true rfl (by omega)
      have hpres := hsearched.present
      have hgrow : Grows f m (lookupNeed m f (path.takeWhile (· ≠ slash))) m1 := hsearched.grows
      have hfree := hgrow.freeBlocks_length hw
      have hw1 := hgrow.wf hw
      have hds1 := hds.grows hw hgrow
      have hf1 := hgrow.fileAt hw hf
      have hdir1 : fType m1 f = ftypeDir := (hgrow.type_eq hw hf).trans hdir
      rw [hrun]
      simp only [Option.bind_eq_bind, Option.bind_some]
      cases he : lookupEntry m f (path.takeWhile (· ≠ slash)) with
      | none =>
          simp only [searchResult]
          by_cases hrest : skipSlash (path.dropWhile (· ≠ slash)) = []
          · rw [if_pos ⟨trivial, hrest⟩, if_pos hrest, Option.bind_some]
            have hblocks : dirBlocks m1 f = dirBlocks m f := by
              rw [dirBlocks, dirBlocks, hgrow.size_eq hw hf]
            have hend : lookupEnd m f (path.takeWhile (· ≠ slash)) = dirBlocks m f := by
              rw [lookupEnd, he]
              rfl
            rw [hend, ← hblocks] at hpres
            rw [createEnd_none_iff hw1 (hds1 f hf1 hdir1) hdir1 hname hpres]
            cases hany : (List.range (16 * dirBlocks m f)).any (unusedAt m f) with
            | true =>
                -- There is an unused entry, also after the holes have been filled.
                have hany1 : (List.range (16 * dirBlocks m1 f)).any (unusedAt m1 f) = true := by
                  rw [hblocks, ← hany]
                  exact any_unused_congr hd.size_le fun i hi => hgrow.fileByte_self hw hf hi
                rw [allocNeed, allocNeed, if_pos hany, if_pos hany1]
                omega
            | false =>
                have hzero := missing_zero hany
                rw [lookupNeed, hend, hzero] at hgrow
                cases hgrow
                rw [lookupNeed, hend, hzero]
                omega
          · rw [if_neg fun hc => hrest hc.2, if_neg hrest]
            exact iff_of_false (by simp [createEnd]) (by omega)
      | some e =>
          obtain ⟨hi, hb, hchild⟩ := lookupEntry_child hdir hd.size_le hname he
          have hentry : entryAt m1 f e = entryAt m f e := by
            rw [entryAt, entryAt, hgrow.blockPtr_keeps hw hf hi hb]
          have hg := hf.child hchild
          simp only [searchResult, hentry]
          rw [ih hw1 hds1 (hgrow.fileAt hw hg) hprest (by omega),
            createNeed_congr hds hg hprest fun x hx => ?_]
          · omega
          · have hbelow : Relation.TransGen (Child m) f x := Relation.TransGen.head' hchild hx
            obtain ⟨hxf, hnot⟩ := hw.below_other hf hbelow
            exact hgrow.sameFile hw hf (hg.descendant hx) hxf hnot

end

/-! ## The four calls -/

inductive FsCall
  | getBlock (f : Nat) (filebno : BitVec 32)
  | create (path : List (BitVec 8))
  | write (f buf : Nat) (count offset : BitVec 32)
  | read (f buf : Nat) (count offset : BitVec 32)

/-- The returned value of a function that stores a pointer. -/
def returnOf : Except Int Nat → Int
  | .ok _ => 0
  | .error r => r

/-- The memory and the returned value of a call. -/
def FsCall.run (m : Mem) : FsCall → Option (Mem × Int)
  | .getBlock f filebno => (fileGetBlock m f filebno).map fun res => (res.1, returnOf res.2)
  | .create path => (fileCreate m path).map fun res => (res.1, returnOf res.2)
  | .write f buf count offset => (fileWrite m f buf count offset).map fun res => (res.1, res.2.2)
  | .read f buf count offset => (fileRead m f buf count offset).map fun res => (res.1, res.2.2)

/-- The arguments are those of a call: a file, a buffer beside the disk, a string. A buffer that reaches
into the disk region, as that of `serve_read` does for a count of more than a page, is another matter:
the call overwrites the disk and may panic without a block missing. -/
def FsCall.Ok (m : Mem) : FsCall → Prop
  | .getBlock f _ => FileAt m f
  | .create path => 0#8 ∉ path
  | .write f buf count _ => FileAt m f ∧ Beside buf (min count.toNat maxfilesize)
  | .read f buf count _ => FileAt m f ∧ Beside buf (min count.toNat maxfilesize)

/-- The blocks that are free when the call begins to take blocks. -/
def FsCall.free (m : Mem) : FsCall → Nat
  | .write f _ count offset => startFree m f (offset + count)
  | _ => (freeBlocks m).length

/-- The blocks that it takes. -/
def FsCall.need (m : Mem) : FsCall → Nat
  | .getBlock f filebno => if filebno.toNat < maxblocks then blockNeed m f filebno.toNat else 0
  | .create path => createNeed (path.length + 1) m sRoot (skipSlash path)
  | .write f _ count offset => writeNeed m f count offset
  | .read f _ count offset => readNeed m f count offset

/-- `alloc_block` finds no free block in the course of the call. -/
def FsCall.FindsFull (m : Mem) (c : FsCall) : Prop := c.free m < c.need m

/-- A well formed file system. -/
structure Sound (m : Mem) : Prop where
  wf : Wf m
  size_le : ∀ f, FileAt m f → (fSize m f).toNat ≤ maxfilesize
  aligned : ∀ d, FileAt m d → fType m d = ftypeDir → Aligned m d

/-- The call returns, that is, `diskaddr` sees only block numbers on the disk; and when no block is
free, it returns `-E_NO_DISK` and the block numbers of all files are zero or on the disk. -/
def FsCall.ReportsFull (m : Mem) (c : FsCall) : Prop := ∃ m' r, c.run m = some (m', r) ∧
  (c.FindsFull m → r = -eNoDisk ∧
    ∀ p : Place, p.Valid m' → p.value m' = 0 ∨ p.value m' < (sNblocks m').toNat)

theorem FsCall.run_none_iff {m : Mem} {c : FsCall} (hs : Sound m) (hc : c.Ok m) :
    c.run m = none ↔ c.FindsFull m := by
  cases c with
  | getBlock f filebno =>
      rw [FsCall.run, Option.map_eq_none_iff]
      simp only [FsCall.FindsFull, FsCall.free, FsCall.need]
      split
      · rename_i hi
        exact fileGetBlock_none_iff filebno hs.wf hc hi
      · rename_i hi
        rw [fileGetBlock_large (by omega)]
        exact iff_of_false (by simp) (by omega)
  | create path =>
      rw [FsCall.run, Option.map_eq_none_iff, fileCreate_eq]
      have hle := skipSlash_length_le path
      exact walk_none_iff hs.wf (fun d hd hdir => ⟨hd, hs.aligned d hd hdir, hs.size_le d hd⟩) .root
        (skipSlash_ok hc) (by omega)
  | write f buf count offset =>
      rw [FsCall.run, Option.map_eq_none_iff]
      exact fileWrite_none_iff hs.wf hc.1 (hs.size_le f hc.1) hc.2
  | read f buf count offset =>
      rw [FsCall.run, Option.map_eq_none_iff]
      exact fileRead_none_iff hs.wf hc.1 hc.2

/-- On every well formed file system a call whose buffer lies beside the disk does what it should about
a full disk if and only if it needs no more blocks than are free. -/
theorem full_disk_iff {m : Mem} {c : FsCall} (hs : Sound m) (hc : c.Ok m) :
    c.ReportsFull m ↔ ¬ c.FindsFull m := by
  constructor
  · rintro ⟨m', r, hrun, _⟩ hfull
    rw [(FsCall.run_none_iff hs hc).mpr hfull] at hrun
    cases hrun
  · intro hroom
    cases hrun : c.run m with
    | none => exact absurd ((FsCall.run_none_iff hs hc).mp hrun) hroom
    | some res => exact ⟨res.1, res.2, hrun, fun hfull => absurd hfull hroom⟩

theorem smallDisk_sound : Sound smallDisk := by
  refine ⟨smallDisk_wf, fun f hf => ?_, fun d hd hdir => ?_⟩
  · rcases smallDisk_fileAt hf with rfl | ⟨j, hj, rfl⟩
    · decide +kernel
    · exact smallDisk_fsWf.size_le _ ⟨hf, by
        have htype : ∀ k < blkfiles, fType smallDisk (smallFile + 256 * k) ≠ ftypeDir := by
          decide +kernel
        exact htype j hj⟩
  · rcases smallDisk_fileAt hd with rfl | ⟨j, hj, rfl⟩
    · decide +kernel
    · have htype : ∀ k < blkfiles, fType smallDisk (smallFile + 256 * k) ≠ ftypeDir := by
        decide +kernel
      exact absurd hdir (htype j hj)

/-- Ten more blocks fit on the small disk: nine of data and the indirect block. -/
theorem full_disk_room : (FsCall.write smallFile 4096 45056#32 0#32).ReportsFull smallDisk ∧
    (FsCall.create [47#8, 98#8]).ReportsFull smallDisk := by
  have hwrite : (FsCall.write smallFile 4096 45056#32 0#32).Ok smallDisk :=
    ⟨smallFile_fileAt, Or.inl (by decide)⟩
  have hcreate : (FsCall.create [47#8, 98#8]).Ok smallDisk := by simp [FsCall.Ok]
  refine ⟨(full_disk_iff smallDisk_sound hwrite).mpr ?_,
    (full_disk_iff smallDisk_sound hcreate).mpr ?_⟩
  · unfold FsCall.FindsFull
    decide +kernel
  · unfold FsCall.FindsFull
    decide +kernel

/-- One byte more, and the disk is full: `diskaddr` is called with `-E_NO_DISK`. -/
theorem full_disk_panics : Sound smallDisk ∧
    (FsCall.write smallFile 4096 45057#32 0#32).Ok smallDisk ∧
    (FsCall.write smallFile 4096 45057#32 0#32).run smallDisk = none ∧
    ¬ (FsCall.write smallFile 4096 45057#32 0#32).ReportsFull smallDisk := by
  have hok : (FsCall.write smallFile 4096 45057#32 0#32).Ok smallDisk :=
    ⟨smallFile_fileAt, Or.inl (by decide)⟩
  have hnone : (FsCall.write smallFile 4096 45057#32 0#32).run smallDisk = none :=
    (FsCall.run_none_iff smallDisk_sound hok).mpr (by unfold FsCall.FindsFull; decide +kernel)
  refine ⟨smallDisk_sound, hok, hnone, ?_⟩
  rintro ⟨m', r, hrun, _⟩
  rw [hnone] at hrun
  cases hrun

end Jos.Fs
