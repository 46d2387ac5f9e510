import Jos.Fs.Disk

/-!
# Which block belongs to whom

The files are the root and the entries of the blocks of directories. A place is where a block
number is stored: a direct slot of a file, its indirect slot, or an entry of its indirect
block. A disk is well formed when every block number stored at a place is that of a block in
use outside the reserved ones, and no block number is stored at two places. Everything else
about the disk, such as which parts of it hold block numbers, follows from that.
-/

namespace Jos.Fs

open Jos.Lib

theorem blockAddr_eq (b : Nat) : blockAddr b = diskmap + 4096 * b := rfl

theorem sRoot_eq : sRoot = diskmap + 4104 := rfl

theorem bitmapWord_eq (b : Nat) : bitmapWord b = diskmap + 8192 + 4 * (b / 32) := rfl

/-- The number of block `i` of file `f`; zero where nothing is allocated. -/
def blockPtr (m : Mem) (f i : Nat) : Nat :=
  if i < ndirect then (m.read32 (fDirect f i)).toNat
  else if indirect m f = 0#32 then 0
  else (m.read32 (blockAddr (indirect m f).toNat + 4 * (i - ndirect))).toNat

/-- The files: the root, and every entry in a block of a directory. -/
inductive FileAt (m : Mem) : Nat → Prop
  | root : FileAt m sRoot
  | entry {d i j : Nat} (h : FileAt m d) (hdir : fType m d = ftypeDir) (hi : i < maxblocks)
      (hb : blockPtr m d i ≠ 0) (hj : j < blkfiles) :
      FileAt m (blockAddr (blockPtr m d i) + 256 * j)

/-- Where a block number is stored. -/
inductive Place
  | direct (f i : Nat)
  | indirect (f : Nat)
  | entry (f k : Nat)
deriving DecidableEq

/-- The file of a place. -/
def Place.file : Place → Nat
  | .direct f _ => f
  | .indirect f => f
  | .entry f _ => f

/-- The address of a place. -/
def Place.addr (m : Mem) : Place → Nat
  | .direct f i => fDirect f i
  | .indirect f => fIndirect f
  | .entry f k => blockAddr (Fs.indirect m f).toNat + 4 * k

/-- The place exists on the disk. -/
def Place.Valid (m : Mem) : Place → Prop
  | .direct f i => FileAt m f ∧ i < ndirect
  | .indirect f => FileAt m f
  | .entry f k => FileAt m f ∧ Fs.indirect m f ≠ 0#32 ∧ k < nindirect

/-- The block number at a place. -/
def Place.value (m : Mem) (p : Place) : Nat := (m.read32 (p.addr m)).toNat

/-- The place of block `i` of file `f`. -/
def dataPlace (f i : Nat) : Place := if i < ndirect then .direct f i else .entry f (i - ndirect)

/-- The first block after the super block and the bitmap. -/
def firstBlock (m : Mem) : Nat := 2 + ((sNblocks m).toNat + 32767) / 32768

structure Wf (m : Mem) : Prop where
  nblocks_le : (sNblocks m).toNat ≤ 786432
  reserved : ∀ b < firstBlock m, b < (sNblocks m).toNat → ¬ bitSet m b
  ptr_lt : ∀ p : Place, p.Valid m → p.value m ≠ 0 → p.value m < (sNblocks m).toNat
  ptr_ge : ∀ p : Place, p.Valid m → p.value m ≠ 0 → firstBlock m ≤ p.value m
  ptr_used : ∀ p : Place, p.Valid m → p.value m ≠ 0 → ¬ bitSet m (p.value m)
  ptr_unique : ∀ p q : Place, p.Valid m → q.Valid m → p.value m ≠ 0 → p.value m = q.value m → p = q

section

variable {m m' : Mem} {f g d i j b : Nat} {p q : Place}

theorem Place.Valid.fileAt (h : p.Valid m) : FileAt m p.file := by
  cases p with
  | direct f i => exact h.1
  | indirect f => exact h
  | entry f k => exact h.1

theorem dataPlace_file (f i : Nat) : (dataPlace f i).file = f := by
  rw [dataPlace]
  split <;> rfl

theorem dataPlace_inj (h : dataPlace f i = dataPlace g j) : f = g ∧ i = j := by
  simp only [dataPlace] at h
  split at h
  · split at h
    · simpa using h
    · cases h
  · split at h
    · cases h
    · simp only [Place.entry.injEq] at h
      exact ⟨h.1, by omega⟩

theorem dataPlace_ne_indirect : dataPlace f i ≠ .indirect g := by
  rw [dataPlace]
  split <;> simp

/-- The place of a block that exists is on the disk and holds its number. -/
theorem dataPlace_valid (hf : FileAt m f) (hi : i < maxblocks) (hb : blockPtr m f i ≠ 0) :
    (dataPlace f i).Valid m ∧ (dataPlace f i).value m = blockPtr m f i := by
  rw [dataPlace]
  rw [blockPtr] at hb ⊢
  split
  · rename_i hlt
    exact ⟨⟨hf, hlt⟩, rfl⟩
  · rename_i hge
    rw [if_neg hge] at hb
    have hind : indirect m f ≠ 0#32 := fun hz => hb (if_pos hz)
    refine ⟨⟨hf, hind, ?_⟩, ?_⟩
    · simp only [maxblocks, ndirect, nindirect] at hi hge ⊢
      omega
    · rw [if_neg hind]
      rfl

/-! ## Where the files and the places are -/

/-- A file is the root or lies in a block of its directory. -/
theorem FileAt.cases_block (h : FileAt m f) :
    f = sRoot ∨ ∃ d i j, FileAt m d ∧ fType m d = ftypeDir ∧ i < maxblocks ∧ blockPtr m d i ≠ 0 ∧
      j < blkfiles ∧ f = blockAddr (blockPtr m d i) + 256 * j := by
  cases h with
  | root => exact Or.inl rfl
  | @entry d i j hd hdir hi hb hj => exact Or.inr ⟨d, i, j, hd, hdir, hi, hb, hj, rfl⟩

/-- A block that a place owns. -/
structure Owned (m : Mem) (p : Place) (b : Nat) : Prop where
  valid : p.Valid m
  value : p.value m = b
  ne_zero : b ≠ 0

theorem owned_data (hf : FileAt m f) (hi : i < maxblocks) (hb : blockPtr m f i ≠ 0) :
    Owned m (dataPlace f i) (blockPtr m f i) := by
  obtain ⟨hv, hval⟩ := dataPlace_valid hf hi hb
  exact ⟨hv, hval, hb⟩

theorem owned_indirect (hf : FileAt m f) (hind : indirect m f ≠ 0#32) :
    Owned m (.indirect f) (indirect m f).toNat := by
  refine ⟨hf, rfl, fun hz => hind ?_⟩
  exact BitVec.eq_of_toNat_eq hz

theorem Owned.lt (h : Owned m p b) (hw : Wf m) : b < (sNblocks m).toNat := by
  rw [← h.value]
  exact hw.ptr_lt p h.valid (by rw [h.value]; exact h.ne_zero)

theorem Owned.ge (h : Owned m p b) (hw : Wf m) : firstBlock m ≤ b := by
  rw [← h.value]
  exact hw.ptr_ge p h.valid (by rw [h.value]; exact h.ne_zero)

theorem Owned.used (h : Owned m p b) (hw : Wf m) : ¬ bitSet m b := by
  rw [← h.value]
  exact hw.ptr_used p h.valid (by rw [h.value]; exact h.ne_zero)

theorem Owned.unique (h : Owned m p b) (h' : Owned m q b) (hw : Wf m) : p = q :=
  hw.ptr_unique p q h.valid h'.valid (by rw [h.value]; exact h.ne_zero) (by rw [h.value, h'.value])

/-- Different files do not overlap. -/
theorem Wf.files_disjoint (hw : Wf m) (hf : FileAt m f) (hg : FileAt m g) (hne : f ≠ g) :
    f + 256 ≤ g ∨ g + 256 ≤ f := by
  have hroot : ∀ {d i j : Nat}, FileAt m d → i < maxblocks → blockPtr m d i ≠ 0 →
      sRoot + 256 ≤ blockAddr (blockPtr m d i) + 256 * j := by
    intro d i j hd hi hb
    have hge := (owned_data hd hi hb).ge hw
    simp only [firstBlock, sRoot_eq, blockAddr_eq] at hge ⊢
    omega
  rcases hf.cases_block with rfl | ⟨d, i, j, hd, _, hi, hb, hj, rfl⟩
  · rcases hg.cases_block with rfl | ⟨d', i', j', hd', _, hi', hb', hj', rfl⟩
    · exact absurd rfl hne
    · exact Or.inl (hroot hd' hi' hb')
  · rcases hg.cases_block with rfl | ⟨d', i', j', hd', _, hi', hb', hj', rfl⟩
    · exact Or.inr (hroot hd hi hb)
    · simp only [blkfiles, blockAddr_eq] at hj hj' hne ⊢
      omega

/-- A file does not lie in an indirect block. -/
theorem Wf.file_indirect_disjoint (hw : Wf m) (hf : FileAt m f) (hg : FileAt m g)
    (hind : indirect m g ≠ 0#32) : f + 256 ≤ blockAddr (indirect m g).toNat ∨
      blockAddr (indirect m g).toNat + 4096 ≤ f := by
  have hown := owned_indirect hg hind
  rcases hf.cases_block with rfl | ⟨d, i, j, hd, _, hi, hb, hj, rfl⟩
  · have hge := hown.ge hw
    simp only [firstBlock, sRoot_eq, blockAddr_eq] at hge ⊢
    omega
  · have hne : blockPtr m d i ≠ (indirect m g).toNat := by
      intro heq
      have hown' := owned_data hd hi hb
      rw [heq] at hown'
      exact dataPlace_ne_indirect (hown'.unique hown hw)
    simp only [blkfiles, blockAddr_eq] at hj ⊢
    omega

/-- A place is in its file or in the indirect block of its file. -/
theorem Place.Valid.cases_addr (hp : p.Valid m) :
    (p.file + 136 ≤ p.addr m ∧ p.addr m + 4 ≤ p.file + 180) ∨ ∃ k < nindirect,
      p = .entry p.file k ∧ Fs.indirect m p.file ≠ 0#32 ∧
        p.addr m = blockAddr (Fs.indirect m p.file).toNat + 4 * k := by
  cases p with
  | direct f i =>
      have hi := hp.2
      simp only [ndirect] at hi
      left
      simp only [Place.file, Place.addr, fDirect]
      omega
  | indirect f =>
      left
      simp only [Place.file, Place.addr, fIndirect]
      omega
  | entry f k => exact Or.inr ⟨k, hp.2.2, rfl, hp.2.1, rfl⟩

/-- Name, size and type of a file hold no place. -/
theorem Wf.header_disjoint (hw : Wf m) (hf : FileAt m f) (hp : p.Valid m) :
    p.addr m + 4 ≤ f ∨ f + 136 ≤ p.addr m := by
  rcases hp.cases_addr with hin | ⟨k, hk, _, hind, haddr⟩
  · by_cases hfile : f = p.file
    · omega
    · have := hw.files_disjoint hf hp.fileAt hfile
      omega
  · have := hw.file_indirect_disjoint hf hp.fileAt hind
    simp only [nindirect] at hk
    omega

/-- Two places in one file. -/
theorem disjoint_of_file_eq (hne : p ≠ q) (hfile : p.file = q.file)
    (hp : ∀ k, p ≠ .entry p.file k) (hq : ∀ k, q ≠ .entry q.file k)
    (hvp : p.Valid m) (hvq : q.Valid m) :
    p.addr m + 4 ≤ q.addr m ∨ q.addr m + 4 ≤ p.addr m := by
  cases p with
  | direct f i =>
      have hi := hvp.2
      cases q with
      | direct g j =>
          obtain rfl : f = g := hfile
          have hij : i ≠ j := fun h => hne (by rw [h])
          simp only [Place.addr, fDirect]
          omega
      | indirect g =>
          obtain rfl : f = g := hfile
          simp only [Place.addr, fDirect, fIndirect, ndirect] at hi ⊢
          omega
      | entry g k => exact absurd rfl (hq k)
  | indirect f =>
      cases q with
      | direct g j =>
          obtain rfl : f = g := hfile
          have hj := hvq.2
          simp only [Place.addr, fDirect, fIndirect, ndirect] at hj ⊢
          omega
      | indirect g =>
          obtain rfl : f = g := hfile
          exact absurd rfl hne
      | entry g k => exact absurd rfl (hq k)
  | entry f k => exact absurd rfl (hp k)

/-- A place inside a file is no entry of an indirect block. -/
theorem Wf.ne_entry (hw : Wf m) (hp : p.Valid m)
    (hin : p.file + 136 ≤ p.addr m ∧ p.addr m + 4 ≤ p.file + 180) (k : Nat) :
    p ≠ .entry p.file k := by
  cases p with
  | direct f i => simp
  | indirect f => simp
  | entry f l =>
      have := hw.file_indirect_disjoint hp.1 hp.1 hp.2.1
      have hl := hp.2.2
      simp only [nindirect] at hl
      simp only [Place.addr, Place.file] at hin
      omega

/-- Different places do not overlap. -/
theorem Wf.places_disjoint (hw : Wf m) (hp : p.Valid m) (hq : q.Valid m) (hne : p ≠ q) :
    p.addr m + 4 ≤ q.addr m ∨ q.addr m + 4 ≤ p.addr m := by
  rcases hp.cases_addr with hp' | ⟨k, hk, hpe, hpi, hpa⟩
  · rcases hq.cases_addr with hq' | ⟨l, hl, _, hqi, hqa⟩
    · by_cases hfile : p.file = q.file
      · exact disjoint_of_file_eq hne hfile (hw.ne_entry hp hp') (hw.ne_entry hq hq') hp hq
      · have := hw.files_disjoint hp.fileAt hq.fileAt hfile
        omega
    · have := hw.file_indirect_disjoint hp.fileAt hq.fileAt hqi
      simp only [nindirect] at hl
      omega
  · simp only [nindirect] at hk
    rcases hq.cases_addr with hq' | ⟨l, hl, hqe, hqi, hqa⟩
    · have := hw.file_indirect_disjoint hq.fileAt hp.fileAt hpi
      omega
    · simp only [nindirect] at hl
      by_cases hblock : (indirect m p.file).toNat = (indirect m q.file).toNat
      · have hpo := owned_indirect hp.fileAt hpi
        have hqo := owned_indirect hq.fileAt hqi
        rw [hblock] at hpo
        have hfile : p.file = q.file := Place.indirect.inj (hpo.unique hqo hw)
        have hkl : k ≠ l := fun h => hne (by rw [hpe, hqe, h, hfile])
        rw [hpa, hqa, hblock]
        omega
      · rw [hpa, hqa]
        simp only [blockAddr_eq]
        omega

/-! ## The parts of the disk -/

/-- The bytes of the root and of the blocks in use outside the reserved ones. -/
def InBody (m : Mem) (a n : Nat) : Prop :=
  (sRoot ≤ a ∧ a + n ≤ sRoot + 256) ∨ ∃ c, firstBlock m ≤ c ∧ c < (sNblocks m).toNat ∧
    ¬ bitSet m c ∧ blockAddr c ≤ a ∧ a + n ≤ blockAddr c + 4096

theorem Wf.file_inBody (hw : Wf m) (hf : FileAt m f) : InBody m f 256 := by
  rcases hf.cases_block with rfl | ⟨d, i, j, hd, _, hi, hb, hj, rfl⟩
  · exact Or.inl ⟨Nat.le_refl _, Nat.le_refl _⟩
  · have hown := owned_data hd hi hb
    refine Or.inr ⟨blockPtr m d i, hown.ge hw, hown.lt hw, hown.used hw, ?_⟩
    simp only [blkfiles] at hj
    omega

theorem Wf.place_inBody (hw : Wf m) (hp : p.Valid m) : InBody m (p.addr m) 4 := by
  rcases hp.cases_addr with hin | ⟨k, hk, _, hind, haddr⟩
  · rcases hw.file_inBody hp.fileAt with h | ⟨c, h1, h2, h3, h4⟩
    · exact Or.inl (by omega)
    · exact Or.inr ⟨c, h1, h2, h3, by omega⟩
  · have hown := owned_indirect hp.fileAt hind
    refine Or.inr ⟨_, hown.ge hw, hown.lt hw, hown.used hw, ?_⟩
    simp only [nindirect] at hk
    omega

/-- The word of a block in the bitmap lies in the reserved blocks. -/
theorem bitmapWord_le (hb : b < (sNblocks m).toNat) :
    diskmap + 8192 ≤ bitmapWord b ∧ bitmapWord b + 4 ≤ blockAddr (firstBlock m) := by
  simp only [bitmapWord_eq, blockAddr_eq, firstBlock]
  omega

theorem InBody.bitmap_disjoint {a n : Nat} (h : InBody m a n) (hb : b < (sNblocks m).toNat) :
    a + n ≤ bitmapWord b ∨ bitmapWord b + 4 ≤ a := by
  have hword := bitmapWord_le hb
  rcases h with h | ⟨c, hc, _, _, h⟩
  · simp only [sRoot_eq] at h
    omega
  · simp only [blockAddr_eq] at hword h
    omega

/-- A block that is free or reserved is apart from everything in use. -/
theorem InBody.block_disjoint {a n : Nat} (h : InBody m a n) (hb2 : 2 ≤ b) (hb : bitSet m b) :
    a + n ≤ blockAddr b ∨ blockAddr b + 4096 ≤ a := by
  rcases h with h | ⟨c, hc, _, hused, h⟩
  · simp only [sRoot_eq, blockAddr_eq] at h ⊢
    omega
  · have hne : c ≠ b := by
      rintro rfl
      exact hused hb
    simp only [blockAddr_eq] at h ⊢
    omega

/-- The word with the number of blocks. -/
theorem InBody.nblocks_disjoint {a n : Nat} (h : InBody m a n) :
    a + n ≤ superAddr + 4 ∨ superAddr + 8 ≤ a := by
  have hsuper : superAddr = diskmap + 4096 := rfl
  rcases h with h | ⟨c, hc, _, _, h⟩
  · simp only [sRoot_eq] at h
    omega
  · simp only [blockAddr_eq, firstBlock] at h hc
    omega

end

/-! ## A small disk -/

/-- The first entry of the root of `smallDisk`. -/
def smallFile : Nat := diskmap + 12288

/-- Sixteen blocks. The root is a directory with block 3, where one file of 5000 bytes has the
blocks 4 and 5. -/
def smallDisk : Mem :=
  [(superAddr + 4, 16#32), (bitmapWord 0, 0xFFC0#32), (sRoot + 128, 4096#32),
    (sRoot + 132, ftypeDir), (fDirect sRoot 0, 3#32), (smallFile + 128, 5000#32),
    (fDirect smallFile 0, 4#32), (fDirect smallFile 1, 5#32), (blockAddr 5, 7#32)].foldl
      (fun m w => Mem.write32 m w.1 w.2) fun _ => 0

theorem smallDisk_fileAt {f : Nat} (hf : FileAt smallDisk f) :
    f = sRoot ∨ ∃ j < blkfiles, f = smallFile + 256 * j := by
  induction hf with
  | root => exact Or.inl rfl
  | @entry d i j _ hdir hi hb hj ih =>
      right
      rcases ih with rfl | ⟨k, hk, rfl⟩
      · have hzero : ∀ i < ndirect, i ≠ 0 → smallDisk.read32 (fDirect sRoot i) = 0#32 := by
          decide +kernel
        have hind : indirect smallDisk sRoot = 0#32 := by decide +kernel
        have h3 : smallDisk.read32 (fDirect sRoot 0) = 3#32 := by decide +kernel
        have hi0 : i = 0 := by
          by_contra hne
          refine hb ?_
          rw [blockPtr, if_pos hind]
          split
          · rename_i hlt
            rw [hzero i hlt hne]
            rfl
          · rfl
        refine ⟨j, hj, ?_⟩
        rw [hi0, blockPtr, if_pos (by decide), h3]
        rfl
      · have htype : ∀ k < blkfiles, fType smallDisk (smallFile + 256 * k) ≠ ftypeDir := by
          decide +kernel
        exact absurd hdir (htype k hk)

/-- The block numbers stored on the small disk. -/
theorem smallDisk_place {p : Place} (hp : p.Valid smallDisk) (hv : p.value smallDisk ≠ 0) :
    (p = .direct sRoot 0 ∧ p.value smallDisk = 3) ∨
      (p = .direct smallFile 0 ∧ p.value smallDisk = 4) ∨
        (p = .direct smallFile 1 ∧ p.value smallDisk = 5) := by
  have hroot : ∀ i < ndirect, (Place.direct sRoot i).value smallDisk ≠ 0 →
      i = 0 ∧ (Place.direct sRoot i).value smallDisk = 3 := by decide +kernel
  have hfile : ∀ j < blkfiles, ∀ i < ndirect,
      (Place.direct (smallFile + 256 * j) i).value smallDisk ≠ 0 →
      j = 0 ∧ (i = 0 ∧ (Place.direct (smallFile + 256 * j) i).value smallDisk = 4 ∨
        i = 1 ∧ (Place.direct (smallFile + 256 * j) i).value smallDisk = 5) := by decide +kernel
  have hind : ∀ f, FileAt smallDisk f → indirect smallDisk f = 0#32 := by
    intro f hf
    have hentry : ∀ j < blkfiles, indirect smallDisk (smallFile + 256 * j) = 0#32 := by
      decide +kernel
    rcases smallDisk_fileAt hf with rfl | ⟨j, hj, rfl⟩
    · decide +kernel
    · exact hentry j hj
  cases p with
  | direct f i =>
      rcases smallDisk_fileAt hp.1 with rfl | ⟨j, hj, rfl⟩
      · obtain ⟨rfl, h3⟩ := hroot i hp.2 hv
        exact Or.inl ⟨rfl, h3⟩
      · obtain ⟨rfl, ⟨rfl, h4⟩ | ⟨rfl, h5⟩⟩ := hfile j hj i hp.2 hv
        · exact Or.inr (Or.inl ⟨rfl, h4⟩)
        · exact Or.inr (Or.inr ⟨rfl, h5⟩)
  | indirect f =>
      refine absurd ?_ hv
      rw [Place.value, show smallDisk.read32 ((Place.indirect f).addr smallDisk) =
        indirect smallDisk f from rfl, hind f hp]
      rfl
  | entry f k => exact absurd (hind f hp.1) hp.2.1

theorem smallDisk_wf : Wf smallDisk := by
  refine ⟨by decide +kernel, by decide +kernel, fun p hp hv => ?_, fun p hp hv => ?_,
    fun p hp hv => ?_, fun p q hp hq hv heq => ?_⟩
  · have hn : (sNblocks smallDisk).toNat = 16 := by decide +kernel
    rcases smallDisk_place hp hv with ⟨_, h⟩ | ⟨_, h⟩ | ⟨_, h⟩ <;> rw [h, hn] <;> decide
  · have hfirst : firstBlock smallDisk = 3 := by decide +kernel
    rcases smallDisk_place hp hv with ⟨_, h⟩ | ⟨_, h⟩ | ⟨_, h⟩ <;> rw [h, hfirst] <;> decide
  · have hused : ∀ b < 6, ¬ bitSet smallDisk b := by decide +kernel
    rcases smallDisk_place hp hv with ⟨_, h⟩ | ⟨_, h⟩ | ⟨_, h⟩ <;> rw [h] <;>
      exact hused _ (by decide)
  · have hv' : q.value smallDisk ≠ 0 := by rwa [← heq]
    rcases smallDisk_place hp hv with ⟨rfl, h⟩ | ⟨rfl, h⟩ | ⟨rfl, h⟩ <;>
      rcases smallDisk_place hq hv' with ⟨rfl, h'⟩ | ⟨rfl, h'⟩ | ⟨rfl, h'⟩ <;>
        first | rfl | (rw [h, h'] at heq; exact absurd heq (by decide))

theorem smallFile_fileAt : FileAt smallDisk smallFile := by
  have h := FileAt.entry (m := smallDisk) (i := 0) (j := 0) .root (by decide +kernel) (by decide)
    (by decide +kernel) (by decide)
  have heq : blockAddr (blockPtr smallDisk sRoot 0) + 256 * 0 = smallFile := by decide +kernel
  rwa [heq] at h

end Jos.Fs
