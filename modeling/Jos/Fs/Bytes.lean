import Jos.Fs.Ownership

/-!
# The bytes of the files

What a file contains, and which steps of the file system change it: taking a block changes no
byte, since a block that is not there reads as zeros and a new one is cleared; writing into a
block of a file changes those bytes of that file only. A directory contains the entries of its
files, so the bytes of `f` in its directory change whenever size or block numbers of `f` do.
-/

namespace Jos.Fs

open Jos.Lib

/-- The address of byte `i` of file `g`, where its block is allocated. -/
def byteAddr (m : Mem) (g i : Nat) : Nat := blockAddr (blockPtr m g (i / 4096)) + i % 4096

/-- Byte `i` of file `g` as it is read. -/
def fileByte (m : Mem) (g i : Nat) : BitVec 8 :=
  if blockPtr m g (i / 4096) = 0 then 0 else m (byteAddr m g i)

/-- Byte `i` of the directory `g` belongs to the entry `f`. -/
def InEntry (m : Mem) (f g i : Nat) : Prop :=
  blockPtr m g (i / 4096) ≠ 0 ∧ f ≤ byteAddr m g i ∧ byteAddr m g i < f + 256

/-- The size of `f` is now `s` and the bytes of `f` in `R` may have changed; everything else
about the files is as before. -/
structure Rewritten (f : Nat) (s : BitVec 32) (R : Nat → Prop) (m m' : Mem) : Prop where
  wf : Wf m'
  files : ∀ g, FileAt m' g ↔ FileAt m g
  type : ∀ g, FileAt m g → fType m' g = fType m g
  size : ∀ g, FileAt m g → fSize m' g = if g = f then s else fSize m g
  entry : ∀ g i, FileAt m g → i < maxfilesize → InEntry m' f g i → InEntry m f g i
  byte : ∀ g i, FileAt m g → i < maxfilesize → ¬ InEntry m f g i → (g = f → ¬ R i) →
    fileByte m' g i = fileByte m g i

section

variable {m m' m1 : Mem} {f g i b n : Nat} {p : Place} {s s' : BitVec 32} {R R' : Nat → Prop}

theorem block_lt (hi : i < maxfilesize) : i / 4096 < maxblocks := by
  simp only [maxfilesize, maxblocks] at hi ⊢
  omega

/-- Bytes of one block are next to each other. -/
theorem byteAddr_add {pos : Nat} (hle : pos ≤ i) (hblk : pos % 4096 + (i - pos) < 4096) :
    byteAddr m f i = byteAddr m f pos + (i - pos) := by
  have hdiv : i / 4096 = pos / 4096 := by omega
  simp only [byteAddr, hdiv]
  omega

theorem Rewritten.refl (hw : Wf m) : Rewritten f (fSize m f) R m m := by
  refine ⟨hw, fun _ => Iff.rfl, fun _ _ => rfl, fun g _ => ?_, fun _ _ _ _ h => h,
    fun _ _ _ _ _ _ => rfl⟩
  split
  · rename_i heq
    rw [heq]
  · rfl

theorem Rewritten.trans (h : Rewritten f s R m m1) (h' : Rewritten f s' R' m1 m') :
    Rewritten f s' (fun i => R i ∨ R' i) m m' := by
  refine ⟨h'.wf, fun g => (h'.files g).trans (h.files g), fun g hg => ?_, fun g hg => ?_,
    fun g i hg hi hin => ?_, fun g i hg hi hin hR => ?_⟩
  · rw [h'.type g ((h.files g).mpr hg), h.type g hg]
  · rw [h'.size g ((h.files g).mpr hg), h.size g hg]
    split <;> rfl
  · exact h.entry g i hg hi (h'.entry g i ((h.files g).mpr hg) hi hin)
  · rw [h'.byte g i ((h.files g).mpr hg) hi (fun hin' => hin (h.entry g i hg hi hin'))
      fun heq hr => hR heq (Or.inr hr)]
    exact h.byte g i hg hi hin fun heq hr => hR heq (Or.inl hr)

/-- A second step that keeps the size. -/
theorem Rewritten.next (h : Rewritten f s R m m1) (hf : FileAt m f)
    (h' : Rewritten f (fSize m1 f) R' m1 m') : Rewritten f s (fun i => R i ∨ R' i) m m' := by
  have hboth := h.trans h'
  rw [h.size f hf, if_pos rfl] at hboth
  exact hboth

theorem Rewritten.mono (h : Rewritten f s R m m') (hR : ∀ i, R i → R' i) :
    Rewritten f s R' m m' :=
  ⟨h.wf, h.files, h.type, h.size, h.entry, fun g i hg hi hin hr =>
    h.byte g i hg hi hin fun heq hRi => hr heq (hR i hRi)⟩

/-! ## The block of a byte -/

/-- A block of a file that is no directory holds no file. -/
theorem Wf.data_file_disjoint (hw : Wf m) (hf : FileAt m f) (hreg : fType m f ≠ ftypeDir)
    (hi : i < maxblocks) (hb : blockPtr m f i ≠ 0) (hg : FileAt m g) :
    g + 256 ≤ blockAddr (blockPtr m f i) ∨ blockAddr (blockPtr m f i) + 4096 ≤ g := by
  have hown := owned_data hf hi hb
  rcases hg.cases_block with rfl | ⟨d, k, j, hd, hdir, hk, hb', hj, rfl⟩
  · have hge := hown.ge hw
    simp only [firstBlock, sRoot_eq, blockAddr_eq] at hge ⊢
    omega
  · have hne : blockPtr m d k ≠ blockPtr m f i := by
      intro heq
      have hown' := owned_data hd hk hb'
      rw [heq] at hown'
      obtain ⟨rfl, _⟩ := dataPlace_inj (hown'.unique hown hw)
      exact hreg hdir
    simp only [blkfiles, blockAddr_eq] at hj ⊢
    omega

/-- No byte of a file that is no directory belongs to an entry. -/
theorem Wf.not_inEntry (hw : Wf m) (hg : FileAt m g) (hreg : fType m g ≠ ftypeDir)
    (hf : FileAt m f) (hi : i < maxfilesize) : ¬ InEntry m f g i := by
  rintro ⟨hb, h1, h2⟩
  have := hw.data_file_disjoint hg hreg (block_lt hi) hb hf
  simp only [byteAddr] at h1 h2
  omega

/-- No file contains its own entry. -/
theorem Wf.not_inEntry_self (hw : Wf m) (hf : FileAt m f) (hi : i < maxfilesize) :
    ¬ InEntry m f f i := by
  rintro ⟨hb, h1, h2⟩
  have hown := owned_data hf (block_lt hi) hb
  simp only [byteAddr] at h1 h2
  generalize i / 4096 = k at hb hown h1 h2
  have hmod : i % 4096 < 4096 := Nat.mod_lt _ (by decide)
  induction hf with
  | root =>
      have hge := hown.ge hw
      simp only [firstBlock, sRoot_eq, blockAddr_eq] at hge h1 h2
      omega
  | @entry d l j hd _ hl hb' hj ih =>
      have hown' := owned_data hd hl hb'
      have hsame : blockPtr m d l = blockPtr m (blockAddr (blockPtr m d l) + 256 * j) k := by
        simp only [blkfiles, blockAddr_eq] at hj h1 h2 ⊢
        omega
      rw [hsame] at hown'
      obtain ⟨heq, _⟩ := dataPlace_inj (hown'.unique hown hw)
      rw [← heq] at hb hown h1 h2
      exact ih hb hown h1 h2

/-- A place outside file `f` and a data block are apart. -/
theorem Wf.data_place_disjoint (hw : Wf m) (hg : FileAt m g) (hi : i < maxblocks)
    (hb : blockPtr m g i ≠ 0) (hp : p.Valid m) :
    (p.file + 136 ≤ p.addr m ∧ p.addr m + 4 ≤ p.file + 180) ∨
      p.addr m + 4 ≤ blockAddr (blockPtr m g i) ∨
        blockAddr (blockPtr m g i) + 4096 ≤ p.addr m := by
  rcases hp.cases_addr with hin | ⟨k, hk, _, hind, haddr⟩
  · exact Or.inl hin
  · have hne : blockPtr m g i ≠ (indirect m p.file).toNat := by
      intro heq
      have hown := owned_data hg hi hb
      rw [heq] at hown
      exact dataPlace_ne_indirect (hown.unique (owned_indirect hp.fileAt hind) hw)
    simp only [nindirect] at hk
    simp only [blockAddr_eq] at haddr ⊢
    omega

theorem Wf.data_inBody (hw : Wf m) (hg : FileAt m g) (hi : i < maxblocks)
    (hb : blockPtr m g i ≠ 0) : InBody m (blockAddr (blockPtr m g i)) 4096 := by
  have hown := owned_data hg hi hb
  exact Or.inr ⟨_, hown.ge hw, hown.lt hw, hown.used hw, Nat.le_refl _, Nat.le_refl _⟩

theorem InBody.in_disk {a : Nat} (h : InBody m a n) (hw : Wf m) :
    diskmap ≤ a ∧ a + n ≤ diskmap + disksize := by
  have hn := hw.nblocks_le
  have hdisk : disksize = 3221225472 := rfl
  rcases h with h | ⟨c, _, hc, _, h⟩
  · have hroot := sRoot_eq
    exact ⟨by omega, by omega⟩
  · simp only [blockAddr_eq] at h
    omega

/-! ## Taking a block -/

theorem Allocated.fileAt_of (h : Allocated m p b m') (hw : Wf m)
    (hreg : fType m p.file ≠ ftypeDir) (hg : FileAt m' g) : FileAt m g := by
  induction hg with
  | root => exact .root
  | @entry d i j _ hdir hi hb hj ih =>
      rw [(h.edited hw).type d ih] at hdir
      have hne : dataPlace d i ≠ p := by
        rintro rfl
        rw [dataPlace_file] at hreg
        exact hreg hdir
      rw [h.blockPtr_eq hw ih hi, if_neg hne] at hb ⊢
      exact .entry ih hdir hi hb hj

theorem Allocated.inEntry_of (h : Allocated m p b m') (hw : Wf m) (hg : FileAt m g)
    (hi : i < maxfilesize) (hin : InEntry m' p.file g i) : InEntry m p.file g i := by
  have hge := h.ge hw
  have h2 := firstBlock_ge m
  obtain ⟨hb, hlo, hhi⟩ := hin
  simp only [byteAddr] at hlo hhi
  rw [h.blockPtr_eq hw hg (block_lt hi)] at hb hlo hhi
  split at hlo
  · rename_i heq
    rw [if_pos heq] at hhi
    have := (hw.file_inBody h.valid.fileAt).block_disjoint (by omega) h.free
    omega
  · rename_i hne
    rw [if_neg hne] at hb hhi
    exact ⟨hb, hlo, hhi⟩

/-- Taking a block changes no byte of a file. -/
theorem Allocated.fileByte_eq (h : Allocated m p b m') (hw : Wf m) (hg : FileAt m g)
    (hi : i < maxfilesize) (hin : ¬ InEntry m p.file g i) : fileByte m' g i = fileByte m g i := by
  have hge := h.ge hw
  have h2 := firstBlock_ge m
  simp only [fileByte, byteAddr]
  rw [h.blockPtr_eq hw hg (block_lt hi)]
  split
  · rename_i heq
    have hz : blockPtr m g (i / 4096) = 0 := by
      by_contra hb
      obtain ⟨_, hval⟩ := dataPlace_valid hg (block_lt hi) hb
      rw [heq, h.empty] at hval
      exact hb hval.symm
    rw [if_neg (by omega), if_pos hz]
    exact h.cleared _ (by omega) (by omega)
  · split
    · rfl
    · rename_i hb
      have hbody := hw.data_inBody hg (block_lt hi) hb
      have hdis := hw.data_place_disjoint hg (block_lt hi) hb h.valid
      have hout : ¬ (p.file ≤ byteAddr m g i ∧ byteAddr m g i < p.file + 256) :=
        fun hin' => hin ⟨hb, hin'⟩
      simp only [byteAddr] at hout
      have hword := hbody.bitmap_disjoint h.lt
      have hblk := hbody.block_disjoint (by omega) h.free
      exact h.same _ (by omega) (by omega) (by omega)

theorem Allocated.rewritten (h : Allocated m p b m') (hw : Wf m)
    (hreg : fType m p.file ≠ ftypeDir) :
    Rewritten p.file (fSize m p.file) (fun _ => False) m m' := by
  refine ⟨h.wf hw, fun g => ⟨h.fileAt_of hw hreg, h.fileAt hw⟩, (h.edited hw).type,
    fun g hg => ?_, fun g i hg hi => h.inEntry_of hw hg hi,
    fun g i hg hi hin _ => h.fileByte_eq hw hg hi hin⟩
  rw [(h.edited hw).size g hg]
  split
  · rename_i heq
    rw [heq]
  · rfl

theorem Grows.rewritten (h : Grows f m n m') (hw : Wf m) (hf : FileAt m f)
    (hreg : fType m f ≠ ftypeDir) : Rewritten f (fSize m f) (fun _ => False) m m' := by
  induction h with
  | refl => exact .refl hw
  | @step n b m1 m' p h hfile halloc ih =>
      have hstep := halloc.rewritten (h.wf hw) (by
        rw [hfile, h.type_eq hw hf]
        exact hreg)
      rw [hfile, h.size_eq hw hf] at hstep
      exact (ih.trans hstep).mono fun _ hF => hF.elim id id

theorem Grows.fileByte_self (h : Grows f m n m') (hw : Wf m) (hf : FileAt m f)
    (hi : i < maxfilesize) : fileByte m' f i = fileByte m f i := by
  induction h with
  | refl => rfl
  | @step n b m1 m' p h hfile halloc ih =>
      have hw1 := h.wf hw
      have hf1 := h.fileAt hw hf
      rw [halloc.fileByte_eq hw1 hf1 hi (by rw [hfile]; exact hw1.not_inEntry_self hf1 hi), ih]

/-- Memory outside the disk is as before. -/
def OutsideSame (m m' : Mem) : Prop :=
  ∀ x, (x < diskmap ∨ diskmap + disksize ≤ x) → m' x = m x

theorem Allocated.outside (h : Allocated m p b m') (hw : Wf m) : OutsideSame m m' := by
  intro x hx
  have hp := (hw.place_inBody h.valid).in_disk hw
  have hword := bitmapWord_le h.lt
  have hn := hw.nblocks_le
  have hlt := h.lt
  have hdisk : disksize = 3221225472 := rfl
  have hge := h.ge hw
  simp only [blockAddr_eq] at hword
  exact h.same x (by omega) (by omega) (by simp only [blockAddr_eq]; omega)

theorem Grows.outside (h : Grows f m n m') (hw : Wf m) : OutsideSame m m' := by
  induction h with
  | refl => exact fun _ _ => rfl
  | step h _ halloc ih =>
      intro x hx
      rw [halloc.outside (h.wf hw) x hx, ih x hx]

/-! ## Writing -/

/-- A change that moves no block changes the bytes that it writes. -/
theorem Unmoved.rewritten (h : Unmoved m m') (hw : Wf m)
    (hsize : ∀ g, FileAt m g → fSize m' g = if g = f then s else fSize m g)
    (hbyte : ∀ g i, FileAt m g → i < maxfilesize → blockPtr m g (i / 4096) ≠ 0 →
      ¬ InEntry m f g i → (g = f → ¬ R i) → m' (byteAddr m g i) = m (byteAddr m g i)) :
    Rewritten f s R m m' := by
  have haddr : ∀ g i, FileAt m g → i < maxfilesize → byteAddr m' g i = byteAddr m g i := by
    intro g i hg hi
    rw [byteAddr, byteAddr, h.blockPtr_eq hg (block_lt hi)]
  refine ⟨h.wf hw, fun g => h.fileAt_iff, h.type, hsize, fun g i hg hi hin => ?_,
    fun g i hg hi hin hR => ?_⟩
  · rw [InEntry, haddr g i hg hi, h.blockPtr_eq hg (block_lt hi)] at hin
    exact hin
  · rw [fileByte, fileByte, haddr g i hg hi, h.blockPtr_eq hg (block_lt hi)]
    split
    · rfl
    · rename_i hb
      exact hbyte g i hg hi hb hin hR

theorem rewritten_size (hw : Wf m) (hf : FileAt m f) (s : BitVec 32) :
    Rewritten f s (fun _ => False) m (m.write32 (f + 128) s) := by
  refine (unmoved_size hw hf s).rewritten hw (fun g hg => ?_) fun g i hg hi hb hin _ => ?_
  · by_cases heq : g = f
    · rw [if_pos heq, heq]
      exact Mem.read32_write32_self ..
    · have := hw.files_disjoint hg hf heq
      rw [if_neg heq, fSize, Mem.read32_write32_of_disjoint _ _ (by omega)]
      rfl
  · have hout : ¬ (f ≤ byteAddr m g i ∧ byteAddr m g i < f + 256) := fun h => hin ⟨hb, h⟩
    exact Mem.write32_of_disjoint _ _ (by omega)

/-- A store to the `n` bytes at `a` within one block of a file that is no directory. -/
theorem unmoved_data {a : Nat} (src : Nat) (hw : Wf m) (hf : FileAt m f) (hreg : fType m f ≠ ftypeDir)
    (hi : i < maxblocks) (hb : blockPtr m f i ≠ 0) (ha : blockAddr (blockPtr m f i) ≤ a)
    (ha' : a + n ≤ blockAddr (blockPtr m f i) + 4096) :
    Unmoved m (m.move a src n) ∧ ∀ g, FileAt m g → fSize (m.move a src n) g = fSize m g := by
  have hbody := hw.data_inBody hf hi hb
  have hfiles : ∀ g, FileAt m g → g + 256 ≤ a ∨ a + n ≤ g := by
    intro g hg
    have := hw.data_file_disjoint hf hreg hi hb hg
    omega
  refine ⟨⟨?_, fun g hg => ?_, fun q hq => ?_, fun c hc => ?_⟩, fun g hg => ?_⟩
  · have := hbody.nblocks_disjoint
    rw [sNblocks, Mem.read32_move_of_disjoint _ (by omega)]
    rfl
  · have := hfiles g hg
    rw [fType, Mem.read32_move_of_disjoint _ (by omega)]
    rfl
  · have hfile := hfiles _ hq.fileAt
    have := hw.data_place_disjoint hf hi hb hq
    rw [Mem.read32_move_of_disjoint _ (by omega)]
  · have := hbody.bitmap_disjoint hc
    rw [bitSet, Mem.read32_move_of_disjoint _ (by omega)]
    rfl
  · have := hfiles g hg
    rw [fSize, Mem.read32_move_of_disjoint _ (by omega)]
    rfl

/-- Copying `n` bytes to position `pos` of a file, within one block. -/
theorem rewritten_data {pos : Nat} (src : Nat) (hw : Wf m) (hf : FileAt m f) (hreg : fType m f ≠ ftypeDir)
    (hpos : pos + n ≤ maxfilesize) (hn : pos % 4096 + n ≤ 4096) (hn0 : 0 < n)
    (hb : blockPtr m f (pos / 4096) ≠ 0) :
    Rewritten f (fSize m f) (fun i => pos ≤ i ∧ i < pos + n) m (m.move (byteAddr m f pos) src n) ∧
      ∀ i, pos ≤ i → i < pos + n →
        fileByte (m.move (byteAddr m f pos) src n) f i = m (src + (i - pos)) := by
  have hblk := block_lt (i := pos) (by omega)
  have hi : pos / 4096 < maxblocks := hblk
  obtain ⟨hun, hsize⟩ := unmoved_data (n := n) (a := byteAddr m f pos) src hw hf hreg hi hb
    (by rw [byteAddr]; omega) (by rw [byteAddr]; omega)
  refine ⟨hun.rewritten hw (fun g hg => ?_) fun g i hg hi' hb' _ hR => ?_, fun i h1 h2 => ?_⟩
  · rw [hsize g hg]
    split
    · rename_i heq
      rw [heq]
    · rfl
  · refine Mem.move_of_disjoint _ ?_
    -- Another byte is in another block, or elsewhere in the same one.
    by_cases hsame : dataPlace g (i / 4096) = dataPlace f (pos / 4096)
    · obtain ⟨rfl, hblock⟩ := dataPlace_inj hsame
      have hR' := hR rfl
      simp only [byteAddr, hblock]
      omega
    · have hne : blockPtr m g (i / 4096) ≠ blockPtr m f (pos / 4096) := by
        intro heq
        have hown := owned_data hg (block_lt hi') hb'
        rw [heq] at hown
        exact hsame (hown.unique (owned_data hf hi hb) hw)
      simp only [byteAddr, blockAddr_eq]
      omega
  · have hdiv : i / 4096 = pos / 4096 := by omega
    have haddr : byteAddr m f i = byteAddr m f pos + (i - pos) := byteAddr_add h1 (by omega)
    have hptr := hun.blockPtr_eq hf hi
    have haddr' : byteAddr (m.move (byteAddr m f pos) src n) f i = byteAddr m f pos + (i - pos) := by
      rw [← haddr, byteAddr, hdiv, hptr, ← hdiv]
      rfl
    rw [fileByte, hdiv, hptr, if_neg hb, haddr', Mem.move_of_mem _ (by omega) (by omega)]
    congr 1
    omega

/-! ## The memory beside the disk -/

/-- The disk is as before. -/
def SameDisk (m m' : Mem) : Prop := ∀ x, diskmap ≤ x → x < diskmap + disksize → m' x = m x

theorem SameDisk.read32_file (h : SameDisk m m') (hw : Wf m) {o : Nat} (hg : FileAt m g)
    (ho : o + 4 ≤ 256) : m'.read32 (g + o) = m.read32 (g + o) := by
  have := (hw.file_inBody hg).in_disk hw
  exact Mem.read32_congr fun x hx hx' => h x (by omega) (by omega)

theorem SameDisk.unmoved (h : SameDisk m m') (hw : Wf m) : Unmoved m m' := by
  have hread : ∀ a, diskmap ≤ a → a + 4 ≤ diskmap + disksize → m'.read32 a = m.read32 a :=
    fun a h1 h2 => Mem.read32_congr fun x hx hx' => h x (by omega) (by omega)
  have hdisk : disksize = 3221225472 := rfl
  have hn := hw.nblocks_le
  refine ⟨?_, fun g hg => h.read32_file hw hg (by decide), fun q hq => ?_, fun c hc => ?_⟩
  · have hsuper : superAddr = diskmap + 4096 := rfl
    exact hread _ (by omega) (by omega)
  · have := (hw.place_inBody hq).in_disk hw
    exact hread _ (by omega) (by omega)
  · have := bitmapWord_eq c
    rw [bitSet, hread _ (by omega) (by omega)]
    rfl

theorem SameDisk.fileByte_addr (h : SameDisk m m') (hw : Wf m) (hg : FileAt m g)
    (hi : i < maxfilesize) (hb : blockPtr m g (i / 4096) ≠ 0) :
    m' (byteAddr m g i) = m (byteAddr m g i) := by
  have := (hw.data_inBody hg (block_lt hi) hb).in_disk hw
  exact h _ (by rw [byteAddr]; omega) (by rw [byteAddr]; omega)

theorem SameDisk.rewritten (h : SameDisk m m') (hw : Wf m) (f : Nat) :
    Rewritten f (fSize m f) (fun _ => False) m m' := by
  refine (h.unmoved hw).rewritten hw (fun g hg => ?_) fun g i hg hi hb _ _ =>
    h.fileByte_addr hw hg hi hb
  rw [fSize, h.read32_file hw hg (by decide)]
  split
  · rename_i heq
    rw [heq]
    rfl
  · rfl

theorem SameDisk.fileByte_eq (h : SameDisk m m') (hw : Wf m) (hg : FileAt m g)
    (hi : i < maxfilesize) : fileByte m' g i = fileByte m g i := by
  have hptr := (h.unmoved hw).blockPtr_eq hg (block_lt hi)
  rw [fileByte, fileByte, byteAddr, hptr, ← byteAddr]
  split
  · rfl
  · rename_i hb
    exact h.fileByte_addr hw hg hi hb

end

end Jos.Fs
