import Jos.Fs.Image

/-!
# When an image is well formed

The server takes every block number that it finds in an image for granted. An image of `fsformat`
has the right block numbers for the blocks of the files, but a directory entry also has the slots
that `finishfile` leaves as they were in the memory from `malloc`. For no files the root directory
has a block that was not allocated.

Main results:
* `fsformat_wellFormed_iff`: which images are well formed;
* `fsformat_not_wellFormed`: two that are not.
-/

namespace Jos.Fs

open Jos.Lib

/-- The block numbers of the disk are those of blocks in use, each stored once, and no file has a
block number after its last block. -/
structure ImageOk (m : Mem) : Prop where
  wf : Wf m
  unused_zero : ∀ f, FileAt m f → ∀ i < maxblocks, blockCount (fSize m f).toNat ≤ i → blockPtr m f i = 0

/-- The slots that `finishfile` does not write are zero in the memory from `malloc`. -/
def CleanEnts (old : Mem) (ents : Nat) (files : List HostFile) : Prop :=
  ∀ j, (h : j < files.length) →
    (∀ i < ndirect, blockCount files[j].contents.length ≤ i →
      old.read32 (fDirect (ents + 256 * j) i) = 0#32) ∧
    (blockCount files[j].contents.length < ndirect → old.read32 (fIndirect (ents + 256 * j)) = 0#32)

/-- The place of the `t`-th block of a file of `c` blocks; the last one is the indirect block. -/
def filePlace (f c t : Nat) : Place := if t = c then .indirect f else dataPlace f t

section

variable {m old : Mem} {ents f o len start c t u : Nat} {n : BitVec 32} {files : List HostFile}

theorem filePlace_file (f c t : Nat) : (filePlace f c t).file = f := by
  rw [filePlace]
  split
  · rfl
  · exact dataPlace_file f t

theorem blockCount_le (h : len ≤ maxfilesize) : blockCount len ≤ maxblocks := by
  have hmax : maxfilesize = 4235264 := rfl
  simp only [blockCount, maxblocks]
  omega

/-! ## The places of one file -/

theorem Laid.blockPtr_eq (h : Laid old o m f len start) (hle : len ≤ maxfilesize)
    (hlt : start + span len < 2 ^ 32) (ht : t < blockCount len) : blockPtr m f t = start + t := by
  have hspan : blockCount len ≤ span len := Nat.le_add_right _ _
  have hcount := blockCount_le hle
  simp only [maxblocks] at hcount
  rw [blockPtr]
  split
  · rename_i hd
    rw [h.direct t hd, if_pos ht, BitVec.toNat_ofNat, Nat.mod_eq_of_lt (by omega)]
  · rename_i hd
    have hge : ndirect ≤ blockCount len := by omega
    have hind : Fs.indirect m f = BitVec.ofNat 32 (start + blockCount len) := by
      rw [h.indirect, if_pos hge]
    have hpos : (BitVec.ofNat 32 (start + blockCount len)).toNat = start + blockCount len := by
      rw [BitVec.toNat_ofNat, Nat.mod_eq_of_lt (by omega)]
    rw [if_neg (fun hz => ?_), hind, hpos, h.entry hge _ (by simp only [ndirect, nindirect] at hd ⊢; omega),
      if_pos (by omega), BitVec.toNat_ofNat, Nat.mod_eq_of_lt (by omega)]
    · omega
    · rw [hind] at hz
      rw [hz] at hpos
      simp only [ndirect] at hge
      simp only [BitVec.toNat_ofNat] at hpos
      omega

/-- The blocks of the file are where their numbers are stored. -/
theorem Laid.owned (h : Laid old o m f len start) (hle : len ≤ maxfilesize) (hstart : 0 < start)
    (hlt : start + span len < 2 ^ 32) (hf : FileAt m f) (ht : t < span len) :
    Owned m (filePlace f (blockCount len) t) (start + t) := by
  rw [filePlace]
  split
  · rename_i heq
    have hge : ndirect ≤ blockCount len := by
      by_contra hlt'
      rw [span_of_lt (by omega)] at ht
      omega
    have hval : (Fs.indirect m f).toNat = start + t := by
      rw [h.indirect, if_pos hge, BitVec.toNat_ofNat, Nat.mod_eq_of_lt (by omega), heq]
    rw [← hval]
    refine owned_indirect hf fun hz => ?_
    rw [hz] at hval
    simp only [BitVec.toNat_ofNat] at hval
    omega
  · rename_i hne
    have ht' : t < blockCount len := by
      by_cases hge : ndirect ≤ blockCount len
      · rw [span_of_ge hge] at ht
        omega
      · rw [span_of_lt (by omega)] at ht
        omega
    have hptr := h.blockPtr_eq hle hlt ht'
    have hown := owned_data (i := t) hf (Nat.lt_of_lt_of_le ht' (blockCount_le hle)) (by omega)
    rw [hptr] at hown
    exact hown

/-- A place of the file that stores a number, when the slots that were not written are zero. -/
theorem Laid.place_of (h : Laid old o m f len start)
    (hlt : start + span len < 2 ^ 32)
    (hdir : ∀ i < ndirect, blockCount len ≤ i → old.read32 (fDirect o i) = 0#32)
    (hind : blockCount len < ndirect → old.read32 (fIndirect o) = 0#32) {p : Place}
    (hp : p.Valid m) (hfile : p.file = f) (hv : p.value m ≠ 0) :
    ∃ t < span len, p = filePlace f (blockCount len) t ∧ p.value m = start + t := by
  have hspan : blockCount len ≤ span len := Nat.le_add_right _ _
  have hzero : (0#32).toNat = 0 := rfl
  cases p with
  | direct g i =>
      obtain rfl : g = f := hfile
      have hi : i < ndirect := hp.2
      have hval : (Place.direct g i).value m = (m.read32 (fDirect g i)).toNat := rfl
      rw [hval, h.direct i hi] at hv
      split at hv
      · rename_i hlt'
        refine ⟨i, by omega, ?_, ?_⟩
        · rw [filePlace, if_neg (by omega), dataPlace, if_pos hi]
        · rw [hval, h.direct i hi, if_pos hlt', BitVec.toNat_ofNat, Nat.mod_eq_of_lt (by omega)]
      · rename_i hge
        rw [hdir i hi (by omega)] at hv
        exact absurd hzero hv
  | indirect g =>
      obtain rfl : g = f := hfile
      have hval : (Place.indirect g).value m = (Fs.indirect m g).toNat := rfl
      by_cases hge : ndirect ≤ blockCount len
      · have hs := span_of_ge hge
        refine ⟨blockCount len, by omega, ?_, ?_⟩
        · rw [filePlace, if_pos rfl]
        · rw [hval, h.indirect, if_pos hge, BitVec.toNat_ofNat, Nat.mod_eq_of_lt (by omega)]
      · rw [hval, h.indirect, if_neg hge, hind (by omega)] at hv
        exact absurd hzero hv
  | entry g k =>
      obtain rfl : g = f := hfile
      have hk : k < nindirect := hp.2.2
      by_cases hge : ndirect ≤ blockCount len
      · have hs := span_of_ge hge
        have haddr : (Place.entry g k).value m =
            (m.read32 (blockAddr (start + blockCount len) + 4 * k)).toNat := by
          rw [Place.value, Place.addr, h.indirect, if_pos hge, BitVec.toNat_ofNat,
            Nat.mod_eq_of_lt (by omega)]
        rw [haddr, h.entry hge k hk] at hv
        split at hv
        · rename_i hlt'
          refine ⟨ndirect + k, by omega, ?_, ?_⟩
          · rw [filePlace, if_neg (by omega), dataPlace, if_neg (by omega), Nat.add_sub_cancel_left]
          · rw [haddr, h.entry hge k hk, if_pos hlt', BitVec.toNat_ofNat, Nat.mod_eq_of_lt (by omega)]
        · exact absurd hzero hv
      · have hz := hp.2.1
        rw [h.indirect, if_neg hge, hind (by omega)] at hz
        exact absurd rfl hz

theorem Laid.blockPtr_zero (h : Laid old o m f len start)
    (hlt : start + span len < 2 ^ 32)
    (hdir : ∀ i < ndirect, blockCount len ≤ i → old.read32 (fDirect o i) = 0#32)
    (hind : blockCount len < ndirect → old.read32 (fIndirect o) = 0#32) {i : Nat} (hi : i < maxblocks)
    (hge : blockCount len ≤ i) : blockPtr m f i = 0 := by
  rw [blockPtr]
  split
  · rename_i hd
    rw [h.direct i hd, if_neg (by omega), hdir i hd hge]
    rfl
  · rename_i hd
    split
    · rfl
    · rename_i hne
      have hbig : ndirect ≤ blockCount len := by
        by_contra hsmall
        rw [h.indirect, if_neg hsmall, hind (by omega)] at hne
        exact hne rfl
      have hspan : blockCount len ≤ span len := Nat.le_add_right _ _
      rw [h.indirect, if_pos hbig, BitVec.toNat_ofNat, Nat.mod_eq_of_lt (by omega),
        h.entry hbig _ (by simp only [maxblocks, ndirect, nindirect] at hi hd ⊢; omega), if_neg (by omega)]
      rfl

theorem Laid.size_toNat (h : Laid old o m f len start) (hle : len ≤ maxfilesize) :
    (fSize m f).toNat = len := by
  have hmax : maxfilesize = 4235264 := rfl
  rw [h.size, BitVec.toNat_ofNat, Nat.mod_eq_of_lt (by omega)]

/-! ## The files of an image -/

/-- The address of entry `e` of the root directory. -/
def rootEntry (files : List HostFile) (e : Nat) : Nat := blockAddr (filesEnd files) + 256 * e

theorem Image.root_room (h : Image old ents n files m) :
    filesEnd files + rootBlocks files.length ≤ n.toNat := by
  have hused := h.used_lt
  simp only [usedBlocks, rootBlocks] at hused ⊢
  omega

theorem Image.root_ptr (h : Image old ents n files m) {i : Nat} :
    blockPtr m sRoot i = if i < rootBlocks files.length then filesEnd files + i else 0 := by
  have hroot := rootBlocks_le h.length_le
  have hroom := h.root_room
  have hle := h.le
  have hcount : blockCount (4096 * rootBlocks files.length) = rootBlocks files.length := by
    rw [blockCount]
    omega
  have hzero : ∀ a, Mem.read32 (fun _ => 0#8) a = 0#32 := fun a => Mem.read32_of_zero fun _ _ _ => rfl
  rw [blockPtr]
  split
  · rename_i hi
    rw [h.root.direct i hi, hcount, hzero]
    split
    · rw [BitVec.toNat_ofNat, Nat.mod_eq_of_lt (by omega)]
    · rfl
  · rename_i hi
    simp only [ndirect] at hi
    have hind : indirect m sRoot = 0#32 := by
      rw [h.root.indirect, hcount, if_neg (by simp only [ndirect]; omega), hzero]
    rw [if_pos hind, if_neg (by omega)]

/-- An entry after the last file is zero. -/
theorem Image.entry_zero (h : Image old ents n files m) {e x : Nat} (he : files.length ≤ e)
    (he' : e < 16 * rootBlocks files.length) (hx : rootEntry files e ≤ x) (hx' : x < rootEntry files e + 256) :
    m x = 0#8 := by
  have hroom := h.root_room
  simp only [rootEntry] at hx hx'
  refine h.rest x (by omega) ?_
  simp only [blockAddr_eq] at hx' ⊢
  omega

theorem Image.entry_type (h : Image old ents n files m) {e : Nat}
    (he : e < 16 * rootBlocks files.length) : fType m (rootEntry files e) = ftypeReg := by
  by_cases hlt : e < files.length
  · exact (h.written e hlt).type
  · exact Mem.read32_of_zero fun x hx hx' => h.entry_zero (by omega) he (by omega) (by omega)

/-- The files of the image are the root and the entries of its blocks. -/
theorem Image.fileAt_iff (h : Image old ents n files m) :
    FileAt m f ↔ f = sRoot ∨ ∃ e < 16 * rootBlocks files.length, f = rootEntry files e := by
  have haddr : ∀ i j, blockAddr (filesEnd files + i) + 256 * j = rootEntry files (16 * i + j) := by
    intro i j
    simp only [rootEntry, blockAddr_add]
    omega
  constructor
  · intro hf
    induction hf with
    | root => exact Or.inl rfl
    | @entry d i j hd hdir hi hb hj ih =>
        have hj' : j < 16 := hj
        rcases ih with rfl | ⟨e, he, rfl⟩
        · rw [h.root_ptr] at hb ⊢
          split at hb
          · rename_i hlt
            rw [if_pos hlt, haddr]
            exact Or.inr ⟨_, by omega, rfl⟩
          · exact absurd rfl hb
        · rw [h.entry_type he] at hdir
          exact absurd hdir (by decide)
  · rintro (rfl | ⟨e, he, rfl⟩)
    · exact FileAt.root
    · have hi : e / 16 < rootBlocks files.length := by omega
      have hge := filesEnd_ge files
      have hroot := rootBlocks_le h.length_le
      have hptr := h.root_ptr (i := e / 16)
      rw [if_pos hi] at hptr
      have hentry := FileAt.entry (m := m) (j := e % 16) FileAt.root h.root_type
        (by simp only [maxblocks]; omega : e / 16 < maxblocks) (by omega)
        (by simp only [blkfiles]; omega)
      rw [hptr, haddr, Nat.div_add_mod] at hentry
      exact hentry

/-- The files that have blocks: where the `struct File` is, the length and the first block. -/
inductive FileSpan (files : List HostFile) : Nat → Nat → Nat → Prop
  | root : FileSpan files sRoot (4096 * rootBlocks files.length) (filesEnd files)
  | file {j : Nat} (hj : j < files.length) :
      FileSpan files (rootEntry files j) files[j].contents.length (filesEnd (files.take j))

theorem span_root (h : files.length ≤ maxDirEnts) :
    span (4096 * rootBlocks files.length) = rootBlocks files.length := by
  have hroot := rootBlocks_le h
  have hcount : blockCount (4096 * rootBlocks files.length) = rootBlocks files.length := by
    rw [blockCount]
    omega
  rw [span_of_lt (by rw [hcount]; simp only [ndirect]; omega), hcount]

theorem usedBlocks_eq (hne : files ≠ []) :
    usedBlocks files = filesEnd files + rootBlocks files.length := by
  have hpos := List.length_pos_iff.mpr hne
  have hcount : 1 ≤ blockCount (256 * files.length) := by
    rw [blockCount]
    omega
  rw [usedBlocks, rootBlocks, Nat.max_eq_right hcount]

theorem FileSpan.range (h : FileSpan files f len start) (hle : files.length ≤ maxDirEnts) :
    3 ≤ start ∧ start + span len ≤ filesEnd files + rootBlocks files.length := by
  cases h with
  | root => exact ⟨filesEnd_ge files, by rw [span_root hle]⟩
  | file hj =>
      have hbefore := filesEnd_take_le files hj
      exact ⟨filesEnd_ge _, by omega⟩

/-- The blocks of an earlier file come first. -/
theorem filesEnd_take_lt {j k : Nat} (hj : j < k) (hk : k < files.length) :
    filesEnd (files.take j) + span files[j].contents.length ≤ filesEnd (files.take k) := by
  have hj' : j < (files.take k).length := by
    rw [List.length_take]
    omega
  have hle := filesEnd_take_le (files.take k) hj'
  rw [List.take_take, Nat.min_eq_left (by omega), List.getElem_take] at hle
  exact hle

/-- No block belongs to two files. -/
theorem FileSpan.eq_of {f' len' start' : Nat} (h : FileSpan files f len start)
    (h' : FileSpan files f' len' start') (ht : t < span len) (hu : u < span len')
    (heq : start + t = start' + u) : f = f' ∧ len = len' ∧ start = start' := by
  cases h with
  | root =>
      cases h' with
      | root => exact ⟨rfl, rfl, rfl⟩
      | file hj =>
          have hbefore := filesEnd_take_le files hj
          omega
  | @file j hj =>
      cases h' with
      | root =>
          have hbefore := filesEnd_take_le files hj
          omega
      | @file k hk =>
          rcases Nat.lt_trichotomy j k with hlt | rfl | hgt
          · have hbefore := filesEnd_take_lt hlt hk
            omega
          · exact ⟨rfl, rfl, rfl⟩
          · have hbefore := filesEnd_take_lt hgt hj
            omega

/-- Every block after the reserved ones belongs to a file. -/
theorem exists_fileSpan {b : Nat} (hle : files.length ≤ maxDirEnts) (hb : 3 ≤ b)
    (hb' : b < filesEnd files + rootBlocks files.length) :
    ∃ f len start t, FileSpan files f len start ∧ t < span len ∧ b = start + t := by
  have hcover : ∀ k ≤ files.length, b < filesEnd (files.take k) →
      ∃ f len start t, FileSpan files f len start ∧ t < span len ∧ b = start + t := by
    intro k
    induction k with
    | zero =>
        intro _ hlt
        simp only [List.take_zero, filesEnd, List.map_nil, List.sum_nil] at hlt
        omega
    | succ k ih =>
        intro hk hlt
        by_cases hlt' : b < filesEnd (files.take k)
        · exact ih (by omega) hlt'
        · have hk' : k < files.length := by omega
          rw [← List.take_append_getElem hk', filesEnd_append] at hlt
          exact ⟨_, _, _, b - filesEnd (files.take k), .file hk', by omega, by omega⟩
  by_cases hlt : b < filesEnd files
  · exact hcover files.length (Nat.le_refl _) (by rw [List.take_length]; exact hlt)
  · exact ⟨_, _, _, b - filesEnd files, .root, by rw [span_root hle]; omega, by omega⟩

/-! ## Ownership -/

theorem FileSpan.fileAt (h : FileSpan files f len start) (him : Image old ents n files m) :
    FileAt m f := by
  rw [him.fileAt_iff]
  cases h with
  | root => exact Or.inl rfl
  | @file j hj =>
      refine Or.inr ⟨j, ?_, rfl⟩
      simp only [rootBlocks, blockCount]
      omega

theorem FileSpan.laid (h : FileSpan files f len start) (him : Image old ents n files m) :
    len ≤ maxfilesize ∧ ∃ old' o, Laid old' o m f len start ∧ (CleanEnts old ents files →
      (∀ i < ndirect, blockCount len ≤ i → old'.read32 (fDirect o i) = 0#32) ∧
      (blockCount len < ndirect → old'.read32 (fIndirect o) = 0#32)) := by
  cases h with
  | root =>
      have hroot := rootBlocks_le him.length_le
      have hmax : maxfilesize = 4235264 := rfl
      exact ⟨by omega, _, _, him.root, fun _ => ⟨fun i _ _ => Mem.read32_of_zero fun _ _ _ => rfl,
        fun _ => Mem.read32_of_zero fun _ _ _ => rfl⟩⟩
  | @file j hj =>
      exact ⟨Nat.le_of_lt (him.size_lt _ (List.getElem_mem hj)), _, _, (him.written j hj).laid,
        fun hclean => hclean j hj⟩

theorem FileSpan.owned (h : FileSpan files f len start) (him : Image old ents n files m)
    (ht : t < span len) : Owned m (filePlace f (blockCount len) t) (start + t) := by
  obtain ⟨hlen, old', o, hlaid, _⟩ := h.laid him
  obtain ⟨hge, hle⟩ := h.range him.length_le
  have hroom := him.root_room
  have hn := him.le
  exact hlaid.owned hlen (by omega) (by omega) (h.fileAt him) ht

/-- A file has the blocks of its span, or it is an entry after the last file. -/
theorem Image.file_cases (h : Image old ents n files m) (hf : FileAt m f) :
    (∃ len start, FileSpan files f len start) ∨ Laid (fun _ => 0#8) 0 m f 0 0 := by
  rw [h.fileAt_iff] at hf
  rcases hf with rfl | ⟨e, he, rfl⟩
  · exact Or.inl ⟨_, _, .root⟩
  · by_cases hlt : e < files.length
    · exact Or.inl ⟨_, _, .file hlt⟩
    · have hzero : ∀ c, c + 4 ≤ 256 → m.read32 (rootEntry files e + c) = 0#32 := fun c hc =>
        Mem.read32_of_zero fun x hx hx' => h.entry_zero (by omega) he (by omega) (by omega)
      have hold : ∀ a, Mem.read32 (fun _ => 0#8) a = 0#32 := fun a =>
        Mem.read32_of_zero fun _ _ _ => rfl
      have hcount : blockCount 0 = 0 := rfl
      refine Or.inr ⟨hzero 128 (by omega), fun i hi => ?_, ?_, fun hge => ?_⟩
      · have hi' : i < 10 := hi
        rw [hcount, if_neg (by omega), hold, fDirect, Nat.add_assoc, hzero _ (by omega)]
      · rw [hcount, if_neg (by simp only [ndirect]; omega), hold]
        exact hzero 176 (by omega)
      · rw [hcount] at hge
        simp only [ndirect] at hge
        omega

theorem Image.place_of (h : Image old ents n files m) (hclean : CleanEnts old ents files) {p : Place}
    (hp : p.Valid m) (hv : p.value m ≠ 0) : ∃ f len start t, FileSpan files f len start ∧
      t < span len ∧ p = filePlace f (blockCount len) t ∧ p.value m = start + t := by
  rcases h.file_cases hp.fileAt with ⟨len, start, hs⟩ | hzero
  · obtain ⟨hlen, old', o, hlaid, hold⟩ := hs.laid h
    obtain ⟨hdir, hind⟩ := hold hclean
    obtain ⟨_, hle⟩ := hs.range h.length_le
    have hroom := h.root_room
    have hn := h.le
    obtain ⟨t, ht, hpl, hval⟩ := hlaid.place_of (by omega) hdir hind hp rfl hv
    exact ⟨_, len, start, t, hs, ht, hpl, hval⟩
  · obtain ⟨t, ht, _⟩ := hzero.place_of (by decide) (fun _ _ _ => Mem.read32_of_zero
      fun _ _ _ => rfl) (fun _ => Mem.read32_of_zero fun _ _ _ => rfl) hp rfl hv
    rw [show span 0 = 0 from rfl] at ht
    omega

theorem Image.firstBlock_eq (h : Image old ents n files m) : firstBlock m = 3 := by
  have hle := h.le
  have hused := h.used_lt
  rw [firstBlock, h.nblocks]
  omega

theorem Image.wf (h : Image old ents n files m) (hne : files ≠ []) (hclean : CleanEnts old ents files) :
    Wf m := by
  have hle := h.le
  have hused := h.used_lt
  have hend := usedBlocks_eq hne
  have hge := filesEnd_ge files
  have hvalue : ∀ p : Place, p.Valid m → p.value m ≠ 0 → 3 ≤ p.value m ∧ p.value m < usedBlocks files := by
    intro p hp hv
    obtain ⟨f, len, start, t, hs, ht, _, hval⟩ := h.place_of hclean hp hv
    obtain ⟨hge', hle'⟩ := hs.range h.length_le
    omega
  have hfirst := h.firstBlock_eq
  have hbits : ∀ b < usedBlocks files, ¬ bitSet m b := by
    intro b hb
    rw [h.bits b (by omega)]
    omega
  refine ⟨?_, fun b hb _ => hbits b (by omega), fun p hp hv => ?_, fun p hp hv => ?_,
    fun p hp hv => hbits _ (hvalue p hp hv).2, fun p q hp hq hv heq => ?_⟩
  · rw [h.nblocks]
    omega
  · rw [h.nblocks]
    have hlt := (hvalue p hp hv).2
    omega
  · rw [hfirst]
    exact (hvalue p hp hv).1
  · obtain ⟨f, len, start, t, hs, ht, hpl, hval⟩ := h.place_of hclean hp hv
    obtain ⟨f', len', start', u, hs', hu, hpl', hval'⟩ := h.place_of hclean hq (by rw [← heq]; exact hv)
    obtain ⟨rfl, rfl, rfl⟩ := hs.eq_of hs' ht hu (by omega)
    have htu : t = u := by omega
    rw [hpl, hpl', htu]

theorem Image.unused_zero (h : Image old ents n files m) (hclean : CleanEnts old ents files)
    (hf : FileAt m f) {i : Nat} (hi : i < maxblocks) (hge : blockCount (fSize m f).toNat ≤ i) :
    blockPtr m f i = 0 := by
  rcases h.file_cases hf with ⟨len, start, hs⟩ | hzero
  · obtain ⟨hlen, old', o, hlaid, hold⟩ := hs.laid h
    obtain ⟨hdir, hind⟩ := hold hclean
    obtain ⟨_, hle⟩ := hs.range h.length_le
    have hroom := h.root_room
    have hn := h.le
    rw [hlaid.size_toNat hlen] at hge
    exact hlaid.blockPtr_zero (by omega) hdir hind hi hge
  · rw [hzero.size_toNat (by decide)] at hge
    exact hzero.blockPtr_zero (by decide) (fun _ _ _ => Mem.read32_of_zero fun _ _ _ => rfl)
      (fun _ => Mem.read32_of_zero fun _ _ _ => rfl) hi hge

/-! ## The other direction -/

/-- For no files the block of the root directory is free. -/
theorem Image.ne_nil (h : Image old ents n files m) (hw : Wf m) : files ≠ [] := by
  rintro rfl
  have hptr := h.root_ptr (i := 0)
  have hend : filesEnd [] = 3 := rfl
  have hroot : rootBlocks ([] : List HostFile).length = 1 := rfl
  rw [hroot, if_pos (by omega), hend] at hptr
  have hown := owned_data (i := 0) (FileAt.root (m := m)) (by decide) (by omega)
  rw [hptr] at hown
  refine hown.used hw ?_
  rw [h.bits _ (by omega)]
  exact Nat.le_refl 3

/-- A number in the indirect slot of a small file is that of a block that belongs to a file. -/
theorem Image.clean (h : Image old ents n files m) (hok : ImageOk m) : CleanEnts old ents files := by
  intro j hj
  have hs : FileSpan files (rootEntry files j) files[j].contents.length (filesEnd (files.take j)) := .file hj
  have hf := hs.fileAt h
  have hlaid : Laid old (ents + 256 * j) m (rootEntry files j) _ _ := (h.written j hj).laid
  have hlen := h.size_lt _ (List.getElem_mem hj)
  refine ⟨fun i hi hge => ?_, fun hsmall => ?_⟩
  · have hzero := hok.unused_zero _ hf i (by simp only [ndirect, maxblocks] at hi ⊢; omega) (by
      rw [hlaid.size_toNat (Nat.le_of_lt hlen)]
      exact hge)
    rw [blockPtr, if_pos hi, hlaid.direct i hi, if_neg (by omega)] at hzero
    exact BitVec.eq_of_toNat_eq hzero
  · by_contra hne
    have hind : indirect m (rootEntry files j) = old.read32 (fIndirect (ents + 256 * j)) := by
      rw [hlaid.indirect, if_neg (by omega)]
    have hown := owned_indirect hf (by rw [hind]; exact hne)
    have hge := hown.ge hok.wf
    have hlt := hown.lt hok.wf
    have hused := hown.used hok.wf
    have hle := h.le
    rw [h.nblocks] at hlt
    rw [h.firstBlock_eq] at hge
    rw [h.bits _ (by omega), usedBlocks_eq (h.ne_nil hok.wf)] at hused
    obtain ⟨f, len, start, t, hs', ht, hb⟩ := exists_fileSpan h.length_le hge (by omega)
    have hown' := hs'.owned h ht
    rw [← hb] at hown'
    have heq := hown.unique hown' hok.wf
    -- The block would be the indirect block of that file, which has ten blocks or more then.
    have hfile : f = rootEntry files j := by
      rw [← filePlace_file f (blockCount len) t, ← heq]
      rfl
    subst hfile
    obtain ⟨hlen', old', o, hlaid', _⟩ := hs'.laid h
    have hsame : len = files[j].contents.length := by
      rw [← hlaid'.size_toNat hlen', hlaid.size_toNat (Nat.le_of_lt hlen)]
    rw [hsame, span_of_lt hsmall] at ht
    rw [filePlace, if_neg (by rw [hsame]; omega)] at heq
    exact dataPlace_ne_indirect heq.symm

end

/-- The image is well formed for every list of files but the empty one, as long as the slots that
`finishfile` leaves are zero in the memory from `malloc`. -/
theorem fsformat_wellFormed_iff {m : Mem} {ents : Nat} {n : BitVec 32} {files : List HostFile} {s : Format}
    (hents : EntsApart ents n.toNat)
    (hnames : ∀ file ∈ files, (baseName file.path).length < maxnamelen)
    (run : fsformat m ents n files = some s) :
    ImageOk s.mem ↔ files ≠ [] ∧ CleanEnts m ents files := by
  have h := fsformat_image hents hnames run
  constructor
  · intro hok
    exact ⟨h.ne_nil hok.wf, h.clean hok⟩
  · rintro ⟨hne, hclean⟩
    exact ⟨h.wf hne hclean, fun f hf i hi hge => h.unused_zero hclean hf hi hge⟩

/-- A host file with the byte `x` and the path `/a`. -/
def tinyFile : HostFile := ⟨[47#8, 97#8], true, true, [120#8]⟩

theorem tinyFile_name (file : HostFile) (h : file ∈ [tinyFile]) :
    (baseName file.path).length < maxnamelen := by
  rw [List.mem_singleton.mp h]
  decide

theorem fsformat_wellFormed_iff_tiny :
    ∃ s, fsformat (fun _ => 0#8) 4096 8#32 [tinyFile] = some s ∧ ImageOk s.mem := by
  have hsome : (fsformat (fun _ => 0#8) 4096 8#32 [tinyFile]).isSome = true := by decide
  obtain ⟨s, run⟩ := Option.isSome_iff_exists.mp hsome
  refine ⟨s, run, (fsformat_wellFormed_iff (Or.inl (by decide)) tinyFile_name run).mpr ⟨by decide, ?_⟩⟩
  intro j _
  exact ⟨fun _ _ _ => Mem.read32_of_zero fun _ _ _ => rfl, fun _ => Mem.read32_of_zero fun _ _ _ => rfl⟩

/-- With other bytes in the memory from `malloc` the entry has numbers of no blocks; and for no files
the root directory has a free block. -/
theorem fsformat_not_wellFormed :
    (∃ s, fsformat (fun _ => 0xFF#8) 4096 8#32 [tinyFile] = some s ∧ ¬ ImageOk s.mem) ∧
      ∃ s, fsformat (fun _ => 0#8) 4096 8#32 [] = some s ∧ ¬ ImageOk s.mem := by
  constructor
  · have hsome : (fsformat (fun _ => 0xFF#8) 4096 8#32 [tinyFile]).isSome = true := by decide
    obtain ⟨s, run⟩ := Option.isSome_iff_exists.mp hsome
    refine ⟨s, run, fun hok => ?_⟩
    have hclean := (fsformat_image (Or.inl (by decide)) tinyFile_name run).clean hok 0 (by decide)
    have hslot := hclean.1 1 (by decide) (by decide)
    exact absurd hslot (by decide)
  · have hsome : (fsformat (fun _ => 0#8) 4096 8#32 []).isSome = true := by decide
    obtain ⟨s, run⟩ := Option.isSome_iff_exists.mp hsome
    refine ⟨s, run, fun hok => ?_⟩
    exact (fsformat_image (Or.inl (by decide)) (fun _ h => absurd h List.not_mem_nil) run).ne_nil hok.wf rfl

end Jos.Fs
