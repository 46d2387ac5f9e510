import Jos.Fs.Format
import Mathlib.Algebra.GroupWithZero.Nat

/-!
# What is in an image

The layout of an image of `fsformat`: after the three reserved blocks each file has its data
blocks one after the other, then its indirect block if it has ten blocks or more; the blocks of
the root directory come last. What `finishfile` does not write of a directory entry, the direct
slots after the last block and the indirect slot of a smaller file, keeps what was in the memory
from `malloc`.
-/

namespace Jos.Fs

open Jos.Lib

/-- The number of blocks of `len` bytes. -/
def blockCount (len : Nat) : Nat := (len + 4095) / 4096

/-- The number of blocks that a file of `len` bytes takes, its indirect block included. -/
def span (len : Nat) : Nat := blockCount len + if ndirect ≤ blockCount len then 1 else 0

/-- The first block after the files. -/
def filesEnd (files : List HostFile) : Nat := 3 + (files.map fun file => span file.contents.length).sum

/-- What `finishfile` makes of the `struct File` at `f`, for `len` bytes in the blocks from `start`
on; `old` had the entry at `o` before. -/
structure Laid (old : Mem) (o : Nat) (m : Mem) (f len start : Nat) : Prop where
  size : fSize m f = BitVec.ofNat 32 len
  direct : ∀ i < ndirect, m.read32 (fDirect f i) =
    if i < blockCount len then BitVec.ofNat 32 (start + i) else old.read32 (fDirect o i)
  indirect : indirect m f =
    if ndirect ≤ blockCount len then BitVec.ofNat 32 (start + blockCount len)
    else old.read32 (fIndirect o)
  entry : ndirect ≤ blockCount len → ∀ k < nindirect,
    m.read32 (blockAddr (start + blockCount len) + 4 * k) =
      if ndirect + k < blockCount len then BitVec.ofNat 32 (start + (ndirect + k)) else 0#32

/-- The host file is in the image, with its entry at `f` and its blocks from `start` on. -/
structure Written (old : Mem) (o : Nat) (file : HostFile) (start : Nat) (m : Mem) (f : Nat) : Prop where
  laid : Laid old o m f file.contents.length start
  name : ∀ i ≤ (baseName file.path).length, m (f + i) = (baseName file.path).getD i 0#8
  type : fType m f = ftypeReg
  data : ∀ i < file.contents.length, m (blockAddr start + i) = file.contents.getD i 0#8

section

variable {m m' old : Mem} {s s' : Format} {f o start len k : Nat}

/-! ## Rounding and allocation -/

theorem roundup_toNat {n : BitVec 32} (h : n.toNat ≤ maxfilesize) :
    (roundup n).toNat = 4096 * blockCount n.toNat := by
  have hmax : maxfilesize = 4235264 := rfl
  by_cases hz : n = 0#32
  · rw [hz]
    decide
  · have hpos : 1 ≤ n.toNat := by
      by_contra hlt
      exact hz (BitVec.eq_of_toNat_eq (by simp only [BitVec.toNat_ofNat]; omega))
    have hsub : (n - 1#32).toNat = n.toNat - 1 := BitVec.toNat_sub_of_le (by rw [BitVec.le_def]; exact hpos)
    have hadd : (n - 1#32 + 4096#32).toNat = n.toNat - 1 + 4096 := by
      rw [BitVec.toNat_add, hsub]
      simp only [BitVec.toNat_ofNat]
      omega
    have hmod : ((n - 1#32) % 4096#32).toNat = (n.toNat - 1) % 4096 := by
      rw [BitVec.toNat_umod, hsub]
      rfl
    rw [roundup, BitVec.toNat_sub_of_le (by rw [BitVec.le_def, hadd, hmod]; omega), hadd, hmod, blockCount]
    omega

theorem roundupInt_eq {n : BitVec 32} (hpos : 1 ≤ n.toNat) (h : n.toNat ≤ maxfilesize) :
    roundupInt n = roundup n := by
  have hmax : maxfilesize = 4235264 := rfl
  have hsub : (n - 1#32).toNat = n.toNat - 1 := BitVec.toNat_sub_of_le (by rw [BitVec.le_def]; exact hpos)
  have hmsb : (n - 1#32).msb = false := by
    rw [BitVec.msb_eq_false_iff_two_mul_lt, hsub]
    omega
  rw [roundupInt, roundup, BitVec.srem_eq, hmsb]
  rfl

theorem blockof_blockAddr (b : Nat) : blockof (blockAddr b) = b := by
  rw [blockof, blockAddr_eq]
  omega

theorem alloc_spec {bytes : BitVec 32} {a : Nat} (h : alloc s bytes = some (s', a))
    (hk : s.diskpos = blockAddr k) (hb : bytes.toNat ≤ maxfilesize) :
    a = blockAddr k ∧ s' = { s with diskpos := blockAddr (k + blockCount bytes.toNat) } ∧
      k + blockCount bytes.toNat < s.nblocks.toNat := by
  have hpos : s.diskpos + (roundup bytes).toNat = blockAddr (k + blockCount bytes.toNat) := by
    rw [hk, roundup_toNat hb, blockAddr_eq, blockAddr_eq]
    omega
  rw [alloc, hpos, blockof_blockAddr] at h
  split at h
  · cases h
  · rename_i hlt
    cases h
    exact ⟨hk, rfl, by omega⟩

/-! ## `finishfile` -/

/-- The size and the direct slots, as `finishfile` writes them. -/
theorem direct_written (m : Mem) (f start c : Nat) (n : BitVec 32) :
    let m1 := (m.write32 (f + 128) n).writeWords (fDirect f 0)
      (fun i => BitVec.ofNat 32 (start + i)) (min c ndirect)
    fSize m1 f = n ∧ (∀ i < ndirect, m1.read32 (fDirect f i) =
      if i < c then BitVec.ofNat 32 (start + i) else m.read32 (fDirect f i)) ∧
      indirect m1 f = m.read32 (fIndirect f) ∧
      ∀ x, (x < f + 128 ∨ f + 132 ≤ x) → (x < f + 136 ∨ f + 176 ≤ x) → m1 x = m x := by
  have hmin : min c ndirect ≤ 10 := Nat.min_le_right _ _
  refine ⟨?_, fun i hi => ?_, ?_, fun x hx hx' => ?_⟩
  · rw [fSize, Mem.read32_writeWords_of_disjoint _ _ (by simp only [fDirect]; omega),
      Mem.read32_write32_self]
  · have haddr : fDirect f i = fDirect f 0 + 4 * i := by
      simp only [fDirect]
    split
    · rename_i hlt
      rw [haddr, Mem.read32_writeWords _ _ (Nat.lt_min.mpr ⟨hlt, hi⟩)]
    · rename_i hge
      rw [Mem.read32_writeWords_of_disjoint _ _ (by rw [haddr]; omega),
        Mem.read32_write32_of_disjoint _ _ (by simp only [fDirect]; omega)]
  · rw [indirect, Mem.read32_writeWords_of_disjoint _ _ (by simp only [fDirect, fIndirect]; omega),
      Mem.read32_write32_of_disjoint _ _ (by simp only [fIndirect]; omega)]
  · rw [Mem.writeWords_of_disjoint _ _ (by simp only [fDirect]; omega),
      Mem.write32_of_disjoint _ _ (by omega)]

theorem span_of_lt (h : blockCount len < ndirect) : span len = blockCount len := by
  rw [span, if_neg (Nat.not_le.mpr h), Nat.add_zero]

theorem span_of_ge (h : ndirect ≤ blockCount len) : span len = blockCount len + 1 := by
  rw [span, if_pos h]

theorem finishfile_small {n : BitVec 32} (hn : n.toNat = len) (hlt : blockCount len < ndirect)
    (h : finishfile s f start n = some s') :
    Laid s.mem f s'.mem f len start ∧ s' = { s with mem := s'.mem } ∧
      ∀ x, (x < f + 128 ∨ f + 132 ≤ x) → (x < f + 136 ∨ f + 180 ≤ x) → s'.mem x = s.mem x := by
  have hmax : maxfilesize = 4235264 := rfl
  have hdiv : (roundup n).toNat / 4096 = blockCount len := by
    simp only [blockCount, ndirect] at hlt
    rw [roundup_toNat (by omega), hn]
    omega
  obtain ⟨hsize, hdirect, hind, hframe⟩ := direct_written s.mem f start (blockCount len) n
  simp only [finishfile, hdiv] at h
  rw [if_neg (by omega)] at h
  cases h
  refine ⟨⟨?_, hdirect, ?_, fun hge => by omega⟩, rfl, fun x hx hx' => hframe x hx (by omega)⟩
  · rw [hsize, ← hn, BitVec.ofNat_toNat, BitVec.setWidth_eq]
  · rw [hind, if_neg (by omega)]

/-- `finishfile` writes in the size and the slots of the entry, and in the block that it takes. -/
theorem finishfile_spec {n : BitVec 32} (hn : n.toNat = len)
    (hk : s.diskpos = blockAddr (start + blockCount len)) (hle : len ≤ maxfilesize)
    (hzero : ∀ x, s.diskpos ≤ x → x < blockAddr s.nblocks.toNat → s.mem x = 0#8)
    (hf : f + 256 ≤ s.diskpos ∨ blockAddr s.nblocks.toNat ≤ f)
    (h : finishfile s f start n = some s') :
    Laid s.mem f s'.mem f len start ∧
      s' = { s with mem := s'.mem, diskpos := blockAddr (start + span len) } ∧
      (start + blockCount len < s.nblocks.toNat → start + span len < s.nblocks.toNat) ∧
      ∀ x, (x < f + 128 ∨ f + 132 ≤ x) → (x < f + 136 ∨ f + 180 ≤ x) →
        (x < s.diskpos ∨ blockAddr (start + span len) ≤ x) → s'.mem x = s.mem x := by
  have hmax : maxfilesize = 4235264 := rfl
  by_cases hge : ndirect ≤ blockCount len
  · have hspan := span_of_ge hge
    have hcount : blockCount len ≤ 1034 := by
      rw [blockCount]
      omega
    have hdiv : (roundup n).toNat / 4096 = blockCount len := by
      rw [roundup_toNat (by omega), hn]
      omega
    obtain ⟨hsize, hdirect, hind, hframe⟩ := direct_written s.mem f start (blockCount len) n
    simp only [finishfile, hdiv] at h
    generalize (s.mem.write32 (f + 128) n).writeWords (fDirect f 0) (fun i => BitVec.ofNat 32 (start + i))
      (min (blockCount len) ndirect) = m1 at hsize hdirect hind hframe h
    rw [if_pos hge] at h
    obtain ⟨⟨s1, ind⟩, halloc, h⟩ := Option.bind_eq_some_iff.mp h
    obtain ⟨rfl, rfl, hlt⟩ := alloc_spec halloc hk (by decide)
    have hone : blockCount (4096#32).toNat = 1 := rfl
    rw [hone] at hlt
    dsimp only at hlt
    cases h
    rw [blockof_blockAddr, hone]
    dsimp only
    rw [blockAddr_eq] at hk
    rw [blockAddr_eq] at hf
    -- The entry is not in the new indirect block.
    have hapart : ∀ k, k ≤ 1024 → f + 256 ≤ blockAddr (start + blockCount len) ∨
        blockAddr (start + blockCount len) + 4 * k ≤ f := by
      intro k hk'
      simp only [blockAddr_eq]
      omega
    have hrest : blockCount len - ndirect ≤ 1024 := by
      simp only [ndirect]
      omega
    have hout := hapart _ hrest
    have hfull := hapart 1024 (by omega)
    refine ⟨⟨?_, fun i hi => ?_, ?_, fun _ k hk' => ?_⟩, ?_, fun _ => by omega, fun x hx hx' hx'' => ?_⟩
    · rw [fSize, Mem.read32_writeWords_of_disjoint _ _ (by omega),
        Mem.read32_write32_of_disjoint _ _ (by simp only [fIndirect]; omega), ← fSize, hsize,
        ← hn, BitVec.ofNat_toNat, BitVec.setWidth_eq]
    · have hi' : i < 10 := hi
      rw [Mem.read32_writeWords_of_disjoint _ _ (by simp only [fDirect]; omega),
        Mem.read32_write32_of_disjoint _ _ (by simp only [fDirect, fIndirect]; omega), hdirect i hi]
    · rw [indirect, Mem.read32_writeWords_of_disjoint _ _ (by simp only [fIndirect]; omega),
        Mem.read32_write32_self, if_pos hge]
    · have hk'' : k < 1024 := hk'
      split
      · rename_i hlt'
        rw [Mem.read32_writeWords _ _ (by omega)]
      · rename_i hge'
        rw [Mem.read32_writeWords_of_disjoint _ _ (by omega),
          Mem.read32_write32_of_disjoint _ _ (by simp only [fIndirect]; omega)]
        refine Mem.read32_of_zero fun x hx hx' => ?_
        rw [hframe x (by omega) (by omega)]
        simp only [blockAddr_eq] at hx hx' hzero
        exact hzero x (by omega) (by omega)
    · rw [hspan]
      rfl
    · rw [hspan, blockAddr_eq] at hx''
      rw [Mem.writeWords_of_disjoint _ _ (by simp only [blockAddr_eq, ndirect]; omega),
        Mem.write32_of_disjoint _ _ (by simp only [fIndirect]; omega), hframe x hx (by omega)]
  · have hspan := span_of_lt (by omega : blockCount len < ndirect)
    obtain ⟨hlaid, hglob, hframe⟩ := finishfile_small hn (by omega) h
    refine ⟨hlaid, ?_, fun hlt => by omega, fun x hx hx' _ => hframe x hx hx'⟩
    rw [hspan, ← hk]
    exact hglob

/-! ## Entries that are kept or copied -/

theorem blockAddr_add (b n : Nat) : blockAddr (b + n) = blockAddr b + 4096 * n := by
  simp only [blockAddr_eq]
  omega

/-- An entry can be copied to another place as long as the blocks of the file stay. -/
theorem Laid.copy (h : Laid old o m f len start) {g : Nat} (hent : ∀ c < 256, m' (g + c) = m (f + c))
    (hblk : ∀ x, blockAddr start ≤ x → x < blockAddr (start + span len) → m' x = m x) :
    Laid old o m' g len start := by
  have hword : ∀ c, c + 4 ≤ 256 → m'.read32 (g + c) = m.read32 (f + c) := fun c hc =>
    Mem.read32_shift fun k hk => by rw [Nat.add_assoc, Nat.add_assoc, hent _ (by omega)]
  refine ⟨?_, fun i hi => ?_, ?_, fun hge k hk => ?_⟩
  · rw [fSize, hword 128 (by omega), ← h.size, fSize]
  · have hi' : i < 10 := hi
    rw [← h.direct i hi, fDirect, fDirect, Nat.add_assoc, Nat.add_assoc, hword _ (by omega)]
  · rw [← h.indirect]
    exact hword 176 (by omega)
  · have hk' : k < 1024 := hk
    rw [← h.entry hge k hk]
    refine Mem.read32_congr fun x hx hx' => hblk x ?_ ?_
    · rw [blockAddr_add] at hx
      omega
    · rw [span_of_ge hge]
      simp only [blockAddr_add] at hx' ⊢
      omega

theorem data_lt (hi : k < len) : blockAddr start + k < blockAddr (start + span len) := by
  have hspan : blockCount len ≤ span len := Nat.le_add_right _ _
  rw [blockCount] at hspan
  rw [blockAddr_add]
  omega

theorem Written.copy {file : HostFile} (h : Written old o file start m f)
    (hlen : (baseName file.path).length < maxnamelen) {g : Nat}
    (hent : ∀ c < 256, m' (g + c) = m (f + c))
    (hblk : ∀ x, blockAddr start ≤ x → x < blockAddr (start + span file.contents.length) → m' x = m x) :
    Written old o file start m' g := by
  have hlen' : (baseName file.path).length < 128 := hlen
  refine ⟨h.laid.copy hent hblk, fun i hi => ?_, ?_, fun i hi => ?_⟩
  · rw [hent i (by omega), h.name i hi]
  · rw [← h.type]
    exact Mem.read32_shift fun k hk => by rw [Nat.add_assoc, Nat.add_assoc, hent _ (by omega)]
  · rw [hblk _ (by omega) (data_lt hi), h.data i hi]

/-! ## The loop over the files -/

/-- The memory from `malloc` is beside the image. -/
def EntsApart (ents nblocks : Nat) : Prop := ents + 32768 ≤ diskmap ∨ blockAddr nblocks ≤ ents

/-- The state after some files: `s0` is the state after `opendisk`. -/
structure Building (s0 : Format) (ents : Nat) (files : List HostFile) (s : Format) (d : Dir) : Prop where
  globals : s = { s0 with mem := s.mem, diskpos := blockAddr (filesEnd files) }
  room : filesEnd files < s0.nblocks.toNat
  dir : d = ⟨s0.super + 8, ents, files.length⟩
  length_le : files.length ≤ maxDirEnts
  size_lt : ∀ file ∈ files, file.contents.length < maxfilesize
  name_lt : ∀ file ∈ files, (baseName file.path).length < maxnamelen
  header : ∀ x, diskmap ≤ x → x < blockAddr 3 → s.mem x = s0.mem x
  rest : ∀ x, blockAddr (filesEnd files) ≤ x → x < blockAddr s0.nblocks.toNat → s.mem x = 0#8
  fresh : ∀ x, ents + 256 * files.length ≤ x → x < ents + 32768 → s.mem x = s0.mem x
  written : ∀ j, (h : j < files.length) → Written s0.mem (ents + 256 * j) files[j]
    (filesEnd (files.take j)) s.mem (ents + 256 * j)

theorem filesEnd_append (files : List HostFile) (file : HostFile) :
    filesEnd (files ++ [file]) = filesEnd files + span file.contents.length := by
  rw [filesEnd, filesEnd, List.map_append, List.sum_append]
  simp only [List.map_cons, List.map_nil, List.sum_cons, List.sum_nil]
  omega

theorem filesEnd_ge (files : List HostFile) : 3 ≤ filesEnd files := Nat.le_add_right _ _

/-- The blocks of a file come before those of the next files. -/
theorem filesEnd_take_le (files : List HostFile) {j : Nat} (h : j < files.length) :
    filesEnd (files.take j) + span files[j].contents.length ≤ filesEnd files := by
  rw [← filesEnd_append, List.take_append_getElem h]
  have hsplit := congrArg filesEnd (List.take_append_drop (j + 1) files)
  simp only [filesEnd, List.map_append, List.sum_append] at hsplit ⊢
  omega

/-- What was before the files in the slots of an entry. -/
theorem Laid.congr_old {old' : Mem} {o' : Nat} (h : Laid old o m f len start)
    (heq : ∀ c, 136 ≤ c → c < 180 → old' (o' + c) = old (o + c)) : Laid old' o' m f len start := by
  have hword : ∀ c, 136 ≤ c → c + 4 ≤ 180 → old'.read32 (o' + c) = old.read32 (o + c) := fun c hc hc' =>
    Mem.read32_shift fun k hk => by rw [Nat.add_assoc, Nat.add_assoc, heq _ (by omega) (by omega)]
  refine ⟨h.size, fun i hi => ?_, ?_, h.entry⟩
  · have hi' : i < 10 := hi
    rw [h.direct i hi, fDirect, fDirect, Nat.add_assoc, Nat.add_assoc, hword _ (by omega) (by omega)]
  · rw [h.indirect, fIndirect, fIndirect, hword 176 (by omega) (by omega)]

/-- One file: its entry and its blocks are written, and nothing else. -/
structure FileAdded (s : Format) (f start : Nat) (file : HostFile) (s' : Format) : Prop where
  globals : s' = { s with mem := s'.mem, diskpos := blockAddr (start + span file.contents.length) }
  room : start + span file.contents.length < s.nblocks.toNat
  written : Written s.mem f file start s'.mem f
  frame : ∀ x, (x < f ∨ f + 256 ≤ x) →
    (x < blockAddr start ∨ blockAddr (start + span file.contents.length) ≤ x) → s'.mem x = s.mem x

theorem writefile_added {file : HostFile} {d d' : Dir} (hpos : s.diskpos = blockAddr start)
    (hname : (baseName file.path).length < maxnamelen)
    (hzero : ∀ x, s.diskpos ≤ x → x < blockAddr s.nblocks.toNat → s.mem x = 0#8)
    (hf : f = d.ents + 256 * d.n) (hents : EntsApart d.ents s.nblocks.toNat)
    (h : writefile s d file = some (s', d')) :
    FileAdded s f start file s' ∧ d' = { d with n := d.n + 1 } ∧ d.n + 1 ≤ maxDirEnts ∧
      file.contents.length < maxfilesize := by
  have hmax : maxfilesize = 4235264 := rfl
  have hname' : (baseName file.path).length < 128 := hname
  rw [writefile] at h
  split at h
  · cases h
  rename_i hok
  simp only [not_or, Nat.not_le] at hok
  have hlen : (BitVec.ofNat 32 file.contents.length).toNat = file.contents.length := by
    rw [BitVec.toNat_ofNat]
    omega
  obtain ⟨⟨s1, d1, g⟩, hadd, h⟩ := Option.bind_eq_some_iff.mp h
  simp only [diradd] at hadd
  split at hadd
  · cases hadd
  rename_i hn
  rw [← hf] at hadd
  cases hadd
  have hout : f + 256 ≤ diskmap ∨ blockAddr s.nblocks.toNat ≤ f := by
    simp only [EntsApart, maxDirEnts] at hents hn
    omega
  obtain ⟨⟨s2, a⟩, halloc, h⟩ := Option.bind_eq_some_iff.mp h
  obtain ⟨rfl, rfl, hroom⟩ := alloc_spec halloc hpos (by omega)
  obtain ⟨s3, hfin, h⟩ := Option.bind_eq_some_iff.mp h
  cases h
  rw [blockof_blockAddr] at hfin
  rw [hlen] at hfin hroom
  dsimp only at hfin hroom
  -- The memory before `finishfile`
  have hbytes : file.contents.length ≤ 4096 * blockCount file.contents.length := by
    rw [blockCount]
    omega
  have hkeep : ∀ x, (x < f ∨ f + 136 ≤ x) →
      (x < blockAddr start ∨ blockAddr start + file.contents.length ≤ x) →
      (((strcpy s.mem f (baseName file.path)).write32 (f + 132) ftypeReg).store (blockAddr start)
        file.contents) x = s.mem x := by
    intro x hx hx'
    rw [Mem.store_of_disjoint _ (by omega), Mem.write32_of_disjoint _ _ (by omega), strcpy, if_neg (by omega)]
  generalize hm2 : ((strcpy s.mem f (baseName file.path)).write32 (f + 132) ftypeReg).store
    (blockAddr start) file.contents = m2 at hfin hkeep
  have hstart := blockAddr_eq start
  have hblock := blockAddr_add start (blockCount file.contents.length)
  have hend := blockAddr_add start (span file.contents.length)
  have hspan : blockCount file.contents.length ≤ span file.contents.length := Nat.le_add_right _ _
  obtain ⟨hlaid, hglob, hroom', hframe⟩ := finishfile_spec hlen rfl (by omega) (by
    intro x hx hx'
    dsimp only at hx hx'
    rw [← hzero x (by omega) hx']
    exact hkeep x (by omega) (by omega)) (by
    dsimp only
    omega) hfin
  have hroom'' := hroom' hroom
  have hnb := blockAddr_eq s.nblocks.toNat
  dsimp only at hlaid hglob hroom'' hframe hroom
  refine ⟨⟨hglob, hroom'', ⟨hlaid.congr_old fun c hc hc' => ?_, fun i hi => ?_, ?_, fun i hi => ?_⟩,
    fun x hx hx' => ?_⟩, rfl, by omega, hok.2.2⟩
  · exact (hkeep _ (by omega) (by omega)).symm
  · rw [hframe _ (by omega) (by omega) (by omega), ← hm2, Mem.store_of_disjoint _ (by omega),
      Mem.write32_of_disjoint _ _ (by omega), strcpy, if_pos (by omega), Nat.add_sub_cancel_left]
  · have htype : s'.mem.read32 (f + 132) = m2.read32 (f + 132) :=
      Mem.read32_congr fun x hx hx' => hframe x (by omega) (by omega) (by omega)
    rw [fType, htype, ← hm2, Mem.read32_congr fun x hx hx' => Mem.store_of_disjoint _ (by omega),
      Mem.read32_write32_self]
  · rw [hframe _ (by omega) (by omega) (by omega), ← hm2, Mem.store_of_mem _ hi]
  · rw [hframe x (by omega) (by omega) (by omega), hkeep x (by omega) (by omega)]

theorem writefile_spec {s0 : Format} {ents : Nat} {files : List HostFile} {file : HostFile} {d d' : Dir}
    (hents : EntsApart ents s0.nblocks.toNat) (hname : (baseName file.path).length < maxnamelen)
    (hb : Building s0 ents files s d) (h : writefile s d file = some (s', d')) :
    Building s0 ents (files ++ [file]) s' d' := by
  obtain ⟨hglob, hroom, hdir, hle, hsize, hnames, hheader, hrest, hfresh, hwritten⟩ := hb
  have hn : s.nblocks = s0.nblocks := by rw [hglob]
  have hpos : s.diskpos = blockAddr (filesEnd files) := by rw [hglob]
  have hge := filesEnd_ge files
  subst hdir
  obtain ⟨hadd, rfl, hmax, hlt⟩ := writefile_added hpos hname (by rw [hpos, hn]; exact hrest) rfl
    (by rw [hn]; exact hents) h
  have hroom' := hadd.room
  rw [hn] at hroom'
  have hbelow := blockAddr_add 3 (filesEnd files - 3)
  rw [Nat.add_sub_cancel' hge] at hbelow
  have hend := blockAddr_add (filesEnd files) (span file.contents.length)
  have hnb := blockAddr_add (filesEnd files + span file.contents.length)
    (s0.nblocks.toNat - (filesEnd files + span file.contents.length))
  rw [Nat.add_sub_cancel' (by omega)] at hnb
  have hthree : blockAddr 3 = diskmap + 12288 := rfl
  have h128 : maxDirEnts = 128 := rfl
  simp only [EntsApart] at hents
  dsimp only at hmax
  refine ⟨?_, ?_, ?_, ?_, fun g hg => ?_, fun g hg => ?_, fun x hx hx' => ?_, fun x hx hx' => ?_, fun x hx hx' => ?_,
    fun j hj => ?_⟩
  · rw [hadd.globals, filesEnd_append, hglob]
  · rw [filesEnd_append]
    exact hroom'
  · rw [List.length_append]
    rfl
  · rw [List.length_append]
    exact hmax
  · rcases List.mem_append.mp hg with hg | hg
    · exact hsize g hg
    · rw [List.mem_singleton.mp hg]
      exact hlt
  · rcases List.mem_append.mp hg with hg | hg
    · exact hnames g hg
    · rw [List.mem_singleton.mp hg]
      exact hname
  · rw [hadd.frame x (by dsimp only; omega) (by omega), hheader x hx hx']
  · rw [filesEnd_append] at hx
    rw [hadd.frame x (by dsimp only; omega) (by omega), hrest x (by omega) hx']
  · rw [List.length_append, List.length_singleton] at hx
    rw [hadd.frame x (by dsimp only; omega) (by omega), hfresh x (by omega) hx']
  · rw [List.length_append, List.length_singleton] at hj
    by_cases heq : j = files.length
    · subst heq
      have hfile : (files ++ [file])[files.length] = file := by simp
      have htake : (files ++ [file]).take files.length = files := by simp
      rw [hfile, htake]
      refine ⟨hadd.written.laid.congr_old fun c hc hc' => ?_, hadd.written.name, hadd.written.type,
        hadd.written.data⟩
      exact (hfresh (ents + 256 * files.length + c) (by omega) (by omega)).symm
    · have hj' : j < files.length := by omega
      have hfile : (files ++ [file])[j] = files[j] := List.getElem_append_left hj'
      have htake : (files ++ [file]).take j = files.take j := List.take_append_of_le_length (by omega)
      have hbefore := filesEnd_take_le files hj'
      have hblocks := blockAddr_add (filesEnd (files.take j) + span files[j].contents.length)
        (filesEnd files - (filesEnd (files.take j) + span files[j].contents.length))
      rw [Nat.add_sub_cancel' hbefore] at hblocks
      rw [hfile, htake]
      refine (hwritten j hj').copy (hnames _ (List.getElem_mem hj')) (fun c hc => ?_) fun x hx hx' => ?_
      · exact hadd.frame _ (by dsimp only; omega) (by omega)
      · have hge' := filesEnd_ge (files.take j)
        rw [blockAddr_eq] at hx
        exact hadd.frame _ (by dsimp only; omega) (by omega)

theorem writefiles_spec {s0 : Format} {ents : Nat} {files : List HostFile} (later : List HostFile)
    {d d' : Dir} (hents : EntsApart ents s0.nblocks.toNat)
    (hnames : ∀ file ∈ later, (baseName file.path).length < maxnamelen)
    (hb : Building s0 ents files s d) (h : writefiles s d later = some (s', d')) :
    Building s0 ents (files ++ later) s' d' := by
  induction later generalizing files s d with
  | nil =>
      cases h
      rw [List.append_nil]
      exact hb
  | cons file later ih =>
      obtain ⟨⟨s1, d1⟩, hone, h⟩ := Option.bind_eq_some_iff.mp h
      have hb1 := writefile_spec hents (hnames file List.mem_cons_self) hb hone
      have hall := ih (fun g hg => hnames g (List.mem_cons_of_mem _ hg)) hb1 h
      rw [List.append_assoc] at hall
      exact hall

/-! ## `opendisk` -/

/-- The state after `opendisk`. -/
structure Opened (m : Mem) (n : BitVec 32) (s : Format) : Prop where
  globals : s = ⟨s.mem, n, blockAddr 3, superAddr, diskmap + 8192⟩
  room : 3 < n.toNat
  le : n.toNat ≤ 1024
  magic : s.mem.read32 superAddr = fsMagic
  nblocks : sNblocks s.mem = n
  root : fType s.mem sRoot = ftypeDir
  slots : ∀ c, 136 ≤ c → c < 180 → s.mem (sRoot + c) = 0#8
  bits : ∀ x, diskmap + 8192 ≤ x → x < blockAddr 3 → s.mem x = 0xFF#8
  rest : ∀ x, blockAddr 3 ≤ x → x < blockAddr n.toNat → s.mem x = 0#8
  out : ∀ x, x < diskmap ∨ blockAddr n.toNat ≤ x → s.mem x = m x

theorem bitblocks_eq {n : BitVec 32} (h : 1 ≤ n.toNat) (h' : n.toNat ≤ 1024) :
    (n + 32768#32 - 1#32) / 32768#32 = 1#32 := by
  apply BitVec.eq_of_toNat_eq
  have hadd : (n + 32768#32).toNat = n.toNat + 32768 := by
    rw [BitVec.toNat_add]
    simp only [BitVec.toNat_ofNat]
    omega
  have hsub : (n + 32768#32 - 1#32).toNat = n.toNat + 32767 := by
    rw [BitVec.toNat_sub_of_le (by rw [BitVec.le_def, hadd]; simp only [BitVec.toNat_ofNat]; omega), hadd]
    simp only [BitVec.toNat_ofNat]
    omega
  rw [BitVec.toNat_udiv, hsub]
  show (n.toNat + 32767) / 32768 = 1
  omega

theorem read32_strcpy_of_disjoint (m : Mem) {dst a : Nat} {l : List (BitVec 8)}
    (h : a + 4 ≤ dst ∨ dst + l.length < a) : (strcpy m dst l).read32 a = m.read32 a := by
  refine Mem.read32_congr fun x hx hx' => ?_
  rw [strcpy, if_neg (by omega)]

theorem opendisk_spec {n : BitVec 32} (hn : 2 ≤ n.toNat) (hn' : n.toNat ≤ 1024)
    (h : opendisk m n = some s) : Opened m n s := by
  simp only [opendisk, bitblocks_eq (by omega) hn'] at h
  obtain ⟨⟨s1, a1⟩, halloc1, h⟩ := Option.bind_eq_some_iff.mp h
  obtain ⟨rfl, rfl, hroom1⟩ := alloc_spec (k := 0) halloc1 rfl (by decide)
  obtain ⟨⟨s2, a2⟩, halloc2, h⟩ := Option.bind_eq_some_iff.mp h
  obtain ⟨rfl, rfl, hroom2⟩ := alloc_spec (k := 1) halloc2 rfl (by decide)
  obtain ⟨⟨s3, a3⟩, halloc3, h⟩ := Option.bind_eq_some_iff.mp h
  obtain ⟨rfl, rfl, hroom3⟩ := alloc_spec (k := 2) halloc3 rfl (by decide)
  cases h
  have hlen : (1#32 * 4096#32).toNat = 4096 := rfl
  have h1 : blockAddr 1 = superAddr := rfl
  have h2 : blockAddr 2 = diskmap + 8192 := rfl
  have h3 : blockAddr 3 = diskmap + 12288 := rfl
  have hsuper : superAddr = diskmap + 4096 := rfl
  have hend := blockAddr_eq n.toNat
  have hroot : superAddr + 8 = sRoot := rfl
  have hone : ([slash] : List (BitVec 8)).length = 1 := rfl
  have hroom : 2 + 1 < n.toNat := hroom3
  clear halloc1 halloc2 halloc3 hroom1 hroom2 hroom3
  simp only [h1, h2, hlen, hroot]
  refine ⟨rfl, hroom, hn', ?_, ?_, ?_, fun c hc hc' => ?_, fun x hx hx' => ?_, fun x hx hx' => ?_,
    fun x hx => ?_⟩ <;> dsimp only
  · rw [Mem.read32_fill_of_disjoint _ _ (by omega), read32_strcpy_of_disjoint _ (by omega),
      Mem.read32_write32_of_disjoint _ _ (by omega), Mem.read32_write32_of_disjoint _ _ (by omega),
      Mem.read32_write32_self]
  · rw [sNblocks, Mem.read32_fill_of_disjoint _ _ (by omega), read32_strcpy_of_disjoint _ (by omega),
      Mem.read32_write32_of_disjoint _ _ (by omega), Mem.read32_write32_self]
  · rw [fType, Mem.read32_fill_of_disjoint _ _ (by omega), read32_strcpy_of_disjoint _ (by omega),
      Mem.read32_write32_self]
  · rw [Mem.fill_of_disjoint _ _ (by omega), strcpy, if_neg (by omega), Mem.write32_of_disjoint _ _ (by omega),
      Mem.write32_of_disjoint _ _ (by omega), Mem.write32_of_disjoint _ _ (by omega)]
    exact Mem.fill_of_mem _ 0 (by omega) (by omega)
  · rw [h3] at hx'
    exact Mem.fill_of_mem _ _ hx (by omega)
  · rw [Mem.fill_of_disjoint _ _ (by omega), strcpy, if_neg (by omega), Mem.write32_of_disjoint _ _ (by omega),
      Mem.write32_of_disjoint _ _ (by omega), Mem.write32_of_disjoint _ _ (by omega)]
    exact Mem.fill_of_mem _ 0 (by omega) (by omega)
  · rw [hend] at hx
    simp only [sRoot_eq, hsuper]
    clear h1 h2 h3 hend hsuper hroot
    generalize diskmap = start at hx ⊢
    rw [Mem.fill_of_disjoint _ _ (by omega), strcpy, if_neg (by omega), Mem.write32_of_disjoint _ _ (by omega),
      Mem.write32_of_disjoint _ _ (by omega), Mem.write32_of_disjoint _ _ (by omega),
      Mem.fill_of_disjoint _ _ hx]

/-! ## `finishdisk` -/

theorem clear_cases (n : Nat) (m : Mem) :
    (∀ x, (x < bitmapWord 0 ∨ bitmapWord n + 4 ≤ x) → (List.range n).foldl clearBit m x = m x) ∧
      ∀ b, bitSet ((List.range n).foldl clearBit m) b ↔ bitSet m b ∧ n ≤ b := by
  induction n with
  | zero => exact ⟨fun _ _ => rfl, fun b => by simp⟩
  | succ n ih =>
      rw [List.range_succ, List.foldl_append, List.foldl_cons, List.foldl_nil]
      have hle : bitmapWord n ≤ bitmapWord (n + 1) := by
        simp only [bitmapWord_eq]
        omega
      have hge : bitmapWord 0 ≤ bitmapWord n := by
        simp only [bitmapWord_eq]
        omega
      refine ⟨fun x hx => ?_, fun b => ?_⟩
      · rw [clearBit, Mem.write32_of_disjoint _ _ (by omega), ih.1 x (by omega)]
      · rw [bitSet_clearBit, ih.2 b, and_assoc]
        exact and_congr_right fun _ => by omega

theorem finishdisk_eq {u : Nat} (hbit : s.bitmap = diskmap + 8192) (hpos : s.diskpos = blockAddr u) :
    (finishdisk s).mem = (List.range u).foldl clearBit s.mem := by
  rw [finishdisk, hbit, hpos, blockof_blockAddr]
  rfl

/-! ## The image -/

/-- The number of blocks of the root directory, by its size; for no files it is one, and the block
is not allocated. -/
def rootBlocks (n : Nat) : Nat := max 1 (blockCount (256 * n))

/-- The blocks before this one are in use. -/
def usedBlocks (files : List HostFile) : Nat := filesEnd files + blockCount (256 * files.length)

/-- What `fsformat` writes. -/
structure Image (old : Mem) (ents : Nat) (n : BitVec 32) (files : List HostFile) (m : Mem) : Prop where
  length_le : files.length ≤ maxDirEnts
  size_lt : ∀ file ∈ files, file.contents.length < maxfilesize
  le : n.toNat ≤ 1024
  used_lt : usedBlocks files < n.toNat
  magic : m.read32 superAddr = fsMagic
  nblocks : sNblocks m = n
  root_type : fType m sRoot = ftypeDir
  root : Laid (fun _ => 0#8) 0 m sRoot (4096 * rootBlocks files.length) (filesEnd files)
  bits : ∀ b < 32768, bitSet m b ↔ usedBlocks files ≤ b
  written : ∀ j, (h : j < files.length) → Written old (ents + 256 * j) files[j]
    (filesEnd (files.take j)) m (blockAddr (filesEnd files) + 256 * j)
  rest : ∀ x, blockAddr (filesEnd files) + 256 * files.length ≤ x → x < blockAddr n.toNat → m x = 0#8

theorem rootBlocks_le {n : Nat} (h : n ≤ maxDirEnts) : rootBlocks n ≤ 8 := by
  simp only [maxDirEnts] at h
  simp only [rootBlocks, blockCount]
  omega

theorem rootSize_eq {n : Nat} (h : n ≤ maxDirEnts) :
    (roundupInt (BitVec.ofNat 32 (256 * n))).toNat = 4096 * rootBlocks n := by
  by_cases hz : n = 0
  · rw [hz]
    decide
  · have h128 : maxDirEnts = 128 := rfl
    have hmax : maxfilesize = 4235264 := rfl
    have hn : (BitVec.ofNat 32 (256 * n)).toNat = 256 * n := by
      rw [BitVec.toNat_ofNat]
      omega
    rw [roundupInt_eq (by omega) (by omega), roundup_toNat (by omega), hn, rootBlocks, Nat.max_eq_right]
    rw [blockCount]
    omega

theorem bitSet_of_bytes {b : Nat} (h : ∀ x, bitmapWord b ≤ x → x < bitmapWord b + 4 → m x = 0xFF#8) :
    bitSet m b := by
  rw [bitSet_iff]
  have hword : m.read32 (bitmapWord b) = 0xFFFFFFFF#32 := by
    rw [Mem.read32, h _ (by omega) (by omega), h _ (by omega) (by omega), h _ (by omega) (by omega),
      h _ (by omega) (by omega)]
    rfl
  rw [hword, show (0xFFFFFFFF#32) = BitVec.allOnes 32 from rfl, BitVec.getLsbD_allOnes]
  simpa using Nat.mod_lt b (by omega)

theorem Opened.ents_eq {s0 : Format} {n : BitVec 32} {ents x : Nat} (ho : Opened m n s0)
    (hents : EntsApart ents n.toNat) (hx : ents ≤ x) (hx' : x < ents + 32768) : s0.mem x = m x := by
  refine ho.out x ?_
  rcases hents with hlow | hhigh
  · exact Or.inl (Nat.lt_of_lt_of_le hx' hlow)
  · exact Or.inr (Nat.le_trans hhigh hx)

/-- The root directory: its entries are copied and its `struct File` is filled in. -/
structure DirFinished (s : Format) (ents n : Nat) (start : Nat) (s' : Format) : Prop where
  globals : s' = { s with mem := s'.mem, diskpos := blockAddr (start + blockCount (256 * n)) }
  room : start + blockCount (256 * n) < s.nblocks.toNat
  root : Laid s.mem sRoot s'.mem sRoot (4096 * rootBlocks n) start
  copied : ∀ c < 256 * n, s'.mem (blockAddr start + c) = s.mem (ents + c)
  frame : ∀ x, (x < sRoot + 128 ∨ sRoot + 132 ≤ x) → (x < sRoot + 136 ∨ sRoot + 180 ≤ x) →
    (x < blockAddr start ∨ blockAddr start + 256 * n ≤ x) → s'.mem x = s.mem x

theorem finishdir_spec {ents n : Nat} (hpos : s.diskpos = blockAddr start) (hstart : 3 ≤ start)
    (hn : n ≤ maxDirEnts) (h : finishdir s ⟨sRoot, ents, n⟩ = some s') :
    DirFinished s ents n start s' := by
  have h128 : maxDirEnts = 128 := rfl
  have hmax : maxfilesize = 4235264 := rfl
  have hsize : (BitVec.ofNat 32 (256 * n)).toNat = 256 * n := by
    rw [BitVec.toNat_ofNat]
    omega
  have hcount : blockCount (4096 * rootBlocks n) = rootBlocks n := by
    rw [blockCount]
    omega
  have hroot := rootBlocks_le hn
  have haddr : sRoot + 256 ≤ blockAddr start := by
    rw [sRoot_eq, blockAddr_eq]
    omega
  obtain ⟨⟨s1, a⟩, halloc, h⟩ := Option.bind_eq_some_iff.mp h
  obtain ⟨rfl, rfl, hroom⟩ := alloc_spec halloc hpos (by rw [hsize]; omega)
  simp only [hsize, blockof_blockAddr] at h hroom
  obtain ⟨hlaid, hglob, hframe⟩ := finishfile_small (rootSize_eq hn)
    (by rw [hcount]; simp only [ndirect]; omega) h
  refine ⟨hglob, hroom, hlaid.congr_old fun c hc hc' => ?_, fun c hc => ?_, fun x hx hx' hx'' => ?_⟩
  · dsimp only
    rw [Mem.move_of_disjoint _ (by omega)]
  · rw [hframe _ (by omega) (by omega)]
    dsimp only
    rw [Mem.move_of_mem _ (by omega) (by omega), Nat.add_sub_cancel_left]
  · rw [hframe x hx hx']
    dsimp only
    rw [Mem.move_of_disjoint _ hx'']

section

variable {s0 s s' : Format} {m m3 : Mem} {n : BitVec 32} {ents : Nat} {files : List HostFile} {d : Dir}

theorem blockAddr_mono {i j : Nat} (h : i ≤ j) : blockAddr i ≤ blockAddr j := by
  rw [blockAddr_eq, blockAddr_eq]
  omega

/-- Before the bitmap, only the size and the slots of the root directory are new. -/
theorem header_kept (hb : Building s0 ents files s d)
    (hfin : DirFinished s ents files.length (filesEnd files) s')
    (hkeep : ∀ x, (x < blockAddr 2 ∨ blockAddr 3 ≤ x) → m3 x = s'.mem x) {x : Nat} (hx : diskmap ≤ x)
    (hx' : x < blockAddr 2) (hs : x < sRoot + 128 ∨ sRoot + 132 ≤ x)
    (hs' : x < sRoot + 136 ∨ sRoot + 180 ≤ x) : m3 x = s0.mem x := by
  have hlt : x < blockAddr 3 := Nat.lt_trans hx' (by decide)
  rw [hkeep x (Or.inl hx'), ← hb.header x hx hlt]
  exact hfin.frame x hs hs' (Or.inl (Nat.lt_of_lt_of_le hlt (blockAddr_mono (filesEnd_ge files))))

theorem header_read32 (hb : Building s0 ents files s d)
    (hfin : DirFinished s ents files.length (filesEnd files) s')
    (hkeep : ∀ x, (x < blockAddr 2 ∨ blockAddr 3 ≤ x) → m3 x = s'.mem x) {a : Nat} (ha : diskmap ≤ a)
    (ha' : a + 4 ≤ blockAddr 2) (hs : a + 4 ≤ sRoot + 128 ∨ sRoot + 132 ≤ a ∧ a + 4 ≤ sRoot + 136) :
    m3.read32 a = s0.mem.read32 a :=
  Mem.read32_congr fun x hx hx' =>
    header_kept hb hfin hkeep (by omega) (by omega) (by omega) (by omega)

theorem bits_kept (ho : Opened m n s0) (hb : Building s0 ents files s d)
    (hfin : DirFinished s ents files.length (filesEnd files) s') {x : Nat} (hx : diskmap + 8192 ≤ x)
    (hx' : x < blockAddr 3) : s'.mem x = 0xFF#8 := by
  have hroot : sRoot + 180 ≤ x := Nat.le_trans (by decide) hx
  rw [← ho.bits x hx hx', ← hb.header x (Nat.le_trans (Nat.le_add_right _ _) hx) hx']
  exact hfin.frame x (Or.inr (Nat.le_trans (Nat.add_le_add_left (by decide) _) hroot)) (Or.inr hroot)
    (Or.inl (Nat.lt_of_lt_of_le hx' (blockAddr_mono (filesEnd_ge files))))

/-- The blocks of the files. -/
theorem blocks_kept (hfin : DirFinished s ents files.length (filesEnd files) s')
    (hkeep : ∀ x, (x < blockAddr 2 ∨ blockAddr 3 ≤ x) → m3 x = s'.mem x) {x : Nat}
    (hx : blockAddr 3 ≤ x)
    (hx' : x < blockAddr (filesEnd files) ∨ blockAddr (filesEnd files) + 256 * files.length ≤ x) :
    m3 x = s.mem x := by
  have hroot : sRoot + 180 ≤ x := Nat.le_trans (by decide) hx
  rw [hkeep x (Or.inr hx)]
  exact hfin.frame x (Or.inr (by omega)) (Or.inr hroot) hx'

theorem image_of_building (ho : Opened m n s0) (hents : EntsApart ents n.toNat)
    (hb : Building s0 ents files s d) (h : finishdir s d = some s') :
    Image m ents n files (finishdisk s').mem := by
  have hd : d = ⟨sRoot, ents, files.length⟩ := by
    rw [hb.dir, ho.globals]
    rfl
  subst hd
  have hfin := finishdir_spec (by rw [hb.globals]) (filesEnd_ge files) hb.length_le h
  have hroom := hfin.room
  rw [show s.nblocks = n by rw [hb.globals, ho.globals]] at hroom
  have hmem := finishdisk_eq (s := s') (u := usedBlocks files)
    (by rw [hfin.globals, hb.globals, ho.globals]) (by rw [hfin.globals]; rfl)
  obtain ⟨hclear, hbits⟩ := clear_cases (usedBlocks files) s'.mem
  rw [← hmem] at hclear hbits
  generalize (finishdisk s').mem = m3 at hclear hbits ⊢
  have hkeep : ∀ x, (x < blockAddr 2 ∨ blockAddr 3 ≤ x) → m3 x = s'.mem x := fun x hx => by
    have hword : bitmapWord (usedBlocks files) + 4 ≤ blockAddr 3 := by
      have hused : usedBlocks files < 1024 := Nat.lt_of_lt_of_le hroom ho.le
      rw [bitmapWord_eq, blockAddr_eq]
      omega
    exact hclear x (hx.imp id (Nat.le_trans hword))
  have hlen : files.length ≤ 128 := hb.length_le
  have hend := blockAddr_mono (filesEnd_ge files)
  refine ⟨hb.length_le, hb.size_lt, ho.le, hroom, ?_, ?_, ?_, ?_, fun b hb32 => ?_, fun j hj => ?_,
    fun x hx hx' => ?_⟩
  · rw [← ho.magic]
    exact header_read32 hb hfin hkeep (by decide) (by decide) (by decide)
  · rw [← ho.nblocks]
    exact header_read32 hb hfin hkeep (by decide) (by decide) (by decide)
  · rw [← ho.root]
    exact header_read32 hb hfin hkeep (by decide) (by decide) (by decide)
  · have hroot : ∀ c < 256, m3 (sRoot + c) = s'.mem (sRoot + c) := fun c hc =>
      hkeep _ (Or.inl (Nat.lt_of_lt_of_le (Nat.add_lt_add_left hc _) (by decide)))
    have hlaid := hfin.root.copy hroot fun x hx _ => hkeep x (Or.inr (Nat.le_trans hend hx))
    refine hlaid.congr_old fun c hc hc' => ?_
    have hin : sRoot + c < blockAddr 3 := Nat.lt_of_lt_of_le (Nat.add_lt_add_left hc' _) (by decide)
    rw [hb.header _ (Nat.le_trans (by decide) (Nat.le_add_right sRoot c)) hin, ho.slots c hc hc']
  · rw [hbits b]
    refine and_iff_right (bitSet_of_bytes fun x hx hx' => bits_kept ho hb hfin ?_ ?_)
    · exact Nat.le_trans (Nat.le_add_right _ _) hx
    · have hword : bitmapWord b + 4 ≤ blockAddr 3 := by
        rw [bitmapWord_eq, blockAddr_eq]
        omega
      exact Nat.lt_of_lt_of_le hx' hword
  · have hbefore := filesEnd_take_le files hj
    have hcopy : Written s0.mem (ents + 256 * j) files[j] (filesEnd (files.take j)) m3
        (blockAddr (filesEnd files) + 256 * j) := by
      refine (hb.written j hj).copy (hb.name_lt _ (List.getElem_mem hj)) (fun c hc => ?_)
        fun x hx hx' => ?_
      · rw [hkeep _ (Or.inr (Nat.le_trans hend (by omega))), Nat.add_assoc, hfin.copied _ (by omega), Nat.add_assoc]
      · exact blocks_kept hfin hkeep (Nat.le_trans (blockAddr_mono (filesEnd_ge _)) hx)
          (Or.inl (Nat.lt_of_lt_of_le hx' (blockAddr_mono hbefore)))
    refine ⟨hcopy.laid.congr_old fun c hc hc' => ?_, hcopy.name, hcopy.type, hcopy.data⟩
    rw [ho.ents_eq hents (by omega) (by omega)]
  · rw [blocks_kept hfin hkeep (Nat.le_trans hend (Nat.le_trans (Nat.le_add_right _ _) hx)) (Or.inr hx)]
    refine hb.rest x (Nat.le_trans (Nat.le_add_right _ _) hx) ?_
    rw [ho.globals]
    exact hx'

end

/-- The layout of the image. -/
theorem fsformat_image {n : BitVec 32} {ents : Nat} {files : List HostFile}
    (hents : EntsApart ents n.toNat)
    (hnames : ∀ file ∈ files, (baseName file.path).length < maxnamelen)
    (h : fsformat m ents n files = some s) : Image m ents n files s.mem := by
  rw [fsformat] at h
  split at h
  · cases h
  rename_i hn
  simp only [not_or, BitVec.not_lt, BitVec.le_def, BitVec.toNat_ofNat] at hn
  obtain ⟨s0, hopen, h⟩ := Option.bind_eq_some_iff.mp h
  have ho := opendisk_spec (by omega) (by omega) hopen
  have hnb : s0.nblocks = n := by rw [ho.globals]
  obtain ⟨⟨s1, d1⟩, hfiles, h⟩ := Option.bind_eq_some_iff.mp h
  have hb0 : Building s0 ents [] s0 ⟨s0.super + 8, ents, 0⟩ := by
    refine ⟨?_, ?_, rfl, Nat.zero_le _, fun _ h => absurd h List.not_mem_nil,
      fun _ h => absurd h List.not_mem_nil, fun _ _ _ => rfl, ?_, fun _ _ _ => rfl, fun j h => absurd h (Nat.not_lt_zero j)⟩
    · rw [ho.globals]
      rfl
    · rw [hnb]
      exact ho.room
    · rw [hnb]
      exact ho.rest
  have hb := writefiles_spec files (by rw [hnb]; exact hents) hnames hb0 hfiles
  obtain ⟨s2, hdir, h⟩ := Option.bind_eq_some_iff.mp h
  cases h
  exact image_of_building ho hents hb hdir

end

end Jos.Fs
