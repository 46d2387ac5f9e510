import Jos.Fs.ImageWf
import Mathlib.Data.List.GetD
import Mathlib.Data.List.TakeWhile

/-!
# An image in the server

The server mounts an image of `fsformat`, finds its files by their names and reads what the host
files had. This holds whatever is in the slots that `finishfile` does not write: opening and
reading use the block numbers before the end of a file only. The blocks that are read are in use,
so `bc_pgfault` accepts them.

Main result:
* `fsformat_served`: the host files, their sizes and bytes, under their names.
-/

namespace Jos.Fs

open Jos.Lib

/-! ## Mounting -/

/-- `check_super` -/
def checkSuper (m : Mem) : Option Unit :=
  if m.read32 superAddr ≠ fsMagic then none
  else if disksize / 4096 < (sNblocks m).toNat then none
  else some ()

/-- `check_bitmap` -/
def checkBitmap (m : Mem) : Option Unit := do
  (List.range (((sNblocks m).toNat + 32767) / 32768)).forM fun i =>
    if blockIsFree m (2 + i) then none else some ()
  if blockIsFree m 0 then none
  else if blockIsFree m 1 then none
  else some ()

section

variable {m m' old : Mem} {ents f buf start len : Nat} {n : BitVec 32} {files : List HostFile}

/-- The image is the same in a memory with the same blocks. -/
theorem Image.congr (h : Image old ents n files m)
    (hnames : ∀ file ∈ files, (baseName file.path).length < maxnamelen)
    (heq : ∀ x, diskmap ≤ x → x < blockAddr n.toNat → m' x = m x) : Image old ents n files m' := by
  have hroom := h.root_room
  have hused := h.used_lt
  have hle := h.le
  have hE := filesEnd_ge files
  have hS : superAddr = diskmap + 4096 := rfl
  have hR := sRoot_eq
  have hN := blockAddr_eq n.toNat
  have hfiles := blockAddr_eq (filesEnd files)
  have hroot := rootBlocks_le h.length_le
  simp only [usedBlocks] at hused
  have hused' := hused
  rw [blockCount] at hused'
  refine ⟨h.length_le, h.size_lt, hle, h.used_lt, ?_, ?_, ?_, ?_, fun b hb => ?_, fun j hj => ?_,
    fun x hx hx' => ?_⟩
  · rw [← h.magic]
    exact Mem.read32_congr fun x hx hx' => heq x (by omega) (by omega)
  · rw [← h.nblocks]
    exact Mem.read32_congr fun x hx hx' => heq x (by omega) (by omega)
  · rw [← h.root_type]
    exact Mem.read32_congr fun x hx hx' => heq x (by omega) (by omega)
  · refine h.root.copy (fun c hc => heq _ (by omega) (by omega)) fun x hx hx' => heq x (by omega) ?_
    rw [span_root h.length_le, blockAddr_eq] at hx'
    omega
  · have hword := bitmapWord_eq b
    rw [← h.bits b hb, bitSet, bitSet,
      Mem.read32_congr fun x hx hx' => heq x (by omega) (by omega)]
  · have hbefore := filesEnd_take_le files hj
    refine (h.written j hj).copy (hnames _ (List.getElem_mem hj)) (fun c hc => heq _ (by omega) (by omega))
      fun x hx hx' => heq x ?_ ?_
    · rw [blockAddr_eq] at hx
      omega
    · rw [blockAddr_eq] at hx'
      omega
  · rw [heq x (by omega) hx', h.rest x hx hx']

theorem Image.blockIsFree_eq (h : Image old ents n files m) {b : Nat} (hb : b < usedBlocks files) :
    blockIsFree m b = false := by
  have hused := h.used_lt
  have hle := h.le
  rw [Bool.eq_false_iff, ne_eq, blockIsFree_iff, h.bits b (by omega)]
  omega

theorem Image.checkSuper_eq (h : Image old ents n files m) : checkSuper m = some () := by
  have hle := h.le
  have hdisk : disksize / 4096 = 786432 := rfl
  rw [checkSuper, if_neg (by rw [h.magic]; exact fun hne => hne rfl), h.nblocks, if_neg (by omega)]

theorem Image.checkBitmap_eq (h : Image old ents n files m) : checkBitmap m = some () := by
  have hge : 3 ≤ usedBlocks files := Nat.le_trans (filesEnd_ge files) (Nat.le_add_right _ _)
  have hle := h.le
  have hone : ((sNblocks m).toNat + 32767) / 32768 = 1 := by
    have hused := h.used_lt
    rw [h.nblocks]
    omega
  rw [checkBitmap, hone]
  simp only [List.range_one, List.forM_eq_forM, List.forM_cons, List.forM_nil,
    h.blockIsFree_eq (show 2 + 0 < _ by omega),
    h.blockIsFree_eq (show 0 < _ by omega), h.blockIsFree_eq (show 1 < _ by omega)]
  rfl

/-! ## Blocks that are there -/

theorem diskaddr_of {b : BitVec 32} (hpos : 0 < b.toNat) (hlt : b.toNat < (sNblocks m).toNat) :
    diskaddr m b = some (blockAddr b.toNat) := by
  rw [diskaddr, if_neg]
  rintro (rfl | hle)
  · exact absurd hpos (by decide)
  · rw [BitVec.le_def] at hle
    omega

/-- `file_get_block` for a block that is there takes nothing. -/
theorem fileGetBlock_there {bno : BitVec 32} {b : Nat} (hi : bno.toNat < maxblocks)
    (hb : blockPtr m f bno.toNat = b) (hpos : 0 < b) (hlt : b < (sNblocks m).toNat)
    (hind : ndirect ≤ bno.toNat → (indirect m f).toNat < (sNblocks m).toNat) :
    fileGetBlock m f bno = some (m, .ok (blockAddr b)) := by
  rw [blockPtr] at hb
  split at hb
  · rename_i hd
    have hne : m.read32 (fDirect f bno.toNat) ≠ 0#32 := by
      intro hz
      rw [hz] at hb
      simp only [BitVec.toNat_ofNat] at hb
      omega
    have hwalk : fileBlockWalk m f bno true = some (m, .ok (fDirect f bno.toNat)) := by
      rw [fileBlockWalk, if_neg (by omega), if_pos hd]
    simp only [fileGetBlock, hwalk, Option.bind_eq_bind, Option.bind_some, if_neg hne]
    rw [diskaddr_of (by omega) (by omega), hb]
    rfl
  · rename_i hd
    split at hb
    · omega
    · rename_i hne
      have hipos : 0 < (indirect m f).toNat := by
        rcases Nat.eq_zero_or_pos (indirect m f).toNat with hz | hz
        · exact absurd (BitVec.eq_of_toNat_eq hz) hne
        · exact hz
      have hwalk : fileBlockWalk m f bno true =
          some (m, .ok (blockAddr (indirect m f).toNat + 4 * (bno.toNat - ndirect))) := by
        rw [fileBlockWalk, if_neg (by omega), if_neg hd, if_neg (by simp), if_neg hne]
        simp only [Option.bind_eq_bind, Option.bind_some]
        rw [diskaddr_of hipos (hind (by omega))]
        rfl
      have hne' : m.read32 (blockAddr (indirect m f).toNat + 4 * (bno.toNat - ndirect)) ≠ 0#32 := by
        intro hz
        rw [hz] at hb
        simp only [BitVec.toNat_ofNat] at hb
        omega
      simp only [fileGetBlock, hwalk, Option.bind_eq_bind, Option.bind_some, if_neg hne']
      rw [diskaddr_of (by omega) (by omega), hb]
      rfl

/-- The blocks of a file of the image. -/
theorem Image.getBlock (h : Image old ents n files m) (hs : FileSpan files f len start)
    (hne : files ≠ []) {bno : BitVec 32} (hi : bno.toNat < blockCount len) :
    fileGetBlock m f bno = some (m, .ok (blockAddr (start + bno.toNat))) := by
  obtain ⟨hlen, old', o, hlaid, _⟩ := hs.laid h
  obtain ⟨hge, hle⟩ := hs.range h.length_le
  have hspan : blockCount len ≤ span len := Nat.le_add_right _ _
  have hn := h.le
  have hused := h.used_lt
  rw [usedBlocks_eq hne] at hused
  have hmax := blockCount_le hlen
  refine fileGetBlock_there (by omega) (hlaid.blockPtr_eq hlen (by omega) hi) (by omega) ?_ fun hbig => ?_
  · rw [h.nblocks]
    omega
  · rw [h.nblocks, hlaid.indirect, if_pos (by omega), BitVec.toNat_ofNat, Nat.mod_eq_of_lt (by omega)]
    rw [span_of_ge (by omega)] at hle
    omega

/-! ## Looking up a name -/

/-- What the search in the blocks at `blk i` finds. -/
theorem dirLookupLoop_there {blk : Nat → Nat} {name : List (BitVec 8)} {l : List Nat}
    (hget : ∀ i ∈ l, fileGetBlock m f (BitVec.ofNat 32 i) = some (m, .ok (blk i))) :
    dirLookupLoop f name m l = some (m, match l.findSome? fun i => namedEntry m (blk i) name with
      | some g => .ok g
      | none => .error (-eNotFound)) := by
  induction l with
  | nil => rfl
  | cons i l ih =>
      rw [dirLookupLoop, hget i List.mem_cons_self]
      simp only [Option.bind_eq_bind, Option.bind_some]
      rw [List.findSome?_cons]
      cases hentry : namedEntry m (blk i) name with
      | some g => rfl
      | none => exact ih fun j hj => hget j (List.mem_cons_of_mem _ hj)

theorem nameIs_iff (a : Nat) (name : List (BitVec 8)) :
    nameIs m a name = true ↔ ∀ i ≤ name.length, m (a + i) = name.getD i 0#8 := by
  induction name generalizing a with
  | nil =>
      simp only [nameIs, decide_eq_true_eq, List.length_nil, Nat.le_zero]
      exact ⟨fun h i hi => by rw [hi]; exact h, fun h => h 0 rfl⟩
  | cons c l ih =>
      rw [nameIs, Bool.and_eq_true, decide_eq_true_eq, ih]
      constructor
      · rintro ⟨hc, hl⟩ i hi
        cases i with
        | zero => exact hc
        | succ i =>
            rw [List.length_cons] at hi
            have := hl i (by omega)
            rw [show a + (i + 1) = a + 1 + i by omega, this]
            rfl
      · intro h
        refine ⟨h 0 (Nat.zero_le _), fun i hi => ?_⟩
        have := h (i + 1) (by rw [List.length_cons]; omega)
        rw [show a + 1 + i = a + (i + 1) by omega, this]
        rfl

/-- Two names that agree up to their null bytes are equal. -/
theorem name_eq_of {b : Nat → BitVec 8} {name name' : List (BitVec 8)} (h0 : 0#8 ∉ name)
    (h0' : 0#8 ∉ name')
    (h : ∀ i ≤ name.length, b i = name.getD i 0#8) (h' : ∀ i ≤ name'.length, b i = name'.getD i 0#8) :
    name = name' := by
  have hend : ∀ {l l' : List (BitVec 8)}, 0#8 ∉ l' → (∀ i ≤ l.length, b i = l.getD i 0#8) →
      (∀ i ≤ l'.length, b i = l'.getD i 0#8) → l'.length ≤ l.length := by
    intro l l' hl' hb hb'
    by_contra hlt
    have h1 := hb l.length (Nat.le_refl _)
    have h2 := hb' l.length (by omega)
    rw [List.getD_eq_default _ _ (Nat.le_refl _)] at h1
    rw [List.getD_eq_getElem _ _ (by omega), h1] at h2
    exact hl' (h2 ▸ List.getElem_mem _)
  have hlen : name.length = name'.length := Nat.le_antisymm (hend h0 h' h) (hend h0' h h')
  refine List.ext_getElem hlen fun i hi hi' => ?_
  rw [← List.getD_eq_getElem _ 0#8 hi, ← List.getD_eq_getElem _ 0#8 hi', ← h i (by omega),
    ← h' i (by omega)]

/-- An entry has a name when it is that of a file with the name. -/
theorem Image.nameIs_iff_base (h : Image old ents n files m) {e : Nat} {name : List (BitVec 8)}
    (hok : ∀ file ∈ files, 0#8 ∉ baseName file.path) (hname : NameOk name)
    (he : e < 16 * rootBlocks files.length) :
    nameIs m (rootEntry files e) name = true ↔
      ∃ hlt : e < files.length, baseName files[e].path = name := by
  rw [nameIs_iff]
  constructor
  · intro hbytes
    have hlt : e < files.length := by
      by_contra hge
      have hzero := h.entry_zero (x := rootEntry files e) (by omega) he (by omega) (by omega)
      have hfirst := hbytes 0 (Nat.zero_le _)
      rw [Nat.add_zero, hzero, List.getD_eq_getElem _ _ (List.length_pos_iff.mpr hname.ne_nil)] at hfirst
      exact hname.no_null (hfirst ▸ List.getElem_mem _)
    exact ⟨hlt, name_eq_of (hok _ (List.getElem_mem hlt)) hname.no_null (h.written e hlt).name hbytes⟩
  · rintro ⟨hlt, rfl⟩
    exact (h.written e hlt).name

theorem rootEntry_block (files : List HostFile) (i j : Nat) :
    blockAddr (filesEnd files + i) + 256 * j = rootEntry files (16 * i + j) := by
  simp only [rootEntry, blockAddr_add]
  omega

/-- `dir_lookup` finds an entry with the name, if there is one. -/
theorem Image.lookup_cases (h : Image old ents n files m) (hne : files ≠ []) (name : List (BitVec 8)) :
    (dirLookup m sRoot name = some (m, .error (-eNotFound)) ∧
        ∀ e < 16 * rootBlocks files.length, nameIs m (rootEntry files e) name = false) ∨
      ∃ e < 16 * rootBlocks files.length, dirLookup m sRoot name = some (m, .ok (rootEntry files e)) ∧
        nameIs m (rootEntry files e) name = true := by
  have hroot := rootBlocks_le h.length_le
  have hmax : maxfilesize = 4235264 := rfl
  have hsize : (fSize m sRoot).toNat = 4096 * rootBlocks files.length := h.root.size_toNat (by omega)
  have hcount : blockCount (4096 * rootBlocks files.length) = rootBlocks files.length := by
    rw [blockCount]
    omega
  have hget : ∀ i ∈ List.range (rootBlocks files.length), fileGetBlock m sRoot (BitVec.ofNat 32 i) =
      some (m, .ok (blockAddr (filesEnd files + i))) := by
    intro i hi
    rw [List.mem_range] at hi
    have hi' : (BitVec.ofNat 32 i).toNat = i := by
      rw [BitVec.toNat_ofNat, Nat.mod_eq_of_lt (by omega)]
    rw [← hcount, ← hi'] at hi
    rw [h.getBlock .root hne hi, hi']
  have hblocks : ((fSize m sRoot).sdiv 4096#32).toNat = rootBlocks files.length := by
    rw [sdiv_block (by omega), hsize]
    omega
  rw [dirLookup, if_neg (by rw [not_not, srem_eq_zero_iff, hsize]; omega), hblocks, dirLookupLoop_there hget]
  cases hfind : (List.range (rootBlocks files.length)).findSome?
      fun i => namedEntry m (blockAddr (filesEnd files + i)) name with
  | none =>
      refine Or.inl ⟨rfl, fun e he => ?_⟩
      rw [List.findSome?_eq_none_iff] at hfind
      have hentry := hfind (e / 16) (List.mem_range.mpr (by omega))
      rw [namedEntry, Option.map_eq_none_iff, List.find?_eq_none] at hentry
      have hno := hentry (e % 16) (List.mem_range.mpr (Nat.mod_lt _ (by decide)))
      rw [rootEntry_block, Nat.div_add_mod] at hno
      exact Bool.eq_false_iff.mpr hno
  | some g =>
      obtain ⟨i, hi, hentry⟩ := List.exists_of_findSome?_eq_some hfind
      rw [namedEntry, Option.map_eq_some_iff] at hentry
      obtain ⟨j, hj, rfl⟩ := hentry
      have hlt := List.mem_range.mp (List.mem_of_find?_eq_some hj)
      have hname := List.find?_some hj
      rw [List.mem_range] at hi
      simp only [blkfiles] at hlt
      rw [rootEntry_block] at hname ⊢
      exact Or.inr ⟨_, by omega, rfl, hname⟩

/-- `file_open` of a name in the root directory. -/
theorem fileOpen_root {name : List (BitVec 8)} {r : Except Int Nat} (hname : NameOk name)
    (hslash : slash ∉ name) (hdir : fType m sRoot = ftypeDir)
    (hr : r = .error (-eNotFound) ∨ ∃ g, r = .ok g) (h : dirLookup m sRoot name = some (m, r)) :
    fileOpen m (slash :: name) = some (m, r) := by
  have hall : ∀ c ∈ name, decide (c ≠ slash) = true := fun c hc => by
    simp only [ne_eq, decide_eq_true_eq]
    rintro rfl
    exact hslash hc
  have htake : name.takeWhile (· ≠ slash) = name := List.takeWhile_eq_self_iff.mpr hall
  have hdrop : name.dropWhile (· ≠ slash) = [] := List.dropWhile_eq_nil_iff.mpr hall
  have hskip : skipSlash (slash :: name) = name := by
    rw [skipSlash, List.dropWhile_cons, if_pos (by simp)]
    cases name with
    | nil => rfl
    | cons c l =>
        rw [List.dropWhile_cons, if_neg]
        simpa using hall c List.mem_cons_self
  have hlen := hname.length_lt
  rw [fileOpen, walkPath, hskip, List.length_cons, walkLoop, if_neg hname.ne_nil]
  simp only [htake, hdrop, if_neg (Nat.not_le.mpr hlen), hdir, h]
  rcases hr with rfl | ⟨g, rfl⟩
  · rfl
  · rfl

/-! ## Reading -/

/-- The loop of `file_read` over the blocks of a file that lie one after the other. -/
theorem readLoop_there {M : Mem} {ending : BitVec 32} {size : Nat}
    (hget : ∀ m', SameDisk M m' → ∀ bno : BitVec 32, bno.toNat < blockCount size →
      fileGetBlock m' f bno = some (m', .ok (blockAddr (start + bno.toNat))))
    (hend : ending.toNat = size) (hsize : size ≤ maxfilesize) (hdisk : start + blockCount size ≤ 786432)
    {fuel : Nat} {pos : BitVec 32} (hpos : pos.toNat ≤ size) (hpositive : 0 < fuel)
    (hfuel : pos.toNat < size → blockCount size - pos.toNat / 4096 < fuel)
    (hbuf : Beside buf (size - pos.toNat)) (hsame : SameDisk M m) :
    ∃ m', readLoop f ending fuel m buf pos = some (m', buf + (size - pos.toNat), .ok ()) ∧
      (∀ j < size - pos.toNat, m' (buf + j) = M (blockAddr start + pos.toNat + j)) ∧
      ∀ x, x < buf ∨ buf + (size - pos.toNat) ≤ x → m' x = m x := by
  have hmax : maxfilesize = 4235264 := rfl
  induction fuel generalizing m buf pos with
  | zero => omega
  | succ fuel ih =>
      by_cases hlt : pos.toNat < size
      · have hcount : pos.toNat / 4096 < blockCount size := by
          rw [blockCount]
          omega
        have hfuel' := hfuel hlt
        have hsdiv := sdiv_block (by omega : pos.toNat < 2147483648)
        have hblock := hget m hsame (pos.sdiv 4096#32) (by omega)
        have hpos' : pos.toNat < 2147483648 := by omega
        have hltEnd : pos.toNat < ending.toNat := hend ▸ hlt
        have hltMax : pos.toNat < maxfilesize := Nat.lt_of_lt_of_le hlt hsize
        have hround := chunk_round hpos' hltEnd hltMax
        have hnext := chunk_next hpos' hltEnd hltMax
        rw [stopAt_of_lt hltEnd hltMax, hend, Nat.min_eq_left hsize] at hround
        obtain ⟨hc0, hinBlock, hcle, hnextBlock⟩ := hround
        have hdiskmap : diskmap = 268435456 := rfl
        have haddr : blkPos (blockAddr (start + pos.toNat / 4096)) pos = blockAddr start + pos.toNat := by
          rw [blkPos_eq pos hpos' (by rw [blockAddr_eq]; omega), blockAddr_add]
          omega
        generalize hc : (chunk pos ending).toNat = c at hc0 hinBlock hcle hnextBlock hnext
        have hsource : ∀ j < c,
            m (blockAddr start + pos.toNat + j) = M (blockAddr start + pos.toNat + j) := by
          intro j hj
          have hdisksize : disksize = 3221225472 := rfl
          refine hsame _ ?_ ?_
          · rw [blockAddr_eq]
            omega
          · simp only [blockCount] at hcount hdisk
            rw [blockAddr_eq]
            omega
        rw [readLoop, copyLoop, if_pos (by rw [BitVec.lt_def]; omega), hblock]
        simp only [Option.bind_eq_bind, Option.bind_some]
        rw [hsdiv, haddr, hc]
        have hbuf' : Beside (buf + c) (size - (pos + chunk pos ending).toNat) := by
          rw [hnext]
          simp only [Beside] at hbuf ⊢
          omega
        have hsame' : SameDisk M (m.move buf (blockAddr start + pos.toNat) c) := by
          intro x hx hx'
          rw [← hsame x hx hx']
          exact sameDisk_move (hbuf.mono (by omega)) x hx hx'
        obtain ⟨m', hrun, hread, hkeep⟩ := ih (by omega) (by omega) (by rw [hnext]; omega) hbuf' hsame'
        rw [hnext] at hrun hread hkeep
        refine ⟨m', ?_, fun j hj => ?_, fun x hx => ?_⟩
        · rw [show buf + c + (size - (pos.toNat + c)) = buf + (size - pos.toNat) by omega] at hrun
          exact hrun
        · by_cases hj' : j < c
          · rw [hkeep _ (by omega), Mem.move_of_mem _ (by omega) (by omega), Nat.add_sub_cancel_left,
              hsource j hj']
          · have hlater := hread (j - c) (by omega)
            rw [show buf + c + (j - c) = buf + j by omega,
              show blockAddr start + (pos.toNat + c) + (j - c) = blockAddr start + pos.toNat + j by omega]
              at hlater
            exact hlater
        · rw [hkeep x (by omega), Mem.move_of_disjoint _ (by omega)]
      · have heq : pos.toNat = size := by omega
        refine ⟨m, ?_, fun j hj => by omega, fun _ _ => rfl⟩
        rw [readLoop, copyLoop, if_neg (by rw [BitVec.lt_def]; omega), heq, Nat.sub_self]
        rfl

/-- The server has the file at `f`, with the bytes of the host file. -/
structure Served (m : Mem) (f : Nat) (file : HostFile) : Prop where
  size : (fSize m f).toNat = file.contents.length
  inUse : ∀ i < blockCount file.contents.length, blockIsFree m (blockPtr m f i) = false
  indirect_inUse : ndirect ≤ blockCount file.contents.length →
    blockIsFree m (Fs.indirect m f).toNat = false
  read : ∀ buf, Beside buf file.contents.length → ∃ m', fileRead m f buf (fSize m f) 0#32 =
      some (m', buf + file.contents.length, (file.contents.length : Int)) ∧ SameDisk m m' ∧
    ∀ j < file.contents.length, m' (buf + j) = file.contents.getD j 0#8

theorem Image.served (h : Image old ents n files m) (hne : files ≠ [])
    (hnames : ∀ file ∈ files, (baseName file.path).length < maxnamelen) {j : Nat}
    (hj : j < files.length) :
    Served m (rootEntry files j) files[j] := by
  have hmax : maxfilesize = 4235264 := rfl
  have hs : FileSpan files (rootEntry files j) files[j].contents.length (filesEnd (files.take j)) := .file hj
  have hlaid : Laid old (ents + 256 * j) m (rootEntry files j) _ _ := (h.written j hj).laid
  have hlen := h.size_lt _ (List.getElem_mem hj)
  obtain ⟨hge, hle⟩ := hs.range h.length_le
  have hused := h.used_lt
  have hend := usedBlocks_eq hne
  have hn := h.le
  have hspan : blockCount files[j].contents.length ≤ span files[j].contents.length := Nat.le_add_right _ _
  have hsize := hlaid.size_toNat (by omega)
  refine ⟨hsize, fun i hi => ?_, fun hbig => ?_, fun buf hbuf => ?_⟩
  · rw [hlaid.blockPtr_eq (by omega) (by omega) hi]
    exact h.blockIsFree_eq (by omega)
  · rw [span_of_ge hbig] at hle
    rw [hlaid.indirect, if_pos hbig, BitVec.toNat_ofNat, Nat.mod_eq_of_lt (by omega)]
    exact h.blockIsFree_eq (by omega)
  · have hzero : (0#32).toNat = 0 := rfl
    rw [fileRead, BitVec.sle_eq_decide, toInt_eq (by omega), toInt_eq (by omega), hsize]
    split
    · rename_i hle0
      simp only [decide_eq_true_eq, hzero] at hle0
      have hempty : files[j].contents.length = 0 := by omega
      refine ⟨m, by rw [hempty]; rfl, fun _ _ _ => rfl, fun i hi => by omega⟩
    · rename_i hpos
      have hcount : readCount m (rootEntry files j) (fSize m (rootEntry files j)) 0#32 =
          fSize m (rootEntry files j) := by
        rw [readCount, if_pos (by rw [BitVec.sub_zero]; exact BitVec.le_refl _)]
      have hblocks : blockCount files[j].contents.length ≤ 1034 := blockCount_le (by omega)
      have hget : ∀ m', SameDisk m m' → ∀ bno : BitVec 32,
          bno.toNat < blockCount files[j].contents.length → fileGetBlock m' (rootEntry files j) bno =
            some (m', .ok (blockAddr (filesEnd (files.take j) + bno.toNat))) := by
        intro m' hsame bno hbno
        have him := h.congr hnames fun x hx hx' => hsame x hx (by
          have hdisk : diskmap + disksize = blockAddr 786432 := rfl
          rw [hdisk]
          simp only [blockAddr_eq] at hx' ⊢
          omega)
        exact him.getBlock hs hne hbno
      obtain ⟨m', hrun, hread, hkeep⟩ := readLoop_there hget hsize (by omega) (by omega)
        (by omega : (0#32).toNat ≤ _) (by decide : 0 < copyFuel)
        (fun _ => by rw [hzero, copyFuel]; omega) hbuf (fun _ _ _ => rfl)
      rw [hzero, Nat.sub_zero] at hrun hread hkeep
      refine ⟨m', ?_, fun x hx hx' => hkeep x ?_, fun i hi => ?_⟩
      · simp only [hcount, BitVec.zero_add, hrun, Option.bind_eq_bind, Option.bind_some, copyReturn]
        rw [toInt_eq (by omega), hsize]
      · simp only [Beside] at hbuf
        omega
      · rw [hread i hi, Nat.add_zero]
        exact (h.written j hj).data i hi

theorem slash_not_mem_baseName (path : List (BitVec 8)) : slash ∉ baseName path := by
  intro hmem
  rw [baseName, List.mem_reverse] at hmem
  have hne := List.mem_takeWhile_imp hmem
  simp at hne

/-- The entries with the name of a file. -/
theorem Image.open_file (h : Image old ents n files m) (hne : files ≠ [])
    (hnames : ∀ file ∈ files, NameOk (baseName file.path))
    (hdistinct : files.Pairwise fun file file' => baseName file.path ≠ baseName file'.path)
    {j : Nat} (hj : j < files.length) :
    fileOpen m (slash :: baseName files[j].path) = some (m, .ok (rootEntry files j)) := by
  have hname := hnames _ (List.getElem_mem hj)
  have hnull : ∀ file ∈ files, 0#8 ∉ baseName file.path := fun file hf => (hnames file hf).no_null
  have hin : j < 16 * rootBlocks files.length := by
    simp only [rootBlocks, blockCount]
    omega
  rcases h.lookup_cases hne (baseName files[j].path) with ⟨_, hno⟩ | ⟨e, he, hfound, his⟩
  · have hyes := (h.nameIs_iff_base hnull hname hin).mpr ⟨hj, rfl⟩
    rw [hno j hin] at hyes
    cases hyes
  · obtain ⟨hlt, heq⟩ := (h.nameIs_iff_base hnull hname he).mp his
    have hpair := List.pairwise_iff_getElem.mp hdistinct
    have hej : e = j := by
      rcases Nat.lt_trichotomy e j with hlt' | heq' | hgt
      · exact absurd heq (hpair e j hlt hj hlt')
      · exact heq'
      · exact absurd heq.symm (hpair j e hj hlt hgt)
    subst hej
    exact fileOpen_root hname (slash_not_mem_baseName _) h.root_type (Or.inr ⟨_, rfl⟩) hfound

theorem Image.open_missing (h : Image old ents n files m) (hne : files ≠ [])
    (hnames : ∀ file ∈ files, NameOk (baseName file.path)) {name : List (BitVec 8)} (hname : NameOk name)
    (hslash : slash ∉ name) (hother : ∀ file ∈ files, baseName file.path ≠ name) :
    fileOpen m (slash :: name) = some (m, .error (-eNotFound)) := by
  have hnull : ∀ file ∈ files, 0#8 ∉ baseName file.path := fun file hf => (hnames file hf).no_null
  rcases h.lookup_cases hne name with ⟨hnone, _⟩ | ⟨e, he, _, his⟩
  · exact fileOpen_root hname hslash h.root_type (Or.inl rfl) hnone
  · obtain ⟨hlt, heq⟩ := (h.nameIs_iff_base hnull hname he).mp his
    exact absurd heq (hother _ (List.getElem_mem hlt))

end

/-- A server that mounts the image has the host files under their names, and nothing else. -/
theorem fsformat_served {m M : Mem} {ents : Nat} {n : BitVec 32} {files : List HostFile} {s : Format}
    (hents : EntsApart ents n.toNat) (hne : files ≠ [])
    (hnames : ∀ file ∈ files, NameOk (baseName file.path))
    (hdistinct : files.Pairwise fun file file' => baseName file.path ≠ baseName file'.path)
    (run : fsformat m ents n files = some s)
    (hmount : ∀ x, diskmap ≤ x → x < blockAddr n.toNat → M x = s.mem x) :
    checkSuper M = some () ∧ checkBitmap M = some () ∧
      (∀ file ∈ files, ∃ f, fileOpen M (slash :: baseName file.path) = some (M, .ok f) ∧
        Served M f file) ∧
      ∀ name, NameOk name → slash ∉ name → (∀ file ∈ files, baseName file.path ≠ name) →
        fileOpen M (slash :: name) = some (M, .error (-eNotFound)) := by
  have hlen : ∀ file ∈ files, (baseName file.path).length < maxnamelen := fun file hf =>
    (hnames file hf).length_lt
  have h := (fsformat_image hents hlen run).congr hlen hmount
  refine ⟨h.checkSuper_eq, h.checkBitmap_eq, fun file hf => ?_, fun name hname hslash hother =>
    h.open_missing hne hnames hname hslash hother⟩
  obtain ⟨j, hj, rfl⟩ := List.getElem_of_mem hf
  exact ⟨_, h.open_file hne hnames hdistinct hj, h.served hne hlen hj⟩

theorem fsformat_served_tiny : ∃ s, fsformat (fun _ => 0xFF#8) 4096 8#32 [tinyFile] = some s ∧
    ∃ f, fileOpen s.mem [47#8, 97#8] = some (s.mem, .ok f) ∧ Served s.mem f tinyFile := by
  have hsome : (fsformat (fun _ => 0xFF#8) 4096 8#32 [tinyFile]).isSome = true := by decide
  obtain ⟨s, run⟩ := Option.isSome_iff_exists.mp hsome
  have hname : NameOk (baseName tinyFile.path) := ⟨by decide, by decide, by decide⟩
  have hall := fsformat_served (Or.inl (by decide)) (by decide) (fun file hf => by
    rw [List.mem_singleton.mp hf]
    exact hname) (List.pairwise_singleton _ _) run (fun _ _ _ => rfl)
  obtain ⟨f, hopen, hserved⟩ := hall.2.2.1 tinyFile List.mem_cons_self
  exact ⟨s, run, f, hopen, hserved⟩

end Jos.Fs
