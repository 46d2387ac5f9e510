import Jos.Fs.Change

/-!
# Finding and allocating the blocks of a file

`Grows n f m m'` says that `m'` comes from `m` by taking `n` free blocks, one after the other,
for empty places of the file `f`. This is all that `file_get_block` does to the disk; it needs
a block for the data when there is none yet, and one for the indirect block when that is
missing.
-/

namespace Jos.Fs

open Jos.Lib

/-- Taking `n` blocks for the file `f`. -/
inductive Grows (f : Nat) (m : Mem) : Nat → Mem → Prop
  | refl : Grows f m 0 m
  | step {n b : Nat} {m1 m' : Mem} {p : Place} (h : Grows f m n m1) (hfile : p.file = f)
      (halloc : Allocated m1 p b m') : Grows f m (n + 1) m'

/-- The free blocks. -/
def freeBlocks (m : Mem) : List Nat := (List.range (sNblocks m).toNat).filter (blockIsFree m)

section

variable {m m' m1 : Mem} {f g d i j b n k : Nat} {p q : Place}

theorem blockIsFree_iff : blockIsFree m b = true ↔ b < (sNblocks m).toNat ∧ bitSet m b := by
  simp [blockIsFree]

theorem firstFree_some (h : firstFree m = some b) : b < (sNblocks m).toNat ∧ bitSet m b :=
  blockIsFree_iff.mp (List.find?_some h)

theorem mem_freeBlocks : b ∈ freeBlocks m ↔ b < (sNblocks m).toNat ∧ bitSet m b := by
  rw [freeBlocks, List.mem_filter, blockIsFree_iff, List.mem_range]
  tauto

theorem firstFree_isSome (h : 0 < (freeBlocks m).length) : ∃ b, firstFree m = some b := by
  obtain ⟨b, hb⟩ := List.exists_mem_of_length_pos h
  rw [freeBlocks, List.mem_filter] at hb
  exact Option.isSome_iff_exists.mp (List.find?_isSome.mpr ⟨b, hb.1, hb.2⟩)

theorem firstFree_none (h : (freeBlocks m).length = 0) : firstFree m = none := by
  rw [List.length_eq_zero_iff, freeBlocks, List.filter_eq_nil_iff] at h
  rw [firstFree, List.find?_eq_none]
  exact h

/-- Taking a block leaves one free block less. -/
theorem Allocated.freeBlocks_length (h : Allocated m p b m') (hw : Wf m) :
    (freeBlocks m').length + 1 = (freeBlocks m).length := by
  have hn := h.nblocks hw
  have hmem : b ∈ freeBlocks m := mem_freeBlocks.mpr ⟨h.lt, h.free⟩
  have heq : freeBlocks m' = (freeBlocks m).filter (fun c => c != b) := by
    rw [freeBlocks, freeBlocks, hn, List.filter_filter]
    refine List.filter_congr fun c hc => ?_
    have hc' := List.mem_range.mp hc
    rw [Bool.eq_iff_iff, blockIsFree_iff, hn, h.bits c hc', Bool.and_eq_true, blockIsFree_iff]
    simp only [bne_iff_ne, ne_eq]
    tauto
  have hnd : (freeBlocks m).Nodup := List.nodup_range.filter _
  rw [heq, ← List.Nodup.erase_eq_filter hnd, List.length_erase_of_mem hmem]
  have := List.length_pos_of_mem hmem
  omega

/-! ## Runs of allocations -/

theorem Grows.wf (h : Grows f m n m') (hw : Wf m) : Wf m' := by
  induction h with
  | refl => exact hw
  | step _ _ halloc ih => exact halloc.wf ih

theorem Grows.fileAt (h : Grows f m n m') (hw : Wf m) (hg : FileAt m g) : FileAt m' g := by
  induction h with
  | refl => exact hg
  | step h _ halloc ih => exact halloc.fileAt (h.wf hw) ih

theorem Grows.freeBlocks_length (h : Grows f m n m') (hw : Wf m) :
    (freeBlocks m').length + n = (freeBlocks m).length := by
  induction h with
  | refl => rfl
  | step h _ halloc ih =>
      have := halloc.freeBlocks_length (h.wf hw)
      omega

theorem Grows.trans (h : Grows f m n m1) (h' : Grows f m1 k m') : Grows f m (n + k) m' := by
  induction h' with
  | refl => exact h
  | step _ hfile halloc ih => exact .step ih hfile halloc

theorem Grows.size_eq (h : Grows f m n m') (hw : Wf m) (hg : FileAt m g) :
    fSize m' g = fSize m g := by
  induction h with
  | refl => rfl
  | step h _ halloc ih =>
      have hw1 := h.wf hw
      rw [(halloc.edited hw1).size g (h.fileAt hw hg), ih]

theorem Grows.type_eq (h : Grows f m n m') (hw : Wf m) (hg : FileAt m g) :
    fType m' g = fType m g := by
  induction h with
  | refl => rfl
  | step h _ halloc ih =>
      have hw1 := h.wf hw
      rw [(halloc.edited hw1).type g (h.fileAt hw hg), ih]

/-! ## `file_block_walk` and `file_get_block` -/

/-- The memory after `allocInto` has taken block `b`. -/
def takeBlock (m : Mem) (slot b : Nat) : Mem :=
  ((clearBit m b).write32 slot (BitVec.ofNat 32 b)).fill (blockAddr b) 0 4096

theorem Wf.ge_of_bitSet (hw : Wf m) (hlt : b < (sNblocks m).toNat) (hset : bitSet m b) :
    firstBlock m ≤ b := by
  by_contra hltb
  exact hw.reserved b (by omega) hlt hset

theorem allocated_takeBlock (hw : Wf m) (hp : p.Valid m) (hempty : p.value m = 0)
    (hlt : b < (sNblocks m).toNat) (hset : bitSet m b) :
    Allocated m p b (takeBlock m (p.addr m) b) := by
  have hbody := hw.place_inBody hp
  have hge := hw.ge_of_bitSet hlt hset
  have h2 := firstBlock_ge m
  have hpb := hbody.block_disjoint (by omega) hset
  refine ⟨hp, hempty, hlt, hset, fun x h1 h2 h3 => ?_, ?_, fun x h1 h2 => ?_, fun c hc => ?_⟩
  · rw [takeBlock, Mem.fill_of_disjoint _ _ h3, Mem.write32_of_disjoint _ _ h2, clearBit,
      Mem.write32_of_disjoint _ _ h1]
  · rw [takeBlock, Mem.read32_fill_of_disjoint _ _ hpb, Mem.read32_write32_self]
  · exact Mem.fill_of_mem _ _ h1 h2
  · have hcw := bitmapWord_le hc
    have hpc := hbody.bitmap_disjoint hc
    have hbb : blockAddr (firstBlock m) ≤ blockAddr b := by
      simp only [blockAddr_eq]
      omega
    rw [bitSet, takeBlock, Mem.read32_fill_of_disjoint _ _ (by omega),
      Mem.read32_write32_of_disjoint _ _ (by omega)]
    exact bitSet_clearBit

/-- Allocating at an empty place fails only when no block is free. -/
theorem allocInto_cases (hw : Wf m) (hp : p.Valid m) (hempty : p.value m = 0) :
    ((freeBlocks m).length = 0 ∧ allocInto m (p.addr m) = none) ∨
      ∃ b m', allocInto m (p.addr m) = some m' ∧ Allocated m p b m' := by
  have hbody := hw.place_inBody hp
  have hnb := hbody.nblocks_disjoint
  have hsuper : superAddr = diskmap + 4096 := rfl
  have hle := hw.nblocks_le
  by_cases hfree : (freeBlocks m).length = 0
  · refine Or.inl ⟨hfree, ?_⟩
    have hn : sNblocks (m.write32 (p.addr m) (BitVec.ofInt 32 (-eNoDisk))) = sNblocks m := by
      rw [sNblocks, Mem.read32_write32_of_disjoint _ _ (by omega)]
      rfl
    have hbad : sNblocks m ≤ BitVec.ofInt 32 (-eNoDisk) := by
      rw [BitVec.le_def]
      exact Nat.le_trans hle (by decide)
    simp only [allocInto, allocBlock, firstFree_none hfree, diskaddr, hn, if_pos (Or.inr hbad),
      Option.bind_eq_bind, Option.bind_none]
  · obtain ⟨b, hb⟩ := firstFree_isSome (Nat.pos_of_ne_zero hfree)
    obtain ⟨hlt, hset⟩ := firstFree_some hb
    have hge := hw.ge_of_bitSet hlt hset
    have h2 := firstBlock_ge m
    have hword := bitmapWord_le hlt
    have htoNat : (BitVec.ofNat 32 b).toNat = b := by
      rw [BitVec.toNat_ofNat]
      omega
    have hn : sNblocks ((clearBit m b).write32 (p.addr m) (BitVec.ofNat 32 b)) = sNblocks m := by
      rw [sNblocks, Mem.read32_write32_of_disjoint _ _ (by omega), clearBit,
        Mem.read32_write32_of_disjoint _ _ (by omega)]
      rfl
    have hok : ¬ (BitVec.ofNat 32 b = 0#32 ∨ sNblocks m ≤ BitVec.ofNat 32 b) := by
      rintro (hz | hz)
      · rw [hz] at htoNat
        simp only [BitVec.toNat_ofNat, Nat.zero_mod] at htoNat
        omega
      · rw [BitVec.le_def, htoNat] at hz
        omega
    refine Or.inr ⟨b, takeBlock m (p.addr m) b, ?_, allocated_takeBlock hw hp hempty hlt hset⟩
    simp only [allocInto, allocBlock, hb, diskaddr, hn, if_neg hok, htoNat, Option.bind_eq_bind,
      Option.bind_some]
    rfl

theorem diskaddr_place (hw : Wf m) (hp : p.Valid m) (hv : p.value m ≠ 0) :
    diskaddr m (m.read32 (p.addr m)) = some (blockAddr (p.value m)) := by
  have hlt := hw.ptr_lt p hp hv
  rw [diskaddr, if_neg]
  · rfl
  · rintro (hz | hz)
    · rw [Place.value, hz] at hv
      exact hv rfl
    · rw [BitVec.le_def] at hz
      exact absurd hlt (by rw [Place.value]; omega)

theorem dataPlace_value (hv : (dataPlace f i).Valid m) :
    (dataPlace f i).value m = blockPtr m f i := by
  rw [dataPlace] at hv ⊢
  rw [blockPtr]
  split
  · rfl
  · rename_i hge
    rw [if_neg hge] at hv
    rw [if_neg hv.2.1]
    rfl

theorem dataPlace_valid_of_indirect (hf : FileAt m f) (hi : i < maxblocks)
    (hind : indirect m f ≠ 0#32) : (dataPlace f i).Valid m := by
  rw [dataPlace]
  split
  · rename_i hlt
    exact ⟨hf, hlt⟩
  · rename_i hge
    refine ⟨hf, hind, ?_⟩
    simp only [maxblocks, ndirect, nindirect] at hi hge ⊢
    omega

/-- The blocks that `file_block_walk` needs. -/
def walkNeed (m : Mem) (f i : Nat) : Nat := if ndirect ≤ i ∧ indirect m f = 0#32 then 1 else 0

/-- The blocks that `file_get_block` needs. -/
def blockNeed (m : Mem) (f i : Nat) : Nat :=
  walkNeed m f i + if blockPtr m f i = 0 then 1 else 0

/-- `file_block_walk` has found the place of block `i`. -/
structure Walked (m : Mem) (f i : Nat) (m' : Mem) : Prop where
  grows : Grows f m (walkNeed m f i) m'
  valid : (dataPlace f i).Valid m'
  ptr : ∀ k < maxblocks, blockPtr m' f k = blockPtr m f k
  indirect_ne : ndirect ≤ i → indirect m' f ≠ 0#32
  indirect_eq : i < ndirect → indirect m' f = indirect m f

theorem walked_refl (hf : FileAt m f) (hi : i < maxblocks)
    (hind : i < ndirect ∨ indirect m f ≠ 0#32) : Walked m f i m := by
  have hneed : walkNeed m f i = 0 := by
    refine if_neg fun h => ?_
    rcases hind with hlt | hne
    · omega
    · exact hne h.2
  refine ⟨hneed ▸ .refl, ?_, fun _ _ => rfl, fun hge => ?_, fun _ => rfl⟩
  · rcases hind with hlt | hne
    · rw [dataPlace, if_pos hlt]
      exact ⟨hf, hlt⟩
    · exact dataPlace_valid_of_indirect hf hi hne
  · exact hind.resolve_left (by omega)

theorem Allocated.indirect_ne (h : Allocated m (.indirect f) b m') (hw : Wf m) :
    indirect m' f ≠ 0#32 := by
  intro hz
  have hstored := h.toNat_stored
  have hge := h.ge hw
  have h2 := firstBlock_ge m
  rw [show m'.read32 ((Place.indirect f).addr m) = 0#32 from hz] at hstored
  simp only [BitVec.toNat_ofNat, Nat.zero_mod] at hstored
  omega

theorem walked_alloc (hw : Wf m) (hf : FileAt m f) (hi : i < maxblocks) (hge : ndirect ≤ i)
    (hind : indirect m f = 0#32) (h : Allocated m (.indirect f) b m') : Walked m f i m' := by
  have hneed : walkNeed m f i = 0 + 1 := if_pos ⟨hge, hind⟩
  refine ⟨hneed ▸ .step .refl rfl h, ?_, fun k hk => ?_, fun _ => h.indirect_ne hw, fun hlt => ?_⟩
  · exact dataPlace_valid_of_indirect (h.fileAt hw hf) hi (h.indirect_ne hw)
  · rw [h.blockPtr_eq hw hf hk, if_neg dataPlace_ne_indirect]
  · omega

theorem addr_dataPlace (hge : ndirect ≤ i) :
    (dataPlace f i).addr m = blockAddr (indirect m f).toNat + 4 * (i - ndirect) := by
  rw [dataPlace, if_neg (by omega)]
  rfl

theorem fileBlockWalk_cases {filebno : BitVec 32} (hw : Wf m) (hf : FileAt m f)
    (hi : filebno.toNat < maxblocks) :
    ((freeBlocks m).length < walkNeed m f filebno.toNat ∧
        fileBlockWalk m f filebno true = none) ∨
      ∃ m', fileBlockWalk m f filebno true =
          some (m', .ok ((dataPlace f filebno.toNat).addr m')) ∧ Walked m f filebno.toNat m' := by
  rw [fileBlockWalk, if_neg (by omega)]
  by_cases hlt : filebno.toNat < ndirect
  · refine Or.inr ⟨m, ?_, walked_refl hf hi (Or.inl hlt)⟩
    rw [if_pos hlt, dataPlace, if_pos hlt]
    rfl
  · rw [if_neg hlt, if_neg (by simp)]
    have hge : ndirect ≤ filebno.toNat := by omega
    -- With the indirect block at hand only its address is computed.
    have hend : ∀ {m' : Mem}, Wf m' → FileAt m' f → indirect m' f ≠ 0#32 →
        (do
          let a ← diskaddr m' (indirect m' f)
          some (m', (.ok (a + 4 * (filebno.toNat - ndirect)) : Except Int Nat))) =
        some (m', .ok ((dataPlace f filebno.toNat).addr m')) := by
      intro m' hw' hf' hind'
      have hda := diskaddr_place hw' (p := .indirect f) hf' fun hz =>
        hind' (BitVec.eq_of_toNat_eq hz)
      rw [show m'.read32 ((Place.indirect f).addr m') = indirect m' f from rfl] at hda
      rw [hda, addr_dataPlace hge]
      rfl
    by_cases hind : indirect m f = 0#32
    · rcases allocInto_cases hw (p := .indirect f) hf (congrArg BitVec.toNat hind) with
        ⟨hfull, hnone⟩ | ⟨b, m', hsome, halloc⟩
      · refine Or.inl ⟨?_, ?_⟩
        · rw [walkNeed, if_pos ⟨hge, hind⟩]
          omega
        · have hnone' : allocInto m (fIndirect f) = none := hnone
          rw [if_pos hind, hnone']
          rfl
      · refine Or.inr ⟨m', ?_, walked_alloc hw hf hi hge hind halloc⟩
        have hsome' : allocInto m (fIndirect f) = some m' := hsome
        rw [if_pos hind, hsome']
        exact hend (halloc.wf hw) (halloc.fileAt hw hf) (halloc.indirect_ne hw)
    · refine Or.inr ⟨m, ?_, walked_refl hf hi (Or.inr hind)⟩
      rw [if_neg hind]
      exact hend hw hf hind

/-- `file_get_block` has found block `i`. -/
structure GotBlock (m : Mem) (f i : Nat) (m' : Mem) : Prop where
  grows : Grows f m (blockNeed m f i) m'
  ptr_ne : blockPtr m' f i ≠ 0
  ptr_old : blockPtr m f i ≠ 0 → blockPtr m' f i = blockPtr m f i
  ptr_other : ∀ k < maxblocks, k ≠ i → blockPtr m' f k = blockPtr m f k
  indirect_ne : ndirect ≤ i → indirect m' f ≠ 0#32
  indirect_eq : i < ndirect → indirect m' f = indirect m f

theorem gotBlock_walked (h : Walked m f i m') (hb : blockPtr m f i ≠ 0) (hi : i < maxblocks) :
    GotBlock m f i m' := by
  refine ⟨?_, ?_, fun _ => h.ptr i hi, fun k hk _ => h.ptr k hk, h.indirect_ne, h.indirect_eq⟩
  · rw [blockNeed, if_neg hb]
    exact h.grows
  · rw [h.ptr i hi]
    exact hb

theorem gotBlock_alloc (hw : Wf m) (hf : FileAt m f) (hi : i < maxblocks) (h : Walked m f i m1)
    (hb : blockPtr m f i = 0) (ha : Allocated m1 (dataPlace f i) b m') : GotBlock m f i m' := by
  have hw1 := h.grows.wf hw
  have hf1 := h.grows.fileAt hw hf
  have hed := ha.edited hw1
  have hind : indirect m' f = indirect m1 f := hed.indirect_eq hf1 dataPlace_ne_indirect
  refine ⟨?_, ?_, fun hne => absurd hb hne, fun k hk hne => ?_, ?_, ?_⟩
  · rw [blockNeed, if_pos hb]
    exact .step h.grows (dataPlace_file f i) ha
  · rw [ha.blockPtr_eq hw1 hf1 hi, if_pos rfl]
    have := ha.ge hw1
    have := firstBlock_ge m1
    omega
  · rw [ha.blockPtr_eq hw1 hf1 hk, if_neg fun heq => hne (dataPlace_inj heq).2, h.ptr k hk]
  · rw [hind]
    exact h.indirect_ne
  · rw [hind]
    exact h.indirect_eq

theorem fileGetBlock_cases (filebno : BitVec 32) (hw : Wf m) (hf : FileAt m f)
    (hi : filebno.toNat < maxblocks) :
    ((freeBlocks m).length < blockNeed m f filebno.toNat ∧ fileGetBlock m f filebno = none) ∨
      ∃ m', fileGetBlock m f filebno =
          some (m', .ok (blockAddr (blockPtr m' f filebno.toNat))) ∧
        GotBlock m f filebno.toNat m' := by
  rcases fileBlockWalk_cases hw hf hi with ⟨hfull, hnone⟩ | ⟨m1, hwalk, h⟩
  · refine Or.inl ⟨?_, ?_⟩
    · rw [blockNeed]
      omega
    · rw [fileGetBlock, hnone]
      rfl
  · have hw1 := h.grows.wf hw
    have hf1 := h.grows.fileAt hw hf
    have hval := dataPlace_value h.valid
    rw [h.ptr _ hi] at hval
    rw [fileGetBlock, hwalk]
    simp only [Option.bind_eq_bind, Option.bind_some]
    have hend : ∀ {m' : Mem}, Wf m' → FileAt m' f → blockPtr m' f filebno.toNat ≠ 0 →
        (dataPlace f filebno.toNat).addr m' = (dataPlace f filebno.toNat).addr m1 →
        (diskaddr m' (m'.read32 ((dataPlace f filebno.toNat).addr m1))).bind
          (fun a => some (m', (.ok a : Except Int Nat))) =
        some (m', .ok (blockAddr (blockPtr m' f filebno.toNat))) := by
      intro m' hw' hf' hne haddr
      obtain ⟨hv, heq⟩ := dataPlace_valid hf' hi hne
      have hda := diskaddr_place hw' hv (by rw [heq]; exact hne)
      rw [haddr, heq] at hda
      rw [hda]
      rfl
    by_cases hz : blockPtr m f filebno.toNat = 0
    · have hread : m1.read32 ((dataPlace f filebno.toNat).addr m1) = 0#32 := by
        refine BitVec.eq_of_toNat_eq ?_
        rw [← Place.value, hval, hz]
        rfl
      rw [if_pos hread]
      rcases allocInto_cases hw1 h.valid (hval.trans hz) with
        ⟨hfull, hnone⟩ | ⟨b, m', hsome, halloc⟩
      · refine Or.inl ⟨?_, ?_⟩
        · have := h.grows.freeBlocks_length hw
          rw [blockNeed, if_pos hz]
          omega
        · rw [hnone]
          rfl
      · have hgot := gotBlock_alloc hw hf hi h hz halloc
        refine Or.inr ⟨m', ?_, hgot⟩
        rw [hsome]
        exact hend (halloc.wf hw1) (halloc.fileAt hw1 hf1) hgot.ptr_ne (halloc.addr_eq hw1 h.valid)
    · have hread : m1.read32 ((dataPlace f filebno.toNat).addr m1) ≠ 0#32 := by
        intro hr
        rw [Place.value, hr] at hval
        exact hz hval.symm
      have hgot := gotBlock_walked h hz hi
      refine Or.inr ⟨m1, ?_, hgot⟩
      rw [if_neg hread]
      exact hend hw1 hf1 hgot.ptr_ne rfl

/-- A block number that is too large is refused. -/
theorem fileGetBlock_large {filebno : BitVec 32} (hi : maxblocks ≤ filebno.toNat) :
    fileGetBlock m f filebno = some (m, .error (-eInval)) := by
  rw [fileGetBlock, fileBlockWalk, if_pos hi]
  rfl

end

end Jos.Fs
