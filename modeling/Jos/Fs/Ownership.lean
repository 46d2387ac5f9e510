import Jos.Fs.GetBlock
import Jos.Lib.Loop
import Mathlib.Logic.Relation

/-!
# Every block has one owner

`file_get_block`, `file_set_size` and `dir_alloc_file` keep a disk well formed, whatever the
block number, the size and the directory. So every block number stored in a file or in an
indirect block is that of a block in use, and no block belongs to two files or to two
positions of one file.

Main result:
* `block_ownership`: after any sequence of the calls a block has one owner.
-/

namespace Jos.Fs

open Jos.Lib

section

variable {m m' : Mem} {f g b : Nat} {p : Place}

/-- The disk is well formed and has at least the same files, with the same types. -/
structure DiskKept (m m' : Mem) : Prop where
  wf : Wf m'
  files : ∀ g, FileAt m g → FileAt m' g
  type : ∀ g, FileAt m g → fType m' g = fType m g

theorem DiskKept.refl (hw : Wf m) : DiskKept m m := ⟨hw, fun _ h => h, fun _ _ => rfl⟩

theorem DiskKept.trans {m1 : Mem} (h : DiskKept m m1) (h' : DiskKept m1 m') : DiskKept m m' :=
  ⟨h'.wf, fun g hg => h'.files g (h.files g hg), fun g hg =>
    (h'.type g (h.files g hg)).trans (h.type g hg)⟩

theorem Grows.kept {n : Nat} (h : Grows f m n m') (hw : Wf m) : DiskKept m m' :=
  ⟨h.wf hw, fun _ => h.fileAt hw, fun _ => h.type_eq hw⟩

theorem Unmoved.kept (h : Unmoved m m') (hw : Wf m) : DiskKept m m' :=
  ⟨h.wf hw, fun _ => h.fileAt_iff.mpr, h.type⟩

/-! ## Freeing -/

/-- `free_block` of the block at a place, then emptying the place. -/
theorem released_place (hw : Wf m) (hp : p.Valid m) (hv : p.value m ≠ 0) :
    Released m p (p.value m) ((setBit m (p.value m)).write32 (p.addr m) 0#32) := by
  have hlt := hw.ptr_lt p hp hv
  have hbody := hw.place_inBody hp
  refine ⟨hp, rfl, hv, fun x h1 h2 => ?_, Mem.read32_write32_self .., fun c hc => ?_⟩
  · rw [Mem.write32_of_disjoint _ _ h2, setBit, Mem.write32_of_disjoint _ _ h1]
  · have hpc := hbody.bitmap_disjoint hc
    rw [bitSet, Mem.read32_write32_of_disjoint _ _ (by omega)]
    exact bitSet_setBit

theorem fileBlockWalk_false {filebno : BitVec 32} {r : Except Int Nat} (hw : Wf m) (hf : FileAt m f)
    (h : fileBlockWalk m f filebno false = some (m', r)) :
    m' = m ∧ ∀ slot, r = .ok slot → ∃ p : Place, p.Valid m ∧ p.file = f ∧ p.addr m = slot := by
  rw [fileBlockWalk] at h
  split at h
  · cases h
    exact ⟨rfl, fun _ hr => by cases hr⟩
  rename_i hi
  split at h
  · rename_i hlt
    cases h
    refine ⟨rfl, fun slot hr => ⟨.direct f filebno.toNat, ⟨hf, hlt⟩, rfl, ?_⟩⟩
    cases hr
    rfl
  · rename_i hge
    split at h
    · cases h
      exact ⟨rfl, fun _ hr => by cases hr⟩
    · rename_i hind
      have hind' : indirect m f ≠ 0#32 := fun hz => hind ⟨hz, rfl⟩
      rw [if_neg hind'] at h
      have hda := diskaddr_place hw (p := .indirect f) hf fun hz =>
        hind' (BitVec.eq_of_toNat_eq hz)
      rw [show m.read32 ((Place.indirect f).addr m) = indirect m f from rfl] at hda
      simp only [Option.bind_eq_bind, Option.bind_some, hda] at h
      cases h
      refine ⟨rfl, fun slot hr => ⟨.entry f (filebno.toNat - ndirect), ⟨hf, hind', ?_⟩, rfl, ?_⟩⟩
      · simp only [maxblocks, ndirect, nindirect] at hi hge ⊢
        omega
      · cases hr
        rfl

/-- `file_free_block` gives back one block of the file, or does nothing. -/
theorem fileFreeBlock_cases {filebno : BitVec 32} {r : Int} (hw : Wf m) (hf : FileAt m f)
    (h : fileFreeBlock m f filebno = some (m', r)) :
    m' = m ∨ ∃ p b, p.file = f ∧ Released m p b m' := by
  simp only [fileFreeBlock, Option.bind_eq_bind, Option.bind_eq_some_iff] at h
  obtain ⟨⟨m1, q⟩, hwalk, h⟩ := h
  obtain ⟨rfl, hslot⟩ := fileBlockWalk_false hw hf hwalk
  cases q with
  | error e =>
      cases h
      exact Or.inl rfl
  | ok slot =>
      obtain ⟨p, hp, hfile, rfl⟩ := hslot slot rfl
      simp only at h
      split at h
      · rename_i hne
        have hv : p.value m1 ≠ 0 := fun hz => hne (BitVec.eq_of_toNat_eq hz)
        simp only [Option.bind_eq_some_iff] at h
        obtain ⟨m2, hfree, h⟩ := h
        cases h
        rw [freeBlock, show (m1.read32 (p.addr m1)).toNat = p.value m1 from rfl, if_neg hv] at hfree
        cases hfree
        exact Or.inr ⟨p, _, hfile, released_place hw hp hv⟩
      · cases h
        exact Or.inl rfl

/-- A block of a file that is no directory holds no files. -/
theorem Released.fileAt (h : Released m p b m') (hw : Wf m) (hreg : fType m p.file ≠ ftypeDir)
    (hg : FileAt m g) : FileAt m' g := by
  have hed := h.edited hw
  induction hg with
  | root => exact .root
  | @entry d i j hd hdir hi hb hj ih =>
      have hne : p.file ≠ d := by
        rintro rfl
        exact hreg hdir
      have hown := owned_data hd hi hb
      have haddr : (dataPlace d i).addr m' = (dataPlace d i).addr m :=
        hed.addr_eq hown.valid fun heq => hne (by rw [heq, dataPlace_file]; rfl)
      have hpl : dataPlace d i ≠ p := fun heq => hne (by rw [← heq, dataPlace_file])
      have hind : indirect m' d = indirect m d := hed.indirect_eq hd fun heq => hne (by rw [heq]; rfl)
      have hvalid' : (dataPlace d i).Valid m' := by
        by_cases hlt : i < ndirect
        · rw [dataPlace, if_pos hlt]
          exact ⟨ih, hlt⟩
        · refine dataPlace_valid_of_indirect ih hi ?_
          rw [hind]
          have hv := hown.valid
          rw [dataPlace, if_neg hlt] at hv
          exact hv.2.1
      have hptr : blockPtr m' d i = blockPtr m d i := by
        rw [← dataPlace_value hvalid', Place.value, haddr, hed.other _ hown.valid hpl,
          ← hown.value, Place.value]
      rw [← hptr] at hb ⊢
      exact .entry ih ((hed.type d hd).trans hdir) hi hb hj

theorem Released.kept (h : Released m p b m') (hw : Wf m) (hreg : fType m p.file ≠ ftypeDir) :
    DiskKept m m' :=
  ⟨h.wf hw, fun _ => h.fileAt hw hreg, (h.edited hw).type⟩

theorem fileFreeBlock_kept {filebno : BitVec 32} {r : Int} (hw : Wf m) (hf : FileAt m f)
    (hreg : fType m f ≠ ftypeDir) (h : fileFreeBlock m f filebno = some (m', r)) :
    DiskKept m m' := by
  rcases fileFreeBlock_cases hw hf h with rfl | ⟨p, b, rfl, hrel⟩
  · exact DiskKept.refl hw
  · exact hrel.kept hw hreg

theorem fileTruncateBlocks_kept {newsize : BitVec 32} (hw : Wf m) (hf : FileAt m f)
    (hreg : fType m f ≠ ftypeDir) (h : fileTruncateBlocks m f newsize = some m') :
    DiskKept m m' := by
  simp only [fileTruncateBlocks, Option.bind_eq_bind, Option.bind_eq_some_iff] at h
  obtain ⟨m1, hloop, h⟩ := h
  have h1 : DiskKept m m1 := by
    refine foldlM_inv (DiskKept m) ?_ hloop (DiskKept.refl hw)
    intro bno m2 m3 hstep h2
    obtain ⟨⟨m4, r⟩, hfree, rfl⟩ := Option.map_eq_some_iff.mp hstep
    have hreg2 : fType m2 f ≠ ftypeDir := by
      rw [h2.type f hf]
      exact hreg
    exact h2.trans (fileFreeBlock_kept h2.wf (h2.files f hf) hreg2 hfree)
  have hf1 := h1.files f hf
  have hreg1 : fType m1 f ≠ ftypeDir := by
    rw [h1.type f hf]
    exact hreg
  split at h
  · rename_i hind
    have hv : (Place.indirect f).value m1 ≠ 0 := fun hz => hind.2 (BitVec.eq_of_toNat_eq hz)
    simp only [Option.bind_eq_some_iff] at h
    obtain ⟨m2, hfree, h⟩ := h
    rw [freeBlock, show (indirect m1 f).toNat = (Place.indirect f).value m1 from rfl,
      if_neg hv] at hfree
    cases hfree
    cases h
    exact h1.trans ((released_place h1.wf (p := .indirect f) hf1 hv).kept h1.wf hreg1)
  · cases h
    exact h1

/-! ## Sizes -/

/-- The size of a file is stored apart from the places, the types and the bitmap. -/
theorem unmoved_size (hw : Wf m) (hf : FileAt m f) (v : BitVec 32) :
    Unmoved m (m.write32 (f + 128) v) := by
  have hbody : InBody m (f + 128) 4 := by
    rcases hw.file_inBody hf with h | ⟨c, h1, h2, h3, h4⟩
    · exact Or.inl (by omega)
    · exact Or.inr ⟨c, h1, h2, h3, by omega⟩
  refine ⟨?_, fun g hg => ?_, fun q hq => ?_, fun c hc => ?_⟩
  · have := hbody.nblocks_disjoint
    rw [sNblocks, Mem.read32_write32_of_disjoint _ _ (by omega)]
    rfl
  · rw [fType, Mem.read32_write32_of_disjoint]
    · rfl
    · by_cases heq : g = f
      · omega
      · have := hw.files_disjoint hg hf heq
        omega
  · have := hw.header_disjoint hf hq
    rw [Mem.read32_write32_of_disjoint _ _ (by omega)]
  · have := hbody.bitmap_disjoint hc
    rw [bitSet, Mem.read32_write32_of_disjoint _ _ (by omega)]
    rfl

theorem fileSetSize_kept {newsize : BitVec 32} (hw : Wf m) (hf : FileAt m f)
    (hreg : fType m f ≠ ftypeDir) (h : fileSetSize m f newsize = some m') : DiskKept m m' := by
  have hend : ∀ {m1 : Mem}, DiskKept m m1 → DiskKept m (m1.write32 (f + 128) newsize) :=
    fun h1 => h1.trans ((unmoved_size h1.wf (h1.files f hf) newsize).kept h1.wf)
  rw [fileSetSize] at h
  split at h
  · obtain ⟨m1, htrunc, h⟩ := Option.bind_eq_some_iff.mp h
    cases h
    exact hend (fileTruncateBlocks_kept hw hf hreg htrunc)
  · cases h
    exact hend (DiskKept.refl hw)

/-! ## Allocating -/

theorem fileGetBlock_kept {filebno : BitVec 32} {r : Except Int Nat} (hw : Wf m) (hf : FileAt m f)
    (h : fileGetBlock m f filebno = some (m', r)) : DiskKept m m' := by
  by_cases hi : filebno.toNat < maxblocks
  · rcases fileGetBlock_cases _ hw hf hi with ⟨_, hnone⟩ | ⟨m1, hsome, hgot⟩
    · rw [hnone] at h
      cases h
    · rw [hsome] at h
      cases h
      exact hgot.grows.kept hw
  · rw [fileGetBlock_large (by omega)] at h
    cases h
    exact DiskKept.refl hw

theorem dirAllocLoop_kept {l : List Nat} {r : Option (Except Int Nat)} (hw : Wf m) (hf : FileAt m f)
    (h : dirAllocLoop f m l = some (m', r)) : DiskKept m m' := by
  induction l generalizing m with
  | nil =>
      cases h
      exact DiskKept.refl hw
  | cons i l ih =>
      simp only [dirAllocLoop, Option.bind_eq_bind, Option.bind_eq_some_iff] at h
      obtain ⟨⟨m1, q⟩, hget, h⟩ := h
      have h1 := fileGetBlock_kept hw hf hget
      cases q with
      | error e =>
          cases h
          exact h1
      | ok blk =>
          simp only at h
          split at h
          · cases h
            exact h1
          · exact h1.trans (ih h1.wf (h1.files f hf) h)

theorem dirAllocFile_kept {r : Except Int Nat} (hw : Wf m) (hf : FileAt m f)
    (h : dirAllocFile m f = some (m', r)) : DiskKept m m' := by
  rw [dirAllocFile] at h
  split at h
  · cases h
  simp only [Option.bind_eq_bind, Option.bind_eq_some_iff] at h
  obtain ⟨⟨m1, q⟩, hloop, h⟩ := h
  have h1 := dirAllocLoop_kept hw hf hloop
  cases q with
  | some r =>
      cases h
      exact h1
  | none =>
      have h2 := h1.trans ((unmoved_size h1.wf (h1.files f hf) (fSize m1 f + 4096#32)).kept h1.wf)
      exact h2.trans (fileGetBlock_kept h2.wf (h2.files f hf) h)

/-! ## Runs -/

/-- A call that returns. -/
inductive BlockStep (m : Mem) : Mem → Prop
  | getBlock {f : Nat} {filebno : BitVec 32} {m' : Mem} {r : Except Int Nat} (hf : FileAt m f)
      (run : fileGetBlock m f filebno = some (m', r)) : BlockStep m m'
  | setSize {f : Nat} {newsize : BitVec 32} {m' : Mem} (hf : FileAt m f)
      (hreg : fType m f ≠ ftypeDir) (run : fileSetSize m f newsize = some m') : BlockStep m m'
  | dirAlloc {f : Nat} {m' : Mem} {r : Except Int Nat} (hf : FileAt m f)
      (hdir : fType m f = ftypeDir) (run : dirAllocFile m f = some (m', r)) : BlockStep m m'

theorem BlockStep.wf (h : BlockStep m m') (hw : Wf m) : Wf m' := by
  cases h with
  | getBlock hf run => exact (fileGetBlock_kept hw hf run).wf
  | setSize hf hreg run => exact (fileSetSize_kept hw hf hreg run).wf
  | dirAlloc hf _ run => exact (dirAllocFile_kept hw hf run).wf

/-- After every sequence of calls that return, every block number stored at a place is that of
a block in use outside the reserved ones, and is stored at one place only. -/
theorem block_ownership {m m' : Mem} (hw : Wf m) (hrun : Relation.ReflTransGen BlockStep m m') :
    (∀ p : Place, p.Valid m' → p.value m' ≠ 0 →
      p.value m' < (sNblocks m').toNat ∧ firstBlock m' ≤ p.value m' ∧
        blockIsFree m' (p.value m') = false) ∧
    ∀ p q : Place, p.Valid m' → q.Valid m' → p.value m' ≠ 0 → p.value m' = q.value m' → p = q := by
  have hw' : Wf m' := by
    induction hrun with
    | refl => exact hw
    | tail _ hstep ih => exact hstep.wf ih
  refine ⟨fun p hp hv => ⟨hw'.ptr_lt p hp hv, hw'.ptr_ge p hp hv, ?_⟩, hw'.ptr_unique⟩
  rw [Bool.eq_false_iff]
  intro hfree
  exact hw'.ptr_used p hp hv (blockIsFree_iff.mp hfree).2

/-- The small file loses its second block, then gets a block that needs an indirect one. -/
theorem block_ownership_small : ∃ m r m', fileSetSize smallDisk smallFile 100#32 = some m ∧
    fileGetBlock m smallFile 12#32 = some (m', r) ∧
    ∀ p : Place, p.Valid m' → p.value m' ≠ 0 → blockIsFree m' (p.value m') = false := by
  have hrun : (do
      let m ← fileSetSize smallDisk smallFile 100#32
      fileGetBlock m smallFile 12#32).isSome = true := by decide +kernel
  obtain ⟨⟨m', r⟩, hrun⟩ := Option.isSome_iff_exists.mp hrun
  obtain ⟨m, hset, hget⟩ := Option.bind_eq_some_iff.mp hrun
  have hf := smallFile_fileAt
  have hreg : fType smallDisk smallFile ≠ ftypeDir := by decide +kernel
  have hf' := (fileSetSize_kept smallDisk_wf hf hreg hset).files _ hf
  have hsteps : Relation.ReflTransGen BlockStep smallDisk m' :=
    .tail (.single (.setSize hf hreg hset)) (.getBlock hf' hget)
  exact ⟨m, r, m', hset, hget, fun p hp hv => ((block_ownership smallDisk_wf hsteps).1 p hp hv).2.2⟩

end

end Jos.Fs
