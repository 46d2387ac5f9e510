import Jos.Fs.Files
import Jos.Lib.Loop
import Mathlib.Data.List.Find

/-!
# A directory as an ordinary file

The functions on the blocks and the bytes of one file do not look at its type, but what they do
to a directory may leave the disk without the files that were in it. `AsFile f m m₁` says that `m₁`
is `m` up to the type of `f`, and a well formed disk on which `f` is no directory. Every memory
with a file `f` has such a partner, and the functions on `f` do the same to both.
-/

namespace Jos.Fs

open Jos.Lib

/-! ## Directories have no cycles -/

/-- `g` is an entry of the directory `d`. -/
def Child (m : Mem) (d g : Nat) : Prop :=
  fType m d = ftypeDir ∧ ∃ i < maxblocks, blockPtr m d i ≠ 0 ∧
    ∃ j < blkfiles, g = blockAddr (blockPtr m d i) + 256 * j

section

variable {m m' : Mem} {f g d e i : Nat} {p : Place}

theorem FileAt.child (hd : FileAt m d) (h : Child m d g) : FileAt m g := by
  obtain ⟨hdir, i, hi, hb, j, hj, rfl⟩ := h
  exact .entry hd hdir hi hb hj

theorem FileAt.descendant (hd : FileAt m d) (h : Relation.ReflTransGen (Child m) d g) :
    FileAt m g := by
  induction h with
  | refl => exact hd
  | tail _ hchild ih => exact ih.child hchild

theorem Wf.child_ne_root (hw : Wf m) (hd : FileAt m d) : ¬ Child m d sRoot := by
  rintro ⟨_, i, hi, hb, j, _, heq⟩
  have hge := (owned_data hd hi hb).ge hw
  simp only [firstBlock, sRoot_eq, blockAddr_eq] at hge heq
  omega

/-- A file is in one directory. -/
theorem Wf.child_unique (hw : Wf m) (hd : FileAt m d) (he : FileAt m e) (h : Child m d g)
    (h' : Child m e g) : d = e := by
  obtain ⟨_, i, hi, hb, j, hj, rfl⟩ := h
  obtain ⟨_, k, hk, hb', l, hl, heq⟩ := h'
  have hown := owned_data hd hi hb
  have hown' := owned_data he hk hb'
  have hsame : blockPtr m e k = blockPtr m d i := by
    simp only [blkfiles, blockAddr_eq] at hj hl heq
    omega
  rw [hsame] at hown'
  exact (dataPlace_inj (hown.unique hown' hw)).1

/-- No directory is below itself. -/
theorem Wf.not_below_self (hw : Wf m) (hf : FileAt m f) :
    ¬ Relation.TransGen (Child m) f f := by
  induction hf with
  | root =>
      intro h
      obtain ⟨d, hd, hchild⟩ := Relation.TransGen.tail'_iff.mp h
      exact hw.child_ne_root (FileAt.root.descendant hd) hchild
  | @entry d i j hd hdir hi hb hj ih =>
      intro h
      have hchild : Child m d (blockAddr (blockPtr m d i) + 256 * j) :=
        ⟨hdir, i, hi, hb, j, hj, rfl⟩
      obtain ⟨e, he, hlast⟩ := Relation.TransGen.tail'_iff.mp h
      have heq : e = d := hw.child_unique ((hd.child hchild).descendant he) hd hlast hchild
      rw [heq] at he
      exact ih (Relation.TransGen.head' hchild he)

/-! ## The partner -/

/-- The type of `f` is not that of a directory. -/
def untype (m : Mem) (f : Nat) : Mem := m.write32 (f + 132) 0#32

theorem untype_read (h : d + 4 ≤ f + 132 ∨ f + 136 ≤ d) :
    (untype m f).read32 d = m.read32 d :=
  Mem.read32_write32_of_disjoint _ _ (by omega)

theorem untype_place (hw : Wf m) (hf : FileAt m f) (hp : p.Valid m) :
    (untype m f).read32 (p.addr m) = m.read32 (p.addr m) := by
  have := hw.header_disjoint hf hp
  exact untype_read (by omega)

theorem untype_nblocks (hw : Wf m) (hf : FileAt m f) : sNblocks (untype m f) = sNblocks m := by
  have := (hw.file_inBody hf).nblocks_disjoint
  exact untype_read (by omega)

theorem untype_indirect (hw : Wf m) (hf : FileAt m f) (hg : FileAt m g) :
    indirect (untype m f) g = indirect m g :=
  untype_place hw hf (p := .indirect g) hg

theorem untype_addr (hw : Wf m) (hf : FileAt m f) (hp : p.Valid m) :
    p.addr (untype m f) = p.addr m := by
  cases p with
  | direct g i => rfl
  | indirect g => rfl
  | entry g k => simp only [Place.addr, untype_indirect hw hf hp.1]

theorem untype_blockPtr (hw : Wf m) (hf : FileAt m f) (hg : FileAt m g) (hi : i < maxblocks) :
    blockPtr (untype m f) g i = blockPtr m g i := by
  rw [blockPtr, blockPtr, untype_indirect hw hf hg]
  split
  · rename_i hlt
    have := untype_place hw hf (p := .direct g i) ⟨hg, hlt⟩
    exact congrArg BitVec.toNat this
  · rename_i hge
    split
    · rfl
    · rename_i hind
      have hk : i - ndirect < nindirect := by
        simp only [maxblocks, ndirect, nindirect] at hi hge ⊢
        omega
      have := untype_place hw hf (p := .entry g (i - ndirect)) ⟨hg, hind, hk⟩
      exact congrArg BitVec.toNat this

theorem untype_type (hw : Wf m) (hf : FileAt m f) (hg : FileAt m g) :
    fType (untype m f) g = if g = f then 0#32 else fType m g := by
  split
  · rename_i heq
    rw [heq, fType, untype, Mem.read32_write32_self]
  · rename_i hne
    have := hw.files_disjoint hg hf hne
    exact untype_read (by omega)

theorem untype_fileAt_of (hw : Wf m) (hf : FileAt m f) (hg : FileAt (untype m f) g) :
    FileAt m g := by
  induction hg with
  | root => exact .root
  | @entry d i j _ hdir hi hb hj ih =>
      rw [untype_type hw hf ih] at hdir
      split at hdir
      · exact absurd hdir (by decide)
      · rw [untype_blockPtr hw hf ih hi] at hb ⊢
        exact .entry ih hdir hi hb hj

/-- The files that are lost are below `f`. -/
theorem untype_fileAt (hw : Wf m) (hf : FileAt m f) (hg : FileAt m g) :
    FileAt (untype m f) g ∨ Relation.TransGen (Child m) f g := by
  induction hg with
  | root => exact Or.inl .root
  | @entry d i j hd hdir hi hb hj ih =>
      have hchild : Child m d (blockAddr (blockPtr m d i) + 256 * j) :=
        ⟨hdir, i, hi, hb, j, hj, rfl⟩
      rcases ih with hd' | hbelow
      · by_cases heq : d = f
        · rw [heq] at hchild ⊢
          exact Or.inr (.single hchild)
        · refine Or.inl ?_
          have hptr := untype_blockPtr hw hf hd hi
          rw [← hptr] at hb ⊢
          refine .entry hd' ?_ hi hb hj
          rw [untype_type hw hf hd, if_neg heq]
          exact hdir
      · exact Or.inr (hbelow.tail hchild)

theorem untype_self (hw : Wf m) (hf : FileAt m f) : FileAt (untype m f) f :=
  (untype_fileAt hw hf hf).resolve_right (hw.not_below_self hf)

theorem untype_bitSet (hw : Wf m) (hf : FileAt m f) {c : Nat} (hc : c < (sNblocks m).toNat) :
    bitSet (untype m f) c ↔ bitSet m c := by
  have := (hw.file_inBody hf).bitmap_disjoint hc
  rw [bitSet, untype_read (by omega)]
  rfl

theorem untype_wf (hw : Wf m) (hf : FileAt m f) : Wf (untype m f) := by
  refine hw.of_places (untype_nblocks hw hf) (fun c hc hc' => ?_) fun q hq hv => ?_
  · rw [untype_bitSet hw hf hc']
    exact hw.reserved c hc hc'
  · have hq' : q.Valid m := by
      cases q with
      | direct g i => exact ⟨untype_fileAt_of hw hf hq.1, hq.2⟩
      | indirect g => exact untype_fileAt_of hw hf hq
      | entry g k =>
          have hg := untype_fileAt_of hw hf hq.1
          refine ⟨hg, ?_, hq.2.2⟩
          rw [← untype_indirect hw hf hg]
          exact hq.2.1
    have hval : q.value (untype m f) = q.value m := by
      rw [Place.value, Place.value, untype_addr hw hf hq', untype_place hw hf hq']
    rw [hval] at hv
    refine ⟨hq', hval, ?_⟩
    rw [untype_bitSet hw hf (hw.ptr_lt q hq' hv)]
    exact hw.ptr_used q hq' hv

end

/-! ## Memories that differ in a type only -/

section

variable {m m₁ : Mem} {f a : Nat}

/-- The memories differ in the type of `f` only. -/
def SameBut (f : Nat) (m m₁ : Mem) : Prop := ∀ x, x < f + 132 ∨ f + 136 ≤ x → m x = m₁ x

theorem SameBut.read32 (h : SameBut f m m₁) (ha : a + 4 ≤ f + 132 ∨ f + 136 ≤ a) :
    m.read32 a = m₁.read32 a :=
  Mem.read32_congr fun x hx hx' => h x (by omega)

theorem SameBut.write32 (h : SameBut f m m₁) (a : Nat) (v : BitVec 32) :
    SameBut f (m.write32 a v) (m₁.write32 a v) := by
  intro x hx
  simp only [Mem.write32, h x hx]

theorem SameBut.fill (h : SameBut f m m₁) (a : Nat) (c : BitVec 8) (n : Nat) :
    SameBut f (m.fill a c n) (m₁.fill a c n) := by
  intro x hx
  simp only [Mem.fill, h x hx]

theorem SameBut.move (h : SameBut f m m₁) {src n : Nat} (dst : Nat)
    (hsrc : src + n ≤ f + 132 ∨ f + 136 ≤ src) : SameBut f (m.move dst src n) (m₁.move dst src n) := by
  intro x hx
  simp only [Mem.move]
  split
  · exact h _ (by omega)
  · exact h x hx

end

/-- The memories differ in the type of `f` only, and `m₁` is a well formed disk on which `f` is a
file that is no directory. -/
structure AsFile (f : Nat) (m m₁ : Mem) : Prop where
  same : SameBut f m m₁
  wf : Wf m₁
  file : FileAt m₁ f
  regular : fType m₁ f ≠ ftypeDir

theorem asFile_untype {m : Mem} {f : Nat} (hw : Wf m) (hf : FileAt m f) :
    AsFile f m (untype m f) := by
  refine ⟨fun x hx => (Mem.write32_of_disjoint _ _ (by omega)).symm, untype_wf hw hf,
    untype_self hw hf, ?_⟩
  rw [untype_type hw hf hf, if_pos rfl]
  decide

/-! ## The same results -/

/-- Both calls fail, or both return the same beside the memories. -/
def SameResult (f : Nat) {α : Type} : Option (Mem × α) → Option (Mem × α) → Prop :=
  Option.Rel fun x y => AsFile f x.1 y.1 ∧ x.2 = y.2

section

variable {m m₁ m' m₁' : Mem} {f a : Nat}

theorem AsFile.next (h : AsFile f m m₁) (hs : SameBut f m' m₁') (hk : DiskKept m₁ m₁') :
    AsFile f m' m₁' := by
  refine ⟨hs, hk.wf, hk.files f h.file, ?_⟩
  rw [hk.type f h.file]
  exact h.regular

theorem AsFile.super_apart (h : AsFile f m m₁) :
    superAddr + 8 ≤ f + 132 ∨ f + 136 ≤ superAddr + 4 := by
  have := (h.wf.file_inBody h.file).nblocks_disjoint
  omega

theorem AsFile.nblocks (h : AsFile f m m₁) : sNblocks m = sNblocks m₁ :=
  h.same.read32 (by have := h.super_apart; omega)

theorem AsFile.indirect_eq (h : AsFile f m m₁) : indirect m f = indirect m₁ f :=
  h.same.read32 (by simp only [fIndirect]; omega)

theorem AsFile.blockIsFree_eq (h : AsFile f m m₁) {c : Nat} (hc : c < (sNblocks m₁).toNat) :
    blockIsFree m c = blockIsFree m₁ c := by
  have := (h.wf.file_inBody h.file).bitmap_disjoint hc
  rw [Bool.eq_iff_iff, blockIsFree_iff, blockIsFree_iff, bitSet, bitSet, h.nblocks,
    h.same.read32 (by omega)]

theorem AsFile.firstFree_eq (h : AsFile f m m₁) : firstFree m = firstFree m₁ := by
  rw [firstFree, firstFree, h.nblocks]
  exact List.find?_congr fun c hc => h.blockIsFree_eq (List.mem_range.mp hc)

theorem AsFile.diskaddr_eq (hs : SameBut f m' m₁') (h : AsFile f m m₁) (b : BitVec 32) :
    diskaddr m' b = diskaddr m₁' b := by
  have := h.super_apart
  have hn : sNblocks m' = sNblocks m₁' := hs.read32 (by omega)
  rw [diskaddr, diskaddr, hn]

/-- The numbers of free blocks are read apart from the type of a file. -/
theorem AsFile.allocBlock_same (h : AsFile f m m₁) :
    SameBut f (allocBlock m).1 (allocBlock m₁).1 ∧ (allocBlock m).2 = (allocBlock m₁).2 := by
  rw [allocBlock, allocBlock, h.firstFree_eq]
  split
  · rename_i b hb
    have := (h.wf.file_inBody h.file).bitmap_disjoint (firstFree_some hb).1
    refine ⟨?_, rfl⟩
    rw [clearBit, clearBit, h.same.read32 (by omega)]
    exact h.same.write32 _ _
  · exact ⟨h.same, rfl⟩

theorem AsFile.allocInto_same (h : AsFile f m m₁) (slot : Nat) :
    Option.Rel (SameBut f) (allocInto m slot) (allocInto m₁ slot) := by
  obtain ⟨hs, hnew⟩ := h.allocBlock_same
  simp only [allocInto]
  rw [hnew, h.diskaddr_eq (hs.write32 _ _)]
  cases diskaddr ((allocBlock m₁).1.write32 slot (allocBlock m₁).2) (allocBlock m₁).2 with
  | none => exact .none
  | some b => exact .some ((hs.write32 _ _).fill _ _ _)

/-- Taking a block for an empty place of `f`. -/
theorem AsFile.allocInto_place (h : AsFile f m m₁) {p : Place} (hp : p.Valid m₁)
    (hempty : p.value m₁ = 0) :
    Option.Rel (AsFile f) (allocInto m (p.addr m₁)) (allocInto m₁ (p.addr m₁)) := by
  have hrel := h.allocInto_same (p.addr m₁)
  rcases allocInto_cases h.wf hp hempty with ⟨_, hnone⟩ | ⟨b, m₁', hsome, halloc⟩
  · rw [hnone] at hrel ⊢
    rw [rel_none_right hrel]
    exact .none
  · rw [hsome] at hrel ⊢
    obtain ⟨m', hm', hs⟩ := rel_some_right hrel
    rw [hm']
    exact .some (h.next hs
      ⟨halloc.wf h.wf, fun _ => halloc.fileAt h.wf, (halloc.edited h.wf).type⟩)

/-- The slot that `file_block_walk` returns is apart from the type. -/
theorem AsFile.fileBlockWalk_same (h : AsFile f m m₁) (filebno : BitVec 32) (alloc : Bool) :
    Option.Rel (fun x y => AsFile f x.1 y.1 ∧ x.2 = y.2 ∧
        ∀ slot, y.2 = .ok slot → ∃ p : Place, p.Valid y.1 ∧ p.file = f ∧ p.addr y.1 = slot)
      (fileBlockWalk m f filebno alloc) (fileBlockWalk m₁ f filebno alloc) := by
  rw [fileBlockWalk, fileBlockWalk, h.indirect_eq]
  split
  · exact .some ⟨h, rfl, fun _ hr => by cases hr⟩
  rename_i hi
  split
  · rename_i hlt
    refine .some ⟨h, rfl, fun slot hr => ⟨.direct f filebno.toNat, ⟨h.file, hlt⟩, rfl, ?_⟩⟩
    cases hr
    rfl
  rename_i hge
  split
  · exact .some ⟨h, rfl, fun _ hr => by cases hr⟩
  -- The address of the entry, once the indirect block is there.
  have hend : ∀ {m' m₁' : Mem}, AsFile f m' m₁' → indirect m₁' f ≠ 0#32 →
      Option.Rel (fun x y => AsFile f x.1 y.1 ∧ x.2 = y.2 ∧
          ∀ slot, y.2 = .ok slot → ∃ p : Place, p.Valid y.1 ∧ p.file = f ∧ p.addr y.1 = slot)
        ((diskaddr m' (indirect m' f)).bind fun a =>
          some (m', (.ok (a + 4 * (filebno.toNat - ndirect)) : Except Int Nat)))
        ((diskaddr m₁' (indirect m₁' f)).bind fun a =>
          some (m₁', (.ok (a + 4 * (filebno.toNat - ndirect)) : Except Int Nat))) := by
    intro m' m₁' h' hind
    have hda := diskaddr_place h'.wf (p := .indirect f) h'.file fun hz =>
      hind (BitVec.eq_of_toNat_eq hz)
    rw [show m₁'.read32 ((Place.indirect f).addr m₁') = indirect m₁' f from rfl] at hda
    rw [h'.diskaddr_eq h'.same, h'.indirect_eq, hda]
    refine .some ⟨h', rfl, fun slot hr => ⟨.entry f (filebno.toNat - ndirect), ⟨h'.file, hind, ?_⟩,
      rfl, ?_⟩⟩
    · simp only [maxblocks, ndirect, nindirect] at hi hge ⊢
      omega
    · cases hr
      rfl
  split
  · rename_i hz
    have hrel : Option.Rel (AsFile f) (allocInto m (fIndirect f)) (allocInto m₁ (fIndirect f)) :=
      h.allocInto_place (p := .indirect f) h.file (congrArg BitVec.toNat hz)
    have hcases : allocInto m₁ (fIndirect f) = none ∨
        ∃ m₁', allocInto m₁ (fIndirect f) = some m₁' ∧ indirect m₁' f ≠ 0#32 := by
      rcases allocInto_cases h.wf (p := .indirect f) h.file (congrArg BitVec.toNat hz) with
        ⟨_, hnone⟩ | ⟨b, m₁', hsome, halloc⟩
      · exact Or.inl hnone
      · exact Or.inr ⟨m₁', hsome, halloc.indirect_ne h.wf⟩
    rcases hcases with hnone | ⟨m₁', hsome, hne⟩
    · rw [hnone] at hrel ⊢
      rw [rel_none_right hrel]
      exact .none
    · rw [hsome] at hrel ⊢
      obtain ⟨m', hm', h'⟩ := rel_some_right hrel
      rw [hm']
      exact hend h' hne
  · rename_i hind
    exact hend h hind

theorem AsFile.fileGetBlock_same (h : AsFile f m m₁) (filebno : BitVec 32) :
    SameResult f (fileGetBlock m f filebno) (fileGetBlock m₁ f filebno) := by
  rw [fileGetBlock, fileGetBlock]
  refine rel_bind (h.fileBlockWalk_same filebno true) fun x y hxy => ?_
  obtain ⟨m2, r⟩ := x
  obtain ⟨m3, r'⟩ := y
  obtain ⟨h2, hr, hslot⟩ := hxy
  simp only at h2 hr hslot
  subst hr
  cases r with
  | error e => exact .some ⟨h2, rfl⟩
  | ok slot =>
      obtain ⟨p, hp, _, rfl⟩ := hslot slot rfl
      have hapart := h2.wf.header_disjoint h2.file hp
      have hend : ∀ {m4 m5 : Mem}, AsFile f m4 m5 → SameResult f
          ((diskaddr m4 (m4.read32 (p.addr m3))).bind fun a => some (m4, (.ok a : Except Int Nat)))
          ((diskaddr m5 (m5.read32 (p.addr m3))).bind fun a => some (m5, .ok a)) := by
        intro m4 m5 h4
        rw [h4.diskaddr_eq h4.same, h4.same.read32 (by omega)]
        cases diskaddr m5 (m5.read32 (p.addr m3)) with
        | none => exact .none
        | some b => exact .some ⟨h4, rfl⟩
      simp only
      rw [h2.same.read32 (by omega)]
      split
      · rename_i hz
        exact rel_bind (h2.allocInto_place hp (congrArg BitVec.toNat hz)) fun m4 m5 h4 => hend h4
      · exact hend h2

/-- Giving back the block at a place of `f`. -/
theorem AsFile.freeBlock_place (h : AsFile f m m₁) {p : Place} (hp : p.Valid m₁)
    (hfile : p.file = f) (hv : p.value m₁ ≠ 0) :
    Option.Rel (AsFile f)
      ((freeBlock m (p.value m₁)).bind fun m' => some (m'.write32 (p.addr m₁) 0#32))
      ((freeBlock m₁ (p.value m₁)).bind fun m' => some (m'.write32 (p.addr m₁) 0#32)) := by
  have hrel := released_place h.wf hp hv
  have hreg : fType m₁ p.file ≠ ftypeDir := by
    rw [hfile]
    exact h.regular
  have hword := (h.wf.file_inBody h.file).bitmap_disjoint (h.wf.ptr_lt p hp hv)
  rw [freeBlock, freeBlock, if_neg hv, if_neg hv]
  refine .some (h.next (SameBut.write32 ?_ _ _) (hrel.kept h.wf hreg))
  rw [setBit, setBit, h.same.read32 (by omega)]
  exact h.same.write32 _ _

theorem AsFile.fileFreeBlock_same (h : AsFile f m m₁) (filebno : BitVec 32) :
    SameResult f (fileFreeBlock m f filebno) (fileFreeBlock m₁ f filebno) := by
  rw [fileFreeBlock, fileFreeBlock]
  refine rel_bind (h.fileBlockWalk_same filebno false) fun x y hxy => ?_
  obtain ⟨m2, r⟩ := x
  obtain ⟨m3, r'⟩ := y
  obtain ⟨h2, hr, hslot⟩ := hxy
  simp only at h2 hr hslot
  subst hr
  cases r with
  | error e => exact .some ⟨h2, rfl⟩
  | ok slot =>
      obtain ⟨p, hp, hfile, rfl⟩ := hslot slot rfl
      have hapart := h2.wf.header_disjoint h2.file hp
      simp only
      rw [h2.same.read32 (by omega)]
      split
      · rename_i hne
        have hrel := h2.freeBlock_place hp hfile fun hz => hne (BitVec.eq_of_toNat_eq hz)
        have hv : (m3.read32 (p.addr m3)).toNat ≠ 0 := fun hz => hne (BitVec.eq_of_toNat_eq hz)
        rw [Place.value, freeBlock, freeBlock, if_neg hv, if_neg hv] at hrel
        rw [freeBlock, freeBlock, if_neg hv, if_neg hv]
        exact .some ⟨Option.rel_some_some.mp hrel, rfl⟩
      · exact .some ⟨h2, rfl⟩

theorem AsFile.fSize_eq (h : AsFile f m m₁) : fSize m f = fSize m₁ f := h.same.read32 (by omega)

theorem AsFile.fileTruncateBlocks_same (h : AsFile f m m₁) (newsize : BitVec 32) :
    Option.Rel (AsFile f) (fileTruncateBlocks m f newsize) (fileTruncateBlocks m₁ f newsize) := by
  simp only [fileTruncateBlocks, h.fSize_eq]
  refine rel_bind (foldlM_rel (fun m2 m3 bno h2 => ?_) _ h) fun m2 m3 h2 => ?_
  · have hfree := h2.fileFreeBlock_same (BitVec.ofNat 32 bno)
    rw [Option.map_eq_bind, Option.map_eq_bind]
    exact rel_bind hfree fun x y hxy => .some hxy.1
  · rw [h2.indirect_eq]
    split
    · rename_i hind
      exact h2.freeBlock_place (p := .indirect f) h2.file rfl fun hz =>
        hind.2 (BitVec.eq_of_toNat_eq hz)
    · exact .some h2

theorem AsFile.writeSize (h : AsFile f m m₁) (newsize : BitVec 32) :
    AsFile f (m.write32 (f + 128) newsize) (m₁.write32 (f + 128) newsize) :=
  h.next (h.same.write32 _ _) ((unmoved_size h.wf h.file newsize).kept h.wf)

theorem AsFile.fileSetSize_same (h : AsFile f m m₁) (newsize : BitVec 32) :
    Option.Rel (AsFile f) (fileSetSize m f newsize) (fileSetSize m₁ f newsize) := by
  rw [fileSetSize, fileSetSize, h.fSize_eq]
  split
  · exact rel_bind (h.fileTruncateBlocks_same newsize) fun m2 m3 h2 => .some (h2.writeSize newsize)
  · exact .some (h.writeSize newsize)

/-! ## Writing -/

/-- Copying from a buffer beside the disk into a block of `f`. -/
theorem AsFile.copy_same (h : AsFile f m m₁) {i n dst buf : Nat} (hi : i < maxblocks)
    (hb : blockPtr m₁ f i ≠ 0) (hbuf : Beside buf n) (hdst : blockAddr (blockPtr m₁ f i) ≤ dst)
    (hdst' : dst + n ≤ blockAddr (blockPtr m₁ f i) + 4096) :
    AsFile f (m.move dst buf n) (m₁.move dst buf n) := by
  have hdisk := (h.wf.file_inBody h.file).in_disk h.wf
  have hun := (unmoved_data buf h.wf h.file h.regular hi hb hdst hdst').1
  refine h.next (h.same.move dst ?_) (hun.kept h.wf)
  simp only [Beside] at hbuf
  omega

theorem AsFile.writeLoop_same (h : AsFile f m m₁) {fuel buf : Nat} {pos ending : BitVec 32}
    (hpos : pos.toNat < 2147483648)
    (hbuf : Beside buf (stopAt pos.toNat ending.toNat - pos.toNat)) :
    SameResult f (writeLoop f ending fuel m buf pos) (writeLoop f ending fuel m₁ buf pos) := by
  induction fuel generalizing m m₁ buf pos with
  | zero => exact .none
  | succ fuel ih =>
      rw [writeLoop, copyLoop, copyLoop]
      split
      · rename_i hlt
        rw [BitVec.lt_def] at hlt
        have hget := h.fileGetBlock_same (pos.sdiv 4096#32)
        by_cases hi : pos.toNat < maxfilesize
        · have hblk : (pos.sdiv 4096#32).toNat < maxblocks := by
            rw [sdiv_block hpos]
            exact block_lt hi
          rcases fileGetBlock_cases (pos.sdiv 4096#32) h.wf h.file hblk with
            ⟨_, hnone⟩ | ⟨m3, hsome, hgot⟩
          · rw [hnone] at hget ⊢
            rw [rel_none_right hget]
            exact .none
          · rw [hsome] at hget ⊢
            obtain ⟨⟨m2, r⟩, hm2, h2, hr⟩ := rel_some_right hget
            simp only at h2 hr
            subst hr
            rw [hm2]
            rw [sdiv_block hpos] at hgot hblk ⊢
            have hround := chunk_round hpos hlt hi
            have hle := hround.le
            have hnext := chunk_next hpos hlt hi
            have hmax : stopAt pos.toNat ending.toNat ≤ maxfilesize := by
              rw [stopAt_of_lt hlt hi]
              exact Nat.min_le_right _ _
            have haddr := blkPos_eq pos hpos (hgot.ptr_addr_lt h.wf h.file hblk)
            refine ih (h2.copy_same hblk hgot.ptr_ne ?_ ?_ ?_) ?_ ?_
            · exact hbuf.mono (by omega)
            · rw [haddr]
              exact Nat.le_add_right _ _
            · rw [haddr, Nat.add_assoc]
              exact Nat.add_le_add_left hround.inBlock _
            · rw [hnext]
              exact Nat.lt_of_le_of_lt (Nat.le_trans hle hmax) maxfilesize_lt
            · rw [stopAt_chunk hpos hlt hi, hnext]
              simp only [Beside] at hbuf ⊢
              omega
        · have hblk : maxblocks ≤ (pos.sdiv 4096#32).toNat := by
            rw [sdiv_block hpos]
            simp only [maxfilesize, maxblocks] at hi ⊢
            omega
          rw [fileGetBlock_large hblk, fileGetBlock_large hblk]
          exact .some ⟨h, rfl⟩
      · exact .some ⟨h, rfl⟩

theorem AsFile.sizeStep_same (h : AsFile f m m₁) (newsize : BitVec 32) :
    Option.Rel (AsFile f) (if fSize m f < newsize then fileSetSize m f newsize else some m)
      (if fSize m₁ f < newsize then fileSetSize m₁ f newsize else some m₁) := by
  rw [h.fSize_eq]
  split
  · exact h.fileSetSize_same newsize
  · exact .some h

/-- `file_write` does the same to both. -/
theorem AsFile.fileWrite_same (h : AsFile f m m₁) {buf : Nat} (count : BitVec 32)
    {offset : BitVec 32} (hoff : offset.toNat < 2147483648)
    (hbuf : Beside buf (stopAt offset.toNat (offset + count).toNat - offset.toNat)) :
    SameResult f (fileWrite m f buf count offset) (fileWrite m₁ f buf count offset) := by
  rw [fileWrite_eq, fileWrite_eq]
  refine rel_bind (h.sizeStep_same (offset + count)) fun m2 m3 h2 => ?_
  refine rel_bind (h2.writeLoop_same hoff hbuf) fun x y hxy => .some ⟨hxy.1, ?_⟩
  rw [hxy.2]

/-! ## The same contents -/

theorem AsFile.blockPtr_eq (h : AsFile f m m₁) {i : Nat} (hi : i < maxblocks) :
    blockPtr m f i = blockPtr m₁ f i := by
  rw [blockPtr, blockPtr, h.indirect_eq]
  split
  · rw [h.same.read32 (by simp only [fDirect]; omega)]
  · rename_i hge
    split
    · rfl
    · rename_i hind
      have hk : i - ndirect < nindirect := by
        simp only [maxblocks, ndirect, nindirect] at hi hge ⊢
        omega
      have hp := h.wf.header_disjoint h.file
        (show (Place.entry f (i - ndirect)).Valid m₁ from ⟨h.file, hind, hk⟩)
      simp only [Place.addr] at hp
      rw [h.same.read32 (by omega)]

theorem AsFile.fileByte_eq (h : AsFile f m m₁) {i : Nat} (hi : i < maxfilesize) :
    fileByte m f i = fileByte m₁ f i := by
  have hout := h.wf.not_inEntry_self h.file hi
  rw [fileByte, fileByte, byteAddr, h.blockPtr_eq (block_lt hi), ← byteAddr]
  split
  · rfl
  · rename_i hb
    refine h.same _ ?_
    by_contra hin
    exact hout ⟨hb, by omega, by omega⟩

end

end Jos.Fs
