import Jos.Fs.AsFile
import Jos.Fs.Serv

/-!
# Reading and writing at any offset

`seek` stores any value in the `Fd` page, and `file_read` and `file_write` take what is there.
The position is an `int`, the end of the range and the comparison are unsigned. At a negative
offset a range that reaches position 0 wraps around, so that nothing is copied and the count
returned; a range that does not lies before block 0 when it begins less than a block before the
file, and is refused otherwise.

Main results:
* `file_io_inside_iff`: which offsets and counts keep to the file;
* `negative_offset_outside`: three calls that do not.
-/

namespace Jos.Fs

open Jos.Lib

/-! ## The bytes that belong to a file -/

/-- Address `x` is in a block of `f`, or in its indirect block. -/
def InFile (m : Mem) (f x : Nat) : Prop :=
  (∃ i < maxblocks, blockPtr m f i ≠ 0 ∧ blockAddr (blockPtr m f i) ≤ x ∧
      x < blockAddr (blockPtr m f i) + 4096) ∨
    (indirect m f ≠ 0#32 ∧ blockAddr (indirect m f).toNat ≤ x ∧
      x < blockAddr (indirect m f).toNat + 4096)

/-- Address `x` is in the bitmap, in the `struct File` at `f` or in one of its blocks. -/
def Own (m : Mem) (f x : Nat) : Prop :=
  (diskmap + 8192 ≤ x ∧ x < blockAddr (firstBlock m)) ∨ (f ≤ x ∧ x < f + 256) ∨ InFile m f x

/-- On the disk only bytes that belong to `f` before or after have changed. -/
def Confined (f : Nat) (m m' : Mem) : Prop :=
  ∀ x, diskmap ≤ x → x < diskmap + disksize → m' x ≠ m x → Own m f x ∨ InFile m' f x

/-- The file has kept its blocks. -/
structure Extends (f : Nat) (m m' : Mem) : Prop where
  confined : Confined f m m'
  nblocks : sNblocks m' = sNblocks m
  keeps : ∀ x, InFile m f x → InFile m' f x

/-- The file has got no new blocks. -/
structure Shrinks (f : Nat) (m m' : Mem) : Prop where
  confined : Confined f m m'
  nblocks : sNblocks m' = sNblocks m
  no_new : ∀ x, InFile m' f x → InFile m f x

section

variable {m m' m1 : Mem} {f b n i x : Nat} {p : Place}

theorem Own.congr (hn : sNblocks m1 = sNblocks m) (h : Own m1 f x) : Own m f x ∨ InFile m1 f x := by
  rcases h with h | h | h
  · rw [firstBlock, hn, ← firstBlock] at h
    exact Or.inl (Or.inl h)
  · exact Or.inl (Or.inr (Or.inl h))
  · exact Or.inr h

theorem Confined.refl : Confined f m m := fun _ _ _ h => absurd rfl h

theorem Extends.refl : Extends f m m := ⟨.refl, rfl, fun _ h => h⟩

theorem Shrinks.refl : Shrinks f m m := ⟨.refl, rfl, fun _ h => h⟩

theorem Extends.trans (h : Extends f m m1) (h' : Extends f m1 m') : Extends f m m' := by
  refine ⟨fun x h1 h2 hne => ?_, h'.nblocks.trans h.nblocks, fun x hx => h'.keeps x (h.keeps x hx)⟩
  by_cases heq : m1 x = m x
  · rw [← heq] at hne
    rcases h'.confined x h1 h2 hne with hown | hin
    · rcases hown.congr h.nblocks with hown' | hin
      · exact Or.inl hown'
      · exact Or.inr (h'.keeps x hin)
    · exact Or.inr hin
  · rcases h.confined x h1 h2 heq with hown | hin
    · exact Or.inl hown
    · exact Or.inr (h'.keeps x hin)

/-- A file without new blocks, then any change confined to it. -/
theorem Shrinks.confined_next (h : Shrinks f m m1) (h' : Confined f m1 m') : Confined f m m' := by
  intro x h1 h2 hne
  have hback : InFile m1 f x → Own m f x := fun hin => Or.inr (Or.inr (h.no_new x hin))
  by_cases heq : m1 x = m x
  · rw [← heq] at hne
    rcases h' x h1 h2 hne with hown | hin
    · rcases hown.congr h.nblocks with hown' | hin
      · exact Or.inl hown'
      · exact Or.inl (hback hin)
    · exact Or.inr hin
  · rcases h.confined x h1 h2 heq with hown | hin
    · exact Or.inl hown
    · exact Or.inl (hback hin)

theorem Shrinks.trans (h : Shrinks f m m1) (h' : Shrinks f m1 m') : Shrinks f m m' :=
  ⟨h.confined_next h'.confined, h'.nblocks.trans h.nblocks, fun x hx =>
    h.no_new x (h'.no_new x hx)⟩

/-- A place of `f` is in its `struct File` or in its indirect block. -/
theorem Place.Valid.own (hp : p.Valid m) (h1 : p.addr m ≤ x) (h2 : x < p.addr m + 4) :
    Own m p.file x := by
  rcases hp.cases_addr with hin | ⟨k, hk, _, hind, haddr⟩
  · exact Or.inr (Or.inl (by omega))
  · refine Or.inr (Or.inr (Or.inr ⟨hind, ?_⟩))
    simp only [nindirect] at hk
    omega

/-! ## What the steps change -/

theorem Allocated.blockPtr_keeps (h : Allocated m p b m') (hw : Wf m) (hf : FileAt m f)
    (hi : i < maxblocks) (hb : blockPtr m f i ≠ 0) : blockPtr m' f i = blockPtr m f i := by
  rw [h.blockPtr_eq hw hf hi, if_neg]
  rintro rfl
  obtain ⟨_, hval⟩ := dataPlace_valid hf hi hb
  exact hb (by rw [← hval, h.empty])

/-- The new block belongs to the file. -/
theorem Allocated.inFile_new (h : Allocated m p b m') (hw : Wf m) (h1 : blockAddr b ≤ x)
    (h2 : x < blockAddr b + 4096) : InFile m' p.file x := by
  have hge := h.ge hw
  have hfirst := firstBlock_ge m
  have hdata : ∀ {i : Nat}, i < maxblocks → dataPlace p.file i = p → InFile m' p.file x := by
    intro i hi heq
    have hptr := h.blockPtr_eq hw h.valid.fileAt hi
    rw [if_pos heq] at hptr
    exact Or.inl ⟨i, hi, by omega, by rw [hptr]; exact ⟨h1, h2⟩⟩
  cases p with
  | direct f i =>
      have hi := h.valid.2
      refine hdata (i := i) ?_ (if_pos hi)
      simp only [ndirect, maxblocks] at hi ⊢
      omega
  | indirect f =>
      have hval : (indirect m' f).toNat = b := h.toNat_stored
      refine Or.inr ⟨h.indirect_ne hw, ?_⟩
      simp only [Place.file, hval]
      exact ⟨h1, h2⟩
  | entry f k =>
      have hk := h.valid.2.2
      refine hdata (i := k + ndirect) ?_ ?_
      · simp only [ndirect, nindirect, maxblocks] at hk ⊢
        omega
      · rw [dataPlace, if_neg (by omega), Nat.add_sub_cancel]
        rfl

theorem Allocated.extends (h : Allocated m p b m') (hw : Wf m) : Extends p.file m m' := by
  have hf := h.valid.fileAt
  refine ⟨fun x h1 h2 hne => ?_, h.nblocks hw, fun x hx => ?_⟩
  · by_cases hword : bitmapWord b ≤ x ∧ x < bitmapWord b + 4
    · have := bitmapWord_le h.lt
      exact Or.inl (Or.inl (by omega))
    · by_cases hslot : p.addr m ≤ x ∧ x < p.addr m + 4
      · exact Or.inl (h.valid.own hslot.1 hslot.2)
      · by_cases hblock : blockAddr b ≤ x ∧ x < blockAddr b + 4096
        · exact Or.inr (h.inFile_new hw hblock.1 hblock.2)
        · exact absurd (h.same x (by omega) (by omega) (by omega)) hne
  · rcases hx with ⟨i, hi, hb, hx⟩ | ⟨hind, hx⟩
    · have heq := h.blockPtr_keeps hw hf hi hb
      exact Or.inl ⟨i, hi, by rw [heq]; exact hb, by rw [heq]; exact hx⟩
    · have heq := (h.edited hw).indirect_eq hf (h.ne_indirect hind)
      exact Or.inr ⟨by rw [heq]; exact hind, by rw [heq]; exact hx⟩

theorem Grows.extends (h : Grows f m n m') (hw : Wf m) : Extends f m m' := by
  induction h with
  | refl => exact .refl
  | step h hfile halloc ih =>
      have hstep := halloc.extends (h.wf hw)
      rw [hfile] at hstep
      exact ih.trans hstep

theorem Released.shrinks (h : Released m p b m') (hw : Wf m) : Shrinks p.file m m' := by
  have hf := h.valid.fileAt
  refine ⟨fun x h1 h2 hne => ?_, h.nblocks hw, fun x hx => ?_⟩
  · by_cases hword : bitmapWord b ≤ x ∧ x < bitmapWord b + 4
    · have := bitmapWord_le (h.owned.lt hw)
      exact Or.inl (Or.inl (by omega))
    · by_cases hslot : p.addr m ≤ x ∧ x < p.addr m + 4
      · exact Or.inl (h.valid.own hslot.1 hslot.2)
      · exact absurd (h.same x (by omega) (by omega)) hne
  · rcases hx with ⟨i, hi, hb, hx⟩ | ⟨hind, hx⟩
    · have heq := h.blockPtr_cases hw hf hi hb
      rw [heq] at hb hx
      exact Or.inl ⟨i, hi, hb, hx⟩
    · have hne : p ≠ .indirect p.file := by
        intro heq
        have hz := h.stored
        rw [heq] at hz
        exact hind hz
      have heq := (h.edited hw).indirect_eq hf hne
      rw [heq] at hind hx
      exact Or.inr ⟨hind, hx⟩

/-- A change that moves no block. -/
theorem Unmoved.inFile_iff (h : Unmoved m m') (hf : FileAt m f) : InFile m' f x ↔ InFile m f x := by
  rw [InFile, InFile, h.indirect_eq hf]
  refine or_congr_left (exists_congr fun i => and_congr_right fun hi => ?_)
  rw [h.blockPtr_eq hf hi]

theorem Unmoved.extends (h : Unmoved m m') (hf : FileAt m f) (hconf : Confined f m m') :
    Extends f m m' :=
  ⟨hconf, h.nblocks, fun _ => (h.inFile_iff hf).mpr⟩

theorem Unmoved.shrinks (h : Unmoved m m') (hf : FileAt m f) (hconf : Confined f m m') :
    Shrinks f m m' :=
  ⟨hconf, h.nblocks, fun _ => (h.inFile_iff hf).mp⟩

theorem confined_size (v : BitVec 32) : Confined f m (m.write32 (f + 128) v) := by
  intro x _ _ hne
  by_cases hx : f + 128 ≤ x ∧ x < f + 132
  · exact Or.inl (Or.inr (Or.inl (by omega)))
  · exact absurd (Mem.write32_of_disjoint _ _ (by omega)) hne

theorem confined_data {src : Nat} (hi : i < maxblocks) (hb : blockPtr m f i ≠ 0) {a : Nat}
    (ha : blockAddr (blockPtr m f i) ≤ a) (ha' : a + n ≤ blockAddr (blockPtr m f i) + 4096) :
    Confined f m (m.move a src n) := by
  intro x _ _ hne
  by_cases hx : a ≤ x ∧ x < a + n
  · exact Or.inl (Or.inr (Or.inr (Or.inl ⟨i, hi, hb, by omega, by omega⟩)))
  · exact absurd (Mem.move_of_disjoint _ (by omega)) hne

theorem SameDisk.confined (h : SameDisk m m') : Confined f m m' :=
  fun x h1 h2 hne => absurd (h x h1 h2) hne

/-! ## Sizes -/

theorem fileFreeBlock_shrinks {bno : BitVec 32} {r : Int} (hw : Wf m) (hf : FileAt m f)
    (h : fileFreeBlock m f bno = some (m', r)) : Shrinks f m m' := by
  rcases fileFreeBlock_cases hw hf h with rfl | ⟨p, b, rfl, hrel⟩
  · exact .refl
  · exact hrel.shrinks hw

theorem fileTruncateBlocks_shrinks {newsize : BitVec 32} (hw : Wf m) (hf : FileAt m f)
    (hreg : fType m f ≠ ftypeDir) (h : fileTruncateBlocks m f newsize = some m') :
    Shrinks f m m' := by
  simp only [fileTruncateBlocks, Option.bind_eq_bind, Option.bind_eq_some_iff] at h
  obtain ⟨m1, hloop, h⟩ := h
  have h1 : DiskKept m m1 ∧ Shrinks f m m1 := by
    refine foldlM_inv (fun m1 => DiskKept m m1 ∧ Shrinks f m m1) ?_ hloop
      ⟨DiskKept.refl hw, Shrinks.refl⟩
    intro bno m2 m3 hstep h2
    obtain ⟨⟨m4, r⟩, hfree, rfl⟩ := Option.map_eq_some_iff.mp hstep
    have hreg2 : fType m2 f ≠ ftypeDir := by
      rw [h2.1.type f hf]
      exact hreg
    have hf2 := h2.1.files f hf
    exact ⟨h2.1.trans (fileFreeBlock_kept h2.1.wf hf2 hreg2 hfree),
      h2.2.trans (fileFreeBlock_shrinks h2.1.wf hf2 hfree)⟩
  split at h
  · rename_i hind
    have hv : (Place.indirect f).value m1 ≠ 0 := fun hz => hind.2 (BitVec.eq_of_toNat_eq hz)
    simp only [Option.bind_eq_some_iff] at h
    obtain ⟨m2, hfree, h⟩ := h
    rw [freeBlock, show (indirect m1 f).toNat = (Place.indirect f).value m1 from rfl,
      if_neg hv] at hfree
    cases hfree
    cases h
    exact h1.2.trans
      ((released_place h1.1.wf (p := .indirect f) (h1.1.files f hf) hv).shrinks h1.1.wf)
  · cases h
    exact h1.2

theorem fileSetSize_shrinks {newsize : BitVec 32} (hw : Wf m) (hf : FileAt m f)
    (hreg : fType m f ≠ ftypeDir) (h : fileSetSize m f newsize = some m') : Shrinks f m m' := by
  have hend : ∀ {m1 : Mem}, DiskKept m m1 → Shrinks f m m1 →
      Shrinks f m (m1.write32 (f + 128) newsize) := by
    intro m1 h1 h2
    have hf1 := h1.files f hf
    exact h2.trans ((unmoved_size h1.wf hf1 newsize).shrinks hf1 (confined_size newsize))
  rw [fileSetSize] at h
  split at h
  · obtain ⟨m1, htrunc, h⟩ := Option.bind_eq_some_iff.mp h
    cases h
    exact hend (fileTruncateBlocks_kept hw hf hreg htrunc)
      (fileTruncateBlocks_shrinks hw hf hreg htrunc)
  · cases h
    exact hend (DiskKept.refl hw) .refl

end

/-! ## The loops at the positions of a file -/

section

variable {m m' m1 : Mem} {f buf stop : Nat} {pos ending : BitVec 32} {res : CopyResult}

theorem ReadTo.round_extends {m0 : Mem} {start p b n : Nat} (h : ReadTo m0 f buf start p b m)
    (hgot : GotBlock m f (p / 4096) m1) (hbuf : Beside buf (p + n - start)) :
    Extends f m (m1.move b (byteAddr m1 f p) n) := by
  have hw1 := hgot.grows.wf h.wf
  have hf1 := hgot.grows.fileAt h.wf h.file
  have hb := h.buf_eq
  have hs := h.le
  have hsd : SameDisk m1 (m1.move b (byteAddr m1 f p) n) := sameDisk_move (by
    simp only [Beside] at hbuf ⊢
    omega)
  exact (hgot.grows.extends h.wf).trans ((hsd.unmoved hw1).extends hf1 hsd.confined)

theorem WrittenTo.round_extends {m0 : Mem} {start p b n : Nat} (h : WrittenTo m0 f buf start p b m)
    (hreg : fType m0 f ≠ ftypeDir) (hgot : GotBlock m f (p / 4096) m1)
    (hn : p % 4096 + n ≤ 4096) (hn0 : 0 < n) (hle : p + n ≤ maxfilesize)
    (hbuf : Beside buf (p + n - start)) : Extends f m (m1.move (byteAddr m1 f p) b n) := by
  have hw := h.rewritten.wf
  have hf1 := hgot.grows.fileAt hw h.file
  have hi : p / 4096 < maxblocks := block_lt (by omega)
  have hun := (h.round hreg hgot hn hn0 hle hbuf).1
  have hconf : Confined f m1 (m1.move (byteAddr m1 f p) b n) :=
    confined_data hi hgot.ptr_ne (by rw [byteAddr]; omega) (by rw [byteAddr]; omega)
  exact (hgot.grows.extends hw).trans (hun.extends hf1 hconf)

theorem readLoop_extends (hw : Wf m) (hf : FileAt m f) (hpos : pos.toNat < 2147483648)
    (hstop : stopAt pos.toNat ending.toNat = stop) (hbuf : Beside buf (stop - pos.toNat))
    (h : readLoop f ending copyFuel m buf pos = some res) :
    res.2 = (buf + (stop - pos.toNat), loopResult stop ending.toNat) ∧
      ReadTo m f buf pos.toNat stop (buf + (stop - pos.toNat)) res.1 ∧ Extends f m res.1 := by
  have hrule : (pos.toNat < stop ∧
        (freeBlocks m).length < missing m f (pos.toNat / 4096) ((stop + 4095) / 4096) ∧
        readLoop f ending copyFuel m buf pos = none) ∨
      ∃ m', readLoop f ending copyFuel m buf pos =
          some (m', buf + (stop - pos.toNat), loopResult stop ending.toNat) ∧
        ReadTo m f buf pos.toNat stop (buf + (stop - pos.toNat)) m' ∧ Extends f m m' :=
    copyLoop_rule (Q := fun p b m1 => ReadTo m f buf pos.toNat p b m1 ∧ Extends f m m1)
    (fun h => ⟨h.1.wf, h.1.file⟩)
    (fun {p b m2 m3 n} h hgot _ hn hend hmax => by
      have hle := h.1.le
      have hb : Beside buf (p + n - pos.toNat) := by
        simp only [Beside, stopAt] at hbuf hstop ⊢
        omega
      obtain ⟨hun, hto⟩ := h.1.round hgot hn hmax hb
      exact ⟨hun, hto, h.2.trans (h.1.round_extends hgot hb)⟩)
    hpos hstop (by decide) (copyFuel_enough hstop)
    ⟨⟨hw, hf, Nat.le_refl _, by omega, fun _ _ => rfl, by omega, fun _ _ _ => rfl,
      fun _ => .refl hw⟩, .refl⟩
  rcases hrule with ⟨_, _, hnone⟩ | ⟨m', hrun, hQ⟩
  · rw [hnone] at h
    cases h
  · rw [hrun] at h
    cases h
    exact ⟨rfl, hQ⟩

theorem writeLoop_extends (hw : Wf m) (hf : FileAt m f) (hreg : fType m f ≠ ftypeDir)
    (hpos : pos.toNat < 2147483648) (hstop : stopAt pos.toNat ending.toNat = stop)
    (hbuf : Beside buf (stop - pos.toNat)) (h : writeLoop f ending copyFuel m buf pos = some res) :
    res.2 = (buf + (stop - pos.toNat), loopResult stop ending.toNat) ∧
      WrittenTo m f buf pos.toNat stop (buf + (stop - pos.toNat)) res.1 ∧ Extends f m res.1 := by
  have hrule : (pos.toNat < stop ∧
        (freeBlocks m).length < missing m f (pos.toNat / 4096) ((stop + 4095) / 4096) ∧
        writeLoop f ending copyFuel m buf pos = none) ∨
      ∃ m', writeLoop f ending copyFuel m buf pos =
          some (m', buf + (stop - pos.toNat), loopResult stop ending.toNat) ∧
        WrittenTo m f buf pos.toNat stop (buf + (stop - pos.toNat)) m' ∧ Extends f m m' :=
    copyLoop_rule (Q := fun p b m1 => WrittenTo m f buf pos.toNat p b m1 ∧ Extends f m m1)
    (fun h => ⟨h.1.rewritten.wf, h.1.file⟩)
    (fun {p b m2 m3 n} h hgot hn0 hn hend hmax => by
      have hle := h.1.le
      have hb : Beside buf (p + n - pos.toNat) := by
        simp only [Beside, stopAt] at hbuf hstop ⊢
        omega
      obtain ⟨hun, hto⟩ := h.1.round hreg hgot hn hn0 hmax hb
      exact ⟨hun, hto, h.2.trans (h.1.round_extends hreg hgot hn hn0 hmax hb)⟩)
    hpos hstop (by decide) (copyFuel_enough hstop)
    ⟨⟨hf, Nat.le_refl _, by omega, .refl hw, by omega, fun _ _ => rfl⟩, .refl⟩
  rcases hrule with ⟨_, _, hnone⟩ | ⟨m', hrun, hQ⟩
  · rw [hnone] at h
    cases h
  · rw [hrun] at h
    cases h
    exact ⟨rfl, hQ⟩

end

/-! ## The loops at negative positions -/

section

variable {m : Mem} {f buf : Nat} {copy : Mem → Nat → Nat → Nat → Mem} {offset count : BitVec 32}

/-- The position is negative. -/
theorem neg_toNat (h : offset.toInt < 0) : (offset.toNat : Int) = offset.toInt + 4294967296 := by
  have := BitVec.toInt_eq_toNat_cond offset
  split at this
  · omega
  · omega

theorem nonneg_toNat (h : 0 ≤ offset.toInt) :
    (offset.toNat : Int) = offset.toInt ∧ offset.toNat < 2147483648 := by
  have := BitVec.toInt_eq_toNat_cond offset
  split at this
  · omega
  · omega

/-- The range wraps around or is empty: the loop is not entered. -/
theorem copyLoop_skip {fuel : Nat} (hneg : offset.toInt < 0)
    (hwrap : count = 0#32 ∨ 0 ≤ offset.toInt + count.toNat) :
    copyLoop copy f (offset + count) (fuel + 1) m buf offset = some (m, buf, .ok ()) := by
  rw [copyLoop, if_neg]
  rw [BitVec.lt_def, BitVec.toNat_add]
  have := neg_toNat hneg
  have := count.isLt
  have := offset.isLt
  rcases hwrap with rfl | hwrap
  · simp only [BitVec.toNat_ofNat, Nat.zero_mod]
    omega
  · omega

/-- Division and remainder round towards zero. -/
theorem toInt_sdiv_neg (h : offset.toInt < 0) :
    (offset.sdiv 4096#32).toInt = -(-offset.toInt / 4096) := by
  have hneg := Int.neg_tdiv (-offset.toInt) 4096
  rw [Int.tdiv_eq_ediv_of_nonneg (a := -offset.toInt) (by omega), Int.neg_neg] at hneg
  rw [BitVec.toInt_sdiv_of_ne_or_ne _ _ (Or.inr (by decide)), ← hneg]
  rfl

theorem toInt_srem_neg (h : offset.toInt < 0) :
    (offset.srem 4096#32).toInt = -(-offset.toInt % 4096) := by
  have hneg := Int.neg_tmod (-offset.toInt) 4096
  rw [Int.tmod_eq_emod_of_nonneg (a := -offset.toInt) (by omega), Int.neg_neg] at hneg
  rw [BitVec.toInt_srem, ← hneg]
  rfl

theorem toNat_pos (h : count ≠ 0#32) : 0 < count.toNat :=
  Nat.pos_of_ne_zero fun hz => h (BitVec.eq_of_toNat_eq hz)

/-- A range that begins a block or more before the file is refused. -/
theorem copyLoop_refused {fuel : Nat} (hle : offset.toInt ≤ -4096) (hcount : count ≠ 0#32)
    (hend : offset.toInt + count.toNat < 0) :
    copyLoop copy f (offset + count) (fuel + 1) m buf offset =
      some (m, buf, .error (-eInval)) := by
  have hlt : offset.toInt < 0 := by omega
  have hoff := neg_toNat hlt
  have hpos : 0 < count.toNat := toNat_pos hcount
  have hdiv := toInt_sdiv_neg hlt
  have hrange := BitVec.le_toInt offset
  have hneg : (offset.sdiv 4096#32).toInt < 0 := by
    rw [hdiv]
    omega
  have hnat := neg_toNat hneg
  have hlarge : maxblocks ≤ (offset.sdiv 4096#32).toNat := by
    simp only [maxblocks]
    omega
  rw [copyLoop, if_pos, fileGetBlock_large hlarge]
  · rfl
  · rw [BitVec.lt_def, BitVec.toNat_add]
    omega

/-- Less than a block before the file, the rest of the range is one chunk. -/
theorem chunk_before (hneg : offset.toInt < 0) (hgt : -4096 < offset.toInt)
    (hend : offset.toInt + count.toNat < 0) : chunk offset (offset + count) = count := by
  have hoff := neg_toNat hneg
  have hrem : offset.srem 4096#32 = offset := by
    refine BitVec.eq_of_toInt_eq ?_
    rw [toInt_srem_neg hneg]
    omega
  have hb : offset + count - offset = count := by
    rw [BitVec.add_comm, BitVec.add_sub_cancel]
  rw [chunk, hrem, hb, if_neg]
  rw [BitVec.le_def, BitVec.toNat_sub]
  simp only [BitVec.toNat_ofNat]
  omega

/-- There the loop ends after one round, in which it copies before the first block. -/
theorem copyLoop_before_run {fuel : Nat} (hneg : offset.toInt < 0) (hgt : -4096 < offset.toInt)
    (hcount : count ≠ 0#32) (hend : offset.toInt + count.toNat < 0) :
    copyLoop copy f (offset + count) (fuel + 2) m buf offset =
      (fileGetBlock m f 0#32).bind fun res => match res with
        | (m1, .error r) => some (m1, buf, .error r)
        | (m1, .ok blk) => some (copy m1 buf (blkPos blk offset) count.toNat, buf + count.toNat,
            .ok ()) := by
  have hoff := neg_toNat hneg
  have hpos : 0 < count.toNat := toNat_pos hcount
  have hdiv : offset.sdiv 4096#32 = 0#32 := by
    refine BitVec.eq_of_toInt_eq ?_
    rw [toInt_sdiv_neg hneg, show (0#32).toInt = 0 from rfl]
    omega
  rw [copyLoop, if_pos, chunk_before hneg hgt hend, hdiv]
  · cases hget : fileGetBlock m f 0#32 with
    | none => rfl
    | some res =>
        obtain ⟨m1, r⟩ := res
        cases r with
        | error r => rfl
        | ok blk =>
            simp only [Option.bind_eq_bind, Option.bind_some]
            rw [copyLoop, if_neg (by rw [BitVec.lt_def]; omega)]
  · rw [BitVec.lt_def, BitVec.toNat_add]
    omega

theorem copyLoop_before {fuel : Nat} {res : CopyResult} (hneg : offset.toInt < 0)
    (hgt : -4096 < offset.toInt) (hcount : count ≠ 0#32) (hend : offset.toInt + count.toNat < 0)
    (h : copyLoop copy f (offset + count) (fuel + 2) m buf offset = some res) :
    res.2.2 = .ok () := by
  rw [copyLoop_before_run hneg hgt hcount hend] at h
  obtain ⟨⟨m1, r⟩, hget, h⟩ := Option.bind_eq_some_iff.mp h
  obtain ⟨a, rfl⟩ := fileGetBlock_ok hget (by decide)
  cases h
  rfl

end

/-! ## Staying inside the file -/

/-- What a write should do: a result `r ≥ 0` says that the first `r` bytes of the buffer are now
at the positions from `offset` on, and the others as before; only bytes of the file change. -/
structure WriteInside (m : Mem) (f buf : Nat) (offset : BitVec 32) (m' : Mem) (e : Nat) (r : Int) :
    Prop where
  length : 0 ≤ r → (e : Int) = buf + r
  stored : ∀ j : Nat, (j : Int) < r →
    ∃ i < maxfilesize, (i : Int) = offset.toInt + j ∧ fileByte m' f i = m (buf + j)
  others : 0 < r → ∀ i < maxfilesize, (i : Int) < offset.toInt ∨ offset.toInt + r ≤ i →
    fileByte m' f i = fileByte m f i
  confined : Confined f m m'

/-- What a read should do: every byte copied to the buffer is the byte of the file at its
position, a result `r ≥ 0` is their number, and only bytes of the file change on the disk. -/
structure ReadInside (m : Mem) (f buf : Nat) (offset : BitVec 32) (m' : Mem) (e : Nat) (r : Int) :
    Prop where
  length : 0 ≤ r → (e : Int) = buf + r
  copied : ∀ j < e - buf,
    ∃ i < maxfilesize, (i : Int) = offset.toInt + j ∧ m' (buf + j) = fileByte m f i
  confined : Confined f m m'

/-- A range of `count` bytes that is in the file, empty, reported as negative, or refused. -/
def RangeFits (offset count : BitVec 32) : Prop :=
  0 ≤ offset.toInt ∨ count = 0#32 ∨ 2147483648 ≤ count.toNat ∨
    (offset.toInt ≤ -4096 ∧ offset.toInt + count.toNat < 0)

instance (offset count : BitVec 32) : Decidable (RangeFits offset count) :=
  inferInstanceAs (Decidable (_ ∨ _))

/-- A read beyond the end of the file, or of a range that fits. -/
def ReadFits (m : Mem) (f : Nat) (offset count : BitVec 32) : Prop :=
  (fSize m f).toInt ≤ offset.toInt ∨ RangeFits offset (readCount m f count offset)

section

variable {m m' : Mem} {f buf e : Nat} {offset count : BitVec 32} {r : Int}

/-! ### Negative offsets -/

/-- Outside the ranges that fit the loop reports success. -/
theorem copyLoop_unfit {copy : Mem → Nat → Nat → Nat → Mem} {res : CopyResult}
    (hfit : ¬ RangeFits offset count)
    (h : copyLoop copy f (offset + count) copyFuel m buf offset = some res) :
    offset.toInt < 0 ∧ 0 < copyReturn count res.2.2 := by
  simp only [RangeFits, not_or] at hfit
  obtain ⟨hneg, hcount, hlt, hnot⟩ := hfit
  have hpos := toNat_pos hcount
  have hok : res.2.2 = .ok () := by
    by_cases hend : offset.toInt + count.toNat < 0
    · exact copyLoop_before (by omega) (by omega) hcount hend h
    · rw [copyFuel, copyLoop_skip (by omega) (Or.inr (by omega))] at h
      cases h
      rfl
  refine ⟨by omega, ?_⟩
  rw [hok, copyReturn, toInt_eq (by omega)]
  omega

/-- In a range that fits, at a negative offset, nothing is copied. -/
theorem copyLoop_fit (copy : Mem → Nat → Nat → Nat → Mem) (m : Mem) (f buf : Nat) (hfit : RangeFits offset count)
    (hneg : offset.toInt < 0) :
    ∃ r, copyLoop copy f (offset + count) copyFuel m buf offset = some (m, buf, r) ∧
      copyReturn count r ≤ 0 := by
  have hoff := neg_toNat hneg
  have hskip : count = 0#32 ∨ 0 ≤ offset.toInt + count.toNat → count.toInt ≤ 0 →
      ∃ r, copyLoop copy f (offset + count) copyFuel m buf offset = some (m, buf, r) ∧
        copyReturn count r ≤ 0 := fun hwrap hle => ⟨_, copyLoop_skip hneg hwrap, hle⟩
  rcases hfit with hge | rfl | hbig | ⟨hle, hend⟩
  · omega
  · exact hskip (Or.inl rfl) (by decide)
  · have hlow := BitVec.le_toInt offset
    refine hskip (Or.inr (by omega)) ?_
    have hint := BitVec.toInt_eq_toNat_cond count
    have := count.isLt
    split at hint
    · omega
    · omega
  · by_cases hz : count = 0#32
    · subst hz
      exact hskip (Or.inl rfl) (by decide)
    · exact ⟨_, copyLoop_refused hle hz hend, by simp [copyReturn, eInval]⟩

/-! ### Writing -/

theorem AsFile.inFile_iff {m₁ : Mem} (h : AsFile f m m₁) {x : Nat} :
    InFile m f x ↔ InFile m₁ f x := by
  rw [InFile, InFile, h.indirect_eq]
  refine or_congr_left (exists_congr fun i => and_congr_right fun hi => ?_)
  rw [h.blockPtr_eq hi]

theorem AsFile.confined {m₁ m₁' : Mem} (h : AsFile f m m₁) (h' : AsFile f m' m₁')
    (hconf : Confined f m₁ m₁') : Confined f m m' := by
  intro x h1 h2 hne
  by_cases hx : f + 132 ≤ x ∧ x < f + 136
  · exact Or.inl (Or.inr (Or.inl (by omega)))
  · rw [h.same x (by omega), h'.same x (by omega)] at hne
    rw [h'.inFile_iff]
    rcases hconf x h1 h2 hne with hown | hin
    · rcases hown.congr h.nblocks.symm with hown' | hin
      · exact Or.inl hown'
      · exact Or.inl (Or.inr (Or.inr (h.inFile_iff.mpr hin)))
    · exact Or.inr hin

/-- The size is set first. -/
theorem sizeStep_shrinks {newsize : BitVec 32} (hw : Wf m) (hf : FileAt m f)
    (hreg : fType m f ≠ ftypeDir)
    (h : (if fSize m f < newsize then fileSetSize m f newsize else some m) = some m') :
    DiskKept m m' ∧ Shrinks f m m' := by
  split at h
  · exact ⟨fileSetSize_kept hw hf hreg h, fileSetSize_shrinks hw hf hreg h⟩
  · cases h
    exact ⟨.refl hw, .refl⟩

/-- A file that grows keeps its bytes. -/
theorem sizeStep_grow {newsize : BitVec 32} (hw : Wf m) (hf : FileAt m f)
    (hnew : newsize.toNat < 2147483648)
    (h : (if fSize m f < newsize then fileSetSize m f newsize else some m) = some m') :
    OutsideSame m m' ∧ ∀ i < maxfilesize, fileByte m' f i = fileByte m f i := by
  split at h
  · rename_i hlt
    rw [BitVec.lt_def] at hlt
    have hslt : newsize.slt (fSize m f) = false := by
      rw [BitVec.slt_eq_decide, toInt_eq hnew, toInt_eq (by omega), decide_eq_false_iff_not]
      omega
    rw [fileSetSize, hslt] at h
    cases h
    have hdisk := (hw.file_inBody hf).in_disk hw
    exact ⟨fun x hx => Mem.write32_of_disjoint _ _ (by omega), fun i hi =>
      (rewritten_size hw hf newsize).byte f i hf hi (hw.not_inEntry_self hf hi) fun _ => id⟩
  · cases h
    exact ⟨fun _ _ => rfl, fun _ _ => rfl⟩

/-- The bytes that a call uses of its buffer. -/
theorem stopAt_le (count : BitVec 32) (hoff : offset.toNat < 2147483648) :
    stopAt offset.toNat (offset + count).toNat - offset.toNat ≤ min count.toNat maxfilesize := by
  rw [BitVec.toNat_add]
  simp only [stopAt]
  have := count.isLt
  omega

/-- A result that is not negative says that the whole range was copied. -/
theorem copyReturn_nonneg {stop : Nat} (count : BitVec 32) (hoff : offset.toNat < 2147483648)
    (hstop : stopAt offset.toNat (offset + count).toNat = stop)
    (h : 0 ≤ copyReturn count (loopResult stop (offset + count).toNat)) :
    copyReturn count (loopResult stop (offset + count).toNat) = count.toNat ∧
      stop = offset.toNat + count.toNat ∧ (offset + count).toNat = stop ∧
        (0 < count.toNat → stop ≤ maxfilesize) := by
  rw [loopResult] at h ⊢
  split at h
  · rename_i hend
    rw [if_pos hend]
    rw [copyReturn] at h ⊢
    obtain ⟨hint, hcount⟩ := nonneg_toNat h
    rw [BitVec.toNat_add] at hstop hend ⊢
    simp only [stopAt] at hstop
    omega
  · simp only [copyReturn, eInval] at h
    omega

theorem fileWrite_inside_regular (hw : Wf m) (hf : FileAt m f) (hreg : fType m f ≠ ftypeDir)
    (hoff : 0 ≤ offset.toInt) (hbuf : Beside buf (min count.toNat maxfilesize))
    (h : fileWrite m f buf count offset = some (m', e, r)) : WriteInside m f buf offset m' e r := by
  obtain ⟨hint, hpos⟩ := nonneg_toNat hoff
  have hle := stopAt_le count hpos
  rw [fileWrite_eq] at h
  obtain ⟨m1, hset, h⟩ := Option.bind_eq_some_iff.mp h
  obtain ⟨⟨m2, e', r'⟩, hloop, h⟩ := Option.bind_eq_some_iff.mp h
  cases h
  obtain ⟨hkept, hshrinks⟩ := sizeStep_shrinks hw hf hreg hset
  have hf1 := hkept.files f hf
  have hreg1 : fType m1 f ≠ ftypeDir := by
    rw [hkept.type f hf]
    exact hreg
  obtain ⟨hres, hto, hext⟩ := writeLoop_extends hkept.wf hf1 hreg1 hpos rfl (hbuf.mono hle) hloop
  obtain ⟨rfl, rfl⟩ := Prod.mk.inj hres
  generalize hstop : stopAt offset.toNat (offset + count).toNat = stop at hto hle ⊢
  have hret := fun h0 => copyReturn_nonneg count hpos hstop h0
  have hgrow : 0 < count.toNat → 0 ≤ copyReturn count (loopResult stop (offset + count).toNat) →
      OutsideSame m m1 ∧ ∀ i < maxfilesize, fileByte m1 f i = fileByte m f i := by
    intro hc h0
    obtain ⟨_, h2, h3, h4⟩ := hret h0
    have hmax := h4 hc
    simp only [maxfilesize] at hmax
    exact sizeStep_grow hw hf (by omega) hset
  dsimp only
  refine ⟨fun h0 => ?_, fun j hj => ?_, fun h0 i hi hout => ?_, hshrinks.confined_next hext.confined⟩
  · obtain ⟨h1, h2, _, _⟩ := hret h0
    rw [h1]
    omega
  · obtain ⟨h1, h2, h3, h4⟩ := hret (by omega)
    rw [h1] at hj
    have hsame := (hgrow (by omega) (by omega)).1
    have hmax := h4 (by omega)
    refine ⟨offset.toNat + j, by omega, by omega, ?_⟩
    rw [hto.copied _ (by omega) (by omega), Nat.add_sub_cancel_left]
    refine hsame _ ?_
    simp only [Beside] at hbuf
    omega
  · obtain ⟨h1, h2, h3, h4⟩ := hret (by omega)
    rw [h1] at h0 hout
    rw [hto.rewritten.byte f i hf1 hi (hkept.wf.not_inEntry_self hf1 hi) (by omega)]
    exact (hgrow (by omega) (by omega)).2 i hi

/-- The same for directories. -/
theorem fileWrite_inside (hw : Wf m) (hf : FileAt m f) (hoff : 0 ≤ offset.toInt)
    (hbuf : Beside buf (min count.toNat maxfilesize))
    (h : fileWrite m f buf count offset = some (m', e, r)) : WriteInside m f buf offset m' e r := by
  obtain ⟨hint, hpos⟩ := nonneg_toNat hoff
  have has := asFile_untype hw hf
  have hsame := has.fileWrite_same count hpos (hbuf.mono (stopAt_le count hpos))
  rw [h] at hsame
  obtain ⟨⟨m₁', res⟩, hrun, has', hres⟩ := rel_some_left hsame
  obtain rfl : (e, r) = res := hres
  have hin := fileWrite_inside_regular has.wf has.file has.regular hoff hbuf hrun
  have hdisk := (hw.file_inBody hf).in_disk hw
  have hend := fileWrite_end hpos h
  have hle := stopAt_le count hpos
  refine ⟨hin.length, fun j hj => ?_, fun h0 i hi hout => ?_, has.confined has' hin.confined⟩
  · obtain ⟨i, hi, hij, hbyte⟩ := hin.stored j hj
    have hlen := hin.length (by omega)
    refine ⟨i, hi, hij, ?_⟩
    rw [has'.fileByte_eq hi, hbyte]
    refine (has.same _ ?_).symm
    simp only [Beside] at hbuf
    omega
  · rw [has'.fileByte_eq hi, has.fileByte_eq hi]
    exact hin.others h0 i hi hout

theorem fileWrite_inside_iff (hw : Wf m) (hf : FileAt m f)
    (hbuf : Beside buf (min count.toNat maxfilesize))
    (h : fileWrite m f buf count offset = some (m', e, r)) :
    WriteInside m f buf offset m' e r ↔ RangeFits offset count := by
  by_cases hoff : 0 ≤ offset.toInt
  · exact iff_of_true (fileWrite_inside hw hf hoff hbuf h) (Or.inl hoff)
  rw [fileWrite_eq] at h
  obtain ⟨m1, hset, h⟩ := Option.bind_eq_some_iff.mp h
  obtain ⟨⟨m2, e', r'⟩, hloop, h⟩ := Option.bind_eq_some_iff.mp h
  cases h
  by_cases hfit : RangeFits offset count
  · refine iff_of_true ?_ hfit
    obtain ⟨r, hrun, hr⟩ := copyLoop_fit (fun m buf a n => m.move a buf n) m1 f buf hfit
      (by omega)
    rw [writeLoop, hrun] at hloop
    cases hloop
    dsimp only
    -- Only the size has changed.
    have has := asFile_untype hw hf
    have hsame := has.sizeStep_same (offset + count)
    rw [hset] at hsame
    obtain ⟨m₁', hset', has'⟩ := rel_some_left hsame
    have hconf := (sizeStep_shrinks has.wf has.file has.regular hset').2.confined
    exact ⟨fun h0 => by omega, fun j hj => by omega, fun h0 => by omega,
      has.confined has' hconf⟩
  · refine iff_of_false (fun hin => ?_) hfit
    obtain ⟨hneg, hr⟩ := copyLoop_unfit hfit hloop
    obtain ⟨i, _, hi, _⟩ := hin.stored 0 (by exact_mod_cast hr)
    omega

/-! ### Reading -/

theorem readCount_le : (readCount m f count offset).toNat ≤ count.toNat := by
  rw [readCount]
  split
  · exact Nat.le_refl _
  · rename_i hlt
    rw [BitVec.le_def] at hlt
    omega

theorem fileRead_inside (hw : Wf m) (hf : FileAt m f) (hoff : 0 ≤ offset.toInt)
    (hbuf : Beside buf (min count.toNat maxfilesize)) {res : CopyResult}
    (h : readLoop f (offset + count) copyFuel m buf offset = some res) :
    ReadInside m f buf offset res.1 res.2.1 (copyReturn count res.2.2) := by
  obtain ⟨hint, hpos⟩ := nonneg_toNat hoff
  have hle := stopAt_le count hpos
  obtain ⟨hres, hto, hext⟩ := readLoop_extends hw hf hpos rfl (hbuf.mono hle) h
  rw [hres]
  generalize hstop : stopAt offset.toNat (offset + count).toNat = stop at hto hle ⊢
  dsimp only
  refine ⟨fun h0 => ?_, fun j hj => ?_, hext.confined⟩
  · obtain ⟨h1, h2, _, _⟩ := copyReturn_nonneg count hpos hstop h0
    rw [h1]
    omega
  · have hmax : stop ≤ maxfilesize := by
      simp only [stopAt] at hstop
      omega
    exact ⟨offset.toNat + j, by omega, by omega, hto.copied j (by omega)⟩

theorem fileRead_inside_iff (hw : Wf m) (hf : FileAt m f)
    (hbuf : Beside buf (min count.toNat maxfilesize))
    (h : fileRead m f buf count offset = some (m', e, r)) :
    ReadInside m f buf offset m' e r ↔ ReadFits m f offset count := by
  rw [fileRead, BitVec.sle_eq_decide] at h
  simp only [decide_eq_true_eq] at h
  split at h
  · rename_i hend
    cases h
    exact iff_of_true ⟨fun _ => by omega, fun j hj => by omega, .refl⟩ (Or.inl hend)
  rename_i hend
  simp only [Option.bind_eq_bind, Option.bind_eq_some_iff] at h
  obtain ⟨⟨m2, e', r'⟩, hloop, h⟩ := h
  cases h
  have hfits : ReadFits m f offset count ↔ RangeFits offset (readCount m f count offset) :=
    or_iff_right hend
  rw [hfits]
  have hle : (readCount m f count offset).toNat ≤ count.toNat := readCount_le
  by_cases hoff : 0 ≤ offset.toInt
  · exact iff_of_true (fileRead_inside hw hf hoff (hbuf.mono (by omega)) hloop) (Or.inl hoff)
  by_cases hfit : RangeFits offset (readCount m f count offset)
  · refine iff_of_true ?_ hfit
    obtain ⟨r, hrun, hr⟩ := copyLoop_fit (fun m buf a n => m.move buf a n) m f buf hfit
      (by omega)
    rw [readLoop, hrun] at hloop
    cases hloop
    dsimp only
    exact ⟨fun h0 => by omega, fun j hj => by omega, .refl⟩
  · refine iff_of_false (fun hin => ?_) hfit
    obtain ⟨hneg, hr⟩ := copyLoop_unfit hfit hloop
    dsimp only at hin hr
    have hlen := hin.length (by omega)
    obtain ⟨i, _, hi, _⟩ := hin.copied 0 (by omega)
    omega

end

/-- For every file of a well formed disk, count and offset, and a buffer beside the disk: a call
that returns keeps to the file exactly when its range does. -/
theorem file_io_inside_iff {m : Mem} {f buf : Nat} {count offset : BitVec 32} (hw : Wf m)
    (hf : FileAt m f) (hbuf : Beside buf (min count.toNat maxfilesize)) :
    (∀ m' e r, fileWrite m f buf count offset = some (m', e, r) →
      (WriteInside m f buf offset m' e r ↔ RangeFits offset count)) ∧
    ∀ m' e r, fileRead m f buf count offset = some (m', e, r) →
      (ReadInside m f buf offset m' e r ↔ ReadFits m f offset count) :=
  ⟨fun _ _ _ h => fileWrite_inside_iff hw hf hbuf h, fun _ _ _ h => fileRead_inside_iff hw hf hbuf h⟩

/-- Ten bytes at position 4090 of the small file. -/
theorem file_io_inside_small :
    ∃ m' e r, fileWrite smallDisk smallFile 4096 10#32 4090#32 = some (m', e, r) ∧
      WriteInside smallDisk smallFile 4096 4090#32 m' e r ∧
    ∃ m' e r, fileRead smallDisk smallFile 4096 10#32 4090#32 = some (m', e, r) ∧
      ReadInside smallDisk smallFile 4096 4090#32 m' e r := by
  have hwrite : (fileWrite smallDisk smallFile 4096 10#32 4090#32).isSome = true := by decide +kernel
  have hread : (fileRead smallDisk smallFile 4096 10#32 4090#32).isSome = true := by decide +kernel
  obtain ⟨⟨m', e, r⟩, hwrite⟩ := Option.isSome_iff_exists.mp hwrite
  obtain ⟨⟨m2, e2, r2⟩, hread⟩ := Option.isSome_iff_exists.mp hread
  have hboth := @file_io_inside_iff smallDisk smallFile 4096 10#32 4090#32 smallDisk_wf
    smallFile_fileAt (Or.inl (by decide))
  exact ⟨m', e, r, hwrite, (hboth.1 m' e r hwrite).mpr (Or.inl (by decide)), m2, e2, r2, hread,
    (hboth.2 m2 e2 r2 hread).mpr (Or.inr (Or.inl (by decide)))⟩

/-- A write of five bytes ten bytes before the file ends up in a block of the root directory, a
read of 50 bytes from there hands out the entry of the file, and a read across the beginning of
the file returns its count without reading. -/
theorem negative_offset_outside :
    Wf (smallReq 5#32) ∧ FileAt (smallReq 5#32) smallFile ∧ Beside fsreq 5 ∧ Beside 4096 50 ∧
    (∃ res, fileWrite (smallReq 5#32) smallFile fsreq 5#32 (-10#32) = some res ∧ res.2.2 = 5 ∧
      res.1 (blockAddr 3 + 4087) ≠ smallReq 5#32 (blockAddr 3 + 4087) ∧
      ¬ WriteInside (smallReq 5#32) smallFile fsreq (-10#32) res.1 res.2.1 res.2.2) ∧
    (∃ res, fileRead (smallReq 5#32) smallFile 4096 50#32 (-4000#32) = some res ∧ res.2.2 = 50 ∧
      res.1 (4096 + 32) = smallReq 5#32 (smallFile + 128) ∧
      smallReq 5#32 (smallFile + 128) ≠ 0 ∧
      ¬ ReadInside (smallReq 5#32) smallFile 4096 (-4000#32) res.1 res.2.1 res.2.2) ∧
    ∃ res, fileRead (smallReq 5#32) smallFile 4096 10#32 (-1#32) = some res ∧ res.2.1 = 4096 ∧
      res.2.2 = 10 ∧ ¬ ReadInside (smallReq 5#32) smallFile 4096 (-1#32) res.1 res.2.1 res.2.2 := by
  have hwrite : (fileWrite (smallReq 5#32) smallFile fsreq 5#32 (-10#32)).any (fun res =>
      res.2.2 = 5 ∧ res.1 (blockAddr 3 + 4087) ≠ smallReq 5#32 (blockAddr 3 + 4087)) = true := by
    decide +kernel
  have hread : (fileRead (smallReq 5#32) smallFile 4096 50#32 (-4000#32)).any (fun res =>
      res.2.2 = 50 ∧ res.1 (4096 + 32) = smallReq 5#32 (smallFile + 128)) = true := by
    decide +kernel
  have hskip : (fileRead (smallReq 5#32) smallFile 4096 10#32 (-1#32)).any (fun res =>
      res.2.1 = 4096 ∧ res.2.2 = 10) = true := by
    decide +kernel
  simp only [Option.any_eq_true, decide_eq_true_eq] at hwrite hread hskip
  obtain ⟨res, hwrite, hr, hbyte⟩ := hwrite
  obtain ⟨res2, hread, hr2, hbyte2⟩ := hread
  obtain ⟨res3, hskip, he3, hr3⟩ := hskip
  obtain ⟨hw, hf⟩ := smallReq_wf 5#32
  refine ⟨hw, hf, Or.inl (by decide), Or.inl (by decide), ⟨res, hwrite, hr, hbyte, fun hin => ?_⟩,
    ⟨res2, hread, hr2, hbyte2, by decide +kernel, fun hin => ?_⟩,
    res3, hskip, he3, hr3, fun hin => ?_⟩
  · obtain ⟨i, _, hi, _⟩ := hin.stored 0 (by rw [hr]; decide)
    have hneg : (-10#32 : BitVec 32).toInt = -10 := by decide
    omega
  · have hlen := hin.length (by rw [hr2]; decide)
    obtain ⟨i, _, hi, _⟩ := hin.copied 0 (by omega)
    have hneg : (-4000#32 : BitVec 32).toInt = -4000 := by decide
    omega
  · have hlen := hin.length (by rw [hr3]; decide)
    omega

end Jos.Fs
