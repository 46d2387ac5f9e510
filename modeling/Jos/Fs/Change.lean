import Jos.Fs.Owner

/-!
# Taking and giving back a block

The two ways in which the file system changes what is stored at a place. `Allocated m p b m'`:
the free block `b` is marked in use, cleared and stored at the empty place `p`. `Released m p b m'`:
the block `b` of place `p` is marked free and the place emptied. Both keep a disk well formed.
-/

namespace Jos.Fs

open Jos.Lib

/-! ## Bits -/

theorem getLsbD_bitMask (b k : Nat) : (bitMask b).getLsbD k = decide (k = b % 32) := by
  have hb : b % 32 < 32 := Nat.mod_lt _ (by decide)
  simp only [bitMask, BitVec.getLsbD_shiftLeft, BitVec.getLsbD_one]
  by_cases hkb : k = b % 32
  · simp [hkb, hb]
  · by_cases hlt : k < b % 32
    · simp [hlt, hkb]
    · have : k - b % 32 ≠ 0 := by omega
      simp [hkb, this]

theorem bitSet_iff {m : Mem} {b : Nat} :
    bitSet m b ↔ (m.read32 (bitmapWord b)).getLsbD (b % 32) = true := by
  have hbit : ∀ i, (m.read32 (bitmapWord b) &&& bitMask b).getLsbD i =
      ((m.read32 (bitmapWord b)).getLsbD i && decide (i = b % 32)) := by
    intro i
    rw [BitVec.getLsbD_and, getLsbD_bitMask]
  rw [bitSet]
  constructor
  · intro hne
    by_contra hw
    refine hne (BitVec.eq_of_getLsbD_eq fun i _ => ?_)
    rw [hbit]
    by_cases hi : i = b % 32
    · simpa [hi] using hw
    · simp [hi]
  · intro hw hz
    have := hbit (b % 32)
    rw [hz] at this
    simp [hw] at this

theorem bitmapWord_disjoint {b c : Nat} (h : c / 32 ≠ b / 32) :
    bitmapWord c + 4 ≤ bitmapWord b ∨ bitmapWord b + 4 ≤ bitmapWord c := by
  simp only [bitmapWord_eq]
  omega

/-- Writing the word of block `b` changes the bit of `b` only, when the new word differs from
the old one in that bit only. -/
theorem bitSet_write {m : Mem} {b c : Nat} {w : BitVec 32}
    (hw : ∀ k, k ≠ b % 32 → k < 32 → w.getLsbD k = (m.read32 (bitmapWord b)).getLsbD k) :
    bitSet (m.write32 (bitmapWord b) w) c ↔
      if c = b then w.getLsbD (b % 32) = true else bitSet m c := by
  rw [bitSet_iff, bitSet_iff]
  by_cases hword : c / 32 = b / 32
  · have haddr : bitmapWord c = bitmapWord b := by simp only [bitmapWord_eq, hword]
    rw [haddr, Mem.read32_write32_self]
    by_cases hcb : c = b
    · rw [if_pos hcb, hcb]
    · rw [if_neg hcb, hw (c % 32) (by omega) (Nat.mod_lt _ (by decide))]
  · have hcb : c ≠ b := fun h => hword (by rw [h])
    rw [if_neg hcb, Mem.read32_write32_of_disjoint m w (bitmapWord_disjoint hword)]

theorem bitSet_clearBit {m : Mem} {b c : Nat} : bitSet (clearBit m b) c ↔ bitSet m c ∧ c ≠ b := by
  rw [clearBit, bitSet_write fun k hne hk => ?_]
  · by_cases hcb : c = b
    · simp [hcb, getLsbD_bitMask]
    · simp [hcb]
  · rw [BitVec.getLsbD_and, BitVec.getLsbD_not, getLsbD_bitMask]
    simp [hk, hne]

theorem bitSet_setBit {m : Mem} {b c : Nat} : bitSet (setBit m b) c ↔ bitSet m c ∨ c = b := by
  rw [setBit, bitSet_write fun k hne _ => ?_]
  · by_cases hcb : c = b
    · simp [hcb, getLsbD_bitMask]
    · simp [hcb]
  · rw [BitVec.getLsbD_or, getLsbD_bitMask]
    simp [hne]

/-! ## Changes of one place -/

/-- The files and the other places read as before. -/
structure Edited (m : Mem) (p : Place) (m' : Mem) : Prop where
  nblocks : sNblocks m' = sNblocks m
  type : ∀ f, FileAt m f → fType m' f = fType m f
  size : ∀ f, FileAt m f → fSize m' f = fSize m f
  other : ∀ q : Place, q.Valid m → q ≠ p → m'.read32 (q.addr m) = m.read32 (q.addr m)

/-- The free block `b` is stored at the empty place `p`. -/
structure Allocated (m : Mem) (p : Place) (b : Nat) (m' : Mem) : Prop where
  valid : p.Valid m
  empty : p.value m = 0
  lt : b < (sNblocks m).toNat
  free : bitSet m b
  same : ∀ x, (x < bitmapWord b ∨ bitmapWord b + 4 ≤ x) → (x < p.addr m ∨ p.addr m + 4 ≤ x) →
    (x < blockAddr b ∨ blockAddr b + 4096 ≤ x) → m' x = m x
  stored : m'.read32 (p.addr m) = BitVec.ofNat 32 b
  cleared : ∀ x, blockAddr b ≤ x → x < blockAddr b + 4096 → m' x = 0
  bits : ∀ c < (sNblocks m).toNat, bitSet m' c ↔ bitSet m c ∧ c ≠ b

/-- The block `b` at place `p` is given back. -/
structure Released (m : Mem) (p : Place) (b : Nat) (m' : Mem) : Prop where
  valid : p.Valid m
  value : p.value m = b
  ne_zero : b ≠ 0
  same : ∀ x, (x < bitmapWord b ∨ bitmapWord b + 4 ≤ x) → (x < p.addr m ∨ p.addr m + 4 ≤ x) →
    m' x = m x
  stored : m'.read32 (p.addr m) = 0#32
  bits : ∀ c < (sNblocks m).toNat, bitSet m' c ↔ bitSet m c ∨ c = b

section

variable {m m' : Mem} {f g d i j b : Nat} {p q : Place}

theorem Edited.indirect_eq (h : Edited m p m') (hd : FileAt m d) (hne : p ≠ .indirect d) :
    indirect m' d = indirect m d := h.other (.indirect d) hd (Ne.symm hne)

theorem Edited.firstBlock_eq (h : Edited m p m') : firstBlock m' = firstBlock m := by
  rw [firstBlock, firstBlock, h.nblocks]

/-- A place keeps its address as long as the indirect slot of its file is not the one that
changes. -/
theorem Edited.addr_eq (h : Edited m p m') (hq : q.Valid m) (hne : p ≠ .indirect q.file) :
    q.addr m' = q.addr m := by
  cases q with
  | direct f i => rfl
  | indirect f => rfl
  | entry f k =>
      have heq := h.indirect_eq hq.1 hne
      simp only [Place.addr, heq]

/-- A change that leaves the reserved blocks and the body alone, except for one place. -/
theorem edited_of_same (hw : Wf m) (hp : p.Valid m) (hn : sNblocks m' = sNblocks m)
    (hsame : ∀ a n, InBody m a n → (a + n ≤ p.addr m ∨ p.addr m + 4 ≤ a) →
      ∀ x, a ≤ x → x < a + n → m' x = m x) : Edited m p m' := by
  have hread : ∀ a, InBody m a 4 → (a + 4 ≤ p.addr m ∨ p.addr m + 4 ≤ a) →
      m'.read32 a = m.read32 a := fun a ha hd => Mem.read32_congr (hsame a 4 ha hd)
  have hsub : ∀ {f o : Nat}, FileAt m f → o + 4 ≤ 136 → m'.read32 (f + o) = m.read32 (f + o) := by
    intro f o hf ho
    have hin : InBody m (f + o) 4 := by
      rcases hw.file_inBody hf with h | ⟨c, h1, h2, h3, h4⟩
      · exact Or.inl (by omega)
      · exact Or.inr ⟨c, h1, h2, h3, by omega⟩
    refine hread (f + o) hin ?_
    have := hw.header_disjoint hf hp
    omega
  exact ⟨hn, fun f hf => hsub hf (by decide), fun f hf => hsub hf (by decide),
    fun q hq hne => hread (q.addr m) (hw.place_inBody hq) (hw.places_disjoint hq hp hne)⟩

/-! ## Taking a block -/

theorem Allocated.ge (h : Allocated m p b m') (hw : Wf m) : firstBlock m ≤ b := by
  by_contra hlt
  exact hw.reserved b (by omega) h.lt h.free

theorem firstBlock_ge (m : Mem) : 2 ≤ firstBlock m := Nat.le_add_right _ _

/-- The bytes in use, except those of the place, are as before. -/
theorem Allocated.same_body (h : Allocated m p b m') (hw : Wf m) {a n x : Nat}
    (ha : InBody m a n) (hd : a + n ≤ p.addr m ∨ p.addr m + 4 ≤ a) (hx : a ≤ x)
    (hx' : x < a + n) : m' x = m x := by
  have hge := h.ge hw
  have h2 := firstBlock_ge m
  have h3 := ha.bitmap_disjoint h.lt
  have h4 := ha.block_disjoint (by omega) h.free
  exact h.same x (by omega) (by omega) (by omega)

theorem Allocated.nblocks (h : Allocated m p b m') (hw : Wf m) : sNblocks m' = sNblocks m := by
  have hge := h.ge hw
  have h2 := firstBlock_ge m
  have hp := (hw.place_inBody h.valid).nblocks_disjoint
  have hsuper : superAddr = diskmap + 4096 := rfl
  refine Mem.read32_congr fun x hx hx' => h.same x ?_ (by omega) ?_
  · have := (bitmapWord_le h.lt).1
    omega
  · simp only [blockAddr_eq]
    omega

theorem Allocated.edited (h : Allocated m p b m') (hw : Wf m) : Edited m p m' :=
  edited_of_same hw h.valid (h.nblocks hw) fun _ _ ha hd _ => h.same_body hw ha hd

theorem Allocated.toNat_stored (h : Allocated m p b m') :
    (m'.read32 (p.addr m)).toNat = b := by
  rw [h.stored, BitVec.toNat_ofNat]
  have := h.lt
  have := (sNblocks m).isLt
  omega

/-- The place that changes is no indirect slot in use. -/
theorem Allocated.ne_indirect (h : Allocated m p b m') (hind : indirect m d ≠ 0#32) :
    p ≠ .indirect d := by
  rintro rfl
  exact hind (BitVec.eq_of_toNat_eq h.empty)

theorem Allocated.addr_eq (h : Allocated m p b m') (hw : Wf m) (hq : q.Valid m) :
    q.addr m' = q.addr m := by
  cases q with
  | direct f i => rfl
  | indirect f => rfl
  | entry f k => exact (h.edited hw).addr_eq (q := .entry f k) hq (h.ne_indirect hq.2.1)

theorem Allocated.value_eq (h : Allocated m p b m') (hw : Wf m) (hq : q.Valid m) :
    q.value m' = if q = p then b else q.value m := by
  rw [Place.value, h.addr_eq hw hq]
  split
  · rename_i heq
    rw [heq, h.toNat_stored]
  · rename_i hne
    rw [(h.edited hw).other q hq hne]
    rfl

theorem Allocated.read_new (h : Allocated m p b m') {a : Nat} (ha : blockAddr b ≤ a)
    (ha' : a + 4 ≤ blockAddr b + 4096) : m'.read32 a = 0#32 := by
  have hz : ∀ x, a ≤ x → x < a + 4 → m' x = 0#8 := fun x hx hx' =>
    h.cleared x (by omega) (by omega)
  simp only [Mem.read32]
  rw [hz a (by omega) (by omega), hz (a + 1) (by omega) (by omega), hz (a + 2) (by omega) (by omega),
    hz (a + 3) (by omega) (by omega)]
  rfl

/-- The blocks of the files are as before, except for the one that was taken. -/
theorem Allocated.blockPtr_eq (h : Allocated m p b m') (hw : Wf m) (hd : FileAt m d)
    (hi : i < maxblocks) : blockPtr m' d i = if dataPlace d i = p then b else blockPtr m d i := by
  by_cases hlt : i < ndirect
  · have hval := h.value_eq hw (q := .direct d i) ⟨hd, hlt⟩
    simp only [Place.value, Place.addr] at hval
    simp only [blockPtr, dataPlace, if_pos hlt]
    exact hval
  · simp only [maxblocks, ndirect] at hi hlt
    simp only [blockPtr, dataPlace, if_neg (show ¬ i < ndirect from hlt)]
    by_cases hind : indirect m d = 0#32
    · rw [if_pos hind]
      have hne : Place.entry d (i - ndirect) ≠ p := by
        rintro rfl
        exact h.valid.2.1 hind
      rw [if_neg hne]
      by_cases hp : p = .indirect d
      · have hb : (indirect m' d).toNat = b := by
          have := h.toNat_stored
          rw [hp] at this
          exact this
        rw [hb, h.read_new (Nat.le_add_right _ _) (by simp only [ndirect]; omega)]
        simp
      · rw [(h.edited hw).indirect_eq hd hp, if_pos hind]
    · have hval := h.value_eq hw (q := .entry d (i - ndirect)) ⟨hd, hind, by
        simp only [nindirect, ndirect]
        omega⟩
      have hind' : indirect m' d ≠ 0#32 := by
        rw [(h.edited hw).indirect_eq hd (h.ne_indirect hind)]
        exact hind
      rw [if_neg hind', if_neg hind]
      exact hval

end

/-! ## Files after a change -/

section

variable {m m' : Mem} {f g d i j b : Nat} {p q : Place}

/-- The files after a change are old ones, or new ones that are no directories. -/
theorem FileAt.of_change (new : Nat → Prop)
    (htype : ∀ d, FileAt m d → fType m' d = fType m d)
    (hptr : ∀ d i, FileAt m d → i < maxblocks → blockPtr m' d i ≠ 0 →
      blockPtr m' d i = blockPtr m d i ∨
        ∀ j < blkfiles, new (blockAddr (blockPtr m' d i) + 256 * j))
    (hnew : ∀ d, new d → fType m' d ≠ ftypeDir) (hf : FileAt m' f) : FileAt m f ∨ new f := by
  induction hf with
  | root => exact Or.inl .root
  | @entry d i j _ hdir hi hb hj ih =>
      rcases ih with hd | hd
      · rcases hptr d i hd hi hb with heq | hall
        · left
          rw [htype d hd] at hdir
          rw [heq] at hb ⊢
          exact .entry hd hdir hi hb hj
        · exact Or.inr (hall j hj)
      · exact absurd hdir (hnew d hd)

/-- The entries of block `b`. -/
def entryOf (b f : Nat) : Prop := ∃ j < blkfiles, f = blockAddr b + 256 * j

theorem Allocated.fileAt_cases (h : Allocated m p b m') (hw : Wf m) (hf : FileAt m' f) :
    FileAt m f ∨ entryOf b f := by
  refine hf.of_change _ (h.edited hw).type (fun d i hd hi hb => ?_) fun d ⟨j, hj, hd⟩ => ?_
  · rw [h.blockPtr_eq hw hd hi]
    split
    · exact Or.inr fun j hj => ⟨j, hj, rfl⟩
    · exact Or.inl rfl
  · simp only [blkfiles] at hj
    rw [fType, h.read_new (by omega) (by omega)]
    decide

theorem Allocated.fileAt (h : Allocated m p b m') (hw : Wf m) (hf : FileAt m f) :
    FileAt m' f := by
  induction hf with
  | root => exact .root
  | @entry d i j hd hdir hi hb hj ih =>
      have hne : dataPlace d i ≠ p := by
        rintro rfl
        rw [← (dataPlace_valid hd hi hb).2] at hb
        exact hb h.empty
      have heq := h.blockPtr_eq hw hd hi
      rw [if_neg hne] at heq
      rw [← heq] at hb ⊢
      exact .entry ih (((h.edited hw).type d hd).trans hdir) hi hb hj

/-- Every block number on the disk was there before, or is the new one at its place. -/
theorem Allocated.place_cases (h : Allocated m p b m') (hw : Wf m) (hq : q.Valid m')
    (hv : q.value m' ≠ 0) : q.Valid m ∧ q.value m' = if q = p then b else q.value m := by
  have hold : q.Valid m → q.Valid m ∧ q.value m' = if q = p then b else q.value m :=
    fun hq => ⟨hq, h.value_eq hw hq⟩
  -- The entries of the new block are empty.
  have hnew : ∀ {f o : Nat}, entryOf b f → o + 4 ≤ 256 → m'.read32 (f + o) = 0#32 := by
    rintro f o ⟨j, hj, rfl⟩ ho
    simp only [blkfiles] at hj
    exact h.read_new (by omega) (by omega)
  cases q with
  | direct f i =>
      rcases h.fileAt_cases hw hq.1 with hf | hf
      · exact hold ⟨hf, hq.2⟩
      · have hi := hq.2
        simp only [ndirect] at hi
        have hz := hnew (o := 136 + 4 * i) hf (by omega)
        refine absurd ?_ hv
        simp only [Place.value, Place.addr, fDirect, Nat.add_assoc] at hz ⊢
        rw [hz]
        rfl
  | indirect f =>
      rcases h.fileAt_cases hw hq with hf | hf
      · exact hold hf
      · refine absurd ?_ hv
        simp only [Place.value, Place.addr, fIndirect]
        rw [hnew hf (by decide)]
        rfl
  | entry f k =>
      rcases h.fileAt_cases hw hq.1 with hf | hf
      · by_cases hind : indirect m f = 0#32
        · have hp : p = .indirect f := by
            by_contra hne
            exact hq.2.1 (((h.edited hw).indirect_eq hf hne).trans hind)
          have hb : (indirect m' f).toNat = b := by
            have := h.toNat_stored
            rw [hp] at this
            exact this
          have hk := hq.2.2
          simp only [nindirect] at hk
          refine absurd ?_ hv
          simp only [Place.value, Place.addr]
          rw [hb, h.read_new (by omega) (by omega)]
          rfl
        · exact hold ⟨hf, hind, hq.2.2⟩
      · exact absurd (hnew hf (by decide)) hq.2.1

/-- Taking a free block keeps the disk well formed. -/
theorem Allocated.wf (h : Allocated m p b m') (hw : Wf m) : Wf m' := by
  have hn := h.nblocks hw
  have hfirst := (h.edited hw).firstBlock_eq
  have hge := h.ge hw
  refine ⟨by rw [hn]; exact hw.nblocks_le, fun c hc hc' => ?_, fun q hq hv => ?_, fun q hq hv => ?_,
    fun q hq hv => ?_, fun q r hq hr hv heq => ?_⟩
  · rw [hfirst] at hc
    rw [hn] at hc'
    rw [h.bits c hc']
    exact fun hset => hw.reserved c hc hc' hset.1
  · obtain ⟨hq', heq⟩ := h.place_cases hw hq hv
    rw [heq] at hv ⊢
    rw [hn]
    split
    · exact h.lt
    · rename_i hne
      rw [if_neg hne] at hv
      exact hw.ptr_lt q hq' hv
  · obtain ⟨hq', heq⟩ := h.place_cases hw hq hv
    rw [heq] at hv ⊢
    rw [hfirst]
    split
    · exact hge
    · rename_i hne
      rw [if_neg hne] at hv
      exact hw.ptr_ge q hq' hv
  · obtain ⟨hq', heq⟩ := h.place_cases hw hq hv
    rw [heq] at hv ⊢
    split
    · rw [h.bits b h.lt]
      simp
    · rename_i hne
      rw [if_neg hne] at hv
      rw [h.bits _ (hw.ptr_lt q hq' hv)]
      exact fun hset => hw.ptr_used q hq' hv hset.1
  · obtain ⟨hq', hqv⟩ := h.place_cases hw hq hv
    obtain ⟨hr', hrv⟩ := h.place_cases hw hr (heq ▸ hv)
    rw [hqv] at hv
    rw [hqv, hrv] at heq
    -- The new block was free, so no other place has it.
    have hfree : ∀ {x : Place}, x.Valid m → x.value m ≠ b := by
      rintro x hx rfl
      have hxne : x.value m ≠ 0 := by
        have := firstBlock_ge m
        omega
      exact hw.ptr_used x hx hxne h.free
    by_cases hqp : q = p
    · by_cases hrp : r = p
      · rw [hqp, hrp]
      · rw [if_pos hqp, if_neg hrp] at heq
        exact absurd heq.symm (hfree hr')
    · by_cases hrp : r = p
      · rw [if_neg hqp, if_pos hrp] at heq
        exact absurd heq (hfree hq')
      · rw [if_neg hqp, if_neg hrp] at heq
        rw [if_neg hqp] at hv
        exact hw.ptr_unique q r hq' hr' hv heq

/-- A change that adds no block number and frees no block that is still stored somewhere. -/
theorem Wf.of_places (hw : Wf m) (hn : sNblocks m' = sNblocks m)
    (hres : ∀ c < firstBlock m, c < (sNblocks m).toNat → ¬ bitSet m' c)
    (hplace : ∀ q : Place, q.Valid m' → q.value m' ≠ 0 →
      q.Valid m ∧ q.value m' = q.value m ∧ ¬ bitSet m' (q.value m)) : Wf m' := by
  have hfirst : firstBlock m' = firstBlock m := by rw [firstBlock, firstBlock, hn]
  refine ⟨by rw [hn]; exact hw.nblocks_le, fun c hc hc' => ?_, fun q hq hv => ?_, fun q hq hv => ?_,
    fun q hq hv => ?_, fun q r hq hr hv heq => ?_⟩
  · rw [hfirst] at hc
    rw [hn] at hc'
    exact hres c hc hc'
  · obtain ⟨hq', heq, _⟩ := hplace q hq hv
    rw [heq] at hv ⊢
    rw [hn]
    exact hw.ptr_lt q hq' hv
  · obtain ⟨hq', heq, _⟩ := hplace q hq hv
    rw [heq] at hv ⊢
    rw [hfirst]
    exact hw.ptr_ge q hq' hv
  · obtain ⟨_, heq, hused⟩ := hplace q hq hv
    rw [heq]
    exact hused
  · obtain ⟨hq', hqv, _⟩ := hplace q hq hv
    obtain ⟨hr', hrv, _⟩ := hplace r hr (heq ▸ hv)
    rw [hqv] at hv
    rw [hqv, hrv] at heq
    exact hw.ptr_unique q r hq' hr' hv heq

/-! ## Giving a block back -/

theorem Released.owned (h : Released m p b m') : Owned m p b := ⟨h.valid, h.value, h.ne_zero⟩

theorem Released.same_body (h : Released m p b m') (hw : Wf m) {a n x : Nat}
    (ha : InBody m a n) (hd : a + n ≤ p.addr m ∨ p.addr m + 4 ≤ a) (hx : a ≤ x)
    (hx' : x < a + n) : m' x = m x := by
  have h3 := ha.bitmap_disjoint (h.owned.lt hw)
  exact h.same x (by omega) (by omega)

theorem Released.nblocks (h : Released m p b m') (hw : Wf m) : sNblocks m' = sNblocks m := by
  have hp := (hw.place_inBody h.valid).nblocks_disjoint
  have hsuper : superAddr = diskmap + 4096 := rfl
  have hword := (bitmapWord_le (h.owned.lt hw)).1
  exact Mem.read32_congr fun x hx hx' => h.same x (by omega) (by omega)

theorem Released.edited (h : Released m p b m') (hw : Wf m) : Edited m p m' :=
  edited_of_same hw h.valid (h.nblocks hw) fun _ _ ha hd _ => h.same_body hw ha hd

/-- The block numbers that remain were there before. -/
theorem Released.blockPtr_cases (h : Released m p b m') (hw : Wf m) (hd : FileAt m d)
    (hi : i < maxblocks) (hb : blockPtr m' d i ≠ 0) : blockPtr m' d i = blockPtr m d i := by
  have hed := h.edited hw
  by_cases hlt : i < ndirect
  · simp only [blockPtr, if_pos hlt] at hb ⊢
    by_cases hp : p = .direct d i
    · have hz := h.stored
      rw [hp] at hz
      simp only [Place.addr] at hz
      rw [hz] at hb
      exact absurd rfl hb
    · have := hed.other (.direct d i) ⟨hd, hlt⟩ (Ne.symm hp)
      simp only [Place.addr] at this
      rw [this]
  · simp only [maxblocks, ndirect] at hi hlt
    simp only [blockPtr, if_neg (show ¬ i < ndirect from hlt)] at hb ⊢
    by_cases hp : p = .indirect d
    · have hz : indirect m' d = 0#32 := by
        have := h.stored
        rw [hp] at this
        exact this
      rw [if_pos hz] at hb
      exact absurd rfl hb
    · rw [hed.indirect_eq hd hp] at hb ⊢
      by_cases hind : indirect m d = 0#32
      · rw [if_pos hind] at hb
        exact absurd rfl hb
      · rw [if_neg hind] at hb ⊢
        rw [if_neg hind]
        have hvalid : (Place.entry d (i - ndirect)).Valid m := ⟨hd, hind, by
          simp only [nindirect, ndirect]
          omega⟩
        by_cases hpe : p = .entry d (i - ndirect)
        · have hz := h.stored
          rw [hpe] at hz
          simp only [Place.addr] at hz
          rw [hz] at hb
          exact absurd rfl hb
        · have := hed.other _ hvalid (Ne.symm hpe)
          simp only [Place.addr] at this
          rw [this]

theorem Released.fileAt_of (h : Released m p b m') (hw : Wf m) (hf : FileAt m' f) : FileAt m f := by
  have := hf.of_change (fun _ => False) (h.edited hw).type
    (fun d i hd hi hb => Or.inl (h.blockPtr_cases hw hd hi hb)) (fun _ hn => hn.elim)
  exact this.resolve_right id

/-- Every block number on the disk was there before, at the same place. -/
theorem Released.place_cases (h : Released m p b m') (hw : Wf m) (hq : q.Valid m')
    (hv : q.value m' ≠ 0) : q.Valid m ∧ q ≠ p ∧ q.value m' = q.value m := by
  have hed := h.edited hw
  have hold : q.Valid m → q.addr m' = q.addr m → q.Valid m ∧ q ≠ p ∧ q.value m' = q.value m := by
    intro hq haddr
    have hne : q ≠ p := by
      rintro rfl
      rw [Place.value, haddr, h.stored] at hv
      exact hv rfl
    refine ⟨hq, hne, ?_⟩
    rw [Place.value, haddr, hed.other q hq hne]
    rfl
  cases q with
  | direct f i => exact hold ⟨h.fileAt_of hw hq.1, hq.2⟩ rfl
  | indirect f => exact hold (h.fileAt_of hw hq) rfl
  | entry f k =>
      have hf := h.fileAt_of hw hq.1
      have hne : p ≠ .indirect f := by
        rintro rfl
        exact hq.2.1 h.stored
      have hind := hed.indirect_eq hf hne
      refine hold ⟨hf, hind ▸ hq.2.1, hq.2.2⟩ ?_
      simp only [Place.addr, hind]

/-- Giving a block back keeps the disk well formed. -/
theorem Released.wf (h : Released m p b m') (hw : Wf m) : Wf m' := by
  have hown := h.owned
  refine hw.of_places (h.nblocks hw) (fun c hc hc' => ?_) fun q hq hv => ?_
  · rw [h.bits c hc']
    rintro (hset | rfl)
    · exact hw.reserved c hc hc' hset
    · have := hown.ge hw
      omega
  · obtain ⟨hq', hne, heq⟩ := h.place_cases hw hq hv
    rw [heq] at hv
    refine ⟨hq', heq, ?_⟩
    rw [h.bits _ (hw.ptr_lt q hq' hv)]
    rintro (hset | hqb)
    · exact hw.ptr_used q hq' hv hset
    · exact hne (Owned.unique ⟨hq', hqb, h.ne_zero⟩ hown hw)

/-! ## Changes that do not touch a place -/

/-- The files and all places read as before; the bitmap too. -/
structure Unmoved (m m' : Mem) : Prop where
  nblocks : sNblocks m' = sNblocks m
  type : ∀ f, FileAt m f → fType m' f = fType m f
  place : ∀ q : Place, q.Valid m → m'.read32 (q.addr m) = m.read32 (q.addr m)
  bits : ∀ c < (sNblocks m).toNat, bitSet m' c ↔ bitSet m c

theorem Unmoved.indirect_eq (h : Unmoved m m') (hd : FileAt m d) : indirect m' d = indirect m d :=
  h.place (.indirect d) hd

theorem Unmoved.addr_eq (h : Unmoved m m') (hq : q.Valid m) : q.addr m' = q.addr m := by
  cases q with
  | direct f i => rfl
  | indirect f => rfl
  | entry f k => simp only [Place.addr, h.indirect_eq hq.1]

theorem Unmoved.value_eq (h : Unmoved m m') (hq : q.Valid m) : q.value m' = q.value m := by
  rw [Place.value, h.addr_eq hq, h.place q hq]
  rfl

theorem Unmoved.blockPtr_eq (h : Unmoved m m') (hd : FileAt m d) (hi : i < maxblocks) :
    blockPtr m' d i = blockPtr m d i := by
  by_cases hlt : i < ndirect
  · have := h.place (.direct d i) ⟨hd, hlt⟩
    simp only [Place.addr] at this
    simp only [blockPtr, if_pos hlt, this]
  · simp only [maxblocks, ndirect] at hi hlt
    simp only [blockPtr, if_neg (show ¬ i < ndirect from hlt), h.indirect_eq hd]
    split
    · rfl
    · rename_i hind
      have := h.place (.entry d (i - ndirect)) ⟨hd, hind, by
        simp only [nindirect, ndirect]
        omega⟩
      simp only [Place.addr] at this
      rw [this]

theorem Unmoved.fileAt_iff (h : Unmoved m m') : FileAt m' f ↔ FileAt m f := by
  constructor
  · intro hf
    have := hf.of_change (fun _ => False) h.type
      (fun d i hd hi _ => Or.inl (h.blockPtr_eq hd hi)) (fun _ hn => hn.elim)
    exact this.resolve_right id
  · intro hf
    induction hf with
    | root => exact .root
    | @entry d i j hd hdir hi hb hj ih =>
        have heq := h.blockPtr_eq hd hi
        rw [← heq] at hb ⊢
        exact .entry ih ((h.type d hd).trans hdir) hi hb hj

theorem Unmoved.valid_iff (h : Unmoved m m') : q.Valid m' ↔ q.Valid m := by
  cases q with
  | direct f i => simp only [Place.Valid, h.fileAt_iff]
  | indirect f => simp only [Place.Valid, h.fileAt_iff]
  | entry f k =>
      simp only [Place.Valid, h.fileAt_iff]
      refine and_congr_right fun hf => ?_
      rw [h.indirect_eq hf]

theorem Unmoved.wf (h : Unmoved m m') (hw : Wf m) : Wf m' := by
  refine hw.of_places h.nblocks (fun c hc hc' => ?_) fun q hq hv => ?_
  · rw [h.bits c hc']
    exact hw.reserved c hc hc'
  · rw [h.valid_iff] at hq
    rw [h.value_eq hq] at hv
    refine ⟨hq, h.value_eq hq, ?_⟩
    rw [h.bits _ (hw.ptr_lt q hq hv)]
    exact hw.ptr_used q hq hv

end

end Jos.Fs
