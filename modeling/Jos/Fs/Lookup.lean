import Jos.Fs.Entries

/-!
# Looking up a name

A directory as a sequence of entries of 256 bytes, and `dir_lookup` as a search in it. A directory
may have holes: `dir_lookup` takes a block for every hole that it passes, and the block has no
names. What it takes is counted, so that it is known when the disk is too full for a look-up.
-/

namespace Jos.Fs

open Jos.Lib

/-- The string at `b 0`, `b 1`, … is `name`. -/
def bytesAre (b : Nat → BitVec 8) : List (BitVec 8) → Bool
  | [] => b 0 = 0#8
  | c :: l => b 0 = c && bytesAre (fun i => b (i + 1)) l

/-- Entry `e` of the directory has that name. -/
def nameAt (m : Mem) (dir : Nat) (name : List (BitVec 8)) (e : Nat) : Bool :=
  bytesAre (fun c => fileByte m dir (256 * e + c)) name

/-- The `struct File` of entry `e`, where its block is there. -/
def entryAt (m : Mem) (dir e : Nat) : Nat := blockAddr (blockPtr m dir (e / 16)) + 256 * (e % 16)

/-- The number of blocks of a directory. -/
def dirBlocks (m : Mem) (dir : Nat) : Nat := ((fSize m dir).sdiv 4096#32).toNat

/-- The first entry with that name, from block `i` up to block `n`. -/
def entryFrom (m : Mem) (dir : Nat) (name : List (BitVec 8)) (i n : Nat) : Option Nat :=
  (List.range' (16 * i) (16 * (n - i))).find? (nameAt m dir name)

/-- The block after the last one that the search looks at. -/
def searchEnd (n : Nat) : Option Nat → Nat
  | some e => e / 16 + 1
  | none => n

/-- What the search returns. -/
def searchResult (m : Mem) (dir : Nat) : Option Nat → Except Int Nat
  | some e => .ok (entryAt m dir e)
  | none => .error (-eNotFound)

/-- A name of a path: not empty, without null bytes, and not too long. -/
structure NameOk (name : List (BitVec 8)) : Prop where
  ne_nil : name ≠ []
  no_null : 0#8 ∉ name
  length_lt : name.length < maxnamelen

section

variable {m m' m1 : Mem} {dir f g i k n e : Nat} {name : List (BitVec 8)}

theorem nameIs_eq (m : Mem) (a : Nat) (name : List (BitVec 8)) :
    nameIs m a name = bytesAre (fun c => m (a + c)) name := by
  induction name generalizing a with
  | nil => rfl
  | cons c l ih =>
      rw [nameIs, bytesAre, ih]
      congr 2
      funext c
      rw [Nat.add_assoc, Nat.add_comm 1 c]

theorem bytesAre_congr {b b' : Nat → BitVec 8} (h : ∀ i ≤ name.length, b i = b' i) :
    bytesAre b name = bytesAre b' name := by
  induction name generalizing b b' with
  | nil => rw [bytesAre, bytesAre, h 0 (Nat.zero_le _)]
  | cons c l ih =>
      rw [bytesAre, bytesAre, h 0 (Nat.zero_le _)]
      congr 1
      exact ih fun i hi => h (i + 1) (by simpa using hi)

/-- No name is found in a block of zeros. -/
theorem bytesAre_zero (hname : NameOk name) {b : Nat → BitVec 8} (h : b 0 = 0#8) :
    bytesAre b name = false := by
  cases name with
  | nil => exact absurd rfl hname.ne_nil
  | cons c l =>
      have hc : b 0 ≠ c := by
        rw [h]
        exact fun heq => hname.no_null (by rw [heq]; exact List.mem_cons_self ..)
      simp [bytesAre, hc]

theorem nameAt_congr (hlen : name.length < maxnamelen) (he : 256 * e + 256 ≤ maxfilesize)
    (h : ∀ i < maxfilesize, fileByte m' dir i = fileByte m dir i) :
    nameAt m' dir name e = nameAt m dir name e := by
  simp only [maxnamelen] at hlen
  exact bytesAre_congr fun i hi => h _ (by omega)

theorem fileByte_entry (hb : blockPtr m dir k ≠ 0) {j c : Nat} (hj : j < 16) (hc : c < 256) :
    fileByte m dir (256 * (16 * k + j) + c) = m (blockAddr (blockPtr m dir k) + 256 * j + c) := by
  have hdiv : (256 * (16 * k + j) + c) / 4096 = k := by omega
  have hmod : (256 * (16 * k + j) + c) % 4096 = 256 * j + c := by omega
  rw [fileByte, byteAddr, hdiv, hmod, if_neg hb, Nat.add_assoc]

theorem entryAt_eq {j : Nat} (hj : j < 16) :
    entryAt m dir (16 * k + j) = blockAddr (blockPtr m dir k) + 256 * j := by
  rw [entryAt, show (16 * k + j) / 16 = k by omega, show (16 * k + j) % 16 = j by omega]

/-- The search in one block. -/
theorem namedEntry_eq (hb : blockPtr m dir k ≠ 0) (hlen : name.length < maxnamelen) :
    namedEntry m (blockAddr (blockPtr m dir k)) name =
      ((List.range' (16 * k) 16).find? (nameAt m dir name)).map (entryAt m dir) := by
  rw [List.range'_eq_map_range, List.find?_map, Option.map_map, namedEntry]
  have hfind : (List.range blkfiles).find?
      (fun j => nameIs m (blockAddr (blockPtr m dir k) + 256 * j) name) =
      (List.range 16).find? (nameAt m dir name ∘ (16 * k + ·)) := by
    refine List.find?_congr fun j hj => ?_
    have hj' : j < 16 := List.mem_range.mp hj
    simp only [maxnamelen] at hlen
    rw [nameIs_eq, Function.comp, nameAt]
    exact bytesAre_congr fun c hc => (fileByte_entry hb hj' (by omega)).symm
  rw [hfind]
  cases hres : (List.range 16).find? (nameAt m dir name ∘ (16 * k + ·)) with
  | none => rfl
  | some j =>
      have hj : j < 16 := List.mem_range.mp (List.mem_of_find?_eq_some hres)
      simp only [Option.map_some, Function.comp, entryAt_eq hj]

theorem entryFrom_succ (hin : i < n) : entryFrom m dir name i n =
    ((List.range' (16 * i) 16).find? (nameAt m dir name)).or (entryFrom m dir name (i + 1) n) := by
  rw [entryFrom, entryFrom, ← List.find?_append, show 16 * (i + 1) = 16 * i + 16 by omega,
    List.range'_append_1]
  congr 2
  omega

theorem entryFrom_range (h : entryFrom m dir name i n = some e) : 16 * i ≤ e ∧ e < 16 * n := by
  have hmem := List.mem_of_find?_eq_some h
  rw [List.mem_range'_1] at hmem
  omega

theorem entryFrom_congr (h : ∀ e < 16 * n, nameAt m' dir name e = nameAt m dir name e) :
    entryFrom m' dir name i n = entryFrom m dir name i n := by
  refine List.find?_congr fun e he => ?_
  rw [List.mem_range'_1] at he
  exact h e (by omega)

/-! ## The loop of `dir_lookup` -/

theorem Grows.nameAt_eq {j : Nat} (h : Grows dir m j m') (hw : Wf m) (hd : FileAt m dir)
    (hlen : name.length < maxnamelen) (hn : n ≤ maxblocks) (he : e < 16 * n) :
    nameAt m' dir name e = nameAt m dir name e := by
  simp only [maxblocks] at hn
  exact nameAt_congr hlen (by simp only [maxfilesize]; omega) fun i hi => h.fileByte_self hw hd hi

/-- The blocks of the directory from `i` up to `k` are there. -/
def Present (m : Mem) (dir i k : Nat) : Prop := ∀ j, i ≤ j → j < k → blockPtr m dir j ≠ 0

theorem Grows.blockPtr_keeps {j : Nat} (h : Grows f m j m') (hw : Wf m) (hg : FileAt m g)
    (hi : i < maxblocks) (hb : blockPtr m g i ≠ 0) : blockPtr m' g i = blockPtr m g i := by
  induction h with
  | refl => rfl
  | step h _ halloc ih =>
      rw [halloc.blockPtr_keeps (h.wf hw) (h.fileAt hw hg) hi (by rw [ih]; exact hb), ih]

theorem missing_one (m : Mem) (dir i : Nat) : missing m dir i (i + 1) = blockNeed m dir i := by
  rw [missing, blockNeed, walkNeed, show i + 1 - i = 1 by omega, List.range'_one, List.filter_cons,
    List.filter_nil, Nat.add_comm]
  congr 1
  · refine if_congr ⟨fun hc => ⟨by omega, hc.2.2⟩, fun hc => ⟨by omega, by omega, hc.2⟩⟩ rfl rfl
  · by_cases hz : blockPtr m dir i = 0
    · simp [hz]
    · simp [hz]

/-- The holes of the directory from block `i` up to block `n` have been filled, and nothing else has
changed in its block list. -/
structure Searched (dir : Nat) (m : Mem) (i n : Nat) (m' : Mem) : Prop where
  grows : Grows dir m (missing m dir i n) m'
  present : Present m' dir i n
  rest : ∀ k < maxblocks, n ≤ k → blockPtr m' dir k = blockPtr m dir k
  ind : n ≤ ndirect → indirect m' dir = indirect m dir

theorem searched_refl : Searched dir m i i m := by
  refine ⟨?_, fun j h1 h2 => by omega, fun _ _ _ => rfl, fun _ => rfl⟩
  rw [missing, Nat.sub_self, if_neg (by omega)]
  exact .refl

/-- The name is in block `i`. -/
theorem GotBlock.searched (h : GotBlock m dir i m1) : Searched dir m i (i + 1) m1 := by
  refine ⟨?_, fun j h1 h2 => ?_, fun k hk hle => h.ptr_other k hk (by omega),
    fun hle => h.indirect_eq (by omega)⟩
  · rw [missing_one]
    exact h.grows
  · rw [show j = i by omega]
    exact h.ptr_ne

/-- The name is not in block `i`, and the search goes on behind it. -/
theorem Searched.cons (hgot : GotBlock m dir i m1) (h : Searched dir m1 (i + 1) n m') (hw : Wf m1)
    (hd : FileAt m1 dir) (hi : i < n) (hn : n ≤ maxblocks) : Searched dir m i n m' := by
  refine ⟨?_, fun j h1 h2 => ?_, fun k hk hle => ?_, fun hle => ?_⟩
  · rw [hgot.missing_eq hi hn]
    exact hgot.grows.trans h.grows
  · by_cases hji : j = i
    · rw [hji, h.grows.blockPtr_keeps hw hd (by omega) hgot.ptr_ne]
      exact hgot.ptr_ne
    · exact h.present j (by omega) h2
  · rw [h.rest k hk hle, hgot.ptr_other k hk (by omega)]
  · rw [h.ind hle, hgot.indirect_eq (by omega)]

theorem lt_searchEnd (hin : i < n) : i < searchEnd n (entryFrom m dir name i n) := by
  cases he : entryFrom m dir name i n with
  | none => exact hin
  | some e =>
      have := entryFrom_range he
      simp only [searchEnd]
      omega

theorem searchEnd_le (hn : n ≤ maxblocks) : searchEnd n (entryFrom m dir name i n) ≤ maxblocks := by
  cases he : entryFrom m dir name i n with
  | none => exact hn
  | some e =>
      have := entryFrom_range he
      simp only [searchEnd]
      omega

/-- What the loop finds in the block that it has got. -/
theorem GotBlock.namedEntry_eq (hgot : GotBlock m dir i m1) (hw : Wf m) (hd : FileAt m dir)
    (hname : NameOk name) (hn : n ≤ maxblocks) (hin : i < n) :
    namedEntry m1 (blockAddr (blockPtr m1 dir i)) name =
      ((List.range' (16 * i) 16).find? (nameAt m dir name)).map (entryAt m1 dir) := by
  rw [Fs.namedEntry_eq hgot.ptr_ne hname.length_lt]
  congr 1
  refine List.find?_congr fun e he => ?_
  rw [List.mem_range'_1] at he
  exact hgot.grows.nameAt_eq hw hd hname.length_lt hn (by omega)

/-- The loop finds the first entry with the name, and takes a block for every hole before it. -/
theorem dirLookupLoop_exact (hw : Wf m) (hd : FileAt m dir) (hname : NameOk name)
    (hn : n ≤ maxblocks) (hi : i ≤ n) :
    ((freeBlocks m).length < missing m dir i (searchEnd n (entryFrom m dir name i n)) ∧
        dirLookupLoop dir name m (List.range' i (n - i)) = none) ∨
      ∃ m', dirLookupLoop dir name m (List.range' i (n - i)) =
          some (m', searchResult m' dir (entryFrom m dir name i n)) ∧
        Searched dir m i (searchEnd n (entryFrom m dir name i n)) m' := by
  -- By induction on the number of blocks that are left.
  obtain ⟨k, hk⟩ : ∃ k, n = i + k := ⟨n - i, by omega⟩
  induction k generalizing i m with
  | zero =>
      have hin : i = n := by omega
      subst hin
      have hnone : entryFrom m dir name i i = none := by
        rw [entryFrom, Nat.sub_self]
        rfl
      rw [hnone, Nat.sub_self]
      exact Or.inr ⟨m, rfl, searched_refl⟩
  | succ k ih =>
      have hin : i < n := by omega
      have him : i < maxblocks := by omega
      have hnat : (BitVec.ofNat 32 i).toNat = i := by
        rw [BitVec.toNat_ofNat]
        simp only [maxblocks] at him
        omega
      have hsplit : entryFrom m dir name i n = ((List.range' (16 * i) 16).find? (nameAt m dir name)).or
          (entryFrom m dir name (i + 1) n) := entryFrom_succ hin
      rw [show n - i = n - (i + 1) + 1 by omega, List.range'_succ, dirLookupLoop]
      have hend : i < searchEnd n (entryFrom m dir name i n) := lt_searchEnd hin
      have hcases := fileGetBlock_cases (BitVec.ofNat 32 i) hw hd (by rw [hnat]; exact him)
      rw [hnat] at hcases
      rcases hcases with ⟨hfull, hnone⟩ | ⟨m1, hget, hgot⟩
      · refine Or.inl ⟨?_, by rw [hnone]; rfl⟩
        have := blockNeed_le_missing (m := m) (f := dir) hend
        omega
      · have hw1 := hgot.grows.wf hw
        have hd1 := hgot.grows.fileAt hw hd
        have hrest : entryFrom m1 dir name (i + 1) n = entryFrom m dir name (i + 1) n :=
          entryFrom_congr fun e he => hgot.grows.nameAt_eq hw hd hname.length_lt hn he
        rw [hget]
        simp only [Option.bind_eq_bind, Option.bind_some]
        rw [hgot.namedEntry_eq hw hd hname hn hin]
        cases hfind : (List.range' (16 * i) 16).find? (nameAt m dir name) with
        | some e =>
            have hmem := List.mem_of_find?_eq_some hfind
            rw [List.mem_range'_1] at hmem
            have heq : entryFrom m dir name i n = some e := by
              rw [hsplit, hfind]
              rfl
            have hdiv : searchEnd n (some e) = i + 1 := by
              simp only [searchEnd]
              omega
            rw [heq, hdiv]
            exact Or.inr ⟨m1, rfl, hgot.searched⟩
        | none =>
            have heq : entryFrom m dir name i n = entryFrom m dir name (i + 1) n := by
              rw [hsplit, hfind]
              rfl
            rw [heq] at hend ⊢
            have hstop : searchEnd n (entryFrom m dir name (i + 1) n) ≤ maxblocks := searchEnd_le hn
            simp only [Option.map_none]
            rcases ih (i := i + 1) hw1 hd1 (by omega) (by omega) with ⟨hfull, hnone⟩ | ⟨m2, hrun, hfill⟩
            · refine Or.inl ⟨?_, hnone⟩
              have hmiss := hgot.missing_eq hend hstop
              have hlen := hgot.grows.freeBlocks_length hw
              rw [hrest] at hfull
              omega
            · rw [hrest] at hrun hfill
              exact Or.inr ⟨m2, hrun, .cons hgot hfill hw1 hd1 hend hstop⟩

/-- What a well formed directory is for the look-up. -/
structure DirOk (m : Mem) (dir : Nat) : Prop where
  file : FileAt m dir
  aligned : Aligned m dir
  size_le : (fSize m dir).toNat ≤ maxfilesize

theorem dirBlocks_eq (hsize : (fSize m dir).toNat ≤ maxfilesize) :
    dirBlocks m dir = (fSize m dir).toNat / 4096 := by
  simp only [maxfilesize] at hsize
  rw [dirBlocks, sdiv_block (by omega)]

theorem dirBlocks_le (hsize : (fSize m dir).toNat ≤ maxfilesize) : dirBlocks m dir ≤ maxblocks := by
  rw [dirBlocks_eq hsize]
  simp only [maxfilesize, maxblocks] at hsize ⊢
  omega

/-- The entry that `dir_lookup` finds. -/
def lookupEntry (m : Mem) (dir : Nat) (name : List (BitVec 8)) : Option Nat :=
  entryFrom m dir name 0 (dirBlocks m dir)

/-- The blocks up to which it looks. -/
def lookupEnd (m : Mem) (dir : Nat) (name : List (BitVec 8)) : Nat :=
  searchEnd (dirBlocks m dir) (lookupEntry m dir name)

/-- The blocks that it needs. -/
def lookupNeed (m : Mem) (dir : Nat) (name : List (BitVec 8)) : Nat :=
  missing m dir 0 (lookupEnd m dir name)

theorem dirLookup_exact (hw : Wf m) (hd : DirOk m dir) (hname : NameOk name) :
    ((freeBlocks m).length < lookupNeed m dir name ∧ dirLookup m dir name = none) ∨
      ∃ m', dirLookup m dir name = some (m', searchResult m' dir (lookupEntry m dir name)) ∧
        Searched dir m 0 (lookupEnd m dir name) m' := by
  have haligned : ¬ (fSize m dir).srem 4096#32 ≠ 0#32 := fun hne => hne hd.aligned
  rw [dirLookup, if_neg haligned, List.range_eq_range']
  exact dirLookupLoop_exact hw hd.file hname (dirBlocks_le hd.size_le) (Nat.zero_le _)

/-! ## Other files -/

/-- The file reads the same. -/
structure SameFile (m m' : Mem) (g : Nat) : Prop where
  type : fType m' g = fType m g
  size : fSize m' g = fSize m g
  ptr : ∀ k < maxblocks, blockPtr m' g k = blockPtr m g k
  ind : indirect m' g = indirect m g
  byte : ∀ i < maxfilesize, fileByte m' g i = fileByte m g i

/-- The entry of a file is in the blocks of its directory. -/
theorem Wf.child_of_inEntry (hw : Wf m) (hf : FileAt m f) (hg : FileAt m g) (hi : i < maxfilesize)
    (h : InEntry m f g i) : Child m g f := by
  have hdir : fType m g = ftypeDir := by
    by_contra hreg
    exact hw.not_inEntry hg hreg hf hi h
  obtain ⟨hb, hlo, hhi⟩ := h
  have hown := owned_data hg (block_lt hi) hb
  have hge := hown.ge hw
  simp only [byteAddr] at hlo hhi
  rcases hf.cases_block with rfl | ⟨d, k, j, hd, hddir, hk, hb', hj, rfl⟩
  · simp only [firstBlock, sRoot_eq, blockAddr_eq] at hge hlo hhi
    omega
  · have hown' := owned_data hd hk hb'
    have hsame : blockPtr m d k = blockPtr m g (i / 4096) := by
      simp only [blkfiles, blockAddr_eq] at hj hlo hhi
      omega
    rw [hsame] at hown'
    obtain ⟨rfl, rfl⟩ := dataPlace_inj (hown'.unique hown hw)
    exact ⟨hdir, _, hk, hb', j, hj, rfl⟩

theorem Grows.inEntry_of {j : Nat} (h : Grows f m j m') (hw : Wf m) (hg : FileAt m g)
    (hi : i < maxfilesize) (hin : InEntry m' f g i) : InEntry m f g i := by
  induction h with
  | refl => exact hin
  | step h hfile halloc ih =>
      have hin1 := halloc.inEntry_of (h.wf hw) (h.fileAt hw hg) hi (by rw [hfile]; exact hin)
      rw [hfile] at hin1
      exact ih hin1

theorem Grows.fileByte_eq {j : Nat} (h : Grows f m j m') (hw : Wf m) (hg : FileAt m g)
    (hi : i < maxfilesize) (hin : ¬ InEntry m f g i) : fileByte m' g i = fileByte m g i := by
  induction h with
  | refl => rfl
  | @step n b m1 m' p h hfile halloc ih =>
      have hout : ¬ InEntry m1 p.file g i := by
        rw [hfile]
        exact fun hc => hin (h.inEntry_of hw hg hi hc)
      rw [halloc.fileByte_eq (h.wf hw) (h.fileAt hw hg) hi hout, ih]

/-- Taking blocks for `f` changes no file but `f` and its directory. -/
theorem Grows.sameFile {j : Nat} (h : Grows f m j m') (hw : Wf m) (hf : FileAt m f) (hg : FileAt m g)
    (hne : g ≠ f) (hnot : ¬ Child m g f) : SameFile m m' g := by
  have hin : ∀ i < maxfilesize, ¬ InEntry m f g i := fun i hi h => hnot (hw.child_of_inEntry hf hg hi h)
  refine ⟨h.type_eq hw hg, h.size_eq hw hg, fun k hk => ?_, ?_,
    fun i hi => h.fileByte_eq hw hg hi (hin i hi)⟩
  · induction h with
    | refl => rfl
    | @step n b m1 m' p h hfile halloc ih =>
        rw [halloc.blockPtr_eq (h.wf hw) (h.fileAt hw hg) hk, if_neg, ih]
        intro heq
        exact hne (by rw [← dataPlace_file g k, heq, hfile])
  · induction h with
    | refl => rfl
    | @step n b m1 m' p h hfile halloc ih =>
        rw [(halloc.edited (h.wf hw)).indirect_eq (h.fileAt hw hg), ih]
        intro heq
        exact hne (by rw [← hfile, heq]; rfl)

/-- A file below `f` is neither `f` nor a directory above it. -/
theorem Wf.below_other (hw : Wf m) (hf : FileAt m f) (h : Relation.TransGen (Child m) f g) :
    g ≠ f ∧ ¬ Child m g f := by
  refine ⟨?_, fun hc => hw.not_below_self hf (h.tail hc)⟩
  rintro rfl
  exact hw.not_below_self hf h

theorem SameFile.missing_eq (h : SameFile m m' g) (hk : k ≤ maxblocks) :
    missing m' g i k = missing m g i k := missing_congr h.ptr h.ind hk

theorem SameFile.lookupEntry_eq (h : SameFile m m' g) (hsize : (fSize m g).toNat ≤ maxfilesize)
    (hname : NameOk name) : lookupEntry m' g name = lookupEntry m g name := by
  have hblocks : dirBlocks m' g = dirBlocks m g := by rw [dirBlocks, dirBlocks, h.size]
  have hle := dirBlocks_le hsize
  simp only [maxblocks] at hle
  rw [lookupEntry, lookupEntry, hblocks]
  exact entryFrom_congr fun e he => nameAt_congr hname.length_lt
    (by simp only [maxfilesize]; omega) h.byte

theorem lookupEnd_le (hsize : (fSize m g).toNat ≤ maxfilesize) : lookupEnd m g name ≤ maxblocks := by
  have hle := dirBlocks_le hsize
  rw [lookupEnd]
  cases he : lookupEntry m g name with
  | none => exact hle
  | some e =>
      have := entryFrom_range he
      simp only [searchEnd]
      omega

theorem SameFile.lookupNeed_eq (h : SameFile m m' g) (hsize : (fSize m g).toNat ≤ maxfilesize)
    (hname : NameOk name) : lookupNeed m' g name = lookupNeed m g name := by
  have hend : lookupEnd m' g name = lookupEnd m g name := by
    rw [lookupEnd, lookupEnd, h.lookupEntry_eq hsize hname, dirBlocks, h.size]
    rfl
  rw [lookupNeed, lookupNeed, hend, h.missing_eq (lookupEnd_le hsize)]

/-- An entry that is found is in a block of the directory. -/
theorem lookupEntry_child (hdir : fType m g = ftypeDir) (hsize : (fSize m g).toNat ≤ maxfilesize)
    (hname : NameOk name) (h : lookupEntry m g name = some e) :
    e / 16 < maxblocks ∧ blockPtr m g (e / 16) ≠ 0 ∧ Child m g (entryAt m g e) := by
  have hrange := entryFrom_range h
  have hle := dirBlocks_le hsize
  have hi : e / 16 < maxblocks := by omega
  have hb : blockPtr m g (e / 16) ≠ 0 := by
    intro hz
    have hat : nameAt m g name e = true := List.find?_some h
    rw [nameAt, bytesAre_zero hname] at hat
    · cases hat
    · have hdiv : (256 * e + 0) / 4096 = e / 16 := by omega
      rw [fileByte, hdiv, if_pos hz]
      rfl
  exact ⟨hi, hb, hdir, e / 16, hi, hb, e % 16, Nat.mod_lt _ (by decide), rfl⟩

/-! ## Flushing -/

theorem flushBlock_body (hw : Wf m) {a : Nat} (h : InBody m a n) (hn : 0 < n) : flushBlock a = some () := by
  have := h.in_disk hw
  rw [flushBlock, if_neg (by omega)]

theorem diskaddr_flush {p : Place} (hw : Wf m) (hp : p.Valid m) (hv : p.value m ≠ 0) :
    ∃ a, diskaddr m (m.read32 (p.addr m)) = some a ∧ flushBlock a = some () := by
  refine ⟨_, diskaddr_place hw hp hv, ?_⟩
  have hlt := hw.ptr_lt p hp hv
  have hle := hw.nblocks_le
  have hdisk : disksize = 3221225472 := rfl
  rw [flushBlock, blockAddr_eq, if_neg (by omega)]

theorem flushFileBlock_some (i : Nat) (hw : Wf m) (hf : FileAt m f) :
    flushFileBlock m f i = some () := by
  have hslot : ∀ p : Place, p.Valid m → (if m.read32 (p.addr m) = 0#32 then some () else
      (diskaddr m (m.read32 (p.addr m))).bind flushBlock) = some () := by
    intro p hp
    split
    · rfl
    · rename_i hne
      obtain ⟨a, ha, hfl⟩ := diskaddr_flush hw hp fun hz => hne (BitVec.eq_of_toNat_eq hz)
      rw [ha, Option.bind_some, hfl]
  rw [flushFileBlock, fileBlockWalk]
  by_cases hi : maxblocks ≤ (BitVec.ofNat 32 i).toNat
  · rw [if_pos hi]
    rfl
  rw [if_neg hi]
  by_cases hlt : (BitVec.ofNat 32 i).toNat < ndirect
  · rw [if_pos hlt]
    exact hslot (.direct f (BitVec.ofNat 32 i).toNat) ⟨hf, hlt⟩
  rw [if_neg hlt]
  by_cases hind : indirect m f = 0#32
  · rw [if_pos ⟨hind, rfl⟩]
    rfl
  have hda := diskaddr_place hw (p := .indirect f) hf fun hz => hind (BitVec.eq_of_toNat_eq hz)
  rw [show m.read32 ((Place.indirect f).addr m) = indirect m f from rfl] at hda
  rw [if_neg fun hc => hind hc.1, if_neg hind]
  simp only [Option.bind_eq_bind, Option.bind_some, hda]
  refine hslot (.entry f ((BitVec.ofNat 32 i).toNat - ndirect)) ⟨hf, hind, ?_⟩
  simp only [maxblocks, ndirect, nindirect] at hi hlt ⊢
  omega

theorem forM_some {l : List Nat} {act : Nat → Option Unit} (h : ∀ i, act i = some ()) :
    l.forM act = some () := by
  induction l with
  | nil => rfl
  | cons i l ih =>
      rw [List.forM, h i]
      exact ih

/-- `file_flush` does not panic. -/
theorem fileFlush_some (hw : Wf m) (hf : FileAt m f) : fileFlush m f = some () := by
  rw [fileFlush, forM_some fun i => flushFileBlock_some i hw hf,
    flushBlock_body hw (hw.file_inBody hf) (by decide)]
  simp only [Option.bind_eq_bind, Option.bind_some]
  split
  · rfl
  · rename_i hind
    obtain ⟨a, ha, hfl⟩ := diskaddr_flush hw (p := .indirect f) hf fun hz =>
      hind (BitVec.eq_of_toNat_eq hz)
    rw [show m.read32 ((Place.indirect f).addr m) = indirect m f from rfl] at ha
    rw [ha, Option.bind_some, hfl]

end

end Jos.Fs
