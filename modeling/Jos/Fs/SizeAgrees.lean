import Jos.Fs.SetSize
import Jos.Fs.OpenFiles

/-!
# Size and block list of a file

`file_truncate_blocks` computes block counts from signed sizes and stores them in unsigned
variables, and `serve_set_size` passes on any size. A negative size, or one behind the largest
file, is stored as it is; and with such a size the file can shrink without giving its blocks back,
so that no later request finds them. Where every request keeps to the sizes of files, the size and
the block list of a file agree, and truncating it to nothing gives all its blocks back.

Main results:
* `AgreesInv.run`: what every request of a run keeps;
* `size_and_blocks_agree`: the sizes and the block lists in every state of a run;
* `negative_size_strands`: blocks that are never given back.
-/

namespace Jos.Fs

open Jos.Lib

/-- The size of `f` is one of a file, no block number is behind the last block of that size, and an
empty file has no indirect block. -/
structure SizeAgrees (m : Mem) (f : Nat) : Prop where
  size_le : (fSize m f).toNat ≤ maxfilesize
  ptr : ∀ k < maxblocks, sizeBlocks (fSize m f) ≤ k → blockPtr m f k = 0
  ind : fSize m f = 0#32 → indirect m f = 0#32

/-- The file has no blocks, and those that it had are free. -/
structure Emptied (m : Mem) (f : Nat) (m' : Mem) : Prop where
  ptr : ∀ k < maxblocks, blockPtr m' f k = 0
  ind : indirect m' f = 0#32
  data_free : ∀ k < maxblocks, blockPtr m f k ≠ 0 → bitSet m' (blockPtr m f k)
  ind_free : indirect m f ≠ 0#32 → bitSet m' (indirect m f).toNat

/-- The size of `f` is as before, and its block list has changed below the last block at most. -/
structure EndKept (f : Nat) (m m' : Mem) : Prop where
  kept : DiskKept m m'
  size : fSize m' f = fSize m f
  ptr : ∀ k < maxblocks, sizeBlocks (fSize m f) ≤ k → blockPtr m' f k = blockPtr m f k
  ind : fSize m f = 0#32 → indirect m' f = indirect m f

section

variable {m m' m1 : Mem} {f g i n : Nat} {newsize : BitVec 32}

theorem EndKept.refl (hw : Wf m) : EndKept f m m :=
  ⟨.refl hw, rfl, fun _ _ _ => rfl, fun _ => rfl⟩

theorem EndKept.trans (h : EndKept f m m1) (h' : EndKept f m1 m') : EndKept f m m' := by
  refine ⟨h.kept.trans h'.kept, h'.size.trans h.size, fun k hk hle => ?_, fun hz => ?_⟩
  · rw [h'.ptr k hk (by rw [h.size]; exact hle), h.ptr k hk hle]
  · rw [h'.ind (by rw [h.size]; exact hz), h.ind hz]

theorem SizeAgrees.kept (h : SizeAgrees m f) (h' : EndKept f m m') : SizeAgrees m' f := by
  refine ⟨?_, fun k hk hle => ?_, fun hz => ?_⟩
  · rw [h'.size]
    exact h.size_le
  · rw [h'.size] at hle
    rw [h'.ptr k hk hle, h.ptr k hk hle]
  · rw [h'.size] at hz
    rw [h'.ind hz, h.ind hz]

theorem SameFile.endKept (h : SameFile m m' f) (hk : DiskKept m m') : EndKept f m m' :=
  ⟨hk, h.size, fun k hk _ => h.ptr k hk, fun _ => h.ind⟩

theorem Unmoved.endKept (h : Unmoved m m') (hw : Wf m) (hf : FileAt m f)
    (hsize : fSize m' f = fSize m f) : EndKept f m m' :=
  ⟨h.kept hw, hsize, fun _ hk _ => h.blockPtr_eq hf hk, fun _ => h.indirect_eq hf⟩

theorem SameDisk.endKept (h : SameDisk m m') (hw : Wf m) (hf : FileAt m f) : EndKept f m m' :=
  (h.unmoved hw).endKept hw hf (h.read32_file hw hf (by decide))

/-! ## Sizes -/

/-- A block below the end is fetched. -/
theorem GotBlock.endKept (h : GotBlock m f i m1) (hw : Wf m) (hf : FileAt m f)
    (hi : i < sizeBlocks (fSize m f)) : EndKept f m m1 := by
  refine ⟨h.grows.kept hw, h.grows.size_eq hw hf, fun k hk hle => ?_, fun hz => ?_⟩
  · exact h.ptr_other k hk (by omega)
  · rw [hz, show sizeBlocks 0#32 = 0 by decide] at hi
    omega

/-- A new size that is one of a file. -/
theorem SizeAgrees.resized (h : SizeAgrees m f) (h' : Resized m f newsize m')
    (hnew : newsize.toNat ≤ maxfilesize) : SizeAgrees m' f := by
  have hold := sizeBlocks_eq h.size_le
  have hblocks := sizeBlocks_eq hnew
  refine ⟨by rw [h'.size]; exact hnew, fun k hk hle => ?_, fun hz => ?_⟩
  · rw [h'.size] at hle
    rw [h'.ptr k hk]
    split
    · rfl
    · rename_i hout
      refine h.ptr k hk ?_
      by_contra hlt
      exact hout (Or.inl ⟨by omega, hle, by omega⟩)
  · rw [h'.size] at hz
    rw [h'.ind]
    split
    · rfl
    · rename_i hout
      refine h.ind (BitVec.eq_of_toNat_eq ?_)
      by_contra hne
      refine hout ⟨?_, ?_⟩
      · rw [hz]
        exact Nat.pos_of_ne_zero hne
      · rw [hz]
        decide

/-- Truncating to nothing gives all blocks back. -/
theorem SizeAgrees.emptied (h : SizeAgrees m f) (hw : Wf m) (hf : Regular m f) :
    ∃ m', fileSetSize m f 0#32 = some m' ∧ Emptied m f m' := by
  obtain ⟨m', hrun, hsized⟩ := fileSetSize_resized 0#32 hw hf h.size_le (by decide)
  have hagree := h.resized hsized (by decide)
  have hzero : sizeBlocks 0#32 = 0 := by decide
  refine ⟨m', hrun, fun k hk => hagree.ptr k hk ?_, hagree.ind hsized.size, fun k hk hb => ?_,
    fun hind => ?_⟩
  · rw [hsized.size, hzero]
    exact Nat.zero_le _
  · have hlt : k < sizeBlocks (fSize m f) := by
      by_contra hle
      exact hb (h.ptr k hk (by omega))
    have hpos : 0 < (fSize m f).toNat := by
      rw [sizeBlocks_eq h.size_le] at hlt
      omega
    rw [hsized.bits _ ((owned_data hf.1 hk hb).lt hw) hb]
    exact Or.inr (Or.inl ⟨k, hk, ⟨hpos, by rw [hzero]; exact Nat.zero_le _, hlt⟩, rfl⟩)
  · have hpos : 0 < (fSize m f).toNat := by
      refine Nat.pos_of_ne_zero fun hz => hind (h.ind (BitVec.eq_of_toNat_eq ?_))
      rw [hz]
      rfl
    rw [hsized.bits _ ((owned_indirect hf.1 hind).lt hw) fun hz => hind (BitVec.eq_of_toNat_eq hz)]
    exact Or.inr (Or.inr ⟨⟨hpos, by decide⟩, rfl⟩)

/-! ## Reading and writing -/

/-- A loop that stays below the end of the file. -/
theorem copyLoop_endKept {copy : Mem → Nat → Nat → Nat → Mem} {buf e : Nat} {pos ending : BitVec 32}
    {res : Except Int Unit}
    (hcopy : ∀ {m1 p b n}, Regular m1 f → p / 4096 < maxblocks → blockPtr m1 f (p / 4096) ≠ 0 →
      p % 4096 + n ≤ 4096 → buf ≤ b → b + n ≤ buf + (ending.toNat - pos.toNat) → Wf m1 →
      Unmoved m1 (copy m1 b (byteAddr m1 f p) n) ∧
        fSize (copy m1 b (byteAddr m1 f p) n) f = fSize m1 f)
    (hw : Wf m) (hf : Regular m f) (hsize : (fSize m f).toNat ≤ maxfilesize)
    (hpos : pos.toNat < 2147483648) (hend : ending.toNat ≤ (fSize m f).toNat)
    (h : copyLoop copy f ending copyFuel m buf pos = some (m', e, res)) : EndKept f m m' := by
  have hround : ∀ {p b m1 m2 n}, (EndKept f m m1 ∧ pos.toNat ≤ p ∧ b = buf + (p - pos.toNat)) →
      GotBlock m1 f (p / 4096) m2 → 0 < n → p % 4096 + n ≤ 4096 → p + n ≤ ending.toNat →
      p + n ≤ maxfilesize → Unmoved m2 (copy m2 b (byteAddr m2 f p) n) ∧
        (EndKept f m (copy m2 b (byteAddr m2 f p) n) ∧ pos.toNat ≤ p + n ∧
          b + n = buf + (p + n - pos.toNat)) := by
    rintro p b m1 m2 n ⟨hQ, hle, rfl⟩ hgot hn0 hn hlast hmax
    have hw1 := hQ.kept.wf
    have hf1 := hQ.kept.regular hf
    have hi : p / 4096 < maxblocks := by
      simp only [maxblocks, maxfilesize] at hmax ⊢
      omega
    have hbelow : p / 4096 < sizeBlocks (fSize m1 f) := by
      rw [hQ.size, sizeBlocks_eq hsize]
      omega
    have h2 := hgot.endKept hw1 hf1.1 hbelow
    obtain ⟨hun, hsame⟩ := hcopy (b := buf + (p - pos.toNat)) (h2.kept.regular hf1) hi hgot.ptr_ne hn
      (Nat.le_add_right _ _) (by omega) h2.kept.wf
    exact ⟨hun, (hQ.trans h2).trans (hun.endKept h2.kept.wf (h2.kept.files f hf1.1) hsame),
      by omega, by omega⟩
  rcases copyLoop_rule (Q := fun p b m1 => EndKept f m m1 ∧ pos.toNat ≤ p ∧ b = buf + (p - pos.toNat))
    (fun hQ => ⟨hQ.1.kept.wf, hQ.1.kept.files f hf.1⟩) hround hpos rfl (by decide)
    (copyFuel_enough rfl) ⟨.refl hw, Nat.le_refl _, show buf = _ by omega⟩ with
    ⟨_, _, hnone⟩ | ⟨m2, hrun, hQ, _⟩
  · rw [hnone] at h
    cases h
  · rw [hrun] at h
    cases h
    exact hQ

variable {buf e : Nat} {count offset : BitVec 32} {r : Int}

/-- A write whose end, as the code computes it, is one of a file. -/
theorem fileWrite_sizeAgrees (hw : Wf m) (hf : Regular m f) (h : SizeAgrees m f)
    (hend : (offset + count).toNat ≤ maxfilesize)
    (hrun : fileWrite m f buf count offset = some (m', e, r)) :
    DiskKept m m' ∧ SizeAgrees m' f := by
  rw [fileWrite_eq] at hrun
  obtain ⟨m1, hset, hrun⟩ := Option.bind_eq_some_iff.mp hrun
  obtain ⟨⟨m2, e', r'⟩, hloop, hrun⟩ := Option.bind_eq_some_iff.mp hrun
  cases hrun
  have h1 : DiskKept m m1 ∧ SizeAgrees m1 f ∧ (offset + count).toNat ≤ (fSize m1 f).toNat := by
    split at hset
    · obtain ⟨m3, hrun, hsized⟩ := fileSetSize_resized (offset + count) hw hf h.size_le hend
      cases hrun.symm.trans hset
      exact ⟨hsized.kept, h.resized hsized hend, by rw [hsized.size]⟩
    · rename_i hge
      cases hset
      rw [BitVec.lt_def] at hge
      exact ⟨.refl hw, h, by omega⟩
  obtain ⟨hk1, ha1, hle⟩ := h1
  have hmax : maxfilesize = 4235264 := rfl
  by_cases hlt : offset < offset + count
  · rw [BitVec.lt_def] at hlt
    have h2 : EndKept f m1 m2 := by
      rw [writeLoop] at hloop
      refine copyLoop_endKept (fun {m3 p b n} hf3 hi hb hn _ _ hw3 => ?_) hk1.wf (hk1.regular hf)
        ha1.size_le (by omega) hle hloop
      have hdata := unmoved_data b hw3 hf3.1 hf3.2 hi hb (Nat.le_add_right _ _)
        (show byteAddr m3 f p + n ≤ _ by rw [byteAddr]; omega)
      exact ⟨hdata.1, hdata.2 f hf3.1⟩
    exact ⟨hk1.trans h2.kept, ha1.kept h2⟩
  · -- The end has wrapped around, or nothing is written.
    rw [writeLoop, copyFuel, copyLoop, if_neg hlt] at hloop
    cases hloop
    exact ⟨hk1, ha1⟩

/-- A read that copies nothing, or as much as the page has room for, and takes no block of an empty
file. -/
def ReadSafe (m : Mem) (f : Nat) (offset count : BitVec 32) : Prop :=
  (fSize m f).sle offset ∨ offset + readCount m f count offset ≤ offset ∨ offset.toInt ≤ -4096 ∨
    if 0 ≤ offset.toInt then (readCount m f count offset).toNat ≤ 4096 else fSize m f ≠ 0#32

theorem fileRead_endKept (hw : Wf m) (hf : Regular m f) (hsize : (fSize m f).toNat ≤ maxfilesize)
    (hsafe : ReadSafe m f offset count)
    (hrun : fileRead m f fsreq count offset = some (m', e, r)) : EndKept f m m' := by
  have hpage : fsreq + 4096 = diskmap := rfl
  have hmax : maxfilesize = 4235264 := rfl
  rw [fileRead] at hrun
  split at hrun
  · cases hrun
    exact .refl hw
  rename_i hsle
  simp only [Option.bind_eq_bind, Option.bind_eq_some_iff] at hrun
  obtain ⟨⟨m1, e1, r1⟩, hloop, hrun⟩ := hrun
  cases hrun
  have hsafe := hsafe.resolve_left hsle
  -- Where nothing is copied the memory is the same.
  by_cases hskip : offset + readCount m f count offset ≤ offset
  · rw [readLoop, copyFuel, copyLoop, if_neg (by rw [BitVec.lt_def]; rw [BitVec.le_def] at hskip; omega)]
      at hloop
    cases hloop
    exact .refl hw
  have hsafe := hsafe.resolve_left hskip
  by_cases hoff : 0 ≤ offset.toInt
  · obtain ⟨hint, hpos⟩ := nonneg_toNat hoff
    rw [if_pos hoff] at hsafe
    have hcount := hsafe.resolve_left (by omega)
    rw [BitVec.sle_eq_decide, toInt_eq (n := fSize m f) (by omega), decide_eq_true_eq] at hsle
    have hlen := readCount_toNat count (show offset.toNat < (fSize m f).toNat by omega)
    have hend : (offset + readCount m f count offset).toNat ≤ (fSize m f).toNat := by
      rw [BitVec.toNat_add, hlen, readLength]
      omega
    rw [readLoop] at hloop
    refine copyLoop_endKept (fun {m3 p b n} hf3 _ _ _ _ hb hw3 => ?_) hw hf hsize hpos hend hloop
    have hsame : SameDisk m3 (m3.move b (byteAddr m3 f p) n) := by
      refine sameDisk_move (Or.inl ?_)
      have : (offset + readCount m f count offset).toNat ≤
          offset.toNat + (readCount m f count offset).toNat := by
        rw [BitVec.toNat_add]
        exact Nat.mod_le _ _
      omega
    exact ⟨hsame.unmoved hw3, hsame.read32_file hw3 hf3.1 (by decide)⟩
  · -- At a negative offset the range does not reach position 0.
    have hneg : offset.toInt < 0 := by omega
    have hnat := neg_toNat hneg
    rw [BitVec.le_def, BitVec.toNat_add] at hskip
    generalize readCount m f count offset = n at hskip hsafe hloop
    have hn : n ≠ 0#32 := by
      rintro rfl
      refine hskip ?_
      simp only [BitVec.toNat_ofNat, Nat.zero_mod, Nat.add_zero]
      exact Nat.mod_le _ _
    have hend : offset.toInt + n.toNat < 0 := by
      have := n.isLt
      have := offset.isLt
      omega
    by_cases hgt : -4096 < offset.toInt
    · rw [if_neg hoff] at hsafe
      have hne := hsafe.resolve_left (by omega)
      have hpos : 0 < sizeBlocks (fSize m f) := by
        have := toNat_pos hne
        rw [sizeBlocks_eq hsize]
        omega
      rw [readLoop, show copyFuel = 2046 + 2 from rfl, copyLoop_before_run hneg hgt hn hend] at hloop
      obtain ⟨⟨m2, q⟩, hget, hloop⟩ := Option.bind_eq_some_iff.mp hloop
      rcases fileGetBlock_cases 0#32 hw hf.1 (by decide) with ⟨_, hnone⟩ | ⟨m3, hsome, hgot⟩
      · rw [hnone] at hget
        cases hget
      · rw [hsome] at hget
        cases hget
        cases hloop
        have h1 := hgot.endKept hw hf.1 hpos
        have hsame : ∀ a, SameDisk m2 (m2.move fsreq a n.toNat) :=
          fun a => sameDisk_move (Or.inl (by omega))
        exact h1.trans ((hsame _).endKept h1.kept.wf (h1.kept.files f hf.1))
    · rw [readLoop, show copyFuel = 2047 + 1 from rfl, copyLoop_refused (by omega) hn hend] at hloop
      cases hloop
      exact .refl hw

/-! ## Opening -/

/-- A change of a name leaves the files alone. -/
theorem sameFile_strcpy {name : List (BitVec 8)} (hw : Wf m) (hg : FileAt m g) (hf : Regular m f)
    (hlen : name.length < maxnamelen) : SameFile m (strcpy m g name) f := by
  have hsame : ∀ x, x < g ∨ g + 128 ≤ x → strcpy m g name x = m x := by
    intro x hx
    simp only [maxnamelen] at hlen
    rw [strcpy, if_neg (by omega)]
  have hun := unmoved_name hw hg hsame
  refine ⟨hun.type f hf.1, Mem.read32_congr fun x hx hx' => hsame x ?_,
    fun k hk => hun.blockPtr_eq hf.1 hk, hun.indirect_eq hf.1, fun i hi => ?_⟩
  · by_cases heq : f = g
    · omega
    · have := hw.files_disjoint hf.1 hg heq
      omega
  · rw [fileByte, fileByte, byteAddr, hun.blockPtr_eq hf.1 (block_lt hi), ← byteAddr]
    split
    · rfl
    · rename_i hb
      have := hw.data_file_disjoint hf.1 hf.2 (block_lt hi) hb hg
      refine hsame _ ?_
      rw [byteAddr]
      omega

/-- What is done to directories leaves the files alone. -/
theorem DirStep.sameFile (h : DirStep m m') (hw : Wf m) (hf : Regular m f) : SameFile m m' f := by
  cases h with
  | @grows d n m' hd hdir h =>
      refine h.sameFile hw hd hf.1 (fun heq => ?_) fun hchild => hf.2 hchild.1
      subst heq
      exact hf.2 hdir
  | @longer d hd hdir =>
      refine sameFile_size hw hd hf (fun heq => ?_) _
      subst heq
      exact hf.2 hdir
  | name hg hlen => exact sameFile_strcpy hw hg hf hlen

theorem DirSteps.sameFile (h : DirSteps m m') (hw : Wf m) (hf : Regular m f) : SameFile m m' f := by
  induction h with
  | refl => exact .refl m f
  | tail hsteps hstep ih =>
      have hk := (DirSteps.entriesKept hsteps hw).kept
      exact ih.trans (hstep.sameFile hk.wf (hk.regular hf))

theorem DirSteps.endKept (h : DirSteps m m') (hw : Wf m) (hf : Regular m f) : EndKept f m m' :=
  (h.sameFile hw hf).endKept (h.entriesKept hw).kept

/-! ## Requests -/

/-- The disk is well formed, and size and block list of the file agree. -/
structure AgreesInv (f : Nat) (m : Mem) : Prop where
  wf : Wf m
  regular : Regular m f
  agrees : SizeAgrees m f

theorem AgreesInv.kept (h : AgreesInv f m) (h' : EndKept f m m') : AgreesInv f m' :=
  ⟨h'.kept.wf, h'.kept.regular h.regular, h.agrees.kept h'⟩

theorem AgreesInv.sameDisk (h : AgreesInv f m) (h' : SameDisk m m') : AgreesInv f m' :=
  h.kept (h'.endKept h.wf h.regular.1)

theorem AgreesInv.setSize (h : AgreesInv f m) (hnew : newsize.toNat ≤ maxfilesize)
    (hrun : fileSetSize m f newsize = some m') : AgreesInv f m' := by
  obtain ⟨m1, hset, hsized⟩ := fileSetSize_resized newsize h.wf h.regular h.agrees.size_le hnew
  cases hset.symm.trans hrun
  exact ⟨hsized.kept.wf, hsized.kept.regular h.regular, h.agrees.resized hsized hnew⟩

variable {s s' : Server} {page : Bool} {req : BitVec 32} {reply : Reply}

/-- An open that leads to `f`, if it leads to a file. -/
def OpensFile (page : Bool) (s : Server) (m : Mem) (f : Nat) : Prop :=
  ∀ m1 g, openOrCreate (openfileAlloc page s m).2.1 (reqPath m fsreq) (reqOmode m fsreq) =
    some (m1, .ok g) → g = f

theorem openfileAlloc_sameDisk (page : Bool) (s : Server) (m : Mem) :
    SameDisk m (openfileAlloc page s m).2.1 := by
  unfold openfileAlloc
  cases hfree : freeSlot s with
  | none => exact fun _ _ _ => rfl
  | some i =>
      dsimp only
      split
      · exact fun _ _ _ => rfl
      · have hfd := sameDisk_fd (s := s) (freeSlot_lt hfree)
        exact fun x hx hx' => Mem.fill_of_disjoint _ _ (Or.inl (by omega))

theorem AgreesInv.serveOpen (h : AgreesInv f m) (hopens : OpensFile page s m f)
    (hrun : Jos.Fs.serveOpen page s m fsreq = some reply) : AgreesInv f reply.mem := by
  have h1 := h.sameDisk (openfileAlloc_sameDisk page s m)
  unfold OpensFile at hopens
  unfold Jos.Fs.serveOpen at hrun
  generalize reqPath m fsreq = path at hrun hopens
  generalize reqOmode m fsreq = omode at hrun hopens
  generalize halloc : openfileAlloc page s m = res at hrun hopens h1
  obtain ⟨s1, m1, q⟩ := res
  cases q with
  | error r =>
      cases hrun
      exact h1
  | ok i =>
      simp only at hrun
      split at hrun
      · cases hrun
        exact h1
      simp only [Option.bind_eq_bind, Option.bind_eq_some_iff] at hrun
      obtain ⟨⟨m2, q2⟩, hopen, hrun⟩ := hrun
      have hsteps := (openOrCreate_leadsTo h1.wf hopen).1
      have h2 := h1.kept (hsteps.endKept h1.wf h1.regular)
      cases q2 with
      | error r =>
          cases hrun
          exact h2
      | ok g =>
          have hg := hopens m2 g hopen
          subst hg
          simp only [Option.bind_eq_some_iff] at hrun
          obtain ⟨m3, htrunc, ⟨m4, q4⟩, hagain, hrun⟩ := hrun
          have h3 : AgreesInv g m3 := by
            rw [truncateOpened] at htrunc
            split at htrunc
            · cases htrunc
              exact h2
            · exact h2.setSize (by decide) htrunc
          have hsteps' := (fileOpen_leadsTo h3.wf hagain).1
          have h4 := h3.kept (hsteps'.endKept h3.wf h3.regular)
          cases q4 with
          | error r =>
              cases hrun
              exact h4
          | ok g' =>
              cases hrun
              exact h4.sameDisk (sameDisk_fillFd (sameDisk_fd (openfileAlloc_ok halloc).lt))

/-- A request on `f`: the size is one of a file, a write ends where a file can end, a read stays in
the page. -/
inductive ServedOn (f : Nat) (page : Bool) (s : Server) (m : Mem) : BitVec 32 → Prop
  | setSize {o : OpenFile} (ho : openfileLookup s (reqFileid m fsreq) = .ok o) (hfile : o.file = f)
      (hsize : (m.read32 (fsreq + 4)).toNat ≤ maxfilesize) : ServedOn f page s m fsreqSetSize
  | write {o : OpenFile} (ho : openfileLookup s (reqFileid m fsreq) = .ok o) (hfile : o.file = f)
      (hend : (fdOffset m o + reqN m fsreq).toNat ≤ maxfilesize) : ServedOn f page s m fsreqWrite
  | read {o : OpenFile} (ho : openfileLookup s (reqFileid m fsreq) = .ok o) (hfile : o.file = f)
      (hsafe : ReadSafe m f (fdOffset m o) (reqN m fsreq)) : ServedOn f page s m fsreqRead
  | open (hopens : OpensFile page s m f) : ServedOn f page s m fsreqOpen

/-- The seek position is not on the disk. -/
theorem AgreesInv.copied {buf : Nat}
    {copy : Mem → Nat → Nat → BitVec 32 → BitVec 32 → Option (Mem × Nat × Int)} {o : OpenFile}
    (ho : openfileLookup s (reqFileid m fsreq) = .ok o)
    (hcopy : ∀ m1, copy m o.file buf (reqN m fsreq) (fdOffset m o) = some (m1, e, r) →
      AgreesInv f m1)
    (hrun : serveCopy copy s m fsreq buf = some (m', e, r)) : AgreesInv f m' := by
  obtain ⟨m1, hcall, rfl⟩ := serveCopy_ok ho hrun
  have h1 := hcopy m1 hcall
  split
  · exact h1
  · have hfd := openfileLookup_fd ho
    exact h1.sameDisk (sameDisk_write32 (by omega) _)

theorem AgreesInv.served (h : AgreesInv f m) (hok : ServedOn f page s m req)
    (hrun : serve page s m req = some reply) : AgreesInv f reply.mem := by
  cases hok with
  | setSize ho hfile hsize =>
      obtain ⟨⟨m1, r⟩, hcall, rfl⟩ := Option.map_eq_some_iff.mp hrun
      simp only [serveSetSize, ho, hfile] at hcall
      obtain ⟨m2, hset, hcall⟩ := Option.map_eq_some_iff.mp hcall
      cases hcall
      exact h.setSize hsize hset
  | write ho hfile hend =>
      obtain ⟨⟨m1, e, r⟩, hcall, rfl⟩ := Option.map_eq_some_iff.mp hrun
      refine AgreesInv.copied ho (fun m2 hwrite => ?_) hcall
      rw [hfile] at hwrite
      obtain ⟨hk, ha⟩ := fileWrite_sizeAgrees h.wf h.regular h.agrees hend hwrite
      exact ⟨hk.wf, hk.regular h.regular, ha⟩
  | read ho hfile hsafe =>
      obtain ⟨⟨m1, e, r⟩, hcall, rfl⟩ := Option.map_eq_some_iff.mp hrun
      refine AgreesInv.copied ho (fun m2 hread => ?_) hcall
      rw [hfile] at hread
      exact h.kept (fileRead_endKept h.wf h.regular h.agrees.size_le hsafe hread)
  | «open» hopens =>
      rw [serve, if_pos rfl] at hrun
      exact h.serveOpen hopens hrun

theorem AgreesInv.run {s0 : Server} {m0 : Mem} (h : AgreesInv f m0)
    (hrun : Serves (ServedOn f) s0 m0 s m) : AgreesInv f m := by
  induction hrun with
  | start => exact h
  | clients _ hc ih => exact ih.sameDisk hc.disk
  | request _ hok hrun ih => exact ih.served hok hrun

/-- In every run whose requests keep to the sizes of files, the size and the block list of `f`
agree, and truncating it to nothing gives all its blocks back. -/
theorem size_and_blocks_agree {s0 : Server} {m0 : Mem} (hw : Wf m0) (hf : Regular m0 f)
    (h : SizeAgrees m0 f) (hrun : Serves (ServedOn f) s0 m0 s m) :
    SizeAgrees m f ∧ ∃ m', fileSetSize m f 0#32 = some m' ∧ Emptied m f m' := by
  have hinv := AgreesInv.run ⟨hw, hf, h⟩ hrun
  exact ⟨hinv.agrees, hinv.agrees.emptied hinv.wf hinv.regular⟩

end

/-! ## The small disk -/

theorem smallReq_agrees (n : BitVec 32) : Regular (smallReq n) smallFile ∧
    SizeAgrees (smallReq n) smallFile := by
  have hsize : fSize smallDisk smallFile = 5000#32 := by decide +kernel
  have hagree : SizeAgrees smallDisk smallFile := by
    refine ⟨by rw [hsize]; decide, fun k _ hle => smallFile_blockPtr ?_, fun _ => by decide +kernel⟩
    rw [hsize, show sizeBlocks 5000#32 = 2 by decide] at hle
    exact hle
  have hkept := (smallReq_sameDisk n).endKept smallDisk_wf smallFile_fileAt
  exact ⟨hkept.kept.regular smallFile_regular, hagree.kept hkept⟩

theorem smallReq_lookup {m : Mem} (h : reqFileid m fsreq = 1024#32) :
    openfileLookup smallServer (reqFileid m fsreq) = .ok (smallServer.opentab 0) := by
  rw [h, openfileLookup, if_neg (by decide +kernel)]
  congr

theorem smallServer_setSize {m m' : Mem} (hid : reqFileid m fsreq = 1024#32)
    (hset : fileSetSize m smallFile (m.read32 (fsreq + 4)) = some m') :
    serve true smallServer m fsreqSetSize = some ⟨smallServer, m', 0, none⟩ := by
  rw [serve, if_neg (by decide), if_pos rfl, serveSetSize, smallReq_lookup hid]
  simp only
  rw [show (smallServer.opentab 0).file = smallFile from rfl, hset]
  rfl

/-- The small file is cut off to 100 bytes by a request, and then to nothing. -/
theorem size_and_blocks_agree_small : ∃ m m',
    serve true smallServer (smallReq 100#32) fsreqSetSize = some ⟨smallServer, m, 0, none⟩ ∧
      fileSetSize m smallFile 0#32 = some m' ∧ Emptied m smallFile m' := by
  have hid : reqFileid (smallReq 100#32) fsreq = 1024#32 := by decide +kernel
  have hreq : (smallReq 100#32).read32 (fsreq + 4) = 100#32 := by decide +kernel
  have hw := (smallReq_wf 100#32).1
  obtain ⟨hf, hagree⟩ := smallReq_agrees 100#32
  obtain ⟨m, hset, _⟩ := fileSetSize_resized 100#32 hw hf hagree.size_le (by decide)
  rw [← hreq] at hset
  have hserve := smallServer_setSize hid hset
  have hok : ServedOn smallFile true smallServer (smallReq 100#32) fsreqSetSize :=
    .setSize (smallReq_lookup hid) rfl (by rw [hreq]; decide)
  obtain ⟨_, m', hempty, hfree⟩ := size_and_blocks_agree hw hf hagree (.request .start hok hserve)
  exact ⟨m, m', hserve, hempty, hfree⟩

/-- A request with the size -8191 and one with the size 0: the file is empty with its two blocks,
and truncating it does not give them back. -/
theorem negative_size_strands : Wf (smallReq (-8191#32)) ∧ Regular (smallReq (-8191#32)) smallFile ∧
    SizeAgrees (smallReq (-8191#32)) smallFile ∧
    ∃ m1 m2, Serves (fun _ s m req => req = fsreqSetSize ∧
        ∃ o, openfileLookup s (reqFileid m fsreq) = .ok o ∧ o.file = smallFile)
        smallServer (smallReq (-8191#32)) smallServer m1 ∧
      (fSize m1 smallFile).toInt = -8191 ∧
      Serves (fun _ s m req => req = fsreqSetSize ∧
        ∃ o, openfileLookup s (reqFileid m fsreq) = .ok o ∧ o.file = smallFile)
        smallServer (smallReq (-8191#32)) smallServer m2 ∧
      fSize m2 smallFile = 0#32 ∧ blockPtr m2 smallFile 0 = 4 ∧ ¬ SizeAgrees m2 smallFile ∧
      ∃ m3, fileSetSize m2 smallFile 0#32 = some m3 ∧ ¬ bitSet m3 4 := by
  have hid : reqFileid (smallReq (-8191#32)) fsreq = 1024#32 := by decide +kernel
  obtain ⟨hf, hagree⟩ := smallReq_agrees (-8191#32)
  have hrun : (fileSetSize (smallReq (-8191#32)) smallFile
      ((smallReq (-8191#32)).read32 (fsreq + 4))).any (fun m1 =>
        (fSize m1 smallFile).toInt = -8191 ∧
        reqFileid (m1.write32 (fsreq + 4) 0#32) fsreq = 1024#32 ∧
        (fileSetSize (m1.write32 (fsreq + 4) 0#32) smallFile
          ((m1.write32 (fsreq + 4) 0#32).read32 (fsreq + 4))).any fun m2 =>
            fSize m2 smallFile = 0#32 ∧ blockPtr m2 smallFile 0 = 4 ∧
              (fileSetSize m2 smallFile 0#32).any fun m3 => ¬ bitSet m3 4) = true := by
    decide +kernel
  simp only [Option.any_eq_true, decide_eq_true_eq] at hrun
  obtain ⟨m1, hset1, hsize1, hid2, m2, hset2, hsize2, hptr, m3, hset3, hused⟩ := hrun
  have hon : ∀ m, reqFileid m fsreq = 1024#32 → fsreqSetSize = fsreqSetSize ∧
      ∃ o, openfileLookup smallServer (reqFileid m fsreq) = .ok o ∧ o.file = smallFile :=
    fun m h => ⟨rfl, _, smallReq_lookup h, rfl⟩
  have hserves : Serves (fun _ s m req => req = fsreqSetSize ∧
      ∃ o, openfileLookup s (reqFileid m fsreq) = .ok o ∧ o.file = smallFile)
      smallServer (smallReq (-8191#32)) smallServer m1 :=
    .request .start (hon _ hid) (smallServer_setSize hid hset1)
  have hclients : Clients smallServer m1 smallServer (m1.write32 (fsreq + 4) 0#32) := by
    refine ⟨rfl, fun _ _ _ => rfl, fun x hx _ => Mem.write32_of_disjoint _ _ (Or.inr ?_)⟩
    have : fsreq + 4096 = diskmap := rfl
    omega
  refine ⟨(smallReq_wf _).1, hf, hagree, m1, m2, hserves, hsize1,
    .request (.clients hserves hclients) (hon _ hid2) (smallServer_setSize hid2 hset2),
    hsize2, hptr, fun h => ?_, m3, hset3, hused⟩
  have hzero := h.ptr 0 (by decide) (by rw [hsize2]; decide)
  omega

end Jos.Fs
