import Jos.Fs.Bytes

/-!
# Reading and writing files

The loop of `file_read` and `file_write` goes through a file block by block. The variables
`pos` and `offset` are signed, `count` and the comparison are unsigned; on the positions of a
file, which are below `MAXFILESIZE`, this makes no difference.
-/

namespace Jos.Fs

open Jos.Lib

/-! ## Positions -/

section

variable {pos ending : BitVec 32}

theorem msb_eq_false (h : pos.toNat < 2147483648) : pos.msb = false := by
  rw [BitVec.msb_eq_false_iff_two_mul_lt]
  omega

theorem sdiv_block (h : pos.toNat < 2147483648) :
    (pos.sdiv 4096#32).toNat = pos.toNat / 4096 := by
  rw [BitVec.sdiv_eq, msb_eq_false h, show (4096#32).msb = false from rfl]
  exact BitVec.toNat_udiv

theorem srem_block (h : pos.toNat < 2147483648) :
    (pos.srem 4096#32).toNat = pos.toNat % 4096 := by
  rw [BitVec.srem_eq, msb_eq_false h, show (4096#32).msb = false from rfl]
  exact BitVec.toNat_umod

theorem chunk_toNat (ending : BitVec 32) (h : pos.toNat < 2147483648) (hlt : pos.toNat < ending.toNat) :
    (chunk pos ending).toNat = min (4096 - pos.toNat % 4096) (ending.toNat - pos.toNat) := by
  have hmod := srem_block h
  have ha : (4096#32 - pos.srem 4096#32).toNat = 4096 - pos.toNat % 4096 := by
    rw [BitVec.toNat_sub_of_le (by rw [BitVec.le_def, hmod]; simp only [BitVec.toNat_ofNat]; omega),
      hmod]
    rfl
  have hb : (ending - pos).toNat = ending.toNat - pos.toNat :=
    BitVec.toNat_sub_of_le (by rw [BitVec.le_def]; omega)
  rw [chunk]
  split
  · rename_i hle
    rw [BitVec.le_def, ha, hb] at hle
    rw [ha]
    omega
  · rename_i hle
    rw [BitVec.le_def, ha, hb] at hle
    rw [hb]
    omega

theorem blkPos_eq (pos : BitVec 32) {blk : Nat} (h : pos.toNat < 2147483648) (hblk : blk + 4096 ≤ 4294967296) :
    blkPos blk pos = blk + pos.toNat % 4096 := by
  rw [blkPos, BitVec.toNat_add, srem_block h, BitVec.toNat_ofNat]
  omega

end

/-- Where the loop from `pos` to `ending` stops: at the end of the largest file at the latest. -/
def stopAt (pos ending : Nat) : Nat := max pos (min ending maxfilesize)

theorem maxfilesize_lt : maxfilesize < 2147483648 := by
  simp only [maxfilesize]
  omega

theorem lt_stopAt {p e : Nat} : p < stopAt p e ↔ p < e ∧ p < maxfilesize := by
  simp only [stopAt]
  omega

theorem stopAt_of_not_lt {p e : Nat} (h : ¬ (p < e ∧ p < maxfilesize)) : stopAt p e = p := by
  apply Nat.le_antisymm _ (Nat.le_max_left _ _)
  exact Nat.not_lt.mp fun hlt => h (lt_stopAt.mp hlt)

theorem stopAt_of_lt {p e : Nat} (h : p < e) (h' : p < maxfilesize) :
    stopAt p e = min e maxfilesize :=
  Nat.max_eq_right (Nat.le_of_lt (Nat.lt_min.mpr ⟨h, h'⟩))

theorem stopAt_add (p n : Nat) : stopAt p (p + n) = p + min n (maxfilesize - p) := by
  simp only [stopAt]
  omega

/-- One round of the loop, of `n` bytes from `p` on the way to `stop`. -/
structure RoundTo (p n stop : Nat) : Prop where
  pos : 0 < n
  inBlock : p % 4096 + n ≤ 4096
  le : p + n ≤ stop
  next : p + n < stop → (p + n) / 4096 = p / 4096 + 1

theorem RoundTo.lt_rounds {p n stop : Nat} (h : RoundTo p n stop) : p / 4096 < (stop + 4095) / 4096 := by
  have h1 := h.pos
  have h2 := h.le
  omega

theorem RoundTo.last {p n stop : Nat} (h : RoundTo p n stop) (hlast : ¬ p + n < stop) :
    (stop + 4095) / 4096 = p / 4096 + 1 := by
  have h1 := h.pos
  have h2 := h.inBlock
  have h3 := h.le
  omega

section

variable {pos ending : BitVec 32}

/-- The largest file ends with a block, so a round does not go past it. -/
theorem chunk_round (hpos : pos.toNat < 2147483648)
    (hlt : pos.toNat < ending.toNat) (hi : pos.toNat < maxfilesize) :
    RoundTo pos.toNat (chunk pos ending).toNat (stopAt pos.toNat ending.toNat) := by
  have hchunk := chunk_toNat ending hpos hlt
  rw [stopAt_of_lt hlt hi]
  simp only [maxfilesize] at hi ⊢
  generalize (chunk pos ending).toNat = n at hchunk ⊢
  exact ⟨by omega, by omega, by omega, by omega⟩

theorem chunk_next (hpos : pos.toNat < 2147483648)
    (hlt : pos.toNat < ending.toNat) (hi : pos.toNat < maxfilesize) :
    (pos + chunk pos ending).toNat = pos.toNat + (chunk pos ending).toNat := by
  have hle := (chunk_round hpos hlt hi).le
  have hend : stopAt pos.toNat ending.toNat ≤ ending.toNat := by
    rw [stopAt_of_lt hlt hi]
    exact Nat.min_le_left _ _
  rw [BitVec.toNat_add]
  exact Nat.mod_eq_of_lt (Nat.lt_of_le_of_lt (Nat.le_trans hle hend) ending.isLt)

theorem stopAt_chunk (hpos : pos.toNat < 2147483648)
    (hlt : pos.toNat < ending.toNat) (hi : pos.toNat < maxfilesize) :
    stopAt (pos + chunk pos ending).toNat ending.toNat = stopAt pos.toNat ending.toNat := by
  have hle := (chunk_round hpos hlt hi).le
  rw [chunk_next hpos hlt hi]
  rw [stopAt_of_lt hlt hi] at hle ⊢
  exact Nat.max_eq_right hle

end

/-- The outcome of the loop that stops at `stop`. -/
def loopResult (stop ending : Nat) : Except Int Unit :=
  if ending ≤ stop then .ok () else .error (-eInval)

/-! ## How far the loop goes -/

section

variable {m m' : Mem} {f buf buf' : Nat} {copy : Mem → Nat → Nat → Nat → Mem}

theorem fileBlockWalk_ok {bno : BitVec 32} {r : Except Int Nat}
    (h : fileBlockWalk m f bno true = some (m', r)) (hi : bno.toNat < maxblocks) :
    ∃ slot, r = .ok slot := by
  rw [fileBlockWalk, if_neg (by omega)] at h
  split at h
  · cases h
    exact ⟨_, rfl⟩
  · rw [if_neg (by simp)] at h
    split at h
    all_goals
      simp only [Option.bind_eq_bind, Option.bind_eq_some_iff] at h
      obtain ⟨m1, _, a, _, heq⟩ := h
      cases heq
      exact ⟨_, rfl⟩

/-- `file_get_block` fails only for a block number that is too large. -/
theorem fileGetBlock_ok {bno : BitVec 32} {r : Except Int Nat}
    (h : fileGetBlock m f bno = some (m', r)) (hi : bno.toNat < maxblocks) : ∃ a, r = .ok a := by
  simp only [fileGetBlock, Option.bind_eq_bind, Option.bind_eq_some_iff] at h
  obtain ⟨⟨m1, q⟩, hwalk, h⟩ := h
  obtain ⟨slot, rfl⟩ := fileBlockWalk_ok hwalk hi
  simp only at h
  split at h
  all_goals
    simp only [Option.bind_eq_some_iff] at h
    obtain ⟨m2, _, a, _, heq⟩ := h
    cases heq
    exact ⟨_, rfl⟩

/-- When the loop returns, it has gone as far as it could, whatever was in memory. -/
theorem copyLoop_end {fuel : Nat} {pos ending : BitVec 32} {r : Except Int Unit}
    (hpos : pos.toNat < 2147483648)
    (h : copyLoop copy f ending fuel m buf pos = some (m', buf', r)) :
    buf' = buf + (stopAt pos.toNat ending.toNat - pos.toNat) ∧
      r = loopResult (stopAt pos.toNat ending.toNat) ending.toNat := by
  induction fuel generalizing m buf pos with
  | zero => cases h
  | succ fuel ih =>
      rw [copyLoop] at h
      split at h
      · rename_i hlt
        rw [BitVec.lt_def] at hlt
        simp only [Option.bind_eq_bind, Option.bind_eq_some_iff] at h
        obtain ⟨⟨m1, q⟩, hget, h⟩ := h
        by_cases hi : pos.toNat < maxfilesize
        · have hblk : (pos.sdiv 4096#32).toNat < maxblocks := by
            rw [sdiv_block hpos]
            exact block_lt hi
          obtain ⟨a, rfl⟩ := fileGetBlock_ok hget hblk
          have hround := chunk_round hpos hlt hi
          have hle := hround.le
          have hmax : stopAt pos.toNat ending.toNat ≤ maxfilesize := by
            rw [stopAt_of_lt hlt hi]
            exact Nat.min_le_right _ _
          obtain ⟨h1, h2⟩ := ih (by
            rw [chunk_next hpos hlt hi]
            exact Nat.lt_of_le_of_lt (Nat.le_trans hle hmax) maxfilesize_lt) h
          rw [stopAt_chunk hpos hlt hi] at h1 h2
          refine ⟨?_, h2⟩
          have hsum : (chunk pos ending).toNat +
              (stopAt pos.toNat ending.toNat - (pos.toNat + (chunk pos ending).toNat)) =
              stopAt pos.toNat ending.toNat - pos.toNat := by omega
          rw [h1, chunk_next hpos hlt hi, Nat.add_assoc, hsum]
        · have hblk : maxblocks ≤ (pos.sdiv 4096#32).toNat := by
            rw [sdiv_block hpos]
            simp only [maxfilesize, maxblocks] at hi ⊢
            omega
          rw [fileGetBlock_large hblk] at hget
          cases hget
          cases h
          rw [stopAt_of_not_lt fun hc => hi hc.2, loopResult, if_neg (Nat.not_le.mpr hlt), Nat.sub_self]
          exact ⟨rfl, rfl⟩
      · rename_i hge
        rw [BitVec.lt_def] at hge
        cases h
        rw [stopAt_of_not_lt fun hc => hge hc.1, loopResult, if_pos (Nat.not_lt.mp hge), Nat.sub_self]
        exact ⟨rfl, rfl⟩

end

/-! ## The blocks that the loop needs -/

/-- The number of blocks to take until `f` has the blocks from `i` up to `k`. -/
def missing (m : Mem) (f i k : Nat) : Nat :=
  ((List.range' i (k - i)).filter fun j => blockPtr m f j = 0).length +
    if i < k ∧ ndirect < k ∧ indirect m f = 0#32 then 1 else 0

section

variable {m m' m1 : Mem} {f buf i k n : Nat}

theorem missing_congr (hptr : ∀ j < maxblocks, blockPtr m' f j = blockPtr m f j)
    (hind : indirect m' f = indirect m f) (hk : k ≤ maxblocks) :
    missing m' f i k = missing m f i k := by
  rw [missing, missing, hind]
  congr 2
  refine List.filter_congr fun j hj => ?_
  rw [hptr j (by rw [List.mem_range'_1] at hj; omega)]

theorem filter_range_succ (P : Nat → Bool) (hik : i < k) :
    ((List.range' i (k - i)).filter P).length =
      (if P i = true then 1 else 0) + ((List.range' (i + 1) (k - (i + 1))).filter P).length := by
  rw [show k - i = k - (i + 1) + 1 by omega, List.range'_succ, List.filter_cons]
  split
  · rw [List.length_cons, Nat.add_comm]
  · rw [Nat.zero_add]

theorem blockNeed_le_missing (hik : i < k) : blockNeed m f i ≤ missing m f i k := by
  have hind : walkNeed m f i ≤ if i < k ∧ ndirect < k ∧ indirect m f = 0#32 then 1 else 0 := by
    rw [walkNeed]
    split
    · rename_i hc
      rw [if_pos ⟨hik, by omega, hc.2⟩]
    · exact Nat.zero_le _
  rw [missing, filter_range_succ _ hik, blockNeed]
  simp only [decide_eq_true_eq]
  omega

/-- What one block needs, and the rest. -/
theorem GotBlock.missing_eq (h : GotBlock m f i m') (hik : i < k) (hk : k ≤ maxblocks) :
    missing m f i k = blockNeed m f i + missing m' f (i + 1) k := by
  have hrest : (List.range' (i + 1) (k - (i + 1))).filter (fun j => blockPtr m' f j = 0) =
      (List.range' (i + 1) (k - (i + 1))).filter (fun j => blockPtr m f j = 0) := by
    refine List.filter_congr fun j hj => ?_
    rw [List.mem_range'_1] at hj
    rw [h.ptr_other j (by omega) (by omega)]
  have hind : (if i < k ∧ ndirect < k ∧ indirect m f = 0#32 then 1 else 0) = walkNeed m f i +
      if i + 1 < k ∧ ndirect < k ∧ indirect m' f = 0#32 then 1 else 0 := by
    rw [walkNeed]
    by_cases hge : ndirect ≤ i
    · have hne : ¬ (i + 1 < k ∧ ndirect < k ∧ indirect m' f = 0#32) := fun hc =>
        h.indirect_ne hge hc.2.2
      rw [if_neg hne, Nat.add_zero]
      exact if_congr ⟨fun hc => ⟨hge, hc.2.2⟩, fun hc => ⟨hik, by omega, hc.2⟩⟩ rfl rfl
    · have hne : ¬ (ndirect ≤ i ∧ indirect m f = 0#32) := fun hc => hge hc.1
      rw [if_neg hne, Nat.zero_add, h.indirect_eq (by omega)]
      exact if_congr ⟨fun hc => ⟨by omega, hc.2⟩, fun hc => ⟨hik, hc.2⟩⟩ rfl rfl
  rw [missing, missing, hrest, hind, filter_range_succ _ hik, blockNeed]
  simp only [decide_eq_true_eq]
  omega

theorem Unmoved.freeBlocks_eq (h : Unmoved m m') : freeBlocks m' = freeBlocks m := by
  rw [freeBlocks, freeBlocks, h.nblocks]
  refine List.filter_congr fun c hc => ?_
  rw [Bool.eq_iff_iff, blockIsFree_iff, blockIsFree_iff, h.nblocks,
    h.bits c (List.mem_range.mp hc)]

theorem GotBlock.ptr_addr_lt (h : GotBlock m f i m') (hw : Wf m) (hf : FileAt m f)
    (hi : i < maxblocks) : blockAddr (blockPtr m' f i) + 4096 ≤ 4294967296 := by
  have hw' := h.grows.wf hw
  have := (hw'.data_inBody (h.grows.fileAt hw hf) hi h.ptr_ne).in_disk hw'
  have hdisk : diskmap + disksize = 3489660928 := rfl
  omega

end

/-! ## The rule of the loop -/

section

variable {m : Mem} {f buf : Nat} {copy : Mem → Nat → Nat → Nat → Mem} {pos ending : BitVec 32}

/-- Outside the positions of a file the loop stops at once. -/
theorem copyLoop_stop {fuel : Nat} (hpos : pos.toNat < 2147483648)
    (hstop : stopAt pos.toNat ending.toNat = pos.toNat) :
    copyLoop copy f ending (fuel + 1) m buf pos =
      some (m, buf, loopResult pos.toNat ending.toNat) := by
  rw [copyLoop]
  split
  · rename_i hlt
    rw [BitVec.lt_def] at hlt
    have hblk : maxblocks ≤ (pos.sdiv 4096#32).toNat := by
      rw [sdiv_block hpos]
      simp only [stopAt, maxfilesize, maxblocks] at hstop ⊢
      omega
    rw [fileGetBlock_large hblk, loopResult, if_neg (by omega)]
    rfl
  · rename_i hge
    rw [BitVec.lt_def] at hge
    rw [loopResult, if_pos (by omega)]

/-- `Q pos buf m` holds before a round at position `pos` of the file and `buf` of the buffer.
If every round keeps it and moves no block, then the loop ends with it, if and only if the disk has
the blocks. -/
theorem copyLoop_exact {Q : Nat → Nat → Mem → Prop}
    (hwf : ∀ {p b m}, Q p b m → Wf m ∧ FileAt m f)
    (hround : ∀ {p b m m1 n}, Q p b m → GotBlock m f (p / 4096) m1 → 0 < n →
      p % 4096 + n ≤ 4096 → p + n ≤ ending.toNat → p + n ≤ maxfilesize →
      Unmoved m1 (copy m1 b (byteAddr m1 f p) n) ∧ Q (p + n) (b + n) (copy m1 b (byteAddr m1 f p) n))
    {fuel stop : Nat} (hpos : pos.toNat < 2147483648)
    (hstop : stopAt pos.toNat ending.toNat = stop) (hfuel : 0 < fuel)
    (hfuel' : pos.toNat < stop → (stop + 4095) / 4096 - pos.toNat / 4096 < fuel)
    (hQ : Q pos.toNat buf m) :
    (pos.toNat < stop ∧
        (freeBlocks m).length < missing m f (pos.toNat / 4096) ((stop + 4095) / 4096) ∧
        copyLoop copy f ending fuel m buf pos = none) ∨
      ∃ m', copyLoop copy f ending fuel m buf pos =
          some (m', buf + (stop - pos.toNat), loopResult stop ending.toNat) ∧
        Q stop (buf + (stop - pos.toNat)) m' ∧ (pos.toNat < stop →
          missing m f (pos.toNat / 4096) ((stop + 4095) / 4096) ≤ (freeBlocks m).length) := by
  induction fuel generalizing m buf pos with
  | zero => omega
  | succ fuel ih =>
      by_cases hlt : pos.toNat < stop
      · obtain ⟨hend, hmax⟩ := lt_stopAt.mp (hstop.symm ▸ hlt)
        have hround' := chunk_round hpos hend hmax
        have hnext := chunk_next hpos hend hmax
        have hstop' := stopAt_chunk hpos hend hmax
        have hi : pos.toNat / 4096 < maxblocks := block_lt hmax
        have hle : stopAt pos.toNat ending.toNat ≤ ending.toNat ∧
            stopAt pos.toNat ending.toNat ≤ maxfilesize := by
          rw [stopAt_of_lt hend hmax]
          exact ⟨Nat.min_le_left _ _, Nat.min_le_right _ _⟩
        rw [hstop] at hround' hstop' hle
        have hfuel1 := hfuel' hlt
        have hk : (stop + 4095) / 4096 ≤ maxblocks :=
          Nat.div_le_div_right (Nat.add_le_add_right hle.2 4095)
        have hsdiv := sdiv_block hpos
        obtain ⟨hw, hf⟩ := hwf hQ
        rw [copyLoop, if_pos (BitVec.lt_def.mpr hend)]
        rcases fileGetBlock_cases (pos.sdiv 4096#32) hw hf (by rw [hsdiv]; exact hi) with
          ⟨hfull, hnone⟩ | ⟨m1, hsome, hgot⟩
        · refine Or.inl ⟨hlt, ?_, by rw [hnone]; rfl⟩
          rw [hsdiv] at hfull
          exact Nat.lt_of_lt_of_le hfull (blockNeed_le_missing hround'.lt_rounds)
        · rw [hsdiv] at hsome hgot
          have haddr := blkPos_eq pos hpos (hgot.ptr_addr_lt hw hf hi)
          have hstepQ := hround hQ hgot hround'.pos hround'.inBlock
            (Nat.le_trans hround'.le hle.1) (Nat.le_trans hround'.le hle.2)
          rw [show byteAddr m1 f pos.toNat = blkPos (blockAddr (blockPtr m1 f (pos.toNat / 4096))) pos
            from haddr.symm] at hstepQ
          obtain ⟨hun, hQ'⟩ := hstepQ
          rw [← hnext] at hQ'
          rw [hsome]
          simp only [Option.bind_eq_bind, Option.bind_some]
          have hlen := hgot.grows.freeBlocks_length hw
          have hneed := hgot.missing_eq hround'.lt_rounds hk
          have hsame := missing_congr (i := pos.toNat / 4096 + 1)
            (fun j hj => hun.blockPtr_eq (hgot.grows.fileAt hw hf) hj)
            (hun.indirect_eq (hgot.grows.fileAt hw hf)) hk
          have hfree := hun.freeBlocks_eq
          have hrounds := hround'.lt_rounds
          have hbuf : buf + (chunk pos ending).toNat + (stop - (pos + chunk pos ending).toNat) =
              buf + (stop - pos.toNat) := by
            rw [hnext]
            have hle' := hround'.le
            omega
          have hsmall : (pos + chunk pos ending).toNat < 2147483648 := by
            rw [hnext]
            exact Nat.lt_of_le_of_lt (Nat.le_trans hround'.le hle.2) maxfilesize_lt
          by_cases hlt' : (pos + chunk pos ending).toNat < stop
          · have hblock : (pos + chunk pos ending).toNat / 4096 = pos.toNat / 4096 + 1 := by
              rw [hnext] at hlt' ⊢
              exact hround'.next hlt'
            have ih' := ih hsmall hstop' (by omega) (fun _ => by omega) hQ'
            rw [hblock, hsame, hfree, hbuf] at ih'
            rcases ih' with ⟨_, hfull, hnone⟩ | ⟨m', hend, hQend, hroom⟩
            · exact Or.inl ⟨hlt, by omega, hnone⟩
            · have hroom' := hroom hlt'
              exact Or.inr ⟨m', hend, hQend, fun _ => by omega⟩
          · -- This was the last block.
            have hlast : missing m1 f (pos.toNat / 4096 + 1) ((stop + 4095) / 4096) = 0 := by
              rw [hround'.last (by rwa [← hnext]), missing, Nat.sub_self,
                if_neg fun hc => Nat.lt_irrefl _ hc.1]
              rfl
            have ih' := ih hsmall hstop' (by omega) (fun hlt'' => absurd hlt'' hlt') hQ'
            rw [hbuf] at ih'
            rcases ih' with ⟨hlt'', _⟩ | ⟨m', hend, hQend, _⟩
            · exact absurd hlt'' hlt'
            · exact Or.inr ⟨m', hend, hQend, fun _ => by omega⟩
      · have hnot : ¬ (pos.toNat < ending.toNat ∧ pos.toNat < maxfilesize) := fun hc =>
          hlt (hstop ▸ lt_stopAt.mpr hc)
        have hstop' : stop = pos.toNat := hstop.symm.trans (stopAt_of_not_lt hnot)
        subst hstop'
        refine Or.inr ⟨m, ?_, ?_, fun hlt' => absurd hlt' hlt⟩
        · rw [copyLoop_stop hpos hstop, Nat.sub_self, Nat.add_zero]
        · rw [Nat.sub_self, Nat.add_zero]
          exact hQ

/-- The loop ends with what every round keeps, unless the disk is too full. -/
theorem copyLoop_rule {Q : Nat → Nat → Mem → Prop}
    (hwf : ∀ {p b m}, Q p b m → Wf m ∧ FileAt m f)
    (hround : ∀ {p b m m1 n}, Q p b m → GotBlock m f (p / 4096) m1 → 0 < n →
      p % 4096 + n ≤ 4096 → p + n ≤ ending.toNat → p + n ≤ maxfilesize →
      Unmoved m1 (copy m1 b (byteAddr m1 f p) n) ∧ Q (p + n) (b + n) (copy m1 b (byteAddr m1 f p) n))
    {fuel stop : Nat} (hpos : pos.toNat < 2147483648)
    (hstop : stopAt pos.toNat ending.toNat = stop) (hfuel : 0 < fuel)
    (hfuel' : pos.toNat < stop → (stop + 4095) / 4096 - pos.toNat / 4096 < fuel)
    (hQ : Q pos.toNat buf m) :
    (pos.toNat < stop ∧
        (freeBlocks m).length < missing m f (pos.toNat / 4096) ((stop + 4095) / 4096) ∧
        copyLoop copy f ending fuel m buf pos = none) ∨
      ∃ m', copyLoop copy f ending fuel m buf pos =
          some (m', buf + (stop - pos.toNat), loopResult stop ending.toNat) ∧
        Q stop (buf + (stop - pos.toNat)) m' := by
  rcases copyLoop_exact (Q := Q) hwf hround hpos hstop hfuel hfuel' hQ with h | ⟨m', hrun, hQ', _⟩
  · exact Or.inl h
  · exact Or.inr ⟨m', hrun, hQ'⟩

end

/-! ## What a round does -/

/-- The bytes from `buf` on are not on the disk. -/
def Beside (buf n : Nat) : Prop := buf + n ≤ diskmap ∨ diskmap + disksize ≤ buf

/-- The bytes of `f` from `start` to `pos` have been copied to `buf`; `b` is the end of the copy. -/
structure ReadTo (m0 : Mem) (f buf start pos b : Nat) (m : Mem) : Prop where
  wf : Wf m
  file : FileAt m f
  le : start ≤ pos
  buf_eq : b = buf + (pos - start)
  same : ∀ i < maxfilesize, fileByte m f i = fileByte m0 f i
  copied : ∀ j < pos - start, m (buf + j) = fileByte m0 f (start + j)
  outside : ∀ x, (x < diskmap ∨ diskmap + disksize ≤ x) → (x < buf ∨ b ≤ x) → m x = m0 x
  rewritten : fType m0 f ≠ ftypeDir → Rewritten f (fSize m0 f) (fun _ => False) m0 m

/-- The bytes from `buf` to `b` have been copied to the positions from `start` to `pos` of `f`. -/
structure WrittenTo (m0 : Mem) (f buf start pos b : Nat) (m : Mem) : Prop where
  file : FileAt m f
  le : start ≤ pos
  buf_eq : b = buf + (pos - start)
  rewritten : Rewritten f (fSize m0 f) (fun i => start ≤ i ∧ i < pos) m0 m
  copied : ∀ i, start ≤ i → i < pos → fileByte m f i = m0 (buf + (i - start))
  outside : OutsideSame m0 m

section

variable {m0 m m1 : Mem} {f buf start pos b n : Nat}

theorem sameDisk_move {dst src : Nat} (h : Beside dst n) : SameDisk m (m.move dst src n) := by
  intro x h1 h2
  refine Mem.move_of_disjoint _ ?_
  rcases h with h | h
  · omega
  · omega

theorem ReadTo.round (h : ReadTo m0 f buf start pos b m) (hgot : GotBlock m f (pos / 4096) m1)
    (hn : pos % 4096 + n ≤ 4096) (hle : pos + n ≤ maxfilesize)
    (hbuf : Beside buf (pos + n - start)) :
    Unmoved m1 (m1.move b (byteAddr m1 f pos) n) ∧
      ReadTo m0 f buf start (pos + n) (b + n) (m1.move b (byteAddr m1 f pos) n) := by
  have hw1 := hgot.grows.wf h.wf
  have hf1 := hgot.grows.fileAt h.wf h.file
  have hb := h.buf_eq
  have hs := h.le
  have hsd : SameDisk m1 (m1.move b (byteAddr m1 f pos) n) := sameDisk_move (by
    simp only [Beside] at hbuf ⊢
    omega)
  have hun := hsd.unmoved hw1
  refine ⟨hun, hun.wf hw1, hun.fileAt_iff.mpr hf1, by omega, by omega, fun i hi => ?_,
    fun j hj => ?_, fun x hx hx' => ?_, fun hreg => ?_⟩
  · rw [hsd.fileByte_eq hw1 hf1 hi, hgot.grows.fileByte_self h.wf h.file hi, h.same i hi]
  · by_cases hjp : j < pos - start
    · rw [Mem.move_of_disjoint _ (by omega), hgot.grows.outside h.wf, h.copied j hjp]
      simp only [Beside] at hbuf
      omega
    · -- The byte is among those copied in this round.
      rw [Mem.move_of_mem _ (by omega) (by omega), show buf + j - b = start + j - pos by omega,
        ← byteAddr_add (by omega) (by omega), ← h.same _ (by omega),
        ← hgot.grows.fileByte_self h.wf h.file (by omega), fileByte, if_neg]
      rw [show (start + j) / 4096 = pos / 4096 by omega]
      exact hgot.ptr_ne
  · rw [Mem.move_of_disjoint _ (by omega), hgot.grows.outside h.wf x hx]
    exact h.outside x hx (by omega)
  · have h0 := h.rewritten hreg
    have hf0 := (h0.files f).mp h.file
    have hreg' : fType m f ≠ ftypeDir := by
      rw [h0.type f hf0]
      exact hreg
    have h1 := h0.next hf0 (hgot.grows.rewritten h.wf h.file hreg')
    exact (h1.next hf0 (hsd.rewritten hw1 f)).mono (by simp)

theorem WrittenTo.round (h : WrittenTo m0 f buf start pos b m) (hreg : fType m0 f ≠ ftypeDir)
    (hgot : GotBlock m f (pos / 4096) m1) (hn : pos % 4096 + n ≤ 4096) (hn0 : 0 < n)
    (hle : pos + n ≤ maxfilesize) (hbuf : Beside buf (pos + n - start)) :
    Unmoved m1 (m1.move (byteAddr m1 f pos) b n) ∧
      WrittenTo m0 f buf start (pos + n) (b + n) (m1.move (byteAddr m1 f pos) b n) := by
  have h0 := h.rewritten
  have hw := h0.wf
  have hf0 := (h0.files f).mp h.file
  have hreg' : fType m f ≠ ftypeDir := by
    rw [h0.type f hf0]
    exact hreg
  have hw1 := hgot.grows.wf hw
  have hf1 := hgot.grows.fileAt hw h.file
  have hreg1 : fType m1 f ≠ ftypeDir := by
    rw [hgot.grows.type_eq hw h.file]
    exact hreg'
  have hi : pos / 4096 < maxblocks := block_lt (by omega)
  have hb := h.buf_eq
  have hs := h.le
  have hun := (unmoved_data (n := n) (a := byteAddr m1 f pos) b hw1 hf1 hreg1 hi
    hgot.ptr_ne (by rw [byteAddr]; omega) (by rw [byteAddr]; omega)).1
  obtain ⟨hdata, hcopied⟩ := rewritten_data b hw1 hf1 hreg1 hle hn hn0 hgot.ptr_ne
  refine ⟨hun, hun.fileAt_iff.mpr hf1, by omega, by omega, ?_, fun i h1 h2 => ?_, fun x hx => ?_⟩
  · have h1 := h0.next hf0 (hgot.grows.rewritten hw h.file hreg')
    refine (h1.next hf0 hdata).mono ?_
    rintro i ((hR | hF) | hR)
    · exact ⟨hR.1, by omega⟩
    · exact hF.elim
    · exact ⟨by omega, hR.2⟩
  · by_cases hip : i < pos
    · rw [hdata.byte f i hf1 (by omega) (hw1.not_inEntry_self hf1 (by omega)) (by omega),
        hgot.grows.fileByte_self hw h.file (by omega), h.copied i h1 hip]
    · simp only [Beside] at hbuf
      rw [hcopied i (by omega) h2, hgot.grows.outside hw _ (by omega), h.outside _ (by omega),
        show b + (i - pos) = buf + (i - start) by omega]
  · have := (hw1.data_inBody hf1 hi hgot.ptr_ne).in_disk hw1
    rw [Mem.move_of_disjoint _ (by rw [byteAddr]; omega), hgot.grows.outside hw x hx, h.outside x hx]

end

/-! ## The two loops -/

section

variable {m m' : Mem} {f buf buf' : Nat} {pos ending : BitVec 32}

theorem copyFuel_enough {stop : Nat} (hstop : stopAt pos.toNat ending.toNat = stop)
    (hlt : pos.toNat < stop) : (stop + 4095) / 4096 - pos.toNat / 4096 < copyFuel := by
  simp only [stopAt, maxfilesize, copyFuel] at hstop ⊢
  omega

/-- What every round keeps, a loop that ends has kept. -/
theorem copyLoop_keeps {Q : Mem → Prop} {copy : Mem → Nat → Nat → Nat → Mem} {e : Nat}
    {res : Except Int Unit} (hwf : ∀ {m}, Q m → Wf m ∧ FileAt m f)
    (hround : ∀ {p b m m1 n}, Q m → GotBlock m f (p / 4096) m1 → 0 < n → p % 4096 + n ≤ 4096 →
      p + n ≤ ending.toNat → p + n ≤ maxfilesize →
      Unmoved m1 (copy m1 b (byteAddr m1 f p) n) ∧ Q (copy m1 b (byteAddr m1 f p) n))
    (hpos : pos.toNat < 2147483648) (hQ : Q m)
    (h : copyLoop copy f ending copyFuel m buf pos = some (m', e, res)) : Q m' := by
  rcases copyLoop_rule (Q := fun _ _ => Q) hwf hround hpos rfl (by decide) (copyFuel_enough rfl)
    hQ with ⟨_, _, hnone⟩ | ⟨m1, hrun, hQ'⟩
  · rw [hnone] at h
    cases h
  · rw [hrun] at h
    cases h
    exact hQ'

theorem readLoop_cases {stop : Nat} (buf : Nat) (hw : Wf m) (hf : FileAt m f) (hpos : pos.toNat < 2147483648)
    (hstop : stopAt pos.toNat ending.toNat = stop) (hbuf : Beside buf (stop - pos.toNat)) :
    (pos.toNat < stop ∧
        (freeBlocks m).length < missing m f (pos.toNat / 4096) ((stop + 4095) / 4096) ∧
        readLoop f ending copyFuel m buf pos = none) ∨
      ∃ m', readLoop f ending copyFuel m buf pos =
          some (m', buf + (stop - pos.toNat), loopResult stop ending.toNat) ∧
        ReadTo m f buf pos.toNat stop (buf + (stop - pos.toNat)) m' := by
  refine copyLoop_rule (Q := ReadTo m f buf pos.toNat) (fun h => ⟨h.wf, h.file⟩)
    (fun h hgot _ hn hend hmax => h.round hgot hn hmax ?_) hpos hstop (by decide)
    (copyFuel_enough hstop) ⟨hw, hf, Nat.le_refl _, by omega, fun _ _ => rfl, by omega,
      fun _ _ _ => rfl, fun _ => .refl hw⟩
  have := h.le
  simp only [Beside, stopAt] at hbuf hstop ⊢
  omega

theorem writeLoop_cases {stop : Nat} (buf : Nat) (hw : Wf m) (hf : FileAt m f) (hreg : fType m f ≠ ftypeDir)
    (hpos : pos.toNat < 2147483648) (hstop : stopAt pos.toNat ending.toNat = stop)
    (hbuf : Beside buf (stop - pos.toNat)) :
    (pos.toNat < stop ∧
        (freeBlocks m).length < missing m f (pos.toNat / 4096) ((stop + 4095) / 4096) ∧
        writeLoop f ending copyFuel m buf pos = none) ∨
      ∃ m', writeLoop f ending copyFuel m buf pos =
          some (m', buf + (stop - pos.toNat), loopResult stop ending.toNat) ∧
        WrittenTo m f buf pos.toNat stop (buf + (stop - pos.toNat)) m' := by
  refine copyLoop_rule (Q := WrittenTo m f buf pos.toNat) (fun h => ⟨h.rewritten.wf, h.file⟩)
    (fun h hgot hn0 hn hend hmax => h.round hreg hgot hn hn0 hmax ?_) hpos hstop (by decide)
    (copyFuel_enough hstop) ⟨hf, Nat.le_refl _, by omega, Rewritten.refl hw, ?_,
      fun _ _ => rfl⟩
  · have := h.le
    simp only [Beside, stopAt] at hbuf hstop ⊢
    omega
  · omega

end

end Jos.Fs
