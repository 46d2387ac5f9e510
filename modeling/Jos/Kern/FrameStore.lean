import Jos.Kern.EnvChange
import Jos.Kern.UserView

/-!
# The frame that `sys_env_set_trapframe` sets

`sys_env_set_trapframe` sets the segment registers and the flags in the memory of the caller, and
then copies the whole `struct Trapframe` from there. When that memory is the caller's own, and not
part of the page tables through which it is found, the copy has what was written.
-/

namespace Jos.Kern

open Jos.Lib Kernel

/-- A saved context of ring 3 with IOPL 0 and with interrupts. -/
structure UserFrame (tf : Trapframe) : Prop where
  cs : tf.tfCs = gdUt ||| 3#16
  iopl : tf.tfEflags &&& flIoplMask = 0#32
  flagIf : tf.tfEflags &&& flIf ≠ 0#32

/-- The user may write the `n` bytes at `va`, and none of them is in the page directory or in one of
the page tables that map them. -/
structure OwnMemory (s : Kernel) (d : Nat) (va : BitVec 32) (n : Nat) : Prop where
  grants : ∀ i < n, x86Grants s d (va + BitVec.ofNat 32 i) userWrite
  dir : ∀ i < n, physAddr s d (va + BitVec.ofNat 32 i) / 4096 ≠ d
  table : ∀ i < n, ∀ j < n, physAddr s d (va + BitVec.ofNat 32 i) / 4096 ≠
    pteFrame (mmuPde s d (va + BitVec.ofNat 32 j))

/-- The `struct Trapframe` at `tf` is in memory of `cur`. -/
def OwnFrame (s : Kernel) (cur : EnvIx) (tf : BitVec 32) : Prop :=
  ∃ d, (s.envs cur).envPgdir = some d ∧ OwnMemory s d tf 68

/-- Byte `i` at `va`. -/
def ownByte (s : Kernel) (d : Nat) (va : BitVec 32) (i : Nat) : BitVec 8 :=
  s.mem (physAddr s d (va + BitVec.ofNat 32 i))

/-- The `k` bytes from byte `i` on have been stored. -/
structure OwnStored (s : Kernel) (d : Nat) (va : BitVec 32) (n i k : Nat) (b : Nat → BitVec 8)
    (s' : Kernel) : Prop where
  own : OwnMemory s' d va n
  byte : ∀ j < n, ownByte s' d va j = if i ≤ j ∧ j < i + k then b (j - i) else ownByte s d va j

section

variable {s s' s1 : Kernel} {d n i j k : Nat} {va : BitVec 32} {b b' : Nat → BitVec 8}

theorem entry_store {x f : Nat} (c : BitVec 8) (h : x / 4096 ≠ f) (hi : i < 1024) :
    entry { s with mem := Function.update s.mem x c } f i = entry s f i := by
  unfold entry entryAddr
  refine Mem.read32_congr fun a ha ha' => Function.update_of_ne ?_ ..
  rintro rfl
  omega

theorem physAddr_mod (s : Kernel) (d : Nat) (va : BitVec 32) (i : Nat) :
    physAddr s d (va + BitVec.ofNat 32 i) % 4096 = (va.toNat + i) % 4096 := by
  rw [physAddr, pgoff_eq, BitVec.toNat_add, BitVec.toNat_ofNat]
  omega

/-- Two of fewer than 4096 bytes are at different addresses. -/
theorem physAddr_ne (hi : i < 4096) (hj : j < 4096) (h : j ≠ i) :
    physAddr s d (va + BitVec.ofNat 32 j) ≠ physAddr s d (va + BitVec.ofNat 32 i) := by
  intro heq
  have h1 := physAddr_mod s d va i
  have h2 := physAddr_mod s d va j
  rw [heq] at h2
  omega

/-- A byte stored there changes no translation. -/
theorem OwnMemory.storeByte {c : BitVec 8} (h : OwnMemory s d va n) (hn : n ≤ 4096) (hi : i < n)
    (hs : storeByte s d (va + BitVec.ofNat 32 i) c = some s') :
    OwnStored s d va n i 1 (fun _ => c) s' := by
  rw [Kern.storeByte, if_pos ((h.grants i hi).mono (by decide))] at hs
  cases hs
  generalize hx : physAddr s d (va + BitVec.ofNat 32 i) = x
  have hd : x / 4096 ≠ d := hx ▸ h.dir i hi
  have hpde : ∀ w, mmuPde { s with mem := Function.update s.mem x c } d w = mmuPde s d w := fun w =>
    entry_store c hd (pdx_lt w)
  have hpte : ∀ j < n, mmuPte { s with mem := Function.update s.mem x c } d
      (va + BitVec.ofNat 32 j) = mmuPte s d (va + BitVec.ofNat 32 j) := by
    intro j hj
    rw [mmuPte, mmuPte, hpde]
    exact entry_store c (hx ▸ h.table i hi j hj) (ptx_lt _)
  have hphys : ∀ j < n, physAddr { s with mem := Function.update s.mem x c } d
      (va + BitVec.ofNat 32 j) = physAddr s d (va + BitVec.ofNat 32 j) := by
    intro j hj
    rw [physAddr, physAddr, hpte j hj]
  refine ⟨⟨fun j hj => ?_, fun j hj => ?_, fun j hj l hl => ?_⟩, fun j hj => ?_⟩
  · rw [x86Grants, hpde, hpte j hj]
    exact h.grants j hj
  · rw [hphys j hj]
    exact h.dir j hj
  · rw [hphys j hj, hpde]
    exact h.table j hj l hl
  · unfold ownByte
    rw [hphys j hj]
    by_cases hji : j = i
    · subst hji
      rw [hx, if_pos (by omega)]
      exact Function.update_self ..
    · rw [if_neg (by omega)]
      exact Function.update_of_ne (hx ▸ physAddr_ne (by omega) (by omega) hji) ..

/-- Two ranges, one behind the other. -/
theorem OwnStored.append {k' : Nat} (h : OwnStored s d va n i k b s1)
    (h' : OwnStored s1 d va n (i + k) k' b' s') :
    OwnStored s d va n i (k + k') (fun c => if c < k then b c else b' (c - k)) s' := by
  refine ⟨h'.own, fun j hj => ?_⟩
  rw [h'.byte j hj, h.byte j hj]
  by_cases hlo : i ≤ j ∧ j < i + k
  · rw [if_neg (by omega), if_pos hlo, if_pos (by omega), if_pos (by omega)]
  · rw [if_neg hlo]
    by_cases hhi : i + k ≤ j ∧ j < i + k + k'
    · rw [if_pos hhi, if_pos (by omega), if_neg (by omega), Nat.sub_sub]
    · rw [if_neg hhi, if_neg (by omega)]

theorem OwnStored.congr (h : OwnStored s d va n i k b s') (hb : ∀ c < k, b c = b' c) :
    OwnStored s d va n i k b' s' := by
  refine ⟨h.own, fun j hj => ?_⟩
  rw [h.byte j hj]
  split
  · rw [hb _ (by omega)]
  · rfl

theorem OwnStored.inside {c : Nat} (h : OwnStored s d va n i k b s') (hc : c < k) (hn : i + c < n) :
    ownByte s' d va (i + c) = b c := by
  rw [h.byte _ hn, if_pos (by omega), Nat.add_sub_cancel_left]

theorem OwnStored.outside (h : OwnStored s d va n i k b s') (hj : j < n)
    (hout : j < i ∨ i + k ≤ j) : ownByte s' d va j = ownByte s d va j := by
  rw [h.byte j hj, if_neg (by omega)]

theorem OwnMemory.store16 {v : BitVec 16} (h : OwnMemory s d va n) (hn : n ≤ 4096) (hi : i + 1 < n)
    (hs : store16 s d (va + BitVec.ofNat 32 i) v = some s') :
    OwnStored s d va n i 2 (fun c => v.extractLsb' (8 * c) 8) s' := by
  obtain ⟨s1, h1, h2⟩ := Option.bind_eq_some_iff.mp hs
  rw [Writing.add_ofNat va i 1] at h2
  have hst := h.storeByte hn (by omega) h1
  refine (hst.append (hst.own.storeByte hn hi h2)).congr fun c hc => ?_
  obtain rfl | rfl : c = 0 ∨ c = 1 := by omega
  · rfl
  · rfl

theorem OwnMemory.store32 {v : BitVec 32} (h : OwnMemory s d va n) (hn : n ≤ 4096) (hi : i + 3 < n)
    (hs : store32 s d (va + BitVec.ofNat 32 i) v = some s') :
    OwnStored s d va n i 4 (fun c => v.extractLsb' (8 * c) 8) s' := by
  obtain ⟨s1, h1, h2⟩ := Option.bind_eq_some_iff.mp hs
  rw [Writing.add_ofNat va i 2] at h2
  have hst := h.store16 hn (by omega) h1
  refine (hst.append (hst.own.store16 hn (by omega) h2)).congr fun c hc => ?_
  split
  · rw [extract_half v (by omega), Nat.zero_add]
  · rw [extract_half v (by omega), show 16 + 8 * (c - 2) = 8 * c by omega]

theorem loadByte_own {w : BitVec 8} (h : loadByte s d (va + BitVec.ofNat 32 i) = some w) :
    w = ownByte s d va i := by
  rw [loadByte] at h
  split at h
  · cases h
    rfl
  · cases h

theorem load16_own {w : BitVec 16} (h : load16 s d (va + BitVec.ofNat 32 i) = some w) :
    w = ownByte s d va (i + 1) ++ ownByte s d va i := by
  obtain ⟨b0, h0, h⟩ := Option.bind_eq_some_iff.mp h
  obtain ⟨b1, h1, h⟩ := Option.bind_eq_some_iff.mp h
  cases h
  rw [Writing.add_ofNat va i 1] at h1
  rw [loadByte_own h0, loadByte_own h1]

theorem load32_own {w : BitVec 32} (h : load32 s d (va + BitVec.ofNat 32 i) = some w) :
    w = (ownByte s d va (i + 3) ++ ownByte s d va (i + 2)) ++
      (ownByte s d va (i + 1) ++ ownByte s d va i) := by
  obtain ⟨b0, h0, h⟩ := Option.bind_eq_some_iff.mp h
  obtain ⟨b1, h1, h⟩ := Option.bind_eq_some_iff.mp h
  cases h
  rw [Writing.add_ofNat va i 2] at h1
  rw [load16_own h0, load16_own h1]

/-- A word is loaded whose bytes are there. -/
theorem load16_eq {v w : BitVec 16} (h : ∀ c < 2, ownByte s d va (i + c) = v.extractLsb' (8 * c) 8)
    (hw : load16 s d (va + BitVec.ofNat 32 i) = some w) : w = v := by
  have h0 : ownByte s d va i = v.extractLsb' 0 8 := h 0 (by decide)
  rw [load16_own hw, h 1 (by decide), h0,
    BitVec.extractLsb'_append_extractLsb'_eq_extractLsb' (show 8 * 1 = 0 + 8 by decide)]
  exact BitVec.extractLsb'_eq_self

theorem load32_eq {v w : BitVec 32} (h : ∀ c < 4, ownByte s d va (i + c) = v.extractLsb' (8 * c) 8)
    (hw : load32 s d (va + BitVec.ofNat 32 i) = some w) : w = v := by
  have h0 : ownByte s d va i = v.extractLsb' 0 8 := h 0 (by decide)
  rw [load32_own hw, h 3 (by decide), h 2 (by decide), h 1 (by decide), h0,
    BitVec.extractLsb'_append_extractLsb'_eq_extractLsb' (show 8 * 3 = 8 * 2 + 8 by decide),
    BitVec.extractLsb'_append_extractLsb'_eq_extractLsb' (show 8 * 1 = 0 + 8 by decide),
    BitVec.extractLsb'_append_extractLsb'_eq_extractLsb' (show 8 * 2 = 0 + (8 + 8) by decide)]
  exact BitVec.extractLsb'_eq_self

theorem loadTrapframe_fields {tf : Trapframe} (h : loadTrapframe s d va = some tf) :
    Kern.load16 s d (va + 52#32) = some tf.tfCs ∧ Kern.load32 s d (va + 56#32) = some tf.tfEflags := by
  rw [loadTrapframe] at h
  iterate 15 obtain ⟨_, _, h⟩ := Option.bind_eq_some_iff.mp h
  obtain ⟨cs, hcs, h⟩ := Option.bind_eq_some_iff.mp h
  obtain ⟨_, _, h⟩ := Option.bind_eq_some_iff.mp h
  obtain ⟨eflags, heflags, h⟩ := Option.bind_eq_some_iff.mp h
  iterate 3 obtain ⟨_, _, h⟩ := Option.bind_eq_some_iff.mp h
  cases h
  exact ⟨hcs, heflags⟩

/-- The accesses of `sys_env_set_trapframe` in own memory set a frame of ring 3. -/
theorem trapframeStore_userFrame {cur e : EnvIx} {tf : BitVec 32} (h : OwnFrame s cur tf)
    (hrun : trapframeStore s cur e tf = some s') : ∃ envTf, UserFrame envTf ∧
      s'.envs = Function.update s.envs e { s.envs e with envTf } ∧
      s'.envFreeList = s.envFreeList := by
  obtain ⟨d, hd, hown⟩ := h
  simp only [trapframeStore, hd, Option.bind_eq_bind, Option.bind_some, Option.bind_eq_some_iff]
    at hrun
  obtain ⟨s1, h1, s2, h2, s3, h3, s4, h4, s5, h5, eflags, hload, s6, h6, envTf, htf, hend⟩ := hrun
  have w1 := hown.store16 (i := 36) (by decide) (by decide) h1
  have w2 := w1.own.store16 (i := 32) (by decide) (by decide) h2
  have w3 := w2.own.store16 (i := 64) (by decide) (by decide) h3
  have w4 := w3.own.store16 (i := 52) (by decide) (by decide) h4
  have w5 := w4.own.store32 (i := 56) (by decide) (by decide) h5
  have w6 := w5.own.store32 (i := 56) (by decide) (by decide) h6
  have hsame : SameEnvs s s6 :=
    ((((((sameEnvs_store16 h1).trans (sameEnvs_store16 h2)).trans (sameEnvs_store16 h3)).trans
      (sameEnvs_store16 h4)).trans (sameEnvs_store32 h5)).trans (sameEnvs_store32 h6))
  obtain ⟨hcs, hfl⟩ := loadTrapframe_fields htf
  -- What is read back are the words that were written last.
  have heflags : eflags = flIf := load32_eq (i := 56) (fun c hc => w5.inside hc (by omega)) hload
  have hflags : envTf.tfEflags = eflags &&& ~~~flIoplMask :=
    load32_eq (i := 56) (fun c hc => w6.inside hc (by omega)) hfl
  have hsel : envTf.tfCs = gdUt ||| 3#16 := by
    refine load16_eq (i := 52) (fun c hc => ?_) hcs
    rw [w6.outside (by omega) (by omega), w5.outside (by omega) (by omega)]
    exact w4.inside hc (by omega)
  rw [heflags] at hflags
  cases hend
  refine ⟨envTf, ⟨hsel, by rw [hflags]; decide, by rw [hflags]; decide⟩, ?_, hsame.2⟩
  simp only [Kernel.setEnv, hsame.1]

/-- The page table of an address that the user may write. -/
theorem Shape.table_of_grants {R : Nat → Prop} {e : EnvIx} (hs : Shape R s)
    (hd : (s.envs e).envPgdir = some d) (hva : va < utop) (hw : x86Grants s d va userWrite) :
    target s (.pde e ⟨pdx va, pdx_lt_of_lt_utop hva⟩) = some (pteFrame (mmuPde s d va)) := by
  cases ht : target s (.pde e ⟨pdx va, pdx_lt_of_lt_utop hva⟩) with
  | none =>
      have hz := hs.pde_zero hd ht
      rw [← mmuPde] at hz
      have hgrant := hw.1
      rw [hz, BitVec.zero_and] at hgrant
      exact absurd hgrant (by decide)
  | some t =>
      obtain ⟨hent, htn⟩ := hs.pde_eq hd ht
      rw [mmuPde, hent, pteFrame_tableEntry (hs.lt_two_pow htn)]

/-- As long as no counter of references wraps around, what the caller may write is its own. -/
theorem Inv.ownFrame {R : Nat → Prop} {cur : EnvIx} {tf : BitVec 32} (h : Inv R s)
    (hw : UserMayWrite s cur tf 68) : OwnFrame s cur tf := by
  obtain ⟨d, hd, hw⟩ := hw
  have hdn := (h.pages.target_lt (k := .pgdir cur) hd).1
  have hlow : ∀ i < 68, tf + BitVec.ofNat 32 i < utop := fun i hi =>
    h.pages.shape.lt_utop_of_write hd hdn (hw i hi)
  -- The byte is in a mapped frame, and that is no table.
  have hno : ∀ i < 68, ∀ k : Place, k.isTable →
      target s k ≠ some (physAddr s d (tf + BitVec.ofNat 32 i) / 4096) := by
    intro i hi k hk
    obtain ⟨f, hf, hphys⟩ := h.pages.physAddr_eq hd (hlow i hi) (by decide) (hw i hi)
    have hoff : pgoff (tf + BitVec.ofNat 32 i) < 4096 := by
      rw [pgoff_eq]
      exact Nat.mod_lt _ (by omega)
    rw [hphys, show (4096 * f + pgoff (tf + BitVec.ofNat 32 i)) / 4096 = f by omega]
    exact h.pages.noTable_of_mapped ⟨_, hf⟩ k hk
  refine ⟨d, hd, hw, fun i hi heq => ?_, fun i hi j hj heq => ?_⟩
  · exact hno i hi (.pgdir cur) rfl (by rw [heq]; exact hd)
  · exact hno i hi (.pde cur ⟨pdx (tf + BitVec.ofNat 32 j), pdx_lt_of_lt_utop (hlow j hj)⟩) rfl
      (by rw [heq]; exact h.pages.shape.table_of_grants hd (hlow j hj) (hw j hj))

end

end Jos.Kern
