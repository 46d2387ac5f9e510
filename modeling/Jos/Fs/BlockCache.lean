import Jos.Fs.GetBlock
import Jos.Lib.Pool
import Mathlib.Logic.Function.Basic

/-!
# The block cache

The cache of `fs/bc.c` over the disk of `fs/ide.c`, once `fs_init` has set `super` and `bitmap`. A
block has a page at its address or not, and the page has the bit `PTE_D` or not: a store sets it. An
access to a block without a page is served by `bc_pgfault`, which may fault again where it looks at the
bitmap. The kernel has pages and the disk answers; where the server panics the result is `none`.

What the server reads at an address is `view`: the page if the block has one, and the disk otherwise.
Neither a fault nor a flush changes it.
-/

namespace Jos.Fs

open Jos.Lib

def sectsize : Nat := 512
/-- Sectors per block -/
def blksects : Nat := 8

/-- `((uint32_t) addr - DISKMAP) / BLKSIZE` -/
def blockno (a : Nat) : Nat := (a - diskmap) / blksize

/-- The address is in the block cache region. -/
def InCache (a : Nat) : Prop := diskmap ≤ a ∧ a < diskmap + disksize

instance (a : Nat) : Decidable (InCache a) := inferInstanceAs (Decidable (_ ∧ _))

structure Cache where
  /-- The memory of the server. -/
  mem : Mem
  /-- The bytes of the disk; sector `s` is at `512 * s`. -/
  disk : Mem
  /-- `va_is_mapped`, by block -/
  mapped : Nat → Bool
  /-- `va_is_dirty`, by block -/
  dirty : Nat → Bool

/-- What the server reads. -/
def Cache.view (c : Cache) : Mem := fun x =>
  if InCache x ∧ c.mapped (blockno x) = false then c.disk (x - diskmap) else c.mem x

/-! ## The disk -/

/-- One sector after the other: `n` sectors at `src` of `m` are copied to `dst` of `m'`. -/
def transfer (m m' : Mem) (src dst : Nat) : Nat → Mem
  | 0 => m'
  | n + 1 =>
      transfer m (fun x => if dst ≤ x ∧ x < dst + sectsize then m (src + (x - dst)) else m' x)
        (src + sectsize) (dst + sectsize) n

/-- `ide_read`: the memory after the transfer. -/
def ideRead (disk mem : Mem) (secno dst nsecs : Nat) : Mem :=
  transfer disk mem (sectsize * secno) dst nsecs

/-- `ide_write`: the disk after the transfer. -/
def ideWrite (disk mem : Mem) (secno src nsecs : Nat) : Mem :=
  transfer mem disk src (sectsize * secno) nsecs

theorem transfer_apply (m m' : Mem) (src dst n x : Nat) :
    transfer m m' src dst n x =
      if dst ≤ x ∧ x < dst + sectsize * n then m (src + (x - dst)) else m' x := by
  induction n generalizing m' src dst with
  | zero =>
      unfold transfer
      rw [if_neg (by omega)]
  | succ n ih =>
      unfold transfer
      rw [ih, Nat.mul_succ]
      by_cases hin : dst + sectsize ≤ x ∧ x < dst + sectsize + sectsize * n
      · rw [if_pos hin, if_pos (by omega)]
        exact congrArg m (by omega)
      · rw [if_neg hin]
        by_cases hfirst : dst ≤ x ∧ x < dst + sectsize
        · rw [if_pos hfirst, if_pos (by omega)]
        · rw [if_neg hfirst, if_neg (by omega)]

theorem ideRead_block (disk mem : Mem) (b x : Nat) :
    ideRead disk mem (b * blksects) (blockAddr b) blksects x =
      if blockAddr b ≤ x ∧ x < blockAddr b + 4096 then disk (x - diskmap) else mem x := by
  unfold ideRead
  rw [transfer_apply]
  unfold blockAddr blksects sectsize
  by_cases hx : diskmap + 4096 * b ≤ x ∧ x < diskmap + 4096 * b + 4096
  · rw [if_pos (by omega), if_pos hx]
    exact congrArg disk (by omega)
  · rw [if_neg (by omega), if_neg hx]

theorem ideWrite_block (disk mem : Mem) (b x : Nat) :
    ideWrite disk mem (b * blksects) (blockAddr b) blksects x =
      if blockAddr b ≤ x + diskmap ∧ x + diskmap < blockAddr b + 4096 then mem (x + diskmap)
      else disk x := by
  unfold ideWrite
  rw [transfer_apply]
  unfold blockAddr blksects sectsize
  by_cases hx : 4096 * b ≤ x ∧ x < 4096 * b + 4096
  · rw [if_pos (by omega), if_pos (by omega)]
    exact congrArg mem (by omega)
  · rw [if_neg (by omega), if_neg (by omega)]

/-! ## Faults -/

/-- The block is read into a new page, whose bit `PTE_D` is then cleared. -/
def Cache.load (c : Cache) (b : Nat) : Cache where
  mem := ideRead c.disk c.mem (b * blksects) (blockAddr b) blksects
  disk := c.disk
  mapped := Function.update c.mapped b true
  dirty := Function.update c.dirty b false

/-- An access to the byte at `a`, where `fault` handles the page fault. -/
def Cache.access (fault : Cache → Nat → Option Cache) (c : Cache) (a : Nat) : Option Cache :=
  if c.mapped (blockno a) then some c else fault c a

/-- `block_is_free` -/
def Cache.blockIsFree (fault : Cache → Nat → Option Cache) (c : Cache) (b : Nat) :
    Option (Cache × Bool) :=
  if (sNblocks c.view).toNat ≤ b then some (c, false)
  else (c.access fault (bitmapWord b)).map fun c => (c, decide (bitSet c.view b))

/-- `bc_pgfault`, with room for `depth` faults on the exception stack. -/
def bcPgfault : Nat → Cache → Nat → Option Cache
  | 0, _, _ => none
  | depth + 1, c, a =>
      if ¬ InCache a then none
      else if (sNblocks c.view).toNat ≤ blockno a then none
      else
        ((c.load (blockno a)).blockIsFree (bcPgfault depth) (blockno a)).bind fun r =>
          if r.2 then none else some r.1

/-- A block, its bitmap block and the first bitmap block: more faults do not nest. -/
def faultDepth : Nat := 4

def Cache.touch (c : Cache) (a : Nat) : Option Cache := c.access (bcPgfault faultDepth) a

/-- A store to a block that has a page. -/
def Cache.store32 (c : Cache) (a : Nat) (v : BitVec 32) : Cache where
  mem := c.mem.write32 a v
  disk := c.disk
  mapped := c.mapped
  dirty := Function.update c.dirty (blockno a) true

/-- `flush_block` -/
def Cache.flushBlock (c : Cache) (a : Nat) : Option Cache :=
  if ¬ InCache a then none
  else if c.mapped (blockno a) = false ∨ c.dirty (blockno a) = false then some c
  else
    some { c with
      disk := ideWrite c.disk c.mem (blockno a * blksects) (a - a % blksize) blksects
      dirty := Function.update c.dirty (blockno a) false }

/-! ## What the server reads -/

section

variable {c c' : Cache} {a b x : Nat} {v : BitVec 32} {free : Bool} {depth : Nat}
  {fault : Cache → Nat → Option Cache}

theorem blockno_add (ha : a % 4 = 0) (hx : a ≤ x) (hx' : x < a + 4) (hd : diskmap ≤ a) :
    blockno x = blockno a := by
  unfold diskmap at hd
  unfold blockno blksize diskmap
  omega

theorem blockno_of_block (hx : blockAddr b ≤ x) (hx' : x < blockAddr b + 4096) : blockno x = b := by
  unfold blockAddr at hx hx'
  unfold blockno blksize
  omega

/-- The block of an address of the region begins at the address rounded down. -/
theorem InCache.block (h : InCache a) : blockAddr (blockno a) = a - a % 4096 := by
  unfold InCache diskmap at h
  unfold blockAddr blockno blksize diskmap
  omega

/-- Blocks of the region are in the region. -/
theorem InCache.of_block (h : InCache a) (hx : blockAddr (blockno a) ≤ x)
    (hx' : x < blockAddr (blockno a) + 4096) : InCache x := by
  rw [h.block] at hx hx'
  unfold InCache diskmap disksize at *
  omega

theorem view_of_mapped (h : c.mapped (blockno x) = true) : c.view x = c.mem x := by
  unfold Cache.view
  rw [if_neg]
  rintro ⟨-, hfalse⟩
  rw [h] at hfalse
  cases hfalse

theorem load_view (hin : InCache a) (h : c.mapped (blockno a) = false) :
    (c.load (blockno a)).view = c.view := by
  funext x
  unfold Cache.view Cache.load
  simp only [ideRead_block]
  by_cases hx : blockAddr (blockno a) ≤ x ∧ x < blockAddr (blockno a) + 4096
  · have hxb := blockno_of_block hx.1 hx.2
    rw [hxb, Function.update_self, if_neg (by simp), if_pos hx, if_pos ⟨hin.of_block hx.1 hx.2, h⟩]
  · rw [if_neg hx]
    by_cases hxin : InCache x
    · have hne : blockno x ≠ blockno a := by
        intro heq
        refine hx ?_
        rw [← heq, hxin.block]
        omega
      rw [Function.update_of_ne hne]
    · rw [if_neg fun hc => hxin hc.1, if_neg fun hc => hxin hc.1]

theorem load_mapped (c : Cache) (b : Nat) : (c.load b).mapped b = true := by
  unfold Cache.load
  exact Function.update_self ..

theorem load_mapped_ne (c : Cache) {b b' : Nat} (h : b' ≠ b) : (c.load b).mapped b' = c.mapped b' := by
  unfold Cache.load
  exact Function.update_of_ne h ..

/-- What a fault or a flush keeps. -/
structure SameView (c c' : Cache) : Prop where
  view : c'.view = c.view
  mapped : ∀ b, c.mapped b = true → c'.mapped b = true

theorem SameView.trans {c₁ : Cache} (h : SameView c c₁) (h' : SameView c₁ c') : SameView c c' :=
  ⟨h'.view.trans h.view, fun b hb => h'.mapped b (h.mapped b hb)⟩

/-- A block is loaded where it has no page; nothing else happens in a fault. -/
structure ReadIn (c c' : Cache) : Prop extends SameView c c' where
  disk : c'.disk = c.disk

theorem ReadIn.refl (c : Cache) : ReadIn c c := ⟨⟨rfl, fun _ h => h⟩, rfl⟩

theorem ReadIn.trans {c₁ : Cache} (h : ReadIn c c₁) (h' : ReadIn c₁ c') : ReadIn c c' :=
  ⟨h.toSameView.trans h'.toSameView, h'.disk.trans h.disk⟩

theorem load_mono (c : Cache) (b b' : Nat) (h : c.mapped b' = true) : (c.load b).mapped b' = true := by
  by_cases heq : b' = b
  · rw [heq]
    exact load_mapped c b
  · rw [load_mapped_ne c heq]
    exact h

theorem load_disk (c : Cache) (b : Nat) : (c.load b).disk = c.disk := rfl

theorem load_readIn (hin : InCache a) (h : c.mapped (blockno a) = false) :
    ReadIn c (c.load (blockno a)) :=
  ⟨⟨load_view hin h, load_mono c (blockno a)⟩, load_disk c (blockno a)⟩

/-- What a handler of page faults does. -/
def Handles (fault : Cache → Nat → Option Cache) : Prop :=
  ∀ c a c', c.mapped (blockno a) = false → fault c a = some c' →
    ReadIn c c' ∧ c'.mapped (blockno a) = true

theorem access_readIn (hf : Handles fault) (h : c.access fault a = some c') :
    ReadIn c c' ∧ c'.mapped (blockno a) = true := by
  unfold Cache.access at h
  split at h
  · rename_i hm
    cases h
    exact ⟨ReadIn.refl c, hm⟩
  · rename_i hm
    exact hf c a c' (by simpa using hm) h

theorem blockIsFree_readIn (hf : Handles fault) (h : c.blockIsFree fault b = some (c', free)) :
    ReadIn c c' ∧ free = Fs.blockIsFree c.view b := by
  unfold Cache.blockIsFree at h
  split at h
  · rename_i hle
    cases h
    refine ⟨ReadIn.refl c, ?_⟩
    unfold Fs.blockIsFree
    simp [Nat.not_lt.mpr hle]
  · rename_i hlt
    obtain ⟨c₁, hacc, heq⟩ := Option.map_eq_some_iff.mp h
    cases heq
    have hl := (access_readIn hf hacc).1
    refine ⟨hl, ?_⟩
    unfold Fs.blockIsFree
    rw [hl.view]
    simp [Nat.lt_of_not_le hlt]

theorem bcPgfault_handles (depth : Nat) : Handles (bcPgfault depth) := by
  induction depth with
  | zero =>
      intro c a c' _ h
      cases h
  | succ depth ih =>
      intro c a c' hm h
      unfold bcPgfault at h
      split at h
      · cases h
      · rename_i hin
        split at h
        · cases h
        · obtain ⟨⟨c₁, free⟩, hfree, hr⟩ := Option.bind_eq_some_iff.mp h
          obtain ⟨hl, -⟩ := blockIsFree_readIn ih hfree
          have hload := load_readIn (Decidable.not_not.mp hin) hm
          split at hr
          · cases hr
          · cases hr
            exact ⟨hload.trans hl, hl.mapped _ (load_mapped c _)⟩

theorem touch_readIn (h : c.touch a = some c') : ReadIn c c' ∧ c'.mapped (blockno a) = true :=
  access_readIn (bcPgfault_handles faultDepth) h

/-! ## Stores and flushes -/

theorem store32_view (ha : a % 4 = 0) (hd : diskmap ≤ a) (hm : c.mapped (blockno a) = true) :
    (c.store32 a v).view = c.view.write32 a v := by
  funext x
  by_cases hx : a ≤ x ∧ x < a + 4
  · have hxm : c.mapped (blockno x) = true := by
      rw [blockno_add ha hx.1 hx.2 hd]
      exact hm
    rw [view_of_mapped (c := c.store32 a v) hxm]
    unfold Cache.store32 Mem.write32
    rcases (by omega : x = a ∨ x = a + 1 ∨ x = a + 2 ∨ x = a + 3) with rfl | rfl | rfl | rfl <;> simp
  · have hout : x < a ∨ a + 4 ≤ x := by omega
    rw [Mem.write32_of_disjoint _ _ hout]
    unfold Cache.view Cache.store32
    simp only [Mem.write32_of_disjoint _ _ hout]

theorem store32_dirty : (c.store32 a v).dirty (blockno a) = true := by
  unfold Cache.store32
  exact Function.update_self ..

/-- A flush changes no page and no block without one. -/
theorem flushBlock_sameView (h : c.flushBlock a = some c') : SameView c c' := by
  unfold Cache.flushBlock at h
  split at h
  · cases h
  · rename_i hin
    split at h
    · cases h
      exact ⟨rfl, fun _ hb => hb⟩
    · rename_i hmd
      cases h
      refine ⟨?_, fun _ hb => hb⟩
      have hm : c.mapped (blockno a) = true := by
        cases hmap : c.mapped (blockno a) with
        | true => rfl
        | false => exact absurd (Or.inl hmap) hmd
      have ha : InCache a := Decidable.not_not.mp hin
      funext x
      unfold Cache.view blksize
      simp only [← ha.block, ideWrite_block]
      by_cases hx : InCache x ∧ c.mapped (blockno x) = false
      · rw [if_pos hx, if_pos hx, if_neg]
        have hlow := hx.1.1
        rintro ⟨hlo, hhi⟩
        rw [Nat.sub_add_cancel hlow] at hlo hhi
        rw [blockno_of_block hlo hhi, hm] at hx
        exact absurd hx.2 (by simp)
      · rw [if_neg hx, if_neg hx]

theorem flushBlock_some (hin : InCache a) : ∃ c', c.flushBlock a = some c' := by
  unfold Cache.flushBlock
  rw [if_neg (not_not_intro hin)]
  split
  · exact ⟨_, rfl⟩
  · exact ⟨_, rfl⟩

/-- The page of a dirty block is on the disk after a flush of any of its addresses. -/
theorem flushBlock_disk (hm : c.mapped (blockno a) = true) (hdirty : c.dirty (blockno a) = true)
    (h : c.flushBlock a = some c') (hx : blockAddr (blockno a) ≤ x)
    (hx' : x < blockAddr (blockno a) + 4096) : c'.disk (x - diskmap) = c'.view x := by
  unfold Cache.flushBlock at h
  split at h
  · cases h
  · rename_i hnin
    have hin : InCache a := Decidable.not_not.mp hnin
    rw [if_neg (by simp [hm, hdirty])] at h
    cases h
    have hbase : diskmap ≤ x := (hin.of_block hx hx').1
    rw [view_of_mapped]
    · unfold blksize
      simp only [← hin.block, ideWrite_block]
      rw [Nat.sub_add_cancel hbase, if_pos ⟨hx, hx'⟩]
    · rw [blockno_of_block hx hx']
      exact hm

end

end Jos.Fs
