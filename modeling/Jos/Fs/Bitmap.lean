import Jos.Fs.BlockCache

/-!
# The bitmap as a set

`alloc_block` and `free_block` of `fs/fs.c` over the block cache. The set bits are the free blocks:
`alloc_block` takes the least of them that is on the disk and writes the bitmap block back, `free_block`
adds one. Every access to the bitmap may fault. A fault on a bitmap block that is itself marked free is a
panic of `bc_pgfault`; the first bitmap block is in the cache from `check_bitmap` on, so this takes a
bitmap block that was given to `free_block`, and `alloc_block` never meets it.

Main results:
* `allocBlock_cases`: the least free block is taken, or none is free and nothing changes;
* `bitmap_is_set`: both calls as operations on the set of free blocks;
* `freed_bitmap_block`: a bitmap block that is itself free stops the server.
-/

namespace Jos.Fs

open Jos.Lib

/-- The bitmap block that holds the bit of block `b`. -/
def bitmapBlock (b : Nat) : Nat := 2 + b / blkbitsize

/-- `super->s_nblocks` -/
def Cache.nblocks (c : Cache) : Nat := (sNblocks c.view).toNat

/-- `bitmap[b / 32] |= 1 << (b % 32)` -/
def Cache.setBit (c : Cache) (b : Nat) : Option Cache := do
  let c ← c.touch (bitmapWord b)
  some (c.store32 (bitmapWord b) (c.view.read32 (bitmapWord b) ||| bitMask b))

/-- `bitmap[b / 32] &= ~(1 << (b % 32))` -/
def Cache.clearBit (c : Cache) (b : Nat) : Option Cache := do
  let c ← c.touch (bitmapWord b)
  some (c.store32 (bitmapWord b) (c.view.read32 (bitmapWord b) &&& ~~~(bitMask b)))

/-- `free_block` -/
def Cache.freeBlock (c : Cache) (b : Nat) : Option Cache := if b = 0 then none else c.setBit b

/-- The loop of `alloc_block` from `i` on, for `n` more blocks. -/
def Cache.allocLoop : Nat → Cache → Nat → Option (Cache × Int)
  | 0, c, _ => some (c, -eNoDisk)
  | n + 1, c, i => do
      let (c, free) ← c.blockIsFree (bcPgfault faultDepth) i
      if free then
        let c ← c.clearBit i
        let c ← c.flushBlock (bitmapWord i)
        some (c, i)
      else Cache.allocLoop n c (i + 1)

/-- `alloc_block`. The counter is an `int`: `check_super` keeps `s_nblocks` small. -/
def Cache.allocBlock (c : Cache) : Option (Cache × Int) := Cache.allocLoop c.nblocks c 0

/-- The bit of block `b` in the bitmap on the disk. -/
def Cache.diskBit (c : Cache) (b : Nat) : Prop :=
  c.disk.read32 (bitmapWord b - diskmap) &&& bitMask b ≠ 0#32

/-- What `fs_init` leaves: the super block passed `check_super`, there is a block for the bitmap, and
both were read. -/
structure Cache.Ready (c : Cache) : Prop where
  super : c.mapped 1 = true
  bitmap : c.mapped 2 = true
  bitmap_lt : 2 < c.nblocks
  fits : c.nblocks ≤ disksize / blksize

/-! ## Bitmap words -/

section

variable {c c' : Cache} {b i n x : Nat} {r : Int}

theorem bitmapWord_mod (b : Nat) : bitmapWord b % 4 = 0 := by
  unfold bitmapWord diskmap
  omega

theorem diskmap_le_bitmapWord (b : Nat) : diskmap ≤ bitmapWord b := by
  unfold bitmapWord
  omega

theorem blockno_bitmapWord (b : Nat) : blockno (bitmapWord b) = bitmapBlock b := by
  unfold blockno bitmapWord bitmapBlock blksize blkbitsize
  omega

theorem bitmapWord_block (hx : bitmapWord b ≤ x) (hx' : x < bitmapWord b + 4) :
    blockAddr (blockno (bitmapWord b)) ≤ x ∧ x < blockAddr (blockno (bitmapWord b)) + 4096 := by
  rw [blockno_bitmapWord]
  unfold bitmapWord at hx hx'
  unfold blockAddr bitmapBlock blkbitsize
  omega

theorem Cache.Ready.inCache (h : c.Ready) (hb : b < c.nblocks) : InCache (bitmapWord b) := by
  have hfits := h.fits
  unfold disksize blksize at hfits
  unfold InCache bitmapWord disksize
  omega

theorem Cache.Ready.bitmapBlock_lt (h : c.Ready) (hb : b < c.nblocks) : bitmapBlock b < c.nblocks := by
  have hlt := h.bitmap_lt
  unfold bitmapBlock blkbitsize
  omega

/-- The bits of the bitmap blocks are in the first of them. -/
theorem Cache.Ready.bitmapBlock_bitmapBlock (h : c.Ready) (hb : b < c.nblocks) :
    bitmapBlock (bitmapBlock b) = 2 := by
  have hfits := h.fits
  unfold disksize blksize at hfits
  unfold bitmapBlock blkbitsize
  omega

theorem ReadIn.nblocks (h : ReadIn c c') : c'.nblocks = c.nblocks := by
  unfold Cache.nblocks
  rw [h.view]

theorem SameView.ready (h : SameView c c') (hc : c.Ready) : c'.Ready where
  super := h.mapped 1 hc.super
  bitmap := h.mapped 2 hc.bitmap
  bitmap_lt := by
    have hlt := hc.bitmap_lt
    unfold Cache.nblocks at *
    rw [h.view]
    exact hlt
  fits := by
    have hle := hc.fits
    unfold Cache.nblocks at *
    rw [h.view]
    exact hle

/-- The accesses to the bitmap that panic. -/
theorem touch_eq_none (h : c.Ready) (hb : b < c.nblocks) :
    c.touch (bitmapWord b) = none ↔
      c.mapped (bitmapBlock b) = false ∧ bitSet c.view (bitmapBlock b) := by
  have hin := h.inCache hb
  have hlt := h.bitmapBlock_lt hb
  have htwo := h.bitmapBlock_bitmapBlock hb
  unfold Cache.touch Cache.access
  rw [blockno_bitmapWord]
  by_cases hm : c.mapped (bitmapBlock b) = true
  · rw [if_pos hm]
    simp [hm]
  · have hm' : c.mapped (bitmapBlock b) = false := by simpa using hm
    have hmb : c.mapped (blockno (bitmapWord b)) = false := by
      rw [blockno_bitmapWord]
      exact hm'
    have hload := load_readIn hin hmb
    rw [blockno_bitmapWord] at hload
    have hagain : (c.load (bitmapBlock b)).mapped (blockno (bitmapWord (bitmapBlock b))) = true := by
      rw [blockno_bitmapWord, htwo]
      exact hload.mapped 2 h.bitmap
    rw [if_neg hm]
    unfold faultDepth bcPgfault
    have hexists : ¬ (sNblocks c.view).toNat ≤ bitmapBlock b := Nat.not_le.mpr hlt
    rw [if_neg (not_not_intro hin), blockno_bitmapWord, if_neg hexists]
    unfold Cache.blockIsFree Cache.access
    rw [hload.view, if_neg hexists, if_pos hagain]
    simp only [Option.map_some, Option.bind_some, hload.view, hm', true_and]
    by_cases hbit : bitSet c.view (bitmapBlock b)
    · simp [hbit]
    · simp [hbit]

/-! ## One change -/

/-- The word of block `b` was stored: its block has a page, which is dirty. -/
structure WordStored (c : Cache) (b : Nat) (v : BitVec 32) (c' : Cache) : Prop where
  view : c'.view = c.view.write32 (bitmapWord b) v
  mapped : ∀ q, c.mapped q = true → c'.mapped q = true
  page : c'.mapped (blockno (bitmapWord b)) = true
  dirty : c'.dirty (blockno (bitmapWord b)) = true

theorem stored_of_touch {c₁ : Cache} (h : c.touch (bitmapWord b) = some c₁) (v : BitVec 32) :
    WordStored c b v (c₁.store32 (bitmapWord b) v) := by
  obtain ⟨hl, hm⟩ := touch_readIn h
  refine ⟨?_, hl.mapped, hm, store32_dirty⟩
  rw [store32_view (bitmapWord_mod b) (diskmap_le_bitmapWord b) hm, hl.view]

theorem setBit_stored (h : c.setBit b = some c') :
    WordStored c b (c.view.read32 (bitmapWord b) ||| bitMask b) c' := by
  obtain ⟨c₁, htouch, hstore⟩ := Option.bind_eq_some_iff.mp h
  cases hstore
  rw [← (touch_readIn htouch).1.view]
  exact stored_of_touch htouch _

theorem clearBit_stored (h : c.clearBit b = some c') :
    WordStored c b (c.view.read32 (bitmapWord b) &&& ~~~(bitMask b)) c' := by
  obtain ⟨c₁, htouch, hstore⟩ := Option.bind_eq_some_iff.mp h
  cases hstore
  rw [← (touch_readIn htouch).1.view]
  exact stored_of_touch htouch _

theorem WordStored.nblocks {v : BitVec 32} (h : WordStored c b v c') : c'.nblocks = c.nblocks := by
  unfold Cache.nblocks sNblocks
  rw [h.view, Mem.read32_write32_of_disjoint]
  unfold superAddr bitmapWord
  omega

theorem WordStored.ready {v : BitVec 32} (h : WordStored c b v c') (hc : c.Ready) : c'.Ready where
  super := h.mapped 1 hc.super
  bitmap := h.mapped 2 hc.bitmap
  bitmap_lt := by
    rw [h.nblocks]
    exact hc.bitmap_lt
  fits := by
    rw [h.nblocks]
    exact hc.fits

theorem setBit_eq_none : c.setBit b = none ↔ c.touch (bitmapWord b) = none := by
  unfold Cache.setBit
  cases c.touch (bitmapWord b) with
  | none => simp
  | some c₁ => simp

theorem clearBit_eq_none : c.clearBit b = none ↔ c.touch (bitmapWord b) = none := by
  unfold Cache.clearBit
  cases c.touch (bitmapWord b) with
  | none => simp
  | some c₁ => simp

/-- `free_block` over the cache is `free_block` on what the server reads. -/
theorem freeBlock_view (h : c.freeBlock b = some c') : Fs.freeBlock c.view b = some c'.view := by
  unfold Cache.freeBlock at h
  unfold Fs.freeBlock
  split at h
  · cases h
  · rename_i hb
    rw [if_neg hb, (setBit_stored h).view]
    rfl

/-! ## The search -/

/-- What `alloc_block` has done when it returns `b`. -/
structure Took (c : Cache) (b : Nat) (c' : Cache) : Prop where
  lt : b < c.nblocks
  free : bitSet c.view b
  least : ∀ j < b, ¬ bitSet c.view j
  view : c'.view = Fs.clearBit c.view b
  word : c'.disk.read32 (bitmapWord b - diskmap) = c'.view.read32 (bitmapWord b)
  ready : c'.Ready

/-- Blocks loaded before do not matter. -/
theorem Took.of_readIn {c₁ : Cache} (h : Took c₁ b c') (hl : ReadIn c c₁) : Took c b c' := by
  obtain ⟨hlt, hset, hmin, hview, hword, hready⟩ := h
  rw [hl.nblocks] at hlt
  rw [hl.view] at hset hmin hview
  exact ⟨hlt, hset, hmin, hview, hword, hready⟩

theorem Took.bits (h : Took c b c') : bitSet c'.view x ↔ bitSet c.view x ∧ x ≠ b := by
  rw [h.view]
  exact bitSet_clearBit

/-- Only the word of block `b` changes. -/
theorem Took.same (h : Took c b c') (hx : x < bitmapWord b ∨ bitmapWord b + 4 ≤ x) :
    c'.view x = c.view x := by
  rw [h.view]
  exact Mem.write32_of_disjoint _ _ hx

/-- The bit is clear on the disk too. -/
theorem Took.diskBit (h : Took c b c') : ¬ c'.diskBit b := by
  unfold Cache.diskBit
  rw [h.word]
  intro hset
  exact (h.bits.mp hset).2 rfl

/-- The bit of block `i` is cleared and its bitmap block flushed. -/
theorem take_spec (hc : c.Ready) (hi : i < c.nblocks) (hfree : bitSet c.view i)
    (hleast : ∀ j < i, ¬ bitSet c.view j) (hm : c.mapped (bitmapBlock i) = true) :
    ∃ c₁ c', c.clearBit i = some c₁ ∧ c₁.flushBlock (bitmapWord i) = some c' ∧ Took c i c' := by
  obtain ⟨c₁, hclear⟩ : ∃ c₁, c.clearBit i = some c₁ := by
    refine Option.ne_none_iff_exists'.mp fun hnone => ?_
    rw [clearBit_eq_none, touch_eq_none hc hi, hm] at hnone
    exact absurd hnone.1 (by simp)
  have hst := clearBit_stored hclear
  obtain ⟨c', hflush⟩ := flushBlock_some (c := c₁) (hc.inCache hi)
  have hsame := flushBlock_sameView hflush
  refine ⟨c₁, c', hclear, hflush, hi, hfree, hleast, ?_, ?_, hsame.ready (hst.ready hc)⟩
  · rw [hsame.view, hst.view]
    rfl
  · refine Mem.read32_shift fun k hk => ?_
    have hblock := bitmapWord_block (b := i) (x := bitmapWord i + k) (by omega) (by omega)
    have hle := diskmap_le_bitmapWord i
    rw [show bitmapWord i - diskmap + k = bitmapWord i + k - diskmap by omega]
    exact flushBlock_disk hst.page hst.dirty hflush hblock.1 hblock.2

/-- A bitmap block that the search comes to has a page or is in use: its own bit was looked at. -/
theorem Cache.Ready.mapped_or (hc : c.Ready) (hleast : ∀ j < i, ¬ bitSet c.view j) :
    c.mapped (bitmapBlock i) = true ∨ ¬ bitSet c.view (bitmapBlock i) := by
  by_cases hfirst : i < 32768
  · left
    have heq : bitmapBlock i = 2 := by
      unfold bitmapBlock blkbitsize
      omega
    rw [heq]
    exact hc.bitmap
  · right
    refine hleast _ ?_
    unfold bitmapBlock blkbitsize
    omega

theorem blockIsFree_spec (hc : c.Ready) (hi : i < c.nblocks) (hleast : ∀ j < i, ¬ bitSet c.view j) :
    ∃ c', c.blockIsFree (bcPgfault faultDepth) i = some (c', decide (bitSet c.view i)) ∧ ReadIn c c' ∧
      c'.mapped (bitmapBlock i) = true := by
  obtain ⟨c₁, htouch⟩ : ∃ c₁, c.touch (bitmapWord i) = some c₁ := by
    refine Option.ne_none_iff_exists'.mp fun hnone => ?_
    rw [touch_eq_none hc hi] at hnone
    rcases hc.mapped_or hleast with hm | hbit
    · rw [hm] at hnone
      exact absurd hnone.1 (by simp)
    · exact hbit hnone.2
  obtain ⟨hl, hm⟩ := touch_readIn htouch
  refine ⟨c₁, ?_, hl, ?_⟩
  · have hexists : ¬ (sNblocks c.view).toNat ≤ i := Nat.not_le.mpr hi
    have haccess : c.access (bcPgfault faultDepth) (bitmapWord i) = some c₁ := htouch
    unfold Cache.blockIsFree
    rw [if_neg hexists, haccess, Option.map_some, hl.view]
  · rw [← blockno_bitmapWord]
    exact hm

/-- What the search returns when the `n` blocks from `i` on are left. -/
theorem allocLoop_spec (n i : Nat) (c : Cache) (hc : c.Ready) (hn : i + n = c.nblocks)
    (hleast : ∀ j < i, ¬ bitSet c.view j) :
    ∃ c', (∃ b : Nat, Cache.allocLoop n c i = some (c', (b : Int)) ∧ Took c b c') ∨
      (Cache.allocLoop n c i = some (c', -eNoDisk) ∧ (∀ j < c.nblocks, ¬ bitSet c.view j) ∧
        ReadIn c c') := by
  induction n generalizing i c with
  | zero =>
      refine ⟨c, Or.inr ⟨rfl, ?_, ReadIn.refl c⟩⟩
      intro j hj
      exact hleast j (by omega)
  | succ n ih =>
      obtain ⟨c₁, hfree, hl, hm⟩ := blockIsFree_spec hc (by omega) hleast
      have hc₁ := hl.toSameView.ready hc
      unfold Cache.allocLoop
      rw [hfree]
      simp only [Option.bind_eq_bind, Option.bind_some, decide_eq_true_eq]
      by_cases hbit : bitSet c.view i
      · rw [if_pos hbit]
        have hi : i < c₁.nblocks := by
          rw [hl.nblocks]
          omega
        rw [← hl.view] at hbit hleast
        obtain ⟨c₂, c', hclear, hflush, htook⟩ := take_spec hc₁ hi hbit hleast hm
        refine ⟨c', Or.inl ⟨i, ?_, ?_⟩⟩
        · rw [hclear, Option.bind_some, hflush, Option.bind_some]
        · exact htook.of_readIn hl
      · rw [if_neg hbit]
        have hnext : ∀ j < i + 1, ¬ bitSet c₁.view j := by
          intro j hj
          rw [hl.view]
          rcases Nat.lt_succ_iff_lt_or_eq.mp hj with hlt | rfl
          · exact hleast j hlt
          · exact hbit
        obtain ⟨c', hr⟩ := ih (i + 1) c₁ hc₁ (by rw [hl.nblocks]; omega) hnext
        refine ⟨c', ?_⟩
        rcases hr with ⟨b, hrun, htook⟩ | ⟨hrun, hnone, hl'⟩
        · exact Or.inl ⟨b, hrun, htook.of_readIn hl⟩
        · rw [hl.nblocks, hl.view] at hnone
          exact Or.inr ⟨hrun, hnone, hl.trans hl'⟩

/-- `alloc_block` over the cache. -/
theorem allocBlock_cases (hc : c.Ready) :
    ∃ c', (∃ b : Nat, c.allocBlock = some (c', (b : Int)) ∧ Took c b c') ∨
      (c.allocBlock = some (c', -eNoDisk) ∧ (∀ j < c.nblocks, ¬ bitSet c.view j) ∧ ReadIn c c') :=
  allocLoop_spec c.nblocks 0 c hc (Nat.zero_add _) fun j hj => absurd hj (Nat.not_lt_zero j)

theorem nat_ne_noDisk (b : Nat) : (b : Int) ≠ -eNoDisk := by
  unfold eNoDisk
  omega

/-- `alloc_block` over the cache is `alloc_block` on what the server reads. -/
theorem allocBlock_view (hc : c.Ready) (h : c.allocBlock = some (c', r)) :
    Fs.allocBlock c.view = (c'.view, BitVec.ofInt 32 r) := by
  obtain ⟨c₁, ⟨b, hrun, htook⟩ | ⟨hrun, hnone, hl⟩⟩ := allocBlock_cases hc
  · rw [hrun] at h
    cases h
    have hfirst : firstFree c.view = some b := by
      refine List.find?_range_eq_some.mpr ⟨?_, ?_, ?_⟩
      · exact blockIsFree_iff.mpr ⟨htook.lt, htook.free⟩
      · exact List.mem_range.mpr htook.lt
      · intro j hj
        unfold blockIsFree
        simp [htook.least j hj]
    unfold Fs.allocBlock
    rw [hfirst, htook.view]
    rfl
  · rw [hrun] at h
    cases h
    have hfirst : firstFree c.view = none := by
      refine List.find?_eq_none.mpr fun j hj hfree => ?_
      exact hnone j (List.mem_range.mp hj) (blockIsFree_iff.mp hfree).2
    unfold Fs.allocBlock
    rw [hfirst, hl.view]

/-! ## Calls one after the other -/

end

/-- A call that returned. -/
inductive BitmapCall
  | alloc (r : Int)
  | free (b : Nat)

inductive BitmapStep : Cache → BitmapCall → Cache → Prop
  | alloc {c c' : Cache} {r : Int} (h : c.allocBlock = some (c', r)) : BitmapStep c (.alloc r) c'
  | free {c c' : Cache} {b : Nat} (h : c.freeBlock b = some c') : BitmapStep c (.free b) c'

/-- `check_bitmap`, for the bitmap blocks: they are in use. -/
def Cache.Checked (c : Cache) : Prop := ∀ b < c.nblocks, ¬ bitSet c.view (bitmapBlock b)

section

variable {c c' : Cache} {b i n x : Nat} {r : Int} {e : BitmapCall}

theorem freeBlock_stored (h : c.freeBlock b = some c') :
    WordStored c b (c.view.read32 (bitmapWord b) ||| bitMask b) c' := by
  unfold Cache.freeBlock at h
  split at h
  · cases h
  · exact setBit_stored h

theorem freeBlock_bits (h : c.freeBlock b = some c') :
    bitSet c'.view x ↔ bitSet c.view x ∨ x = b := by
  rw [(freeBlock_stored h).view]
  exact bitSet_setBit

theorem freeBlock_eq_none (hc : c.Ready) (hpos : 0 < b) (hb : b < c.nblocks) :
    c.freeBlock b = none ↔ c.mapped (bitmapBlock b) = false ∧ bitSet c.view (bitmapBlock b) := by
  unfold Cache.freeBlock
  rw [if_neg (by omega), setBit_eq_none, touch_eq_none hc hb]

theorem BitmapStep.ready (h : BitmapStep c e c') (hc : c.Ready) : c'.Ready := by
  cases h with
  | alloc h =>
      obtain ⟨c₁, ⟨b, hrun, htook⟩ | ⟨hrun, -, hl⟩⟩ := allocBlock_cases hc
      · rw [hrun] at h
        cases h
        exact htook.ready
      · rw [hrun] at h
        cases h
        exact hl.toSameView.ready hc
  | free h => exact (freeBlock_stored h).ready hc

theorem BitmapStep.taken (h : BitmapStep c (.alloc b) c') (hc : c.Ready) : Took c b c' := by
  cases h with
  | alloc h =>
      obtain ⟨c₁, ⟨b', hrun, htook⟩ | ⟨hrun, -, hl⟩⟩ := allocBlock_cases hc
      · rw [hrun] at h
        simp only [Option.some.injEq, Prod.mk.injEq, Int.natCast_inj] at h
        obtain ⟨rfl, rfl⟩ := h
        exact htook
      · rw [hrun] at h
        simp only [Option.some.injEq, Prod.mk.injEq] at h
        exact absurd h.2.symm (nat_ne_noDisk b)

theorem BitmapStep.given (h : BitmapStep c e c') (hc : c.Ready) (hbefore : ¬ bitSet c.view b)
    (hafter : bitSet c'.view b) : e = .free b := by
  cases h with
  | alloc h =>
      obtain ⟨c₁, ⟨b', hrun, htook⟩ | ⟨hrun, -, hl⟩⟩ := allocBlock_cases hc
      · rw [hrun] at h
        cases h
        exact absurd (htook.bits.mp hafter).1 hbefore
      · rw [hrun] at h
        cases h
        rw [hl.view] at hafter
        exact absurd hafter hbefore
  | free h =>
      rcases (freeBlock_bits h).mp hafter with hset | rfl
      · exact absurd hset hbefore
      · rfl

/-- The blocks are a pool from which `alloc_block` takes and to which `free_block` gives back. -/
theorem block_pool : Pool BitmapStep Cache.Ready (fun c b => bitSet c.view b)
    (fun e b => e = .alloc (b : Nat)) fun e b => e = .free b where
  keeps c e c' h hc := h.ready hc
  taken c e c' b h hc he := by
    subst he
    have htook := h.taken hc
    exact ⟨htook.free, fun hset => (htook.bits.mp hset).2 rfl⟩
  given c e c' b h hc hbefore hafter := h.given hc hbefore hafter

theorem BitmapStep.nblocks (h : BitmapStep c e c') (hc : c.Ready) : c'.nblocks = c.nblocks := by
  cases h with
  | alloc h =>
      obtain ⟨c₁, ⟨b', hrun, htook⟩ | ⟨hrun, -, hl⟩⟩ := allocBlock_cases hc
      · rw [hrun] at h
        cases h
        unfold Cache.nblocks sNblocks
        rw [htook.view, Fs.clearBit, Mem.read32_write32_of_disjoint]
        unfold superAddr bitmapWord
        omega
      · rw [hrun] at h
        cases h
        exact hl.nblocks
  | free h => exact (freeBlock_stored h).nblocks

/-- The bitmap blocks stay in use as long as they are not freed. -/
theorem BitmapStep.checked (h : BitmapStep c e c') (hc : c.Ready) (hchk : c.Checked)
    (hne : ∀ b < c.nblocks, e ≠ .free (bitmapBlock b)) : c'.Checked := by
  intro b hb hset
  rw [h.nblocks hc] at hb
  exact hne b hb (h.given hc (hchk b hb) hset)

theorem run_checked {es : List BitmapCall} (h : LabelledRun BitmapStep c es c') (hc : c.Ready)
    (hchk : c.Checked) (hne : ∀ b < c.nblocks, .free (bitmapBlock b) ∉ es) :
    c'.Ready ∧ c'.Checked ∧ c'.nblocks = c.nblocks := by
  induction h with
  | nil c => exact ⟨hc, hchk, rfl⟩
  | cons hstep _ ih =>
      have hn := hstep.nblocks hc
      have hchk₁ := hstep.checked hc hchk fun b hb heq =>
        hne b hb (by rw [heq]; exact List.mem_cons_self ..)
      obtain ⟨hc', hchk', hn'⟩ := ih (hstep.ready hc) hchk₁ fun b hb hmem => by
        rw [hn] at hb
        exact hne b hb (List.mem_cons_of_mem _ hmem)
      exact ⟨hc', hchk', hn'.trans hn⟩

end

/-! ## A disk with two bitmap blocks -/

/-- A disk of 40000 blocks whose first bitmap word is `w`, with the super block and the first bitmap
block in the cache. -/
def wideDisk (w : BitVec 32) : Cache :=
  let d : Mem := (Mem.write32 (fun _ => 0#8) 4100 40000#32).write32 8192 w
  { mem := fun x => d (x - diskmap)
    disk := d
    mapped := fun b => b == 1 || b == 2
    dirty := fun _ => false }

section

variable {c c' : Cache} {b : Nat} {w : BitVec 32}

theorem wideDisk_read (w : BitVec 32) {a : Nat} (ha : diskmap ≤ a) :
    (wideDisk w).view.read32 a =
      ((Mem.write32 (fun _ => 0#8) 4100 40000#32).write32 8192 w).read32 (a - diskmap) := by
  have hview : (wideDisk w).view = (wideDisk w).mem := by
    funext x
    unfold Cache.view
    split
    · rfl
    · rfl
  rw [hview]
  refine Mem.read32_shift fun k _ => ?_
  unfold wideDisk
  simp only [Nat.sub_add_comm ha]

theorem wideDisk_nblocks (w : BitVec 32) : (wideDisk w).nblocks = 40000 := by
  unfold Cache.nblocks sNblocks
  rw [wideDisk_read w (by unfold superAddr; omega), show superAddr + 4 - diskmap = 4100 from rfl,
    Mem.read32_write32_of_disjoint _ _ (by omega), Mem.read32_write32_self]
  rfl

theorem wideDisk_ready (w : BitVec 32) : (wideDisk w).Ready where
  super := rfl
  bitmap := rfl
  bitmap_lt := by
    rw [wideDisk_nblocks]
    omega
  fits := by
    rw [wideDisk_nblocks]
    unfold disksize blksize
    omega

theorem wideDisk_bitSet (hb : b < 32) : bitSet (wideDisk w).view b ↔ w &&& bitMask b ≠ 0#32 := by
  unfold bitSet
  rw [wideDisk_read w (diskmap_le_bitmapWord b)]
  have haddr : bitmapWord b - diskmap = 8192 := by
    unfold bitmapWord
    omega
  rw [haddr, Mem.read32_write32_self]

/-! ## The bitmap over all sequences of calls -/

/-- After `fs_init`, `alloc_block` returns the least free block and clears its bit, in memory and on the
disk, or there is none and nothing changes. `free_block` of a block of the disk sets its bit, except
that it panics when the bitmap block of the bit is not in the cache and marked free. In a run of calls
that return, a block is not handed out twice without being freed in between, and as long as no bitmap
block is freed every `free_block` returns. -/
theorem bitmap_is_set (c : Cache) (hc : c.Ready) :
    (∃ c' r, c.allocBlock = some (c', r) ∧
      (r = -eNoDisk ↔ ∀ b < c.nblocks, ¬ bitSet c.view b) ∧
      (r = -eNoDisk → c'.view = c.view ∧ c'.disk = c.disk) ∧
      (r ≠ -eNoDisk → ∃ b : Nat, r = b ∧ b < c.nblocks ∧ bitSet c.view b ∧
        (∀ j < b, ¬ bitSet c.view j) ∧ (∀ j, bitSet c'.view j ↔ bitSet c.view j ∧ j ≠ b) ∧
        (∀ x, x < bitmapWord b ∨ bitmapWord b + 4 ≤ x → c'.view x = c.view x) ∧ ¬ c'.diskBit b)) ∧
    (∀ b, 0 < b → b < c.nblocks →
      (c.freeBlock b = none ↔ c.mapped (bitmapBlock b) = false ∧ bitSet c.view (bitmapBlock b)) ∧
      ∀ c', c.freeBlock b = some c' →
        (∀ j, bitSet c'.view j ↔ bitSet c.view j ∨ j = b) ∧
        ∀ x, x < bitmapWord b ∨ bitmapWord b + 4 ≤ x → c'.view x = c.view x) ∧
    (∀ (es₁ es es₂ : List BitmapCall) (b : Nat) (c' : Cache),
      LabelledRun BitmapStep c (es₁ ++ .alloc b :: es ++ .alloc b :: es₂) c' → .free b ∈ es) ∧
    (c.Checked → ∀ (es : List BitmapCall) (c' : Cache), LabelledRun BitmapStep c es c' →
      (∀ b < c.nblocks, .free (bitmapBlock b) ∉ es) →
      ∀ b, 0 < b → b < c.nblocks → ∃ c'', c'.freeBlock b = some c'') := by
  refine ⟨?_, ?_, ?_, ?_⟩
  · obtain ⟨c', ⟨b, hrun, htook⟩ | ⟨hrun, hnone, hl⟩⟩ := allocBlock_cases hc
    · refine ⟨c', b, hrun, ⟨fun heq => absurd heq (nat_ne_noDisk b), ?_⟩,
        fun heq => absurd heq (nat_ne_noDisk b), ?_⟩
      · intro hnone
        exact absurd htook.free (hnone b htook.lt)
      · intro _
        exact ⟨b, rfl, htook.lt, htook.free, htook.least, fun j => htook.bits, fun x hx => htook.same hx,
          htook.diskBit⟩
    · exact ⟨c', -eNoDisk, hrun, ⟨fun _ => hnone, fun _ => rfl⟩, fun _ => ⟨hl.view, hl.disk⟩,
        fun hne => absurd rfl hne⟩
  · intro b hpos hb
    refine ⟨freeBlock_eq_none hc hpos hb, fun c' h => ⟨fun j => freeBlock_bits h, fun x hx => ?_⟩⟩
    rw [(freeBlock_stored h).view]
    exact Mem.write32_of_disjoint _ _ hx
  · intro es₁ es es₂ b c' hrun
    obtain ⟨e, hmem, heq⟩ := block_pool.given_between hrun hc rfl rfl
    rw [← heq]
    exact hmem
  · intro hchk es c' hrun hne b hpos hb
    obtain ⟨hc', hchk', hn⟩ := run_checked hrun hc hchk hne
    rw [← hn] at hb
    refine Option.ne_none_iff_exists'.mp fun hnone => ?_
    rw [freeBlock_eq_none hc' hpos hb] at hnone
    exact hchk' b hb hnone.2

/-- The first word of the bitmap has its low four bits clear, so the first block handed out is 4. -/
theorem bitmap_is_set_wide : ∃ c', (wideDisk 0xFFFFFFF0#32).allocBlock = some (c', 4) ∧ ¬ c'.diskBit 4 := by
  have hbits : ∀ b < 32, bitSet (wideDisk 0xFFFFFFF0#32).view b ↔ 0xFFFFFFF0#32 &&& bitMask b ≠ 0#32 :=
    fun b hb => wideDisk_bitSet hb
  have hfour : bitSet (wideDisk 0xFFFFFFF0#32).view 4 := (hbits 4 (by omega)).mpr (by decide)
  obtain ⟨⟨c', r, hrun, hfull, -, htake⟩, -⟩ :=
    bitmap_is_set (wideDisk 0xFFFFFFF0#32) (wideDisk_ready 0xFFFFFFF0#32)
  have hne : r ≠ -eNoDisk := by
    intro heq
    refine hfull.mp heq 4 ?_ hfour
    rw [wideDisk_nblocks]
    omega
  obtain ⟨b, rfl, -, hset, hleast, -, -, hdisk⟩ := htake hne
  have hle : b ≤ 4 := Nat.le_of_not_lt fun hlt => hleast 4 hlt hfour
  have hset' := (hbits b (by omega)).mp hset
  have heq : b = 4 := by
    rcases (by omega : b = 0 ∨ b = 1 ∨ b = 2 ∨ b = 3 ∨ b = 4) with rfl | rfl | rfl | rfl | rfl
    · exact absurd (by decide) hset'
    · exact absurd (by decide) hset'
    · exact absurd (by decide) hset'
    · exact absurd (by decide) hset'
    · rfl
  subst heq
  exact ⟨c', hrun, hdisk⟩

/-- A bitmap block is freed on a disk whose reserved blocks are in use, and then a block whose bit it
holds. -/
theorem freed_bitmap_block : (wideDisk 0#32).Ready ∧ (∀ b < 4, ¬ bitSet (wideDisk 0#32).view b) ∧
    ∃ c', (wideDisk 0#32).freeBlock 3 = some c' ∧ c'.Ready ∧ 32768 < c'.nblocks ∧
      c'.freeBlock 32768 = none := by
  have hready := wideDisk_ready 0#32
  have hclear : ∀ b < 32, ¬ bitSet (wideDisk 0#32).view b := by
    intro b hb
    rw [wideDisk_bitSet hb]
    simp
  refine ⟨hready, fun b hb => hclear b (by omega), ?_⟩
  have htouch : (wideDisk 0#32).touch (bitmapWord 3) = some (wideDisk 0#32) := rfl
  have hfree : ∃ c', (wideDisk 0#32).freeBlock 3 = some c' ∧ c'.mapped 3 = false := by
    unfold Cache.freeBlock Cache.setBit
    rw [if_neg (by omega), htouch]
    exact ⟨_, rfl, rfl⟩
  obtain ⟨c', hfree, hunmapped⟩ := hfree
  have hst := freeBlock_stored hfree
  have hlt : 32768 < c'.nblocks := by
    rw [hst.nblocks, wideDisk_nblocks]
    omega
  refine ⟨c', hfree, hst.ready hready, hlt, ?_⟩
  rw [freeBlock_eq_none (hst.ready hready) (by omega) hlt]
  exact ⟨hunmapped, (freeBlock_bits hfree).mpr (Or.inr rfl)⟩

end

end Jos.Fs
