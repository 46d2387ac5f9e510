import Jos.Lib.ByteMem
import Mathlib.Data.List.Basic

/-!
# The disk as the file server sees it

The layout of `inc/fs.h` and the block functions of `fs/bc.c` and `fs/fs.c`. The memory is
that of the file server: disk block `b` is at `DISKMAP + b * BLKSIZE`. A block is read from
the disk when it is first touched and written back by `flush_block`; neither changes what the
server reads there, so the memory holds the contents of the blocks whether or not they are in
the cache. Pointers are addresses. An operation returns `none` when the server panics.
-/

namespace Jos.Fs

open Jos.Lib

def diskmap : Nat := 0x10000000
def disksize : Nat := 0xC0000000
def blksize : Nat := 4096
/-- The blocks for which one bitmap block has bits. -/
def blkbitsize : Nat := 32768
def ndirect : Nat := 10
def nindirect : Nat := 1024
/-- The number of blocks of the largest file. -/
def maxblocks : Nat := 1034
def maxfilesize : Nat := 4235264
/-- The number of `struct File` in a block. -/
def blkfiles : Nat := 16
def ftypeDir : BitVec 32 := 1#32

def eInval : Int := 3
def eNoDisk : Int := 9
def eNotFound : Int := 11

/-! ## Layout -/

def blockAddr (b : Nat) : Nat := diskmap + 4096 * b

/-- The super block is block 1. -/
def superAddr : Nat := diskmap + 4096

def sNblocks (m : Mem) : BitVec 32 := m.read32 (superAddr + 4)

/-- `&super->s_root` -/
def sRoot : Nat := superAddr + 8

/-- The bitmap begins at block 2; `bitmapWord b` is `&bitmap[b / 32]`. -/
def bitmapWord (b : Nat) : Nat := diskmap + 8192 + 4 * (b / 32)

/-- The fields of the `struct File` at `f`. -/
def fName (m : Mem) (f i : Nat) : BitVec 8 := m (f + i)
def fSize (m : Mem) (f : Nat) : BitVec 32 := m.read32 (f + 128)
def fType (m : Mem) (f : Nat) : BitVec 32 := m.read32 (f + 132)
/-- `&f->f_direct[i]` -/
def fDirect (f i : Nat) : Nat := f + 136 + 4 * i
/-- `&f->f_indirect` -/
def fIndirect (f : Nat) : Nat := f + 176

/-- `f->f_indirect` -/
def indirect (m : Mem) (f : Nat) : BitVec 32 := m.read32 (fIndirect f)

/-! ## Blocks -/

/-- `diskaddr` -/
def diskaddr (m : Mem) (blockno : BitVec 32) : Option Nat :=
  if blockno = 0#32 ∨ sNblocks m ≤ blockno then none else some (blockAddr blockno.toNat)

/-- `1 << (b % 32)` -/
def bitMask (b : Nat) : BitVec 32 := 1#32 <<< (b % 32)

/-- The bit of block `b` is set. -/
def bitSet (m : Mem) (b : Nat) : Prop := m.read32 (bitmapWord b) &&& bitMask b ≠ 0#32

instance (m : Mem) (b : Nat) : Decidable (bitSet m b) := inferInstanceAs (Decidable (_ ≠ _))

/-- `block_is_free` -/
def blockIsFree (m : Mem) (b : Nat) : Bool := b < (sNblocks m).toNat ∧ bitSet m b

/-- `bitmap[b / 32] |= 1 << (b % 32)` -/
def setBit (m : Mem) (b : Nat) : Mem :=
  m.write32 (bitmapWord b) (m.read32 (bitmapWord b) ||| bitMask b)

/-- `free_block` -/
def freeBlock (m : Mem) (b : Nat) : Option Mem := if b = 0 then none else some (setBit m b)

/-- `bitmap[i / 32] &= ~(1 << (i % 32))` -/
def clearBit (m : Mem) (b : Nat) : Mem :=
  m.write32 (bitmapWord b) (m.read32 (bitmapWord b) &&& ~~~(bitMask b))

/-- The loop of `alloc_block`: the first free block. -/
def firstFree (m : Mem) : Option Nat := (List.range (sNblocks m).toNat).find? (blockIsFree m)

/-- `alloc_block`; the result is an `int`, kept by the callers in a `uint32_t`. -/
def allocBlock (m : Mem) : Mem × BitVec 32 :=
  match firstFree m with
  | some b => (clearBit m b, BitVec.ofNat 32 b)
  | none => (m, BitVec.ofInt 32 (-eNoDisk))

/-- Allocate a block, store its number at `slot` and clear the block. The test
`new_blockno < 0` of the callers is always false; when the disk is full, `diskaddr` panics. -/
def allocInto (m : Mem) (slot : Nat) : Option Mem := do
  let (m, new) := allocBlock m
  let m := m.write32 slot new
  let a ← diskaddr m new
  some (m.fill a 0 blksize)

/-! ## Blocks of a file -/

/-- `file_block_walk`: the address of the slot of block `filebno`. -/
def fileBlockWalk (m : Mem) (f : Nat) (filebno : BitVec 32) (alloc : Bool) :
    Option (Mem × Except Int Nat) :=
  if maxblocks ≤ filebno.toNat then some (m, .error (-eInval))
  else if filebno.toNat < ndirect then some (m, .ok (fDirect f filebno.toNat))
  else if indirect m f = 0#32 ∧ alloc = false then some (m, .error (-eNotFound))
  else do
    let m ← if indirect m f = 0#32 then allocInto m (fIndirect f) else some m
    let a ← diskaddr m (indirect m f)
    some (m, .ok (a + 4 * (filebno.toNat - ndirect)))

/-- `file_get_block`: the address of block `filebno` in memory. -/
def fileGetBlock (m : Mem) (f : Nat) (filebno : BitVec 32) : Option (Mem × Except Int Nat) := do
  match ← fileBlockWalk m f filebno true with
  | (m, .error _) => some (m, .error (-eInval))
  | (m, .ok slot) =>
      let m ← if m.read32 slot = 0#32 then allocInto m slot else some m
      let a ← diskaddr m (m.read32 slot)
      some (m, .ok a)

/-! ## Sizes -/

/-- `file_free_block` -/
def fileFreeBlock (m : Mem) (f : Nat) (filebno : BitVec 32) : Option (Mem × Int) := do
  match ← fileBlockWalk m f filebno false with
  | (m, .error r) => some (m, r)
  | (m, .ok slot) =>
      if m.read32 slot ≠ 0#32 then
        let m ← freeBlock m (m.read32 slot).toNat
        some (m.write32 slot 0#32, 0)
      else some (m, 0)

/-- `(size + BLKSIZE - 1) / BLKSIZE` in `int`, then converted to `uint32_t`. -/
def sizeBlocks (size : BitVec 32) : Nat := ((size + 4096#32 - 1#32).sdiv 4096#32).toNat

/-- `file_truncate_blocks` -/
def fileTruncateBlocks (m : Mem) (f : Nat) (newsize : BitVec 32) : Option Mem := do
  let old := sizeBlocks (fSize m f)
  let new := sizeBlocks newsize
  let m ← (List.range' new (old - new)).foldlM
    (fun m bno => (fileFreeBlock m f (BitVec.ofNat 32 bno)).map (·.1)) m
  if new ≤ ndirect ∧ indirect m f ≠ 0#32 then
    let m ← freeBlock m (indirect m f).toNat
    some (m.write32 (fIndirect f) 0#32)
  else some m

/-- `file_set_size`; it always returns 0. -/
def fileSetSize (m : Mem) (f : Nat) (newsize : BitVec 32) : Option Mem := do
  let m ← if newsize.slt (fSize m f) then fileTruncateBlocks m f newsize else some m
  some (m.write32 (f + 128) newsize)

/-! ## Reading and writing -/

/-- `MIN(BLKSIZE - pos % BLKSIZE, offset + count - pos)`, an unsigned minimum. -/
def chunk (pos ending : BitVec 32) : BitVec 32 :=
  let a := 4096#32 - pos.srem 4096#32
  let b := ending - pos
  if a ≤ b then a else b

/-- `blk + pos % BLKSIZE` -/
def blkPos (blk : Nat) (pos : BitVec 32) : Nat := (BitVec.ofNat 32 blk + pos.srem 4096#32).toNat

/-- The result of a copying loop: the last values of the local variables `buf` and `r`, where
no error stands for the end of the loop. -/
abbrev CopyResult := Mem × Nat × Except Int Unit

/-- The loop of `file_read` and `file_write`, for at most `fuel` rounds. `copy m buf a n` is the
`memmove` of the `n` bytes between the buffer at `buf` and the block at `a`. -/
def copyLoop (copy : Mem → Nat → Nat → Nat → Mem) (f : Nat) (ending : BitVec 32) :
    Nat → Mem → Nat → BitVec 32 → Option CopyResult
  | 0, _, _, _ => none
  | fuel + 1, m, buf, pos =>
      if pos < ending then do
        match ← fileGetBlock m f (pos.sdiv 4096#32) with
        | (m, .error r) => some (m, buf, .error r)
        | (m, .ok blk) =>
            let bn := chunk pos ending
            copyLoop copy f ending fuel (copy m buf (blkPos blk pos) bn.toNat) (buf + bn.toNat)
              (pos + bn)
      else some (m, buf, .ok ())

/-- The loop of `file_read` -/
def readLoop : Nat → BitVec 32 → Nat → Mem → Nat → BitVec 32 → Option CopyResult :=
  copyLoop fun m buf a n => m.move buf a n

/-- The loop of `file_write` -/
def writeLoop : Nat → BitVec 32 → Nat → Mem → Nat → BitVec 32 → Option CopyResult :=
  copyLoop fun m buf a n => m.move a buf n

/-- A round ends with an error or begins the next block, so there are fewer rounds. -/
def copyFuel : Nat := 2048

/-- The value that `file_read` and `file_write` return after their loop. -/
def copyReturn (count : BitVec 32) : Except Int Unit → Int
  | .error r => r
  | .ok () => count.toInt

/-- `count = MIN(count, f->f_size - offset)`, an unsigned minimum. -/
def readCount (m : Mem) (f : Nat) (count offset : BitVec 32) : BitVec 32 :=
  if count ≤ fSize m f - offset then count else fSize m f - offset

/-- `file_read`: the memory, the end of the bytes written to `buf` and the returned value. -/
def fileRead (m : Mem) (f buf : Nat) (count offset : BitVec 32) : Option (Mem × Nat × Int) :=
  if (fSize m f).sle offset then some (m, buf, 0)
  else do
    let count := readCount m f count offset
    let (m, buf, r) ← readLoop f (offset + count) copyFuel m buf offset
    some (m, buf, copyReturn count r)

/-- `file_write`: the memory, the end of the bytes read from `buf` and the returned value. -/
def fileWrite (m : Mem) (f buf : Nat) (count offset : BitVec 32) : Option (Mem × Nat × Int) := do
  let m ← if fSize m f < offset + count then fileSetSize m f (offset + count) else some m
  let (m, buf, r) ← writeLoop f (offset + count) copyFuel m buf offset
  some (m, buf, copyReturn count r)

/-! ## Directories -/

/-- The inner loop of `dir_alloc_file`: an unused entry of the block at `blk`. -/
def unusedEntry (m : Mem) (blk : Nat) : Option Nat :=
  ((List.range blkfiles).find? fun j => fName m (blk + 256 * j) 0 = 0#8).map fun j => blk + 256 * j

/-- The outer loop of `dir_alloc_file`, over the block numbers `l`. -/
def dirAllocLoop (dir : Nat) : Mem → List Nat → Option (Mem × Option (Except Int Nat))
  | m, [] => some (m, none)
  | m, i :: l => do
      match ← fileGetBlock m dir (BitVec.ofNat 32 i) with
      | (m, .error r) => some (m, some (.error r))
      | (m, .ok blk) =>
          match unusedEntry m blk with
          | some f => some (m, some (.ok f))
          | none => dirAllocLoop dir m l

/-- `dir_alloc_file` -/
def dirAllocFile (m : Mem) (dir : Nat) : Option (Mem × Except Int Nat) :=
  if (fSize m dir).srem 4096#32 ≠ 0#32 then none
  else do
    let nblock := (fSize m dir).sdiv 4096#32
    match ← dirAllocLoop dir m (List.range nblock.toNat) with
    | (m, some r) => some (m, r)
    | (m, none) =>
        let m := m.write32 (dir + 128) (fSize m dir + 4096#32)
        fileGetBlock m dir nblock

end Jos.Fs
