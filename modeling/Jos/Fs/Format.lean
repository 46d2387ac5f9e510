import Jos.Fs.Lookup

/-!
# The image builder

`fs/fsformat.c` writes an image with a root directory of host files. It maps the image into its
memory; the address does not matter to it, and the model takes the one at which the server has
the disk. The entries of the root directory are built in memory from `malloc`, at `ents`, and
copied into the image at the end; what that memory holds before is arbitrary. A function returns
`none` when the program panics.
-/

namespace Jos.Fs

open Jos.Lib

def fsMagic : BitVec 32 := 0x4A0530AE#32
def ftypeReg : BitVec 32 := 0#32
def maxDirEnts : Nat := 128

/-! ## The program -/

/-- The memory and the global variables. -/
structure Format where
  mem : Mem
  nblocks : BitVec 32
  diskpos : Nat
  super : Nat
  bitmap : Nat

/-- `struct Dir` -/
structure Dir where
  f : Nat
  ents : Nat
  n : Nat

/-- A file of the host, as `open`, `fstat` and `read` show it. -/
structure HostFile where
  path : List (BitVec 8)
  opens : Bool
  isReg : Bool
  contents : List (BitVec 8)

/-- `ROUNDUP(n, BLKSIZE)` for an unsigned `n`. -/
def roundup (n : BitVec 32) : BitVec 32 := n - 1#32 + 4096#32 - (n - 1#32) % 4096#32

/-- `ROUNDUP(n, BLKSIZE)` for a signed `n`. -/
def roundupInt (n : BitVec 32) : BitVec 32 := n - 1#32 + 4096#32 - (n - 1#32).srem 4096#32

def blockof (pos : Nat) : Nat := (pos - diskmap) / 4096

/-- `alloc` -/
def alloc (s : Format) (bytes : BitVec 32) : Option (Format × Nat) :=
  let pos := s.diskpos + (roundup bytes).toNat
  if s.nblocks.toNat ≤ blockof pos then none else some ({ s with diskpos := pos }, s.diskpos)

/-- `opendisk`; the file was truncated, so the mapped image is zero. -/
def opendisk (m : Mem) (nblocks : BitVec 32) : Option Format := do
  let s : Format := ⟨m.fill diskmap 0 (4096 * nblocks.toNat), nblocks, diskmap, 0, 0⟩
  let (s, _) ← alloc s 4096#32
  let (s, super) ← alloc s 4096#32
  let m := s.mem.write32 super fsMagic
  let m := m.write32 (super + 4) nblocks
  let m := m.write32 (super + 8 + 132) ftypeDir
  let m := strcpy m (super + 8) [slash]
  let nbitblocks := (nblocks + 32768#32 - 1#32) / 32768#32
  let (s, bitmap) ← alloc { s with mem := m, super := super } (nbitblocks * 4096#32)
  some { s with mem := s.mem.fill bitmap 0xFF#8 (nbitblocks * 4096#32).toNat, bitmap := bitmap }

/-- `finishdisk` -/
def finishdisk (s : Format) : Format :=
  let clear := fun (m : Mem) (i : Nat) =>
    m.write32 (s.bitmap + 4 * (i / 32)) (m.read32 (s.bitmap + 4 * (i / 32)) &&& ~~~(bitMask i))
  { s with mem := (List.range (blockof s.diskpos)).foldl clear s.mem }

/-- `finishfile`; the first loop ends with `i == NDIRECT` when the file has ten blocks or more. -/
def finishfile (s : Format) (f start : Nat) (len : BitVec 32) : Option Format :=
  let n := (roundup len).toNat / 4096
  let m := s.mem.write32 (f + 128) len
  let m := m.writeWords (fDirect f 0) (fun i => BitVec.ofNat 32 (start + i)) (min n ndirect)
  if ndirect ≤ n then do
    let (s, ind) ← alloc { s with mem := m } 4096#32
    let m := s.mem.write32 (fIndirect f) (BitVec.ofNat 32 (blockof ind))
    some { s with
      mem := m.writeWords ind (fun i => BitVec.ofNat 32 (start + (ndirect + i))) (n - ndirect) }
  else some { s with mem := m }

/-- `diradd` -/
def diradd (s : Format) (d : Dir) (type : BitVec 32) (name : List (BitVec 8)) :
    Option (Format × Dir × Nat) :=
  let out := d.ents + 256 * d.n
  let d := { d with n := d.n + 1 }
  if maxDirEnts < d.n then none
  else some ({ s with mem := (strcpy s.mem out name).write32 (out + 132) type }, d, out)

/-- `finishdir`; the size is an `int`. -/
def finishdir (s : Format) (d : Dir) : Option Format := do
  let size := BitVec.ofNat 32 (256 * d.n)
  let (s, start) ← alloc s size
  finishfile { s with mem := s.mem.move start d.ents size.toNat } d.f (blockof start)
    (roundupInt size)

/-- The part of a path after the last slash. -/
def baseName (path : List (BitVec 8)) : List (BitVec 8) :=
  (path.reverse.takeWhile (· ≠ slash)).reverse

/-- `writefile` -/
def writefile (s : Format) (d : Dir) (file : HostFile) : Option (Format × Dir) :=
  if file.opens = false ∨ file.isReg = false ∨ maxfilesize ≤ file.contents.length then none
  else do
    let (s, d, f) ← diradd s d ftypeReg (baseName file.path)
    let len := BitVec.ofNat 32 file.contents.length
    let (s, start) ← alloc s len
    let s ← finishfile { s with mem := s.mem.store start file.contents } f (blockof start) len
    some (s, d)

/-- The loop of `main` -/
def writefiles : Format → Dir → List HostFile → Option (Format × Dir)
  | s, d, [] => some (s, d)
  | s, d, file :: files => do
      let (s, d) ← writefile s d file
      writefiles s d files

/-- `main`, for the number `nblocks` and the memory at `ents` from `startdir`. -/
def fsformat (m : Mem) (ents : Nat) (nblocks : BitVec 32) (files : List HostFile) :
    Option Format :=
  if nblocks < 2#32 ∨ 1024#32 < nblocks then none
  else do
    let s ← opendisk m nblocks
    let (s, d) ← writefiles s ⟨s.super + 8, ents, 0⟩ files
    let s ← finishdir s d
    some (finishdisk s)

end Jos.Fs
