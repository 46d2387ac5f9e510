import Jos.Fs.Files

/-!
# Names, paths and directories

`dir_lookup`, `walk_path`, `file_create`, `file_open` and `file_flush` of `fs/fs.c`. A path is the
list of its bytes up to the null byte.
-/

namespace Jos.Fs

open Jos.Lib

def maxnamelen : Nat := 128
def maxpathlen : Nat := 1024
def slash : BitVec 8 := 47#8

def eBadPath : Int := 12
def eFileExists : Int := 13

/-! ## Strings -/

/-- The string at `a`, of at most `n` bytes. -/
def strAt (m : Mem) : Nat → Nat → List (BitVec 8)
  | _, 0 => []
  | a, n + 1 => if m a = 0#8 then [] else m a :: strAt m (a + 1) n

/-- `strcpy(dst, s)` -/
def strcpy (m : Mem) (dst : Nat) (s : List (BitVec 8)) : Mem := fun x =>
  if dst ≤ x ∧ x ≤ dst + s.length then s.getD (x - dst) 0#8 else m x

/-- `strcmp(f_name, name) == 0` for the string at `a`; `name` has no null byte. -/
def nameIs (m : Mem) : Nat → List (BitVec 8) → Bool
  | a, [] => m a = 0#8
  | a, c :: l => m a = c && nameIs m (a + 1) l

/-! ## Flushing -/

/-- `flush_block`, which panics outside the disk. -/
def flushBlock (a : Nat) : Option Unit :=
  if a < diskmap ∨ diskmap + disksize ≤ a then none else some ()

/-- The loop body of `file_flush`. -/
def flushFileBlock (m : Mem) (f : Nat) (i : Nat) : Option Unit := do
  match ← fileBlockWalk m f (BitVec.ofNat 32 i) false with
  | (_, .error _) => some ()
  | (_, .ok slot) =>
      if m.read32 slot = 0#32 then some ()
      else do
        let a ← diskaddr m (m.read32 slot)
        flushBlock a

/-- `file_flush`; the loop counter is signed. -/
def fileFlush (m : Mem) (f : Nat) : Option Unit := do
  (List.range ((fSize m f + 4096#32 - 1#32).sdiv 4096#32).toInt.toNat).forM (flushFileBlock m f)
  flushBlock f
  if indirect m f = 0#32 then some ()
  else do
    let a ← diskaddr m (indirect m f)
    flushBlock a

/-! ## Directories -/

/-- The inner loop of `dir_lookup`: the entry of the block at `blk` with that name. -/
def namedEntry (m : Mem) (blk : Nat) (name : List (BitVec 8)) : Option Nat :=
  ((List.range blkfiles).find? fun j => nameIs m (blk + 256 * j) name).map fun j => blk + 256 * j

/-- The outer loop of `dir_lookup`, over the block numbers `l`. -/
def dirLookupLoop (dir : Nat) (name : List (BitVec 8)) :
    Mem → List Nat → Option (Mem × Except Int Nat)
  | m, [] => some (m, .error (-eNotFound))
  | m, i :: l => do
      match ← fileGetBlock m dir (BitVec.ofNat 32 i) with
      | (m, .error r) => some (m, .error r)
      | (m, .ok blk) =>
          match namedEntry m blk name with
          | some f => some (m, .ok f)
          | none => dirLookupLoop dir name m l

/-- `dir_lookup` -/
def dirLookup (m : Mem) (dir : Nat) (name : List (BitVec 8)) : Option (Mem × Except Int Nat) :=
  if (fSize m dir).srem 4096#32 ≠ 0#32 then none
  else dirLookupLoop dir name m (List.range ((fSize m dir).sdiv 4096#32).toNat)

/-! ## Paths -/

def skipSlash (path : List (BitVec 8)) : List (BitVec 8) := path.dropWhile (· = slash)

/-- What `walk_path` returns: the file or an error, `*pdir` and `lastelem`. -/
structure Walk where
  file : Except Int Nat
  dir : Option Nat
  last : List (BitVec 8)

/-- The loop of `walk_path`, for at most `fuel` rounds; a round takes a character at least. -/
def walkLoop : Nat → Mem → Option Nat → Nat → List (BitVec 8) → Option (Mem × Walk)
  | 0, _, _, _, _ => none
  | fuel + 1, m, dir, f, path =>
      if path = [] then some (m, ⟨.ok f, dir, []⟩)
      else
        let name := path.takeWhile (· ≠ slash)
        if maxnamelen ≤ name.length then some (m, ⟨.error (-eBadPath), none, []⟩)
        else
          let path := skipSlash (path.dropWhile (· ≠ slash))
          if fType m f ≠ ftypeDir then some (m, ⟨.error (-eNotFound), none, []⟩)
          else do
            match ← dirLookup m f name with
            | (m, .error r) =>
                if r = -eNotFound ∧ path = [] then some (m, ⟨.error r, some f, name⟩)
                else some (m, ⟨.error r, none, []⟩)
            | (m, .ok g) => walkLoop fuel m (some f) g path

/-- `walk_path` -/
def walkPath (m : Mem) (path : List (BitVec 8)) : Option (Mem × Walk) :=
  walkLoop (path.length + 1) m none sRoot (skipSlash path)

/-- `file_open` -/
def fileOpen (m : Mem) (path : List (BitVec 8)) : Option (Mem × Except Int Nat) := do
  let (m, w) ← walkPath m path
  some (m, w.file)

/-- `file_create` -/
def fileCreate (m : Mem) (path : List (BitVec 8)) : Option (Mem × Except Int Nat) := do
  let (m, w) ← walkPath m path
  match w.file, w.dir with
  | .ok _, _ => some (m, .error (-eFileExists))
  | .error r, none => some (m, .error r)
  | .error r, some dir =>
      if r ≠ -eNotFound then some (m, .error r)
      else do
        match ← dirAllocFile m dir with
        | (m, .error r) => some (m, .error r)
        | (m, .ok f) =>
            let m := strcpy m f w.last
            fileFlush m dir
            some (m, .ok f)

end Jos.Fs
