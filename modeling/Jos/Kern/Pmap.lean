import Jos.Kern.State

/-!
# Physical pages and page tables

The functions of `kern/pmap.c` that the system calls use: the page allocator with its
linked free list and 16-bit reference counts, and the operations on two-level page tables.
A page directory is given by its frame. Flushing the TLB has no effect on the state.
-/

namespace Jos.Kern

open Jos.Lib Kernel

/-- `page_alloc`. The source tests `alloc_flags && ALLOC_ZERO`, so that any nonzero
`alloc_flags` zeroes the page; `zero` says that `alloc_flags` is nonzero. -/
def pageAlloc (s : Kernel) (zero : Bool) : Option (Kernel × Option Nat) :=
  match s.pageFreeList with
  | none => some (s, none)
  | some page => do
      let s := { s with
        pageFreeList := s.ppLink page
        ppLink := Function.update s.ppLink page none }
      if zero then
        let kva ← s.kaddr (page2pa page)
        some ({ s with mem := s.mem.fill kva 0 pgsize }, some page)
      else
        some (s, some page)

/-- `page_free`: panics when the page has references or a link. -/
def pageFree (s : Kernel) (pp : Nat) : Option Kernel :=
  if s.ppRef pp ≠ 0#16 ∨ s.ppLink pp ≠ none then none
  else some { s with
    ppLink := Function.update s.ppLink pp s.pageFreeList
    pageFreeList := some pp }

/-- `page_decref` -/
def pageDecref (s : Kernel) (pp : Nat) : Option Kernel :=
  let s := { s with ppRef := Function.update s.ppRef pp (s.ppRef pp - 1#16) }
  if s.ppRef pp = 0#16 then pageFree s pp else some s

/-- `pgdir_walk`: the address of the page table entry for `va`, if there is one. A
missing page table is allocated when `create` is set. The source tests `if (pde)`, not
the present bit. -/
def pgdirWalk (s : Kernel) (pgdir : Nat) (va : BitVec 32) (create : Bool) :
    Option (Kernel × Option Nat) :=
  let pde := s.entry pgdir (pdx va)
  if pde ≠ 0#32 then do
    let pageTable ← s.kaddr (pteAddr pde)
    some (s, some (pageTable + 4 * ptx va))
  else if create then do
    match ← pageAlloc s true with
    | (s, none) => some (s, none)
    | (s, some newPage) =>
        let s := s.incRef newPage
        let newPde := page2pa newPage
        let s := s.writePte (entryAddr pgdir (pdx va)) (newPde ||| pteP ||| pteW ||| pteU)
        let newPageTable ← s.kaddr newPde
        some (s, some (newPageTable + 4 * ptx va))
  else some (s, none)

/-- `page_lookup`: the page mapped at `va`, with the address of its entry. -/
def pageLookup (s : Kernel) (pgdir : Nat) (va : BitVec 32) : Option (Option (Nat × Nat)) := do
  match ← pgdirWalk s pgdir va false with
  | (_, none) => some none
  | (s, some pte) =>
      if isPresent (s.mem.read32 pte) then
        let pp ← s.pa2page (pteAddr (s.mem.read32 pte))
        some (some (pp, pte))
      else some none

/-- `page_remove` -/
def pageRemove (s : Kernel) (pgdir : Nat) (va : BitVec 32) : Option Kernel := do
  match ← pageLookup s pgdir va with
  | none => some s
  | some (pp, pte) =>
      let s ← pageDecref s pp
      some (if isPresent (s.mem.read32 pte) then s.writePte pte 0#32 else s)

/-- The part of `page_insert` after `pgdir_walk`. The reference is counted before an old
mapping is removed, so that inserting the same page again does not free it. -/
def insertEntry (s : Kernel) (pgdir pp : Nat) (va perm : BitVec 32) (pte : Nat) :
    Option Kernel := do
  let s := s.incRef pp
  let s ← if isPresent (s.mem.read32 pte) then pageRemove s pgdir va else some s
  some (s.writePte pte (page2pa pp ||| perm ||| pteP))

/-- `page_insert` -/
def pageInsert (s : Kernel) (pgdir pp : Nat) (va perm : BitVec 32) : Option (Kernel × Int) := do
  match ← pgdirWalk s pgdir va true with
  | (s, none) => some (s, -eNoMem)
  | (s, some pte) =>
      let s ← insertEntry s pgdir pp va perm pte
      some (s, 0)

end Jos.Kern
