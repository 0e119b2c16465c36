import Xv6.Vm.Kalloc

/-!
# User page tables

The functions of `kernel/vm.c` that build, change and tear down the page table of a process.  A page
table is the address of its top page, and its entries are words of physical memory.  Loops count the
rounds they have left.  The loops that run up to an address stop with a panic of `walk` before that
address could wrap.
-/

namespace Xv6.Vm

open Hoare Memory

def PTE_V : Nat := 2 ^ 0
def PTE_R : Nat := 2 ^ 1
def PTE_W : Nat := 2 ^ 2
def PTE_X : Nat := 2 ^ 3
def PTE_U : Nat := 2 ^ 4

def PA2PTE (pa : Nat) : Nat := (pa >>> 12) <<< 10
def PTE2PA (pte : Nat) : Nat := ((pte >>> 10) <<< 12) % 2 ^ 64
def PTE_FLAGS (pte : Nat) : Nat := pte &&& 0x3FF

/-- The index into the page-table page of a level. -/
def PX (level va : Nat) : Nat := (va >>> (12 + 9 * level)) &&& 0x1FF

def Valid (pte : Nat) : Prop := pte &&& PTE_V ≠ 0

instance (pte : Nat) : Decidable (Valid pte) := inferInstanceAs (Decidable (_ ≠ _))

variable {L : Layout}

/-- The loop of `walk` from a level down. -/
def walkLevel (va : Nat) (alloc : Bool) : Nat → Nat → Kernel L Nat
  | 0, pagetable => pure (pagetable + 8 * PX 0 va)
  | level + 1, pagetable => do
    let pte ← loadWord (pagetable + 8 * PX (level + 1) va)
    if Valid pte then walkLevel va alloc level (PTE2PA pte)
    else if alloc then do
      let page ← kalloc
      if page = 0 then pure 0
      else do
        memset page 0 PGSIZE
        storeWord (pagetable + 8 * PX (level + 1) va) (PA2PTE page ||| PTE_V)
        walkLevel va alloc level page
    else pure 0

/-- The address of the entry for `va`, or null. -/
def walk (pagetable va : Nat) (alloc : Bool) : Kernel L Nat :=
  if MAXVA ≤ va then throw .walk else walkLevel va alloc 2 pagetable

def walkaddr (pagetable va : Nat) : Kernel L Nat :=
  if MAXVA ≤ va then pure 0
  else do
    let pte ← walk pagetable va false
    if pte = 0 then pure 0
    else do
      let e ← loadWord pte
      if ¬ Valid e then pure 0
      else if e &&& PTE_U = 0 then pure 0
      else pure (PTE2PA e)

def mappagesLoop (pagetable perm : Nat) : Nat → Nat → Nat → Kernel L Int
  | 0, _, _ => pure 0
  | n + 1, a, pa => do
    let pte ← walk pagetable a true
    if pte = 0 then pure (-1)
    else do
      let e ← loadWord pte
      if Valid e then throw .mappagesRemap
      else do
        storeWord pte (PA2PTE pa ||| perm ||| PTE_V)
        mappagesLoop pagetable perm n (a + PGSIZE) (pa + PGSIZE)

def mappages (pagetable va size pa perm : Nat) : Kernel L Int :=
  if va % PGSIZE ≠ 0 then throw .mappagesVaNotAligned
  else if size % PGSIZE ≠ 0 then throw .mappagesSizeNotAligned
  else if size = 0 then throw .mappagesSize
  else mappagesLoop pagetable perm (size / PGSIZE) va pa

def uvmcreate : Kernel L Nat := do
  let pagetable ← kalloc
  if pagetable = 0 then pure 0
  else do
    memset pagetable 0 PGSIZE
    pure pagetable

/-- One round of the loop of `uvmunmap`. -/
def unmapPage (pagetable : Nat) (doFree : Bool) (a : Nat) : Kernel L Unit := do
  let pte ← walk pagetable a false
  if pte = 0 then pure ()
  else do
    let e ← loadWord pte
    if Valid e then
      if doFree then do
        kfree (PTE2PA e)
        storeWord pte 0
      else storeWord pte 0
    else pure ()

def uvmunmapLoop (pagetable : Nat) (doFree : Bool) : Nat → Nat → Kernel L Unit
  | 0, _ => pure ()
  | n + 1, a => do
    unmapPage pagetable doFree a
    uvmunmapLoop pagetable doFree n (a + PGSIZE)

def uvmunmap (pagetable va npages : Nat) (doFree : Bool) : Kernel L Unit :=
  if va % PGSIZE ≠ 0 then throw .uvmunmapNotAligned
  else uvmunmapLoop pagetable doFree (((va + npages * PGSIZE) % 2 ^ 64 - va) / PGSIZE) va

def uvmdealloc (pagetable oldsz newsz : Nat) : Kernel L Nat :=
  if oldsz ≤ newsz then pure oldsz
  else if PGROUNDUP newsz < PGROUNDUP oldsz then do
    -- `npages` is an `int`.
    let npages := int32 ((PGROUNDUP oldsz - PGROUNDUP newsz) / PGSIZE : Nat)
    uvmunmap pagetable (PGROUNDUP newsz) (uint64 npages) true
    pure newsz
  else pure newsz

def uvmallocLoop (pagetable oldsz newsz xperm : Nat) : Nat → Nat → Kernel L Nat
  | 0, _ => pure newsz
  | n + 1, a => do
    let mem ← kalloc
    if mem = 0 then do
      let _ ← uvmdealloc pagetable a oldsz
      pure 0
    else do
      memset mem 0 PGSIZE
      let r ← mappages pagetable a PGSIZE mem (PTE_R ||| PTE_U ||| xperm)
      if r ≠ 0 then do
        kfree mem
        let _ ← uvmdealloc pagetable a oldsz
        pure 0
      else uvmallocLoop pagetable oldsz newsz xperm n (a + PGSIZE)

def uvmalloc (pagetable oldsz newsz xperm : Nat) : Kernel L Nat :=
  if newsz < oldsz then pure oldsz
  else
    uvmallocLoop pagetable (PGROUNDUP oldsz) newsz xperm
      ((newsz - PGROUNDUP oldsz + PGSIZE - 1) / PGSIZE) (PGROUNDUP oldsz)

/-- `freewalk` with the depth of recursion that is left. -/
def freewalk : Nat → Nat → Kernel L Unit
  | 0, _ => throw .kerneltrap
  | depth + 1, pagetable => do
    (List.range 512).forM fun i => do
      let pte ← loadWord (pagetable + 8 * i)
      if Valid pte ∧ pte &&& (PTE_R ||| PTE_W ||| PTE_X) = 0 then do
        freewalk depth (PTE2PA pte)
        storeWord (pagetable + 8 * i) 0
      else if Valid pte then throw .freewalkLeaf
      else pure ()
    kfree pagetable

-- Page tables are three pages deep.
def uvmfree (pagetable sz : Nat) : Kernel L Unit :=
  if 0 < sz then do
    uvmunmap pagetable 0 (PGROUNDUP sz / PGSIZE) true
    freewalk 3 pagetable
  else freewalk 3 pagetable

def uvmcopyLoop (old new : Nat) : Nat → Nat → Kernel L Int
  | 0, _ => pure 0
  | n + 1, i => do
    let pte ← walk old i false
    if pte = 0 then uvmcopyLoop old new n (i + PGSIZE)
    else do
      let e ← loadWord pte
      if ¬ Valid e then uvmcopyLoop old new n (i + PGSIZE)
      else do
        let mem ← kalloc
        if mem = 0 then do
          uvmunmap new 0 (i / PGSIZE) true
          pure (-1)
        else do
          memmove mem (PTE2PA e) PGSIZE
          let r ← mappages new i PGSIZE mem (PTE_FLAGS e)
          if r ≠ 0 then do
            kfree mem
            uvmunmap new 0 (i / PGSIZE) true
            pure (-1)
          else uvmcopyLoop old new n (i + PGSIZE)

def uvmcopy (old new sz : Nat) : Kernel L Int := uvmcopyLoop old new ((sz + PGSIZE - 1) / PGSIZE) 0

def uvmclear (pagetable va : Nat) : Kernel L Unit := do
  let pte ← walk pagetable va false
  if pte = 0 then throw .uvmclear
  else do
    let e ← loadWord pte
    storeWord pte (e &&& (2 ^ 64 - 1 - PTE_U))

def ismapped (pagetable va : Nat) : Kernel L Bool := do
  let pte ← walk pagetable va false
  if pte = 0 then pure false
  else do
    let e ← loadWord pte
    pure (decide (Valid e))

/-- What the memory code reads of the current process. -/
structure Space where
  pagetable : Nat
  sz : Nat
  deriving DecidableEq, Repr

/-- `vmfault`; `p` is the current process, whose table gets the page whatever `pagetable` is. -/
def vmfault (p : Space) (pagetable va : Nat) : Kernel L Nat :=
  if p.sz ≤ va then pure 0
  else do
    let mapped ← ismapped pagetable (PGROUNDDOWN va)
    if mapped then pure 0
    else do
      let mem ← kalloc
      if mem = 0 then pure 0
      else do
        memset mem 0 PGSIZE
        let r ← mappages p.pagetable (PGROUNDDOWN va) PGSIZE mem (PTE_W ||| PTE_U ||| PTE_R)
        if r ≠ 0 then do
          kfree mem
          pure 0
        else pure mem

/-- The user page for `va0`, allocated if it is a lazy one. -/
def userPage (p : Space) (pagetable va0 : Nat) : Kernel L Nat := do
  let pa0 ← walkaddr pagetable va0
  if pa0 = 0 then vmfault p pagetable va0 else pure pa0

-- Every round of the copy loops moves at least one byte, so the length bounds the rounds.
def copyoutLoop (p : Space) (pagetable : Nat) : Nat → Nat → List UInt8 → Kernel L Int
  | 0, _, _ => pure 0
  | fuel + 1, dstva, src =>
    if src.length = 0 then pure 0
    else if MAXVA ≤ PGROUNDDOWN dstva then pure (-1)
    else do
      let pa0 ← userPage p pagetable (PGROUNDDOWN dstva)
      if pa0 = 0 then pure (-1)
      else do
        let pte ← walk pagetable (PGROUNDDOWN dstva) false
        if pte = 0 then throw .kerneltrap
        else do
          let e ← loadWord pte
          -- forbid copyout over read-only user text pages.
          if e &&& PTE_W = 0 then pure (-1)
          else do
            let off := dstva - PGROUNDDOWN dstva
            let n := min (PGSIZE - off) src.length
            memput (pa0 + off) (src.take n)
            copyoutLoop p pagetable fuel (PGROUNDDOWN dstva + PGSIZE) (src.drop n)

def copyout (p : Space) (pagetable dstva : Nat) (src : List UInt8) : Kernel L Int :=
  copyoutLoop p pagetable src.length dstva src

def copyinLoop (p : Space) (pagetable : Nat) : Nat → Nat → Nat → Kernel L (Option (List UInt8))
  | 0, _, _ => pure (some [])
  | fuel + 1, srcva, len =>
    if len = 0 then pure (some [])
    else do
      let pa0 ← userPage p pagetable (PGROUNDDOWN srcva)
      if pa0 = 0 then pure none
      else do
        let off := srcva - PGROUNDDOWN srcva
        let n := min (PGSIZE - off) len
        let k ← get
        let rest ← copyinLoop p pagetable fuel ((PGROUNDDOWN srcva + PGSIZE) % 2 ^ 64) (len - n)
        pure (rest.map (bytes k.mem (pa0 + off) n ++ ·))

/-- The bytes that `copyin` copies, or nothing where it returns -1. -/
def copyin (p : Space) (pagetable srcva len : Nat) : Kernel L (Option (List UInt8)) :=
  copyinLoop p pagetable len srcva len

def copyinstrLoop (pagetable : Nat) : Nat → Nat → Nat → Kernel L (Option (List UInt8))
  | 0, _, _ => pure none
  | fuel + 1, srcva, max =>
    if max = 0 then pure none
    else do
      let pa0 ← walkaddr pagetable (PGROUNDDOWN srcva)
      if pa0 = 0 then pure none
      else do
        let off := srcva - PGROUNDDOWN srcva
        let n := min (PGSIZE - off) max
        let k ← get
        let chunk := bytes k.mem (pa0 + off) n
        if 0 ∈ chunk then pure (some (chunk.takeWhile (· ≠ 0)))
        else do
          let rest ← copyinstrLoop pagetable fuel ((PGROUNDDOWN srcva + PGSIZE) % 2 ^ 64) (max - n)
          pure (rest.map (chunk ++ ·))

/-- The string that `copyinstr` copies, without its null byte, or nothing where it returns -1. -/
def copyinstr (pagetable srcva max : Nat) : Kernel L (Option (List UInt8)) := copyinstrLoop pagetable max srcva max

end Xv6.Vm
