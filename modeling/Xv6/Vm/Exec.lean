import Xv6.Vm.PageTable

/-!
# `exec`

`kernel/exec.c`, `sys_exec` of `kernel/sysfile.c` with the functions of `kernel/syscall.c` that fetch
its arguments, and the two functions of `kernel/proc.c` that build and free the page table of a
process.  What the file system finds under a path is a parameter: the bytes of the file, or nothing.
A trapframe is the address of its page.
-/

namespace Xv6.Vm

open Hoare Memory

variable {L : Layout}

/-! ## Page tables of processes -/

def procPagetable (trapframe : Nat) : Kernel L Nat := do
  let pagetable ← uvmcreate
  if pagetable = 0 then pure 0
  else do
    let r ← mappages pagetable TRAMPOLINE PGSIZE L.trampoline (PTE_R ||| PTE_X)
    if r < 0 then do
      uvmfree pagetable 0
      pure 0
    else do
      let r ← mappages pagetable TRAPFRAME PGSIZE trapframe (PTE_R ||| PTE_W)
      if r < 0 then do
        uvmunmap pagetable TRAMPOLINE 1 false
        uvmfree pagetable 0
        pure 0
      else pure pagetable

def procFreepagetable (pagetable sz : Nat) : Kernel L Unit := do
  uvmunmap pagetable TRAMPOLINE 1 false
  uvmunmap pagetable TRAPFRAME 1 false
  uvmfree pagetable sz

/-! ## The executable file -/

/-- `readi` into kernel memory: the bytes read.  `off` and `n` are `uint`. -/
def readi (file : List UInt8) (off n : Nat) : List UInt8 :=
  if file.length < off ∨ (off + n) % 2 ^ 32 < off then [] else (file.drop off).take n

def field (header : List UInt8) (off n : Nat) : Nat := number ((header.drop off).take n)

def ELF_MAGIC : Nat := 0x464C457F
def ELF_PROG_LOAD : Nat := 1

structure Elfhdr where
  magic : Nat
  entry : Nat
  phoff : Nat
  phnum : Nat

def sizeofElfhdr : Nat := 64

def Elfhdr.ofBytes (b : List UInt8) : Elfhdr where
  magic := field b 0 4
  entry := field b 24 8
  phoff := field b 32 8
  phnum := field b 56 2

structure Proghdr where
  type : Nat
  flags : Nat
  off : Nat
  vaddr : Nat
  filesz : Nat
  memsz : Nat

def sizeofProghdr : Nat := 56

def Proghdr.ofBytes (b : List UInt8) : Proghdr where
  type := field b 0 4
  flags := field b 4 4
  off := field b 8 8
  vaddr := field b 16 8
  filesz := field b 32 8
  memsz := field b 40 8

def flags2perm (flags : Nat) : Nat :=
  (if flags &&& 0x1 ≠ 0 then PTE_X else 0) ||| (if flags &&& 0x2 ≠ 0 then PTE_W else 0)

/-! ## `kexec` -/

/-- The loop of `loadseg`, at offset `i` of the segment; `false` where it returns -1. -/
def loadsegLoop (pagetable va : Nat) (file : List UInt8) (offset sz : Nat) : Nat → Nat → Kernel L Bool
  | 0, _ => pure true
  | rounds + 1, i => do
    let pa ← walkaddr pagetable ((va + i) % 2 ^ 64)
    if pa = 0 then throw .loadsegAddressShouldExist
    else do
      let n := if sz - i < PGSIZE then sz - i else PGSIZE
      let b := readi file ((offset + i) % 2 ^ 32) n
      memput pa b
      if b.length ≠ n then pure false
      else loadsegLoop pagetable va file offset sz rounds (i + PGSIZE)

def loadseg (pagetable va : Nat) (file : List UInt8) (offset sz : Nat) : Kernel L Bool :=
  loadsegLoop pagetable va file offset sz ((sz + PGSIZE - 1) / PGSIZE) 0

/-- Load program into memory.  The size reached so far comes back also where it fails. -/
def loadSegments (pagetable : Nat) (file : List UInt8) : Nat → Nat → Nat → Kernel L (Bool × Nat)
  | 0, _, sz => pure (true, sz)
  | n + 1, off, sz => do
    let b := readi file off sizeofProghdr
    let ph := Proghdr.ofBytes b
    let off' := (off + sizeofProghdr) % 2 ^ 32
    if b.length ≠ sizeofProghdr then pure (false, sz)
    else if ph.type ≠ ELF_PROG_LOAD then loadSegments pagetable file n off' sz
    else if ph.memsz < ph.filesz then pure (false, sz)
    else if (ph.vaddr + ph.memsz) % 2 ^ 64 < ph.vaddr then pure (false, sz)
    else if ph.vaddr % PGSIZE ≠ 0 then pure (false, sz)
    else do
      let sz1 ← uvmalloc pagetable sz ((ph.vaddr + ph.memsz) % 2 ^ 64) (flags2perm ph.flags)
      if sz1 = 0 then pure (false, sz)
      else do
        let loaded ← loadseg pagetable ph.vaddr file (ph.off % 2 ^ 32) (ph.filesz % 2 ^ 32)
        if loaded then loadSegments pagetable file n off' sz1
        else pure (false, sz1)

/-- Copy argument strings into new stack, remember their addresses in `ustack`. -/
def pushStrings (p : Space) (pagetable stackbase : Nat) :
    List (List UInt8) → Nat → List Nat → Kernel L (Option (Nat × List Nat))
  | [], sp, ustack => pure (some (sp, ustack))
  | s :: argv, sp, ustack =>
    if MAXARG ≤ ustack.length then pure none
    else do
      let sp := uint64 (sp - (s.length + 1))
      let sp := sp - sp % 16 -- riscv sp must be 16-byte aligned
      if sp < stackbase then pure none
      else do
        let r ← copyout p pagetable sp (s ++ [0])
        if r < 0 then pure none
        else pushStrings p pagetable stackbase argv sp (ustack ++ [sp])

/-- push a copy of `ustack[]`, the array of `argv[]` pointers; `argc` and the stack pointer. -/
def pushArgs (p : Space) (pagetable sp stackbase : Nat) (argv : List (List UInt8)) :
    Kernel L (Option (Nat × Nat)) := do
  let pushed ← pushStrings p pagetable stackbase argv sp []
  match pushed with
  | none => pure none
  | some (sp, ustack) =>
    -- `ustack[argc] = 0` is a store beyond the end of the array then.
    if MAXARG ≤ ustack.length then throw .kerneltrap
    else do
      let sp := uint64 (sp - (ustack.length + 1) * 8)
      let sp := sp - sp % 16
      if sp < stackbase then pure none
      else do
        let r ← copyout p pagetable sp ((ustack ++ [0]).flatMap (digits 8))
        if r < 0 then pure none else pure (some (ustack.length, sp))

/-- Allocate some pages at the next page boundary.  Make the first inaccessible as a stack guard; use
the rest as the user stack.  The size reached comes back also where it fails. -/
def buildStack (p : Space) (pagetable sz : Nat) (argv : List (List UInt8)) : Kernel L (Nat × Option (Nat × Nat)) := do
  let sz1 ← uvmalloc pagetable sz ((sz + (USERSTACK + 1) * PGSIZE) % 2 ^ 64) PTE_W
  if sz1 = 0 then pure (sz, none)
  else do
    uvmclear pagetable (sz1 - (USERSTACK + 1) * PGSIZE)
    let pushed ← pushArgs p pagetable sz1 (sz1 - USERSTACK * PGSIZE) argv
    pure (sz1, pushed)

/-- A new user image: what `kexec` commits to. -/
structure Image where
  pagetable : Nat
  sz : Nat
  entry : Nat
  argc : Nat
  sp : Nat

/-- The part of `kexec` up to the commit.  What has been built is freed again where it fails. -/
def buildImage (p : Space) (trapframe : Nat) (file : List UInt8) (argv : List (List UInt8)) :
    Kernel L (Option Image) := do
  let b := readi file 0 sizeofElfhdr
  let elf := Elfhdr.ofBytes b
  if b.length ≠ sizeofElfhdr then pure none
  else if elf.magic ≠ ELF_MAGIC then pure none
  else do
    let pagetable ← procPagetable trapframe
    if pagetable = 0 then pure none
    else do
      let (loaded, sz) ← loadSegments pagetable file elf.phnum (elf.phoff % 2 ^ 32) 0
      if ¬ loaded then do
        procFreepagetable pagetable sz
        pure none
      else do
        let (sz, pushed) ← buildStack p pagetable (PGROUNDUP sz) argv
        match pushed with
        | none => do
          procFreepagetable pagetable sz
          pure none
        | some (argc, sp) => pure (some ⟨pagetable, sz, elf.entry, argc, sp⟩)

def trapframeEpc : Nat := 24
def trapframeSp : Nat := 48
def trapframeA0 : Nat := 112
def trapframeA1 : Nat := 120
def sizeofTrapframe : Nat := 288

/-- The program name that is kept for debugging: `last`, in `char name[16]`. -/
def programName (path : List UInt8) : List UInt8 := ((path.reverse.takeWhile (· ≠ 47)).reverse).take 15

/-- What the process has after a successful `kexec`, and its return value `argc`. -/
structure Executed where
  space : Space
  name : List UInt8
  argc : Nat

def kexec (p : Space) (trapframe : Nat) (namei : List UInt8 → Option (List UInt8))
    (path : List UInt8) (argv : List (List UInt8)) : Kernel L (Option Executed) :=
  match namei path with
  | none => pure none
  | some file => do
    let image ← buildImage p trapframe file argv
    match image with
    | none => pure none
    | some image => do
      storeWord (trapframe + trapframeA1) image.sp
      -- Commit to the user image.
      storeWord (trapframe + trapframeEpc) image.entry
      storeWord (trapframe + trapframeSp) image.sp
      procFreepagetable p.pagetable p.sz
      pure (some ⟨⟨image.pagetable, image.sz⟩, programName path, image.argc⟩)

/-! ## `sys_exec` -/

def fetchaddr (p : Space) (addr : Nat) : Kernel L (Option Nat) :=
  -- both tests needed, in case of overflow
  if p.sz ≤ addr ∨ p.sz < (addr + 8) % 2 ^ 64 then pure none
  else do
    let b ← copyin p p.pagetable addr 8
    pure (b.map number)

/-- What the loop of `sys_exec` has fetched: the pages in `argv[]`, the strings in them, and whether
it got to the end. -/
structure Fetched where
  pages : List Nat
  argv : List (List UInt8)
  complete : Bool

def fetchArgs (p : Space) (uargv : Nat) : Nat → Nat → List Nat → List (List UInt8) → Kernel L Fetched
  | 0, _, pages, argv => pure ⟨pages, argv, false⟩
  | n + 1, i, pages, argv => do
    let uarg ← fetchaddr p ((uargv + 8 * i) % 2 ^ 64)
    match uarg with
    | none => pure ⟨pages, argv, false⟩
    | some uarg =>
      if uarg = 0 then pure ⟨pages, argv, true⟩
      else do
        let page ← kalloc
        if page = 0 then pure ⟨pages, argv, false⟩
        else do
          let s ← copyinstr p.pagetable uarg PGSIZE
          match s with
          | none => pure ⟨pages ++ [page], argv, false⟩
          | some s => do
            memput page (s ++ [0])
            fetchArgs p uargv n (i + 1) (pages ++ [page]) (argv ++ [s])

def kfreeAll : List Nat → Kernel L Unit
  | [] => pure ()
  | page :: pages => do
    kfree page
    kfreeAll pages

/-- Nothing where it returns -1. -/
def sysExec (p : Space) (trapframe upath uargv : Nat) (namei : List UInt8 → Option (List UInt8)) :
    Kernel L (Option Executed) := do
  let path ← copyinstr p.pagetable upath MAXPATH
  match path with
  | none => pure none
  | some path => do
    let fetched ← fetchArgs p uargv MAXARG 0 [] []
    if fetched.complete then do
      let ret ← kexec p trapframe namei path fetched.argv
      kfreeAll fetched.pages
      pure ret
    else do
      kfreeAll fetched.pages
      pure none

end Xv6.Vm
