import Mathlib.Data.List.FinRange
import Xv6.Lib.Runs
import Xv6.Proc.Sleep
import Xv6.Vm.Exec

/-!
# Processes, their memory and the shared regions

The system calls that create, change and remove address spaces: `fork`, `exec`, `sbrk`, `exit` and `wait` of
`kernel/proc.c` and `kernel/sysproc.c`, page faults of `kernel/trap.c`, and the shared memory regions of
`kernel/shmem.c`.  Each call is one step, and a panic has no next state.
-/

namespace Xv6.Vm

open Hoare Memory Runs

/-- `struct proc`, the fields that memory management uses. -/
structure Proc where
  state : ProcState
  xstate : Int
  pid : Nat
  parent : Option (Fin NPROC)
  sz : Nat
  pagetable : Nat
  trapframe : Nat
  name : List UInt8

def Proc.zero : Proc := ⟨.unused, 0, 0, none, 0, 0, 0, []⟩

structure Shmregion where
  key : Int
  refcount : Int
  kpage : Nat

structure State (L : Layout) where
  kmem : Kmem L
  proc : Fin NPROC → Proc
  /-- Taken not to wrap: fewer than `2 ^ 31` processes are made. -/
  nextpid : Nat
  initproc : Fin NPROC
  shmtable : Fin NSHMEM → Shmregion

/-- System calls. -/
abbrev Sys (L : Layout) (α : Type) := Prog Panic (State L) α

variable {L : Layout} {α : Type}

def State.setKmem (s : State L) (k : Kmem L) : State L := { s with kmem := k }

def State.setProc (s : State L) (p : Fin NPROC) (q : Proc) : State L :=
  { s with proc := fun p' => if p' = p then q else s.proc p' }

def State.setShm (s : State L) (i : Fin NSHMEM) (r : Shmregion) : State L :=
  { s with shmtable := fun j => if j = i then r else s.shmtable j }

/-- Memory code run as part of a system call. -/
def lift (m : Kernel L α) : Sys L α := fun s =>
  match m s.kmem with
  | .ok (a, k) => .ok (a, s.setKmem k)
  | .error e => .error e

@[simp] theorem setProc_self (s : State L) (p : Fin NPROC) (q : Proc) : (s.setProc p q).proc p = q := if_pos rfl

theorem setProc_of_ne (s : State L) {p p' : Fin NPROC} (q : Proc) (h : p' ≠ p) :
    (s.setProc p q).proc p' = s.proc p' := if_neg h

theorem lift_of_ok {s : State L} {k : Kmem L} {m : Kernel L α} {a : α} (h : m s.kmem = .ok (a, k)) :
    lift m s = .ok (a, s.setKmem k) := by
  unfold lift
  rw [h]

def Proc.space (q : Proc) : Space := ⟨q.pagetable, q.sz⟩

/-! ## Processes -/

/-- What `freeproc` gives back. -/
def freeMemory (q : Proc) : Kernel L Unit :=
  if q.trapframe ≠ 0 then
    if q.pagetable ≠ 0 then do
      kfree q.trapframe
      procFreepagetable q.pagetable q.sz
    else kfree q.trapframe
  else
    if q.pagetable ≠ 0 then procFreepagetable q.pagetable q.sz
    else pure ()

def freeproc (p : Fin NPROC) : Sys L Unit := do
  let s ← get
  lift (freeMemory (s.proc p))
  modify fun s => s.setProc p .zero

def allocproc : Sys L (Option (Fin NPROC)) := do
  let s ← get
  match (List.finRange NPROC).find? fun p => (s.proc p).state = .unused with
  | none => pure none
  | some p => do
    let q := { s.proc p with pid := s.nextpid, state := .used }
    set { s.setProc p q with nextpid := s.nextpid + 1 }
    let trapframe ← lift kalloc
    if trapframe = 0 then do
      modify fun s => s.setProc p { q with trapframe := 0 }
      freeproc p
      pure none
    else do
      let pagetable ← lift (procPagetable trapframe)
      modify fun s => s.setProc p { q with trapframe := trapframe, pagetable := pagetable }
      if pagetable = 0 then do
        freeproc p
        pure none
      else pure (some p)

def kfork (p : Fin NPROC) : Sys L Int := do
  let child ← allocproc
  match child with
  | none => pure (-1)
  | some np => do
    let s ← get
    let r ← lift (uvmcopy (s.proc p).pagetable (s.proc np).pagetable (s.proc p).sz)
    if r < 0 then do
      freeproc np
      pure (-1)
    else do
      -- copy saved user registers.
      lift (memmove (s.proc np).trapframe (s.proc p).trapframe sizeofTrapframe)
      -- Cause fork to return 0 in the child.
      lift (storeWord ((s.proc np).trapframe + trapframeA0) 0)
      modify fun t => t.setProc np
        { s.proc np with
          sz := (s.proc p).sz
          name := (s.proc p).name
          parent := some p
          state := .runnable }
      pure (s.proc np).pid

def reparent (s : State L) (p : Fin NPROC) : State L :=
  { s with proc := fun pp =>
      if (s.proc pp).parent = some p then { s.proc pp with parent := some s.initproc }
      else s.proc pp }

def kexit (p : Fin NPROC) (status : Int) : Sys L Int := do
  let s ← get
  if p = s.initproc then throw .initExiting
  else do
    let s := reparent s p
    set (s.setProc p { s.proc p with xstate := status, state := .zombie })
    pure 0

/-- The child that `kwait` finds first. -/
def zombieChild (s : State L) (p : Fin NPROC) : Option (Fin NPROC) :=
  (List.finRange NPROC).find? fun pp =>
    (s.proc pp).parent = some p ∧ (s.proc pp).state = .zombie

def hasChild (s : State L) (p : Fin NPROC) : Bool := (List.finRange NPROC).any fun pp => (s.proc pp).parent = some p

def intBytes (x : Int) : List UInt8 := digits 4 (uint64 x)

/-- Copies the exit status out, unless the caller does not ask for it. -/
def copyStatus (q : Proc) (addr : Nat) (xstate : Int) : Kernel L Int :=
  if addr ≠ 0 then copyout q.space q.pagetable addr (intBytes xstate) else pure 0

/-- `kwait`, once it need not sleep. -/
def kwait (p : Fin NPROC) (addr : Nat) : Sys L Int := do
  let s ← get
  match zombieChild s p with
  | none => pure (-1)
  | some pp => do
    let r ← lift (copyStatus (s.proc p) addr (s.proc pp).xstate)
    if r < 0 then pure (-1)
    else do
      freeproc pp
      pure (s.proc pp).pid

/-! ## Growing and shrinking -/

def growproc (p : Fin NPROC) (n : Int) : Sys L Int := do
  let s ← get
  let q := s.proc p
  if 0 < n then
    if TRAPFRAME < uint64 (q.sz + n) then pure (-1)
    else do
      let sz ← lift (uvmalloc q.pagetable q.sz (uint64 (q.sz + n)) PTE_W)
      if sz = 0 then pure (-1)
      else do
        modify fun s => s.setProc p { q with sz := sz }
        pure 0
  else if n < 0 then do
    let sz ← lift (uvmdealloc q.pagetable q.sz (uint64 (q.sz + n)))
    modify fun s => s.setProc p { q with sz := sz }
    pure 0
  else pure 0

def SBRK_EAGER : Int := 1

def sysSbrk (p : Fin NPROC) (n t : Int) : Sys L Int := do
  let s ← get
  let q := s.proc p
  if t = SBRK_EAGER ∨ n < 0 then do
    let r ← growproc p n
    if r < 0 then pure (-1) else pure q.sz
  else if uint64 (q.sz + n) < q.sz then pure (-1)
  else if TRAPFRAME < uint64 (q.sz + n) then pure (-1)
  else do
    -- Lazily allocate memory for this process.
    modify fun s => s.setProc p { q with sz := uint64 (q.sz + n) }
    pure q.sz

def sysExecCall (p : Fin NPROC) (upath uargv : Nat) (namei : List UInt8 → Option (List UInt8)) : Sys L Int := do
  let s ← get
  let q := s.proc p
  let ret ← lift (sysExec q.space q.trapframe upath uargv namei)
  match ret with
  | none => pure (-1)
  | some e => do
    modify fun s => s.setProc p { q with pagetable := e.space.pagetable, sz := e.space.sz, name := e.name }
    pure e.argc

/-- A load or store of the user that is not mapped: the page is allocated lazily, or the process is
killed. -/
def pageFault (p : Fin NPROC) (va : Nat) : Sys L Int := do
  let s ← get
  let r ← lift (vmfault (s.proc p).space (s.proc p).pagetable va)
  if r ≠ 0 then pure 0 else kexit p (-1)

/-- The page at which the paging hardware lets the user access `va`, or null. -/
def accessiblePage (flag pagetable va : Nat) : Kernel L Nat :=
  if MAXVA ≤ va then pure 0
  else do
    let pte ← walk pagetable va false
    if pte = 0 then pure 0
    else do
      let e ← loadWord pte
      if e &&& flag = 0 then pure 0 else walkaddr pagetable va

/-- The user stores a byte, or takes the page fault and may execute the instruction again. -/
def userStore (p : Fin NPROC) (va : Nat) (b : UInt8) : Sys L Int := do
  let s ← get
  let page ← lift (accessiblePage PTE_W (s.proc p).pagetable va)
  if page = 0 then pageFault p va
  else do
    lift (modify fun k => k.write (store k.mem (page + va % PGSIZE) [b]))
    pure 0

/-! ## Shared memory -/

def shmemGet (key size : Int) : Sys L Int :=
  if key ≤ 0 ∨ size ≤ 0 ∨ PGSIZE < size then pure (-1)
  else do
    let s ← get
    match (List.finRange NSHMEM).find? fun i => (s.shmtable i).key = key with
    | some i => pure i.val
    | none =>
      match (List.finRange NSHMEM).find? fun i => (s.shmtable i).key = 0 with
      | none => pure (-1) -- table full
      | some freeSlot => do
        let page ← lift kalloc
        if page = 0 then pure (-1)
        else do
          lift (memset page 0 PGSIZE)
          modify fun s => s.setShm freeSlot ⟨key, 0, page⟩
          pure freeSlot.val

def shmemAt (p : Fin NPROC) (id : Int) : Sys L Int :=
  if h : 0 ≤ id ∧ id < NSHMEM then do
    let i : Fin NSHMEM := ⟨id.toNat, by omega⟩
    let s ← get
    let r := s.shmtable i
    let q := s.proc p
    if r.key = 0 ∨ r.kpage = 0 then pure 0
    else do
      let uva := PGROUNDUP q.sz
      let ret ← lift (mappages q.pagetable uva PGSIZE r.kpage (PTE_R ||| PTE_W ||| PTE_U))
      if ret < 0 then pure 0
      else do
        modify fun s => (s.setProc p { q with sz := (uva + PGSIZE) % 2 ^ 64 }).setShm i
          { r with refcount := r.refcount + 1 }
        pure uva
  else pure 0

def shmemDt (p : Fin NPROC) (uva : Nat) : Sys L Int := do
  let s ← get
  let q := s.proc p
  if uva = 0 ∨ uva % PGSIZE ≠ 0 ∨ q.sz ≤ uva then pure (-1)
  else do
    let pa ← lift (walkaddr q.pagetable uva)
    if pa = 0 then pure (-1)
    else
      match (List.finRange NSHMEM).find? fun i => (s.shmtable i).kpage = pa with
      | none => pure (-1)
      | some i => do
        let r := s.shmtable i
        lift (uvmunmap q.pagetable uva 1 false)
        if r.refcount - 1 ≤ 0 then do
          -- Last reference: free the physical page and clear the slot
          lift (kfree r.kpage)
          modify fun s => s.setShm i ⟨0, 0, 0⟩
          pure 0
        else do
          modify fun s => s.setShm i { r with refcount := r.refcount - 1 }
          pure 0

/-! ## The transition system -/

inductive Call where
  | shmget (key size : Int)
  | shmat (id : Int)
  | shmdt (uva : Nat)
  | fork
  | exec (upath uargv : Nat) (namei : List UInt8 → Option (List UInt8))
  | sbrk (n t : Int)
  | exit (status : Int)
  | wait (addr : Nat)
  /-- The user loads from a page that is not mapped. -/
  | fault (va : Nat)
  | store (va : Nat) (b : UInt8)

structure Act where
  proc : Fin NPROC
  call : Call

def body (a : Act) : Sys L Int :=
  match a.call with
  | .shmget key size => shmemGet key size
  | .shmat id => shmemAt a.proc id
  | .shmdt uva => shmemDt a.proc uva
  | .fork => kfork a.proc
  | .exec upath uargv namei => sysExecCall a.proc upath uargv namei
  | .sbrk n t => sysSbrk a.proc n t
  | .exit status => kexit a.proc status
  | .wait addr => kwait a.proc addr
  | .fault va => pageFault a.proc va
  | .store va b => userStore a.proc va b

/-- `kwait` sleeps while there are children and none has exited. -/
def sleeps (s : State L) (a : Act) : Bool :=
  match a.call with
  | .wait _ => (zombieChild s a.proc).isNone && hasChild s a.proc
  | _ => false

def exec (s : State L) (a : Act) : Option (State L × Int) :=
  if (s.proc a.proc).state = .runnable ∧ sleeps s a = false then
    match body a s with
    | .ok (r, t) => some (t, r)
    | .error _ => none
  else none

def Step : State L → Act × Int → State L → Prop := Exec exec

theorem Step.ran {s t : State L} {a : Act} {ret : Int} (h : Step s (a, ret) t) :
    (s.proc a.proc).state ≠ .unused ∧ body a s = .ok (ret, t) := by
  unfold Step Exec exec at h
  dsimp only at h
  split at h
  · next hguard =>
    split at h
    · next hrun =>
      cases h
      exact ⟨by rw [hguard.1]; decide, hrun⟩
    · cases h
  · cases h

/-! ## Boot -/

def State.start (k : Kmem L) : State L where
  kmem := k
  proc _ := .zero
  nextpid := 1
  initproc := 0
  shmtable _ := ⟨0, 0, 0⟩

def userinit : Sys L Unit := do
  let p ← allocproc
  match p with
  | none => throw .kerneltrap
  | some p => modify fun s => { s.setProc p { s.proc p with state := .runnable } with initproc := p }

def emptyKmem (L : Layout) (m : Mem) : Kmem L := ⟨[], m, fun _ h => absurd h List.not_mem_nil⟩

/-- After `kinit` some pages have gone to the kernel's own page table, to kernel stacks and to
drivers; nothing has been freed. -/
structure Booted (s : State L) : Prop where
  boot : ∃ m k₀ k₁, kinit L (emptyKmem L m) = .ok ((), k₀) ∧
    (∃ taken, k₁.freelist = k₀.freelist.drop taken) ∧
    userinit (State.start k₁) = .ok ((), s)

end Xv6.Vm
