import Xv6.Lib.Hoare
import Xv6.Lib.Memory
import Xv6.Param

/-!
# Physical memory and its allocator

RAM is mapped one to one, so a pointer to a page is its physical address.  The constants are those of `kernel/riscv.h`
and `kernel/memlayout.h`, the functions those of `kernel/kalloc.c`.  The links of the free list are kept as a list and
not in the free pages themselves.
-/

namespace Xv6.Vm

open Hoare Memory

def PGSIZE : Nat := 4096
def KERNBASE : Nat := 0x80000000
def PHYSTOP : Nat := KERNBASE + 128 * 1024 * 1024
def MAXVA : Nat := 2 ^ (9 + 9 + 9 + 12 - 1)
def TRAMPOLINE : Nat := MAXVA - PGSIZE
def TRAPFRAME : Nat := TRAMPOLINE - PGSIZE

/-- The value a `uint64` holds after the integer `x` has been stored in it. -/
def uint64 (x : Int) : Nat := (x % 2 ^ 64).toNat

def PGROUNDUP (sz : Nat) : Nat := (sz + PGSIZE - 1) % 2 ^ 64 / PGSIZE * PGSIZE
def PGROUNDDOWN (a : Nat) : Nat := a / PGSIZE * PGSIZE

/-- Where the linker put the kernel: `end`, the first address after it, and the trampoline page in
its text. -/
structure Layout where
  kend : Nat
  trampoline : Nat
  aligned : trampoline % PGSIZE = 0
  kernbase_le : KERNBASE ≤ trampoline
  trampoline_lt : trampoline < kend
  kend_le : kend ≤ PHYSTOP

/-- The pages that `kfree` takes. -/
def Layout.IsPage (L : Layout) (pa : Nat) : Prop := pa % PGSIZE = 0 ∧ L.kend ≤ pa ∧ pa < PHYSTOP

instance (L : Layout) (pa : Nat) : Decidable (L.IsPage pa) :=
  inferInstanceAs (Decidable (_ ∧ _ ∧ _))

/-- The panics of the memory code. -/
inductive Panic where
  | kfree
  | walk
  | mappagesVaNotAligned
  | mappagesSizeNotAligned
  | mappagesSize
  | mappagesRemap
  | uvmunmapNotAligned
  | freewalkLeaf
  | uvmclear
  | loadsegAddressShouldExist
  | initExiting
  /-- A fault in the kernel: a null pointer followed, or a stack overrun. -/
  | kerneltrap
  deriving DecidableEq, Repr

/-- The panics of `walk`, `mappages`, `uvmunmap` and `freewalk`. -/
def Alarm (e : Panic) : Prop :=
  e ∈ [.walk, .mappagesVaNotAligned, .mappagesSizeNotAligned, .mappagesSize, .mappagesRemap,
    .uvmunmapNotAligned, .freewalkLeaf]

instance (e : Panic) : Decidable (Alarm e) := inferInstanceAs (Decidable (_ ∈ _))

/-- Rules about code that may panic hold in two forms: `E` allows every panic, or it allows those that
are no alarm and `φ` holds, which keeps the code from the alarms. -/
def Allows (E : Panic → Prop) (φ : Prop) : Prop := (∀ e, E e) ∨ ((∀ e, ¬ Alarm e → E e) ∧ φ)

section Allows

variable {E : Panic → Prop} {φ ψ : Prop} {e : Panic}

theorem Allows.mono (h : Allows E φ) (hφ : φ → ψ) : Allows E ψ := h.imp id fun hcalm => ⟨hcalm.1, hφ hcalm.2⟩

theorem Allows.calm (h : Allows E φ) (he : ¬ Alarm e) : E e := h.elim (fun hall => hall e) fun hcalm => hcalm.1 e he

theorem Allows.absurd (h : Allows E φ) (hφ : ¬ φ) : E e :=
  h.elim (fun hall => hall e) fun hcalm => False.elim (hφ hcalm.2)

end Allows

/-- Physical memory, and which of its pages are free. -/
structure Kmem (L : Layout) where
  freelist : List Nat
  mem : Mem
  isPage : ∀ pa ∈ freelist, L.IsPage pa

abbrev Kernel (L : Layout) (α : Type) := Prog Panic (Kmem L) α

variable {L : Layout}

def kfree (pa : Nat) : Kernel L Unit := fun k =>
  if h : L.IsPage pa then
    -- Fill with junk to catch dangling refs.
    .ok ((), { freelist := pa :: k.freelist
               mem := fill k.mem pa PGSIZE 1
               isPage := List.forall_mem_cons.mpr ⟨h, k.isPage⟩ })
  else .error .kfree

def kalloc : Kernel L Nat := fun k =>
  match h : k.freelist with
  | [] => .ok (0, k)
  | pa :: rest =>
    .ok (pa, { freelist := rest
               mem := fill k.mem pa PGSIZE 5
               isPage := fun x hx => k.isPage x (h ▸ List.mem_cons_of_mem pa hx) })

/-- The loop of `freerange`, with `n` pages to go. -/
def freerange (p : Nat) : Nat → Kernel L Unit
  | 0 => pure ()
  | n + 1 => do
    kfree p
    freerange (p + PGSIZE) n

def kinit (L : Layout) : Kernel L Unit := freerange (PGROUNDUP L.kend) ((PHYSTOP - PGROUNDUP L.kend) / PGSIZE)

def Kmem.write (k : Kmem L) (m : Mem) : Kmem L := { k with mem := m }

@[simp] theorem Kmem.write_freelist (k : Kmem L) (m : Mem) : (k.write m).freelist = k.freelist := rfl
@[simp] theorem Kmem.write_mem (k : Kmem L) (m : Mem) : (k.write m).mem = m := rfl

def memset (a : Nat) (c : UInt8) (n : Nat) : Kernel L Unit :=
  modify fun k => k.write (fill k.mem a n c)

def memmove (dst src n : Nat) : Kernel L Unit :=
  modify fun k => k.write (copy k.mem dst src n)

/-- `memmove` from a buffer outside the modelled memory. -/
def memput (dst : Nat) (bytes : List UInt8) : Kernel L Unit :=
  modify fun k => k.write (store k.mem dst bytes)

def loadWord (a : Nat) : Kernel L Nat := do
  let k ← get
  pure (load k.mem a 8)

def storeWord (a v : Nat) : Kernel L Unit :=
  modify fun k => k.write (put k.mem a 8 v)

def Kmem.free (k : Kmem L) (pa : Nat) : Nat := k.freelist.count pa

variable {k k' : Kmem L} {pa : Nat}

theorem Layout.IsPage.ne_zero (h : L.IsPage pa) : pa ≠ 0 := by
  have hbase : 0 < L.kend := Nat.lt_of_le_of_lt (Nat.zero_le _) L.trampoline_lt
  have hle := h.2.1
  omega

theorem Layout.IsPage.ne_trampoline (h : L.IsPage pa) : pa ≠ L.trampoline := by
  have hlt := L.trampoline_lt
  have hle := h.2.1
  omega

theorem Kmem.isPage_of_free (h : 0 < k.free pa) : L.IsPage pa := k.isPage pa (List.count_pos_iff.mp h)

theorem kalloc_ok (h : kalloc k = .ok (pa, k')) : (pa = 0 ∧ k' = k) ∨
      L.IsPage pa ∧ k.freelist = pa :: k'.freelist ∧ k'.mem = fill k.mem pa PGSIZE 5 := by
  unfold kalloc at h
  split at h
  · cases h
    exact .inl ⟨rfl, rfl⟩
  · rename_i rest hlist
    cases h
    exact .inr ⟨k.isPage _ (by rw [hlist]; exact List.mem_cons_self), hlist, rfl⟩

theorem kalloc_null (h : kalloc k = .ok (0, k')) : k.freelist = [] := by
  unfold kalloc at h
  split at h
  · next hlist => exact hlist
  · next rest hlist =>
    cases h
    exact absurd rfl (k.isPage 0 (by rw [hlist]; exact List.mem_cons_self)).ne_zero

theorem kalloc_no_panic {e : Panic} : kalloc k ≠ .error e := by
  unfold kalloc
  split <;> simp

theorem kfree_ok (h : kfree pa k = .ok ((), k')) :
    L.IsPage pa ∧ k'.freelist = pa :: k.freelist ∧ k'.mem = fill k.mem pa PGSIZE 1 := by
  unfold kfree at h
  split at h
  · rename_i hpage
    cases h
    exact ⟨hpage, rfl, rfl⟩
  · cases h

theorem kfree_page (k : Kmem L) (h : L.IsPage pa) :
    ∃ k', kfree pa k = .ok ((), k') ∧ k'.freelist = pa :: k.freelist ∧ k'.mem = fill k.mem pa PGSIZE 1 := by
  unfold kfree
  rw [dif_pos h]
  exact ⟨_, rfl, rfl, rfl⟩

theorem kfree_error {e : Panic} (h : kfree pa k = .error e) : ¬ L.IsPage pa ∧ ¬ Alarm e := by
  unfold kfree at h
  split at h
  · cases h
  · next hpage =>
    cases h
    exact ⟨hpage, by decide⟩

theorem loadWord_bind {α : Type} {a : Nat} {f : Nat → Kernel L α}
    {r : Except Panic (α × Kmem L)} (h : (loadWord a >>= f) k = r) : f (load k.mem a 8) k = r := h

theorem storeWord_ok {a e : Nat} {u : Unit} (h : storeWord a e k = .ok (u, k')) : k' = k.write (put k.mem a 8 e) := by
  cases h
  rfl

theorem memset_ok {a n : Nat} {c : UInt8} {u : Unit}
    (h : memset a c n k = .ok (u, k')) : k' = k.write (fill k.mem a n c) := by
  cases h
  rfl

theorem free_write (k : Kmem L) (m : Mem) (x : Nat) : (k.write m).free x = k.free x := rfl

theorem free_of_perm {pa x : Nat} (h : k.freelist.Perm (pa :: k'.freelist)) :
    k.free x = k'.free x + if x = pa then 1 else 0 := by
  unfold Kmem.free
  rw [h.count_eq]
  by_cases hx : x = pa
  · rw [hx, List.count_cons_self, if_pos rfl]
  · rw [List.count_cons_of_ne (Ne.symm hx), if_neg hx, Nat.add_zero]

theorem free_of_freelist {pa x : Nat} (h : k.freelist = pa :: k'.freelist) :
    k.free x = k'.free x + if x = pa then 1 else 0 :=
  free_of_perm (.of_eq h)

theorem page_disjoint {x y : Nat} (hx : x % PGSIZE = 0) (hy : y % PGSIZE = 0) (hne : x ≠ y) :
    x + PGSIZE ≤ y ∨ y + PGSIZE ≤ x := by
  unfold PGSIZE at *
  omega

/-- The free list after `n` pages from `p` on have been freed, the last one first. -/
def pagesFrom (p : Nat) : Nat → List Nat
  | 0 => []
  | n + 1 => pagesFrom (p + PGSIZE) n ++ [p]

/-- A kernel of 0x21000 bytes. -/
def smallKernel : Layout where
  kend := 0x80021000
  trampoline := 0x80007000
  aligned := by decide
  kernbase_le := by decide
  trampoline_lt := by decide
  kend_le := by decide

def eightPages : Kmem smallKernel where
  freelist := pagesFrom smallKernel.kend 8
  mem _ := 0
  isPage := by decide

def sixteenPages : Kmem smallKernel where
  freelist := pagesFrom smallKernel.kend 16
  mem _ := 0
  isPage := by decide

end Xv6.Vm
