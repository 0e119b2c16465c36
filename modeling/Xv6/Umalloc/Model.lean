import Mathlib.Logic.Function.Basic
import Xv6.Param

/-!
# The user's allocator

`user/umalloc.c`.  A `Header *` is the address of its 16 bytes; `ptr` and `size` are the two fields of the headers in
memory, and `size` is an `uint`, in units of a header.  The loops take a bound on their rounds.  `more` is what the
kernel has for `sbrk` in this call: nothing, or memory that begins so many bytes above the break, because the program
has called `sbrk` itself.
-/

namespace Xv6.Umalloc

open Function

structure Heap where
  ptr : Nat → Nat
  size : Nat → Nat
  /-- 0 before the first `malloc`. -/
  freep : Nat
  sz : Nat
  /-- What `sbrk` has returned to `morecore`: addresses and lengths. -/
  regions : List (Nat × Nat)

def Heap.obtained (h : Heap) : Nat := (h.regions.map Prod.snd).sum

/-- The bytes of physical memory, `PHYSTOP - KERNBASE`; eager growth takes real pages. -/
def PHYSMEM : Nat := 128 * 1024 * 1024

/-- `sbrk(n)`, which is `growproc(n)` of the kernel.  `uvmdealloc` leaves alone a size that wraps around. -/
def sbrk (h : Heap) (n : Int) (more : Option Nat) : Option Nat × Heap :=
  if 0 < n then
    match more with
    | none => (none, h)
    | some gap =>
      if h.obtained + n.toNat ≤ PHYSMEM then
        (some (h.sz + gap), { h with
          sz := h.sz + gap + n.toNat, regions := (h.sz + gap, n.toNat) :: h.regions })
      else (none, h)
  else if n < 0 ∧ (-n).toNat ≤ h.sz then (some h.sz, { h with sz := h.sz - (-n).toNat })
  else (some h.sz, h)

/-- The first loop of `free`, from `p` on. -/
def findPlace (h : Heap) (bp : Nat) : Nat → Nat → Option Nat
  | 0, _ => none
  | n + 1, p =>
    if bp > p ∧ bp < h.ptr p then some p
    else if p ≥ h.ptr p ∧ (bp > p ∨ bp < h.ptr p) then some p
    else findPlace h bp n (h.ptr p)

/-- `bp` is joined to the block after it, or linked to it. -/
def joinNext (h : Heap) (p bp : Nat) : Heap :=
  if bp + 16 * h.size bp = h.ptr p then
    { h with
      size := update h.size bp ((h.size bp + h.size (h.ptr p)) % 2 ^ 32)
      ptr := update h.ptr bp (h.ptr (h.ptr p)) }
  else { h with ptr := update h.ptr bp (h.ptr p) }

def joinPrev (h : Heap) (p bp : Nat) : Heap :=
  if p + 16 * h.size p = bp then
    { h with
      size := update h.size p ((h.size p + h.size bp) % 2 ^ 32)
      ptr := update h.ptr p (h.ptr bp) }
  else { h with ptr := update h.ptr p bp }

def free (h : Heap) (n ap : Nat) : Option Heap :=
  let bp := ap - 16
  (findPlace h bp n h.freep).map fun p => { joinPrev (joinNext h p bp) p bp with freep := p }

/-- What `morecore` makes of the result of `sbrk`: a null pointer, or `freep`. -/
def addCore (n nu : Nat) : Option Nat × Heap → Option (Nat × Heap)
  | (none, h) => some (0, h)
  | (some p, h) => (free { h with size := update h.size p nu } n (p + 16)).map fun h => (h.freep, h)

def morecore (h : Heap) (n nu : Nat) (more : Option Nat) : Option (Nat × Heap) :=
  let nu := if nu < 4096 then 4096 else nu
  addCore n nu (sbrk h (int32 (nu * 16)) more)

/-- The block `p` is taken, or cut off its end. -/
def allocate (h : Heap) (nunits prevp p : Nat) : Nat × Heap :=
  if h.size p = nunits then
    (p + 16, { h with ptr := update h.ptr prevp (h.ptr p), freep := prevp })
  else
    let rest := h.size p - nunits
    let q := p + 16 * rest
    (q + 16, { h with size := update (update h.size p rest) q nunits, freep := prevp })

/-- The loop of `malloc`; `core` is its call of `morecore`. -/
def mallocLoop (nunits : Nat) (core : Heap → Nat → Option (Nat × Heap)) : Nat → Heap → Nat → Nat → Option (Nat × Heap)
  | 0, _, _, _ => none
  | n + 1, h, prevp, p =>
    if nunits ≤ h.size p then some (allocate h nunits prevp p)
    else if p = h.freep then
      match core h n with
      | none => none
      | some (p, h) => if p = 0 then some (0, h) else mallocLoop nunits core n h p (h.ptr p)
    else mallocLoop nunits core n h p (h.ptr p)

/-- `nunits` in `malloc`; the sum is in 64 bits. -/
def units (nbytes : Nat) : Nat := (nbytes + 16 - 1) / 16 + 1

/-- The list that the first `malloc` begins with is `base` alone. -/
def ready (base : Nat) (h : Heap) : Heap :=
  if h.freep = 0 then
    { h with ptr := update h.ptr base base, freep := base, size := update h.size base 0 }
  else h

def malloc (base : Nat) (h : Heap) (n nbytes : Nat) (more : Option Nat) : Option (Nat × Heap) :=
  let h := ready base h
  mallocLoop (units nbytes) (morecore · · (units nbytes) more) n h h.freep (h.ptr h.freep)

end Xv6.Umalloc
