import Mathlib.Algebra.Order.Ring.Int
import Mathlib.Tactic.Common

/-!
# Kernel parameters

The constants of `kernel/param.h`, and the wrap-around of the fixed-width C integers that the
kernel counts with.
-/

namespace Xv6

def NPROC : Nat := 64
def MAXOPBLOCKS : Nat := 10
def LOGBLOCKS : Nat := MAXOPBLOCKS * 3
def NBUF : Nat := MAXOPBLOCKS * 3
def MAXARG : Nat := 32
def MAXPATH : Nat := 128
def USERSTACK : Nat := 1
def NSEM : Nat := 16
def NSHMEM : Nat := 16
/-- In `console.c`. -/
def INPUT_BUF_SIZE : Nat := 128

instance : NeZero NPROC := ⟨by decide⟩
instance : NeZero NBUF := ⟨by decide⟩
instance : NeZero NSEM := ⟨by decide⟩
instance : NeZero NSHMEM := ⟨by decide⟩
instance : NeZero INPUT_BUF_SIZE := ⟨by decide⟩

/-- The value a C `int` holds after the integer `x` has been stored in it. -/
def int32 (x : Int) : Int := (x + 2 ^ 31) % 2 ^ 32 - 2 ^ 31

theorem int32_eq_self {x : Int} (hlo : -(2 ^ 31) ≤ x) (hhi : x < 2 ^ 31) : int32 x = x := by
  unfold int32
  omega

end Xv6
