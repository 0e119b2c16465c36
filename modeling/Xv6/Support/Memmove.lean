import Xv6.Lib.Memory

/-!
# `memmove`

The kernel (`kernel/string.c`) and the user library (`user/ulib.c`) choose the direction of the copy by different
tests.  Either way no byte is read after it has been overwritten, so that both are the simultaneous copy `copy`, as
long as the ranges lie in the address space.
-/

namespace Xv6.Support

open Function Memory

variable {m : Mem} {d s n : Nat}

/-- A pointer of 64 bits. -/
def ptr (a : Nat) : Nat := a % 2 ^ 64

/-- `while(n-- > 0) *d++ = *s++;` -/
def copyUp (m : Mem) (d s : Nat) : Nat → Mem
  | 0 => m
  | n + 1 => copyUp (update m d (m s)) (ptr (d + 1)) (ptr (s + 1)) n

/-- `while(n-- > 0) *--d = *--s;` -/
def copyDown (m : Mem) (d s : Nat) : Nat → Mem
  | 0 => m
  | n + 1 => copyDown (update m (ptr (d + 2 ^ 64 - 1)) (m (ptr (s + 2 ^ 64 - 1)))) (ptr (d + 2 ^ 64 - 1))
      (ptr (s + 2 ^ 64 - 1)) n

/-- `memmove` of the kernel: what it returns, and the memory. -/
def Kernel.memmove (m : Mem) (dst src n : Nat) : Nat × Mem :=
  if n = 0 then (dst, m)
  else if src < dst ∧ ptr (src + n) > dst then (dst, copyDown m (ptr (dst + n)) (ptr (src + n)) n)
  else (dst, copyUp m dst src n)

/-- `memmove` of the user library. -/
def User.memmove (m : Mem) (vdst vsrc : Nat) (n : Int) : Nat × Mem :=
  if vsrc > vdst then (vdst, copyUp m vdst vsrc n.toNat)
  else (vdst, copyDown m (ptr (vdst + n).toNat) (ptr (vsrc + n).toNat) n.toNat)

theorem ptr_of_lt {a : Nat} (h : a < 2 ^ 64) : ptr a = a := Nat.mod_eq_of_lt h

-- At the top of the address space `a + 1` is 0.
theorem ptr_pred {a : Nat} (h : a + 1 ≤ 2 ^ 64) : ptr (ptr (a + 1) + 2 ^ 64 - 1) = a := by
  unfold ptr
  omega

theorem copy_zero : copy m d s 0 = m := by
  ext x
  unfold copy
  rw [if_neg (by omega)]

-- The rest of the source does not reach the byte that has been written.
theorem copyUp_eq (hs : s + n ≤ 2 ^ 64) (hd : d + n ≤ 2 ^ 64) (hsafe : d ≤ s ∨ s + n ≤ d) :
    copyUp m (ptr d) (ptr s) n = copy m d s n := by
  induction n generalizing m d s with
  | zero => rw [copy_zero, copyUp]
  | succ n ih =>
    rw [ptr_of_lt (a := d) (by omega), ptr_of_lt (a := s) (by omega), copyUp, ih (by omega) (by omega) (by omega)]
    ext x
    unfold copy
    by_cases hfirst : x = d
    · rw [if_neg (by omega), if_pos (by omega), hfirst, update_self, Nat.sub_self, Nat.add_zero]
    by_cases hin : d + 1 ≤ x ∧ x < d + 1 + n
    · have hnew : s + 1 + (x - (d + 1)) = s + (x - d) := by omega
      rw [if_pos hin, if_pos (by omega), hnew, update_of_ne (by omega)]
    · rw [if_neg hin, if_neg (by omega), update_of_ne hfirst]

theorem copyDown_eq (hs : s + n ≤ 2 ^ 64) (hd : d + n ≤ 2 ^ 64) (hsafe : s ≤ d) :
    copyDown m (ptr (d + n)) (ptr (s + n)) n = copy m d s n := by
  induction n generalizing m with
  | zero => rw [copy_zero, copyDown]
  | succ n ih =>
    have hn := ih (m := update m (d + n) (m (s + n))) (by omega) (by omega)
    rw [ptr_of_lt (by omega), ptr_of_lt (by omega)] at hn
    rw [copyDown, ← Nat.add_assoc, ← Nat.add_assoc, ptr_pred (a := d + n) hd, ptr_pred (a := s + n) hs, hn]
    ext x
    unfold copy
    by_cases hlast : x = d + n
    · have hoff : d + n - d = n := Nat.add_sub_cancel_left d n
      rw [if_neg (by omega), if_pos (by omega), hlast, update_self, hoff]
    · by_cases hin : d ≤ x ∧ x < d + n
      · rw [if_pos hin, if_pos (by omega), update_of_ne (by omega)]
      · rw [if_neg hin, if_neg (by omega), update_of_ne hlast]

section Versions

variable {dst src : Nat} (hsrc : src + n ≤ 2 ^ 64) (hdst : dst + n ≤ 2 ^ 64)

include hsrc hdst

theorem copyUp_ranges (hzero : n ≠ 0) (hsafe : dst ≤ src ∨ src + n ≤ dst) : copyUp m dst src n = copy m dst src n := by
  have hrun := copyUp_eq (m := m) hsrc hdst hsafe
  rwa [ptr_of_lt (by omega), ptr_of_lt (by omega)] at hrun

-- A source that begins below the destination ends before the end of the address space.
theorem Kernel.memmove_eq : Kernel.memmove m dst src n = (dst, copy m dst src n) := by
  unfold Kernel.memmove
  by_cases hzero : n = 0
  · rw [if_pos hzero, hzero, copy_zero]
  rw [if_neg hzero]
  by_cases hover : src < dst ∧ ptr (src + n) > dst
  · rw [if_pos hover, copyDown_eq hsrc hdst (by omega)]
  have hsafe : dst ≤ src ∨ src + n ≤ dst := by
    by_contra hboth
    rw [ptr_of_lt (by omega)] at hover
    omega
  rw [if_neg hover, copyUp_ranges hsrc hdst hzero hsafe]

theorem User.memmove_eq : User.memmove m dst src n = (dst, copy m dst src n) := by
  unfold User.memmove
  by_cases hup : src > dst
  · rw [if_pos hup, Int.toNat_natCast]
    by_cases hzero : n = 0
    · rw [hzero, copy_zero, copyUp]
    · rw [copyUp_ranges hsrc hdst hzero (by omega)]
  · have hd : ((dst : Int) + n).toNat = dst + n := by omega
    have hs : ((src : Int) + n).toNat = src + n := by omega
    rw [if_neg hup, hd, hs, Int.toNat_natCast, copyDown_eq hsrc hdst (by omega)]

end Versions

/-- Both leave what a copy leaves that reads every byte before it writes one. -/
theorem memmove_simultaneous (m : Mem) (dst src n : Nat) (hsrc : src + n ≤ 2 ^ 64) (hdst : dst + n ≤ 2 ^ 64) :
    Kernel.memmove m dst src n = (dst, copy m dst src n) ∧ User.memmove m dst src n = (dst, copy m dst src n) :=
  ⟨Kernel.memmove_eq hsrc hdst, User.memmove_eq hsrc hdst⟩

theorem memmove_simultaneous_overlap : Kernel.memmove UInt8.ofNat 102 100 8 = (102, copy UInt8.ofNat 102 100 8) ∧
      User.memmove UInt8.ofNat 102 100 8 = (102, copy UInt8.ofNat 102 100 8) :=
  memmove_simultaneous UInt8.ofNat 102 100 8 (by decide) (by decide)

end Xv6.Support
