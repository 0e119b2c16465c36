import Mathlib.Tactic.Common
import Xv6.Param

/-!
# Disk blocks

A block is `BSIZE` bytes.  Arrays of `uint` inside a block (the log header, an indirect block) are
little-endian words.
-/

namespace Xv6

def BSIZE : Nat := 1024

def Block : Type := Fin BSIZE → UInt8

instance : Inhabited Block := ⟨fun _ => 0⟩

namespace Block

def byte (d : Block) (k : Nat) : UInt8 := if h : k < BSIZE then d ⟨k, h⟩ else 0

def word (d : Block) (j : Nat) : Nat :=
  (d.byte (4 * j)).toNat + 2 ^ 8 * (d.byte (4 * j + 1)).toNat +
    2 ^ 16 * (d.byte (4 * j + 2)).toNat + 2 ^ 24 * (d.byte (4 * j + 3)).toNat

def setWord (d : Block) (j v : Nat) : Block :=
  fun k => if k.val / 4 = j then UInt8.ofNat (v / 256 ^ (k.val % 4)) else d k

theorem byte_setWord_of_ne (d : Block) {j v k : Nat} (h : k / 4 ≠ j) : (d.setWord j v).byte k = d.byte k := by
  unfold byte
  split
  · exact if_neg h
  · rfl

theorem byte_setWord (d : Block) {j v k : Nat} (hk : k < BSIZE) (h : k / 4 = j) :
    ((d.setWord j v).byte k).toNat = v / 256 ^ (k % 4) % 256 := by
  unfold byte
  rw [dif_pos hk]
  show (if k / 4 = j then UInt8.ofNat (v / 256 ^ (k % 4)) else d ⟨k, hk⟩).toNat = _
  rw [if_pos h]
  exact UInt8.toNat_ofNat'

theorem word_setWord_of_ne (d : Block) {i j v : Nat} (h : i ≠ j) : (d.setWord j v).word i = d.word i := by
  unfold word
  rw [byte_setWord_of_ne d (by omega), byte_setWord_of_ne d (by omega),
    byte_setWord_of_ne d (by omega), byte_setWord_of_ne d (by omega)]

theorem word_setWord (d : Block) {j v : Nat} (hj : 4 * j + 3 < BSIZE) (hv : v < 2 ^ 32) :
    (d.setWord j v).word j = v := by
  unfold word
  rw [byte_setWord d (by omega) (by omega), byte_setWord d (by omega) (by omega),
    byte_setWord d (by omega) (by omega), byte_setWord d (by omega) (by omega),
    show 4 * j % 4 = 0 by omega, show (4 * j + 1) % 4 = 1 by omega,
    show (4 * j + 2) % 4 = 2 by omega, show (4 * j + 3) % 4 = 3 by omega]
  omega

end Block

end Xv6
