import Mathlib.Data.Nat.Bitwise
import Xv6.Disk.Block
import Xv6.Lib.Memory

/-!
# The file system on the disk

The disk, as the buffer cache shows it, is one array of bytes in which block `b` starts at
`b * BSIZE`.  `kernel/fs.h` says what lies where: after the boot block, the super block and the log
come the inodes, then the bitmap of the blocks in use, then the data blocks.
-/

namespace Xv6.Fs

open Function Memory

def NDIRECT : Nat := 12
def NINDIRECT : Nat := 256
def MAXFILE : Nat := NDIRECT + NINDIRECT
def IPB : Nat := 16
def BPB : Nat := BSIZE * 8

/-- `struct superblock`, with the layout that `mkfs` gives a disk. -/
structure Superblock where
  size : Nat
  ninodes : Nat
  inodestart : Nat
  bmapstart : Nat
  two_le : 2 ≤ inodestart
  root_lt : 1 < ninodes
  inodes_fit : inodestart + ninodes / IPB + 1 ≤ bmapstart
  bitmap_fit : bmapstart + size / BPB + 1 ≤ size
  ninodes_le : ninodes ≤ 2 ^ 16
  size_lt : size < 2 ^ 31

/-- The first data block. -/
def Superblock.nmeta (sb : Superblock) : Nat := sb.bmapstart + sb.size / BPB + 1

theorem Superblock.lt_word (sb : Superblock) {b : Nat} (hb : b < sb.size) : b < 2 ^ 32 :=
  Nat.lt_trans hb (Nat.lt_trans sb.size_lt (by decide))

variable (sb : Superblock) {m m' : Mem} {a b x y : Nat}

/-! ## The bitmap -/

/-- Where the bit of block `b` is, in block `BBLOCK(b, sb)`. -/
def bitAddr (b : Nat) : Nat := (b / BPB + sb.bmapstart) * BSIZE + b % BPB / 8

/-- `1 << (bi % 8)` -/
def bitMask (b : Nat) : UInt8 := UInt8.ofNat (2 ^ (b % BPB % 8))

def InUse (m : Mem) (b : Nat) : Prop := m (bitAddr sb b) &&& bitMask b ≠ 0

instance (m : Mem) (b : Nat) : Decidable (InUse sb m b) := inferInstanceAs (Decidable (_ ≠ _))

def markUsed (m : Mem) (b : Nat) : Mem := update m (bitAddr sb b) (m (bitAddr sb b) ||| bitMask b)

def markFree (m : Mem) (b : Nat) : Mem := update m (bitAddr sb b) (m (bitAddr sb b) &&& ~~~ bitMask b)

theorem toNat_mask {i : Nat} (hi : i < 8) : (UInt8.ofNat (2 ^ i)).toNat = 2 ^ i := by
  rw [UInt8.toNat_ofNat']
  exact Nat.mod_eq_of_lt (Nat.pow_lt_pow_right (by decide) hi)

theorem mask_ne_zero {c : UInt8} {i : Nat} (hi : i < 8) : c &&& UInt8.ofNat (2 ^ i) ≠ 0 ↔ c.toNat.testBit i = true := by
  rw [ne_eq, ← UInt8.toNat_inj, UInt8.toNat_and, toNat_mask hi, Nat.and_two_pow]
  cases c.toNat.testBit i with
  | false | true => simp

theorem or_mask {c : UInt8} {i j : Nat} (hi : i < 8) (hj : j < 8) :
    (c ||| UInt8.ofNat (2 ^ i)) &&& UInt8.ofNat (2 ^ j) ≠ 0 ↔ i = j ∨ c &&& UInt8.ofNat (2 ^ j) ≠ 0 := by
  rw [mask_ne_zero hj, mask_ne_zero hj, UInt8.toNat_or, toNat_mask hi, Nat.testBit_or,
    Nat.testBit_two_pow, Bool.or_eq_true, decide_eq_true_eq]
  exact or_comm

theorem bitAddr_inj (h : bitAddr sb a = bitAddr sb b) (hbit : a % BPB % 8 = b % BPB % 8) : a = b := by
  unfold bitAddr BPB BSIZE at *
  omega

theorem inUse_markUsed : InUse sb (markUsed sb m a) b ↔ a = b ∨ InUse sb m b := by
  have hlt : ∀ c, c % BPB % 8 < 8 := fun c => Nat.mod_lt _ (by decide)
  unfold InUse markUsed bitMask
  by_cases hsame : bitAddr sb b = bitAddr sb a
  · rw [hsame, update_self, or_mask (hlt a) (hlt b)]
    refine or_congr_left ⟨fun hbit => bitAddr_inj sb hsame.symm hbit, fun heq => by rw [heq]⟩
  · rw [update_of_ne hsame]
    refine ⟨.inr, fun h => h.resolve_left fun heq => hsame (by rw [heq])⟩

/-! ## Inodes -/

@[ext]
structure Dinode where
  type : Int16
  major : Int16
  minor : Int16
  nlink : Int16
  size : UInt32
  addrs : Fin (NDIRECT + 1) → UInt32

/-- Where inode `x` is, in block `IBLOCK(x, sb)`. -/
def inodeAddr (x : Nat) : Nat := (x / IPB + sb.inodestart) * BSIZE + x % IPB * 64

def loadShort (m : Mem) (a : Nat) : Int16 := (UInt16.ofNat (load m a 2)).toInt16

def loadUint (m : Mem) (a : Nat) : UInt32 := UInt32.ofNat (load m a 4)

def putShort (m : Mem) (a : Nat) (v : Int16) : Mem := put m a 2 v.toUInt16.toNat

def putUint (m : Mem) (a : Nat) (v : UInt32) : Mem := put m a 4 v.toNat

def loadDinode (m : Mem) (a : Nat) : Dinode where
  type := loadShort m a
  major := loadShort m (a + 2)
  minor := loadShort m (a + 4)
  nlink := loadShort m (a + 6)
  size := loadUint m (a + 8)
  addrs i := loadUint m (a + 12 + 4 * i.val)

def Dinode.addr (d : Dinode) (k : Nat) : Nat :=
  if h : k < NDIRECT + 1 then (d.addrs ⟨k, h⟩).toNat else 0

def putDinode (m : Mem) (a : Nat) (d : Dinode) : Mem :=
  let m := putShort m a d.type
  let m := putShort m (a + 2) d.major
  let m := putShort m (a + 4) d.minor
  let m := putShort m (a + 6) d.nlink
  let m := putUint m (a + 8) d.size
  putArray m (a + 12) 4 (NDIRECT + 1) d.addr

def dinode (m : Mem) (x : Nat) : Dinode := loadDinode m (inodeAddr sb x)

theorem loadShort_putShort {v : Int16} : loadShort (putShort m a v) a = v := by
  have hlt : v.toUInt16.toNat < 256 ^ 2 := v.toUInt16.toNat_lt
  unfold loadShort putShort
  rw [load_put hlt, UInt16.ofNat_toNat, Int16.toInt16_toUInt16]

theorem loadUint_putUint {v : UInt32} : loadUint (putUint m a v) a = v := by
  have hlt : v.toNat < 256 ^ 4 := v.toNat_lt
  unfold loadUint putUint
  rw [load_put hlt, UInt32.ofNat_toNat]

theorem loadShort_congr (h : Agree m m' a 2) : loadShort m' a = loadShort m a := by
  unfold loadShort
  rw [load_congr h]

theorem loadUint_congr (h : Agree m m' a 4) : loadUint m' a = loadUint m a := by
  unfold loadUint
  rw [load_congr h]

theorem loadDinode_congr (h : Agree m m' a 64) : loadDinode m' a = loadDinode m a := by
  unfold loadDinode
  congr 1
  · exact loadShort_congr (h.sub (by omega) (by omega))
  · exact loadShort_congr (h.sub (by omega) (by omega))
  · exact loadShort_congr (h.sub (by omega) (by omega))
  · exact loadShort_congr (h.sub (by omega) (by omega))
  · exact loadUint_congr (h.sub (by omega) (by omega))
  funext i
  have hi := i.isLt
  unfold NDIRECT at hi
  exact loadUint_congr (h.sub (by omega) (by omega))

variable {d : Dinode}

theorem agree_putDinode {n : Nat} (h : a + n ≤ b ∨ b + 64 ≤ a) : Agree m (putDinode m b d) a n := by
  unfold putDinode putShort putUint
  refine ((((((agree_put ?_).trans (agree_put ?_)).trans (agree_put ?_)).trans (agree_put ?_)).trans
    (agree_put ?_)).trans (agree_putArray ?_))
  · omega
  · omega
  · omega
  · omega
  · omega
  · unfold NDIRECT
    omega

theorem loadDinode_putDinode : loadDinode (putDinode m a d) a = d := by
  -- Each field is left alone by the fields stored after it.
  have hshort : ∀ {m : Mem} {b c : Nat} {v : Int16}, b + 2 ≤ c →
      loadShort (putShort m c v) b = loadShort m b := fun h => loadShort_congr (agree_put (.inl h))
  have huint : ∀ {m : Mem} {b : Nat} {v : UInt32}, b + 2 ≤ a + 8 →
      loadShort (putUint m (a + 8) v) b = loadShort m b := fun h => loadShort_congr (agree_put (.inl h))
  have harray : ∀ {m : Mem} {b n : Nat}, b + n ≤ a + 12 →
      Agree m (putArray m (a + 12) 4 (NDIRECT + 1) d.addr) b n := fun h => agree_putArray (.inl h)
  unfold putDinode
  apply Dinode.ext
  · show loadShort _ a = _
    rw [loadShort_congr (harray (by omega)), huint (by omega), hshort (by omega), hshort (by omega),
      hshort (by omega), loadShort_putShort]
  · show loadShort _ (a + 2) = _
    rw [loadShort_congr (harray (by omega)), huint (by omega), hshort (by omega), hshort (by omega), loadShort_putShort]
  · show loadShort _ (a + 4) = _
    rw [loadShort_congr (harray (by omega)), huint (by omega), hshort (by omega), loadShort_putShort]
  · show loadShort _ (a + 6) = _
    rw [loadShort_congr (harray (by omega)), huint (by omega), loadShort_putShort]
  · show loadUint _ (a + 8) = _
    rw [loadUint_congr (harray (by omega)), loadUint_putUint]
  funext i
  show loadUint _ (a + 12 + 4 * i.val) = _
  have haddr : d.addr i.val = (d.addrs i).toNat := dif_pos i.isLt
  have hlt : d.addr i.val < 256 ^ 4 := by
    rw [haddr]
    exact (d.addrs i).toNat_lt
  unfold loadUint
  rw [load_putArray i.isLt hlt, haddr, UInt32.ofNat_toNat]

/-! ## Who overlaps whom -/

theorem inodeAddr_lo : sb.inodestart * BSIZE ≤ inodeAddr sb x := by
  unfold inodeAddr BSIZE IPB
  omega

theorem inodeAddr_hi (hx : x < sb.ninodes) : inodeAddr sb x + 64 ≤ sb.bmapstart * BSIZE := by
  have hfit := sb.inodes_fit
  unfold inodeAddr BSIZE IPB at *
  omega

theorem inodeAddr_apart (h : x ≠ y) : inodeAddr sb x + 64 ≤ inodeAddr sb y ∨ inodeAddr sb y + 64 ≤ inodeAddr sb x := by
  unfold inodeAddr BSIZE IPB
  omega

theorem bitAddr_lo : sb.bmapstart * BSIZE ≤ bitAddr sb b := by
  unfold bitAddr BSIZE BPB BSIZE
  omega

theorem bitAddr_hi (hb : b < sb.size) : bitAddr sb b < sb.nmeta * BSIZE := by
  unfold bitAddr Superblock.nmeta BPB BSIZE
  omega

theorem dinode_congr (h : Agree m m' (inodeAddr sb x) 64) : dinode sb m' x = dinode sb m x := loadDinode_congr h

theorem dinode_putDinode_self : dinode sb (putDinode m (inodeAddr sb x) d) x = d := loadDinode_putDinode

theorem dinode_putDinode_of_ne (h : y ≠ x) : dinode sb (putDinode m (inodeAddr sb x) d) y = dinode sb m y :=
  dinode_congr sb (agree_putDinode (inodeAddr_apart sb h))

theorem inUse_congr (h : m' (bitAddr sb b) = m (bitAddr sb b)) : InUse sb m' b ↔ InUse sb m b := by
  unfold InUse
  rw [h]

end Xv6.Fs
