import Xv6.Fs.Model

/-!
# Making a file system

`mkfs/mkfs.c` runs on the host and writes the first disk image: the super block, an inode for the root directory and
one for every file it is given, the files themselves, and the bitmap.  Inodes and blocks are handed out by counting
up.  The image is an array of bytes, of `FSSIZE` blocks once it has been zeroed.
-/

namespace Xv6.Mkfs

open Hoare Memory Fs

def FSSIZE : Nat := 2000
def NINODES : Nat := 200
def FSMAGIC : Nat := 0x10203040

def nbitmap : Nat := FSSIZE / BPB + 1
def ninodeblocks : Nat := NINODES / IPB + 1
def nlog : Nat := LOGBLOCKS + 1
def nmeta : Nat := 2 + nlog + ninodeblocks + nbitmap
def nblocks : Nat := FSSIZE - nmeta

/-- The fields of `sb` that say where things are. -/
def sb : Superblock where
  size := FSSIZE
  ninodes := NINODES
  inodestart := 2 + nlog
  bmapstart := 2 + nlog + ninodeblocks
  two_le := by decide
  root_lt := by decide
  inodes_fit := by decide
  bitmap_fit := by decide
  ninodes_le := by decide
  size_lt := by decide

structure State where
  img : Mem
  freeinode : Nat
  freeblock : Nat

/-- How it ends other than normally. -/
inductive Abort where
  | die
  | assert
  deriving DecidableEq, Repr

abbrev Mk (α : Type) := Prog Abort State α

/-! ## Sectors and inodes -/

/-- The bytes from `a` on, as a buffer. -/
def window (m : Mem) (a : Nat) : Mem := fun i => m (a + i)

/-- The image with a buffer written to sector `sec`. -/
def blit (m : Mem) (sec : Nat) (buf : Mem) : Mem := fun a =>
  if sec * BSIZE ≤ a ∧ a < sec * BSIZE + BSIZE then buf (a - sec * BSIZE) else m a

def wsect (sec : Nat) (buf : Mem) : Mk Unit := modify fun s => { s with img := blit s.img sec buf }

/-- Beyond the end of the image `read` comes up short. -/
def rsect (sec : Nat) : Mk Mem := do
  let s ← get
  if sec < FSSIZE then pure (window s.img (sec * BSIZE)) else throw .die

def iblock (inum : Nat) : Nat := inum / IPB + sb.inodestart

def winode (inum : Nat) (ip : Dinode) : Mk Unit := do
  let buf ← rsect (iblock inum)
  wsect (iblock inum) (putDinode buf (inum % IPB * 64) ip)

def rinode (inum : Nat) : Mk Dinode := do
  let buf ← rsect (iblock inum)
  pure (loadDinode buf (inum % IPB * 64))

def emptyInode (type : Int16) : Dinode :=
  { type := type, major := 0, minor := 0, nlink := 1, size := 0, addrs := fun _ => 0 }

def ialloc (type : Int16) : Mk Nat := do
  let s ← get
  set { s with freeinode := s.freeinode + 1 }
  winode s.freeinode (emptyInode type)
  pure s.freeinode

def zeroes : Mem := fun _ => 0

/-- The bitmap of the first `used` blocks. -/
def bitmap (used : Nat) : Mem :=
  (List.range used).foldl (fun buf i =>
    Function.update buf (i / 8) (buf (i / 8) ||| UInt8.ofNat (2 ^ (i % 8)))) zeroes

def balloc (used : Nat) : Mk Unit :=
  if BPB ≤ used then throw .assert else wsect sb.bmapstart (bitmap used)

/-! ## Appending to a file -/

def nextBlock : Mk Nat := do
  let s ← get
  set { s with freeblock := s.freeblock + 1 }
  pure s.freeblock

/-- The block of the file that holds block number `fbn`, and the inode with it. -/
def fileBlock (din : Dinode) (fbn : Nat) : Mk (Nat × Dinode) :=
  if fbn < NDIRECT then
    if din.addr fbn = 0 then do
      let x ← nextBlock
      pure (x, din.setAddr fbn x)
    else pure (din.addr fbn, din)
  else do
    let din ← if din.addr NDIRECT = 0 then do
        let x ← nextBlock
        pure (din.setAddr NDIRECT x)
      else pure din
    let indirect ← rsect (din.addr NDIRECT)
    if load indirect (4 * (fbn - NDIRECT)) 4 = 0 then do
      let x ← nextBlock
      wsect (din.addr NDIRECT) (put indirect (4 * (fbn - NDIRECT)) 4 x)
      pure (x, din)
    else pure (load indirect (4 * (fbn - NDIRECT)) 4, din)

/-- One round of `iappend`: what is left of one block. -/
def appendBlock (din : Dinode) (off : Nat) (p : List UInt8) : Mk Dinode := do
  let r ← fileBlock din (off / BSIZE)
  let buf ← rsect r.1
  wsect r.1 (store buf (off - off / BSIZE * BSIZE) p)
  pure r.2

/-- The loop of `iappend`.  Every round appends at least one byte, so that as many rounds as there are
bytes are enough. -/
def appendLoop : Nat → Dinode → Nat → List UInt8 → Mk (Dinode × Nat)
  | 0, din, off, _ => pure (din, off)
  | k + 1, din, off, p =>
    if p.length = 0 then pure (din, off)
    else if MAXFILE ≤ off / BSIZE then throw .assert
    else do
      let n1 := min p.length ((off / BSIZE + 1) * BSIZE - off)
      let din ← appendBlock din off (p.take n1)
      appendLoop k din (off + n1) (p.drop n1)

def iappend (inum : Nat) (p : List UInt8) : Mk Unit := do
  let din ← rinode inum
  let r ← appendLoop p.length din din.size.toNat p
  winode inum { r.1 with size := UInt32.ofNat r.2 }

/-! ## `main` -/

/-- A name on the command line, and what the host has for it: nothing if it cannot be opened, or else the
pieces in which `read` delivers the file. -/
structure Input where
  path : List UInt8
  pieces : Option (List (List UInt8))
  noNul : 0 ∉ path
  delivered : ∀ l ∈ pieces.getD [], 0 < l.length ∧ l.length ≤ BSIZE

def userSlash : List UInt8 := [117, 115, 101, 114, 47]
def underscore : UInt8 := 95

def basename (path : List UInt8) : List UInt8 :=
  if strncmp 5 path userSlash = 0 then path.drop 5 else path

def shortname (path : List UInt8) : List UInt8 :=
  if (basename path).headD 0 = underscore then (basename path).tail else basename path

def addFile (f : Input) : Mk Unit :=
  if slash ∈ basename f.path then throw .assert
  else
    match f.pieces with
    | none => throw .die
    | some pieces =>
      if DIRSIZ < (shortname f.path).length then throw .assert
      else do
        let inum ← ialloc T_FILE
        iappend ROOTINO (dirent inum (shortname f.path))
        pieces.forM (iappend inum)

def superblock : Mem :=
  putArray zeroes 0 4 8 fun i =>
    [FSMAGIC, FSSIZE, nblocks, NINODES, nlog, 2, sb.inodestart, sb.bmapstart].getD i 0

/-- `main`, once the image has been opened. -/
def main (files : List Input) : Mk Unit := do
  -- the first free block that we can allocate
  modify fun s => { s with freeblock := nmeta }
  (List.range FSSIZE).forM fun i => wsect i zeroes
  wsect 1 superblock
  let rootino ← ialloc T_DIR
  if rootino ≠ ROOTINO then throw .assert
  else do
    iappend ROOTINO (dirent ROOTINO dot)
    iappend ROOTINO (dirent ROOTINO dotdot)
    files.forM addFile
    -- fix size of root inode dir
    let din ← rinode ROOTINO
    winode ROOTINO { din with size := UInt32.ofNat ((din.size.toNat / BSIZE + 1) * BSIZE) }
    let s ← get
    balloc s.freeblock

def State.start : State := ⟨zeroes, 1, 0⟩

end Xv6.Mkfs
