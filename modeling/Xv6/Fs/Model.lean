import Mathlib.Data.List.FinRange
import Xv6.Fs.Disk
import Xv6.Lib.Hoare

/-!
# The file system

`kernel/fs.c`: blocks, inodes, the content of inodes, directories and paths.  The log shows the others all of a call or
nothing, and the disk is what the buffer cache shows.  A panic has no next state, and neither has a process that waits
for a lock it holds itself.
-/

namespace Xv6.Fs

open Function Hoare Memory

def NINODE : Nat := 50
def NFILE : Nat := 100
def ROOTINO : Nat := 1
def DIRSIZ : Nat := 14

def T_DIR : Int16 := 1
def T_FILE : Int16 := 2

inductive Panic where
  | freeingFreeBlock
  | igetNoInodes
  | ilock
  | ilockNoType
  | iunlock
  | bmapOutOfRange
  | dirlookupNotDir
  | dirlookupRead
  /-- The process waits for a lock that it holds itself. -/
  | deadlock
  /-- A null pointer is followed. -/
  | kerneltrap
  deriving DecidableEq, Repr

structure Inode where
  inum : Nat
  ref : Int
  locked : Bool
  valid : Bool
  copy : Dinode

inductive FileType where
  | none
  | pipe
  | inode
  | device
  deriving DecidableEq, Repr

/-- `struct file`, the fields that `fileread` uses. -/
structure File where
  type : FileType
  readable : Bool
  ip : Option (Fin NINODE)
  off : Nat

/-- `struct proc`, the field that `namex` uses. -/
structure Proc where
  cwd : Option (Fin NINODE)

structure State where
  disk : Mem
  inode : Fin NINODE → Inode
  file : Fin NFILE → File
  proc : Fin NPROC → Proc

abbrev Sys (α : Type) := Prog Panic State α

def State.setDisk (s : State) (m : Mem) : State := { s with disk := m }

def State.setInode (s : State) (ip : Fin NINODE) (v : Inode) : State := { s with inode := update s.inode ip v }

def State.setFile (s : State) (f : Fin NFILE) (v : File) : State := { s with file := update s.file f v }

variable (sb : Superblock)

/-! ## Blocks -/

def bzero (bno : Nat) : Sys Unit := modify fun s => s.setDisk (fill s.disk (bno * BSIZE) BSIZE 0)

def balloc : Sys Nat := do
  let s ← get
  match (List.range sb.size).find? fun b => ¬ InUse sb s.disk b with
  | none => pure 0
  | some b => do
    modify fun s => s.setDisk (markUsed sb s.disk b)
    bzero b
    pure b

def bfree (b : Nat) : Sys Unit := do
  let s ← get
  if InUse sb s.disk b then modify fun s => s.setDisk (markFree sb s.disk b)
  else throw .freeingFreeBlock

/-! ## Inodes -/

def iupdate (ip : Fin NINODE) : Sys Unit := modify fun s =>
  s.setDisk (putDinode s.disk (inodeAddr sb (s.inode ip).inum) (s.inode ip).copy)

def iget (inum : Nat) : Sys (Fin NINODE) := do
  let s ← get
  match (List.finRange NINODE).find? fun ip => 0 < (s.inode ip).ref ∧ (s.inode ip).inum = inum with
  | some ip => do
    modify fun s => s.setInode ip { s.inode ip with ref := (s.inode ip).ref + 1 }
    pure ip
  | none =>
    match (List.finRange NINODE).find? fun ip => (s.inode ip).ref = 0 with
    | none => throw .igetNoInodes
    | some ip => do
      -- Recycle an inode entry.
      modify fun s => s.setInode ip { s.inode ip with inum := inum, ref := 1, valid := false }
      pure ip

def idup (ip : Fin NINODE) : Sys Unit := modify fun s =>
  s.setInode ip { s.inode ip with ref := (s.inode ip).ref + 1 }

def ilock (ip : Fin NINODE) : Sys Unit := do
  let s ← get
  if (s.inode ip).ref < 1 then throw .ilock
  else if (s.inode ip).locked then throw .deadlock
  else do
    modify fun s => s.setInode ip { s.inode ip with locked := true }
    if (s.inode ip).valid then pure ()
    else do
      let d := dinode sb s.disk (s.inode ip).inum
      modify fun s => s.setInode ip { s.inode ip with copy := d, valid := true }
      if d.type = 0 then throw .ilockNoType else pure ()

def iunlock (ip : Fin NINODE) : Sys Unit := do
  let s ← get
  if (s.inode ip).locked = false ∨ (s.inode ip).ref < 1 then throw .iunlock
  else modify fun s => s.setInode ip { s.inode ip with locked := false }

def Dinode.setAddr (d : Dinode) (k v : Nat) : Dinode :=
  { d with addrs := fun i => if i.val = k then UInt32.ofNat v else d.addrs i }

def setCopy (ip : Fin NINODE) (f : Dinode → Dinode) : Sys Unit := modify fun s =>
  s.setInode ip { s.inode ip with copy := f (s.inode ip).copy }

/-- The address that is there, or else a new block's, which is then kept there. -/
def orBalloc (addr : Nat) (save : Nat → Sys Unit) : Sys Nat :=
  if addr ≠ 0 then pure addr
  else do
    let addr ← balloc sb
    if addr = 0 then pure 0
    else do
      save addr
      pure addr

/-- Where the `j`th address in an indirect block is. -/
def entryAddr (addr j : Nat) : Nat := addr * BSIZE + 4 * j

/-- Return the disk block address of the nth block in inode ip.  If there is no such block, bmap
allocates one. -/
def bmap (ip : Fin NINODE) (bn : Nat) : Sys Nat := do
  let s ← get
  if bn < NDIRECT then
    orBalloc sb ((s.inode ip).copy.addr bn) fun addr => setCopy ip (·.setAddr bn addr)
  else if bn - NDIRECT < NINDIRECT then do
    -- Load indirect block, allocating if necessary.
    let addr ← orBalloc sb ((s.inode ip).copy.addr NDIRECT) fun addr => setCopy ip (·.setAddr NDIRECT addr)
    if addr = 0 then pure 0
    else do
      let s ← get
      orBalloc sb (load s.disk (entryAddr addr (bn - NDIRECT)) 4) fun a =>
        modify fun s => s.setDisk (put s.disk (entryAddr addr (bn - NDIRECT)) 4 a)
  else throw .bmapOutOfRange

def itrunc (ip : Fin NINODE) : Sys Unit := do
  (List.range NDIRECT).forM fun i => do
    let s ← get
    let addr := (s.inode ip).copy.addr i
    if addr ≠ 0 then do
      bfree sb addr
      setCopy ip (·.setAddr i 0)
    else pure ()
  let s ← get
  let addr := (s.inode ip).copy.addr NDIRECT
  if addr ≠ 0 then do
    (List.range NINDIRECT).forM fun j => do
      let s ← get
      let a := load s.disk (entryAddr addr j) 4
      if a ≠ 0 then bfree sb a else pure ()
    bfree sb addr
    setCopy ip (·.setAddr NDIRECT 0)
  else pure ()
  setCopy ip fun d => { d with size := 0 }
  iupdate sb ip

/-- Drop a reference to an in-memory inode.  If that was the last reference and the inode has no links
to it, free the inode (and its content) on disk. -/
def iput (ip : Fin NINODE) : Sys Unit := do
  let s ← get
  if (s.inode ip).ref = 1 ∧ (s.inode ip).valid ∧ (s.inode ip).copy.nlink = 0 then
    if (s.inode ip).locked then throw .deadlock
    else do
      modify fun s => s.setInode ip { s.inode ip with locked := true }
      itrunc sb ip
      setCopy ip fun d => { d with type := 0 }
      iupdate sb ip
      modify fun s => s.setInode ip { s.inode ip with valid := false, locked := false, ref := (s.inode ip).ref - 1 }
  else modify fun s => s.setInode ip { s.inode ip with ref := (s.inode ip).ref - 1 }

def iunlockput (ip : Fin NINODE) : Sys Unit := do
  iunlock ip
  iput sb ip

/-! ## Inode content -/

/-- The loop of `readi`.  Every round reads at least one byte, so that `n` rounds are enough. -/
def readLoop (ip : Fin NINODE) : Nat → Nat → Nat → Sys (List UInt8)
  | 0, _, _ => pure []
  | k + 1, off, n =>
    if n = 0 then pure []
    else do
      let addr ← bmap sb ip (off / BSIZE)
      if addr = 0 then pure []
      else do
        let m := min n (BSIZE - off % BSIZE)
        let s ← get
        let rest ← readLoop ip k (off + m) (n - m)
        pure (bytes s.disk (addr * BSIZE + off % BSIZE) m ++ rest)

/-- The loop of `readi` for a destination of which the first `room` bytes can be written: whether all copies
succeed, and the bytes that are copied. -/
def readUserLoop (ip : Fin NINODE) : Nat → Nat → Nat → Nat → Sys (Bool × List UInt8)
  | 0, _, _, _ => pure (true, [])
  | k + 1, room, off, n =>
    if n = 0 then pure (true, [])
    else do
      let addr ← bmap sb ip (off / BSIZE)
      if addr = 0 then pure (true, [])
      else do
        let m := min n (BSIZE - off % BSIZE)
        let s ← get
        -- What is copied before the fault is there.
        if room < m then pure (false, bytes s.disk (addr * BSIZE + off % BSIZE) room)
        else do
          let rest ← readUserLoop ip k (room - m) (off + m) (n - m)
          pure (rest.1, bytes s.disk (addr * BSIZE + off % BSIZE) m ++ rest.2)

def readi (ip : Fin NINODE) (off n : Nat) : Sys (List UInt8) := do
  let s ← get
  let size := (s.inode ip).copy.size.toNat
  if size < off ∨ (off + n) % 2 ^ 32 < off then pure []
  else do
    let n := if size < off + n then size - off else n
    readLoop sb ip n off n

/-- The loop of `writei`; it returns how much it has written.  `src` is the part of the source that can
be read.  After a fault the block is not logged, but it shows the bytes until its buffer is reused. -/
def writeLoop (ip : Fin NINODE) : Nat → List UInt8 → Nat → Nat → Sys Nat
  | 0, _, _, _ => pure 0
  | k + 1, src, off, n =>
    if n = 0 then pure 0
    else do
      let addr ← bmap sb ip (off / BSIZE)
      if addr = 0 then pure 0
      else do
        let m := min n (BSIZE - off % BSIZE)
        -- What is copied before the fault stays in the buffer.
        modify fun s => s.setDisk (store s.disk (addr * BSIZE + off % BSIZE) (src.take m))
        if src.length < m then pure 0
        else do
          let rest ← writeLoop ip k (src.drop m) (off + m) (n - m)
          pure (m + rest)

def writei (ip : Fin NINODE) (src : List UInt8) (off n : Nat) : Sys Int := do
  let s ← get
  let size := (s.inode ip).copy.size.toNat
  if size < off ∨ (off + n) % 2 ^ 32 < off then pure (-1)
  else if MAXFILE * BSIZE < off + n then pure (-1)
  else do
    let tot ← writeLoop sb ip n src off n
    let s ← get
    if (s.inode ip).copy.size.toNat < off + tot then
      setCopy ip fun d => { d with size := UInt32.ofNat (off + tot) }
    else pure ()
    -- write the i-node back to disk even if the size didn't change
    iupdate sb ip
    pure tot

/-! ## Directories -/

def strncmp : Nat → List UInt8 → List UInt8 → Int
  | 0, _, _ => 0
  | n + 1, p, q =>
    if p.headD 0 ≠ 0 ∧ p.headD 0 = q.headD 0 then strncmp n p.tail q.tail
    else (p.headD 0).toNat - (q.headD 0).toNat

def strncpy : Nat → List UInt8 → List UInt8
  | 0, _ => []
  | n + 1, t => if t.headD 0 = 0 then List.replicate (n + 1) 0 else t.headD 0 :: strncpy n t.tail

def namecmp (s t : List UInt8) : Int := strncmp DIRSIZ s t

def sizeofDirent : Nat := 16

/-- `struct dirent`, as bytes. -/
def dirent (inum : Nat) (name : List UInt8) : List UInt8 := digits 2 inum ++ strncpy DIRSIZ name

def dot : List UInt8 := [46]
def dotdot : List UInt8 := [46, 46]

def direntInum (de : List UInt8) : Nat := number (de.take 2)

def direntName (de : List UInt8) : List UInt8 := de.drop 2

/-- The loop of `dirlookup`: the entry's inode number and offset. -/
def dirlookupLoop (dp : Fin NINODE) (name : List UInt8) : Nat → Nat → Sys (Option (Nat × Nat))
  | 0, _ => pure none
  | k + 1, off => do
    let s ← get
    if (s.inode dp).copy.size.toNat ≤ off then pure none
    else do
      let de ← readi sb dp off sizeofDirent
      if de.length ≠ sizeofDirent then throw .dirlookupRead
      else if direntInum de ≠ 0 ∧ namecmp name (direntName de) = 0 then
        pure (some (direntInum de, off))
      else dirlookupLoop dp name k (off + sizeofDirent)

/-- How many entries fit below the end of the directory. -/
def rounds (s : State) (dp : Fin NINODE) : Nat := (s.inode dp).copy.size.toNat / sizeofDirent + 1

def dirlookup (dp : Fin NINODE) (name : List UInt8) : Sys (Option (Fin NINODE × Nat)) := do
  let s ← get
  if (s.inode dp).copy.type ≠ T_DIR then throw .dirlookupNotDir
  else do
    let found ← dirlookupLoop sb dp name (rounds s dp) 0
    match found with
    | none => pure none
    | some (inum, off) => do
      let ip ← iget inum
      pure (some (ip, off))

/-! ## Paths -/

def slash : UInt8 := 47

/-- Copy the next path element from path into name, and return the path after it.  A path ends where
the list ends, or at a NUL before. -/
def skipelem (path : List UInt8) : Option (List UInt8 × List UInt8) :=
  let path := path.dropWhile (· = slash)
  if path.headD 0 = 0 then none
  else
    let elem := path.takeWhile fun c => c ≠ slash ∧ c ≠ 0
    let rest := path.dropWhile fun c => c ≠ slash ∧ c ≠ 0
    some (elem.take DIRSIZ, rest.dropWhile (· = slash))

/-- The loop of `namex`.  Every round takes an element off the path, so that as many rounds as the path
has characters, and one more, are enough. -/
def namexLoop (parent : Bool) : Nat → Fin NINODE → List UInt8 → List UInt8 → Sys (Option (Fin NINODE × List UInt8))
  | 0, _, _, _ => pure none
  | k + 1, ip, path, name =>
    match skipelem path with
    | none =>
      if parent then do
        iput sb ip
        pure none
      else pure (some (ip, name))
    | some (name, path) => do
      ilock sb ip
      let s ← get
      if (s.inode ip).copy.type ≠ T_DIR then do
        iunlockput sb ip
        pure none
      else if parent ∧ path.headD 0 = 0 then do
        -- Stop one level early.
        iunlock ip
        pure (some (ip, name))
      else do
        let next ← dirlookup sb ip name
        match next with
        | none => do
          iunlockput sb ip
          pure none
        | some (next, _) => do
          iunlockput sb ip
          namexLoop parent k next path name

/-- Look up and return the inode for a path name, or the inode for the parent and the final path
element. -/
def namex (p : Fin NPROC) (path : List UInt8) (parent : Bool) : Sys (Option (Fin NINODE × List UInt8)) := do
  let s ← get
  if path.headD 0 = slash then do
    let ip ← iget ROOTINO
    namexLoop sb parent (path.length + 1) ip path []
  else
    match (s.proc p).cwd with
    | none => throw .kerneltrap
    | some ip => do
      idup ip
      namexLoop sb parent (path.length + 1) ip path []

def namei (p : Fin NPROC) (path : List UInt8) : Sys (Option (Fin NINODE)) := do
  let r ← namex sb p path false
  pure (r.map Prod.fst)

/-- `max` of `filewrite` -/
def maxWrite : Nat := (MAXOPBLOCKS - 1 - 1 - 2) / 2 * BSIZE

end Xv6.Fs
