import Xv6.Disk.Block
import Xv6.Lib.Cache
import Xv6.Lib.Links
import Xv6.Lib.Runs
import Xv6.Lib.Sums

/-!
# The buffer cache and its list

`kernel/bio.c`, with the list that `bget` searches in both directions and `brelse` splices.  A call is cut into
the parts between which other calls can run: `bget` up to its release of `bcache.lock`, `acquiresleep`, the rest
of `bread`, and in the same way `brelse`.  A panic ends the run.  The disk returns what was last written to it.
-/

namespace Xv6.Bcache

open Function Runs

abbrev Key : Type := UInt32 × UInt32

/-- `struct buf`, less its place in the list and the flag of the disk driver. -/
structure Buf where
  valid : Bool
  dev : UInt32
  blockno : UInt32
  locked : Bool
  pid : Nat
  refcnt : UInt32
  data : Block

def Buf.key (b : Buf) : Key := (b.dev, b.blockno)

/-- What the buffer holds of its block. -/
def Buf.contents (b : Buf) : Option Block := if b.valid then some b.data else none

def Buf.holdingsleep (b : Buf) (pid : Nat) : Bool := b.locked && b.pid == pid

/-- How far a process is between its `bread` and the end of its `brelse`. -/
inductive Stage where
  /-- In `acquiresleep`. -/
  | waiting
  /-- Before `b->valid` is looked at. -/
  | locked
  /-- `bread` has returned. -/
  | held
  /-- In `brelse`, after `releasesleep`. -/
  | leaving
  deriving DecidableEq, Repr

def Stage.owns : Stage → Bool
  | .locked | .held => true
  | .waiting | .leaving => false

structure Call where
  buf : Fin NBUF
  pid : Nat
  dev : UInt32
  blockno : UInt32
  stage : Stage

def Call.key (c : Call) : Key := (c.dev, c.blockno)

/-- `ι` names the calls. -/
structure State (ι : Type) where
  buf : Fin NBUF → Buf
  links : Links (Fin NBUF)
  calls : ι → Option Call
  /-- Calls of `bpin` without their `bunpin`. -/
  pins : Fin NBUF → Nat
  /-- The buffers that `bget` has returned. -/
  assigned : Fin NBUF → Bool
  disk : Key → Block

/-! ## The functions -/

def binit : Links (Fin NBUF) := (List.finRange NBUF).foldl Links.pushFront Links.alone

/-- `bget(dev, blockno)`, up to `acquiresleep`. -/
def bget (buf : Fin NBUF → Buf) (links : Links (Fin NBUF)) (dev blockno : UInt32) :
    Option (Fin NBUF × (Fin NBUF → Buf)) :=
  match Links.scan links.next (fun i => decide ((buf i).key = (dev, blockno))) NBUF (links.next none) with
  | some i => some (i, update buf i { buf i with refcnt := (buf i).refcnt + 1 })
  | none =>
    match Links.scan links.prev (fun i => decide ((buf i).refcnt = 0)) NBUF (links.prev none) with
    | some i =>
      some (i, update buf i { buf i with dev := dev, blockno := blockno, valid := false, refcnt := 1 })
    | none => none -- panic("bget: no buffers")

/-- The rest of `bread(dev, blockno)`. -/
def fill (b : Buf) (disk : Key → Block) : Buf :=
  if b.valid then b else { b with data := disk b.key, valid := true }

/-- The part of `brelse(b)` under `bcache.lock`. -/
def drop (buf : Fin NBUF → Buf) (links : Links (Fin NBUF)) (i : Fin NBUF) : (Fin NBUF → Buf) × Links (Fin NBUF) :=
  let b := { buf i with refcnt := (buf i).refcnt - 1 }
  (update buf i b, if b.refcnt = 0 then (links.unlink i).pushFront i else links)

/-! ## The transition system -/

section System

variable {ι : Type} [DecidableEq ι]

inductive Act (ι : Type) where
  | bget (h : ι) (pid : Nat) (dev blockno : UInt32)
  | acquiresleep (h : ι)
  | fill (h : ι)
  /-- The process changes the data of a buffer it holds. -/
  | modify (h : ι) (d : Block)
  | bwrite (h : ι)
  | releasesleep (h : ι)
  | drop (h : ι)
  | bpin (i : Fin NBUF)
  | bunpin (i : Fin NBUF)

inductive Ret where
  | none
  /-- One more reference or pin. -/
  | ref (k : Key)
  | unref (k : Key)
  /-- The data of the block, as `bread` returns it or a holder leaves it. -/
  | contents (k : Key) (d : Block)

abbrev Event (ι : Type) := Act ι × Ret

def State.setCall (s : State ι) (h : ι) (c : Option Call) : State ι := { s with calls := update s.calls h c }

def State.setBuf (s : State ι) (i : Fin NBUF) (b : Buf) : State ι := { s with buf := update s.buf i b }

def exec (s : State ι) : Act ι → Option (State ι × Ret)
  | .bget h pid dev blockno =>
    match s.calls h, bget s.buf s.links dev blockno with
    | none, some (i, buf) =>
      some
        ({ s with buf := buf, assigned := update s.assigned i true }.setCall h
          (some { buf := i, pid := pid, dev := dev, blockno := blockno, stage := .waiting }),
        .ref (dev, blockno))
    | _, _ => none
  | .acquiresleep h =>
    match s.calls h with
    | some c =>
      if c.stage = .waiting ∧ (s.buf c.buf).locked = false then
        some
          ((s.setBuf c.buf { s.buf c.buf with locked := true, pid := c.pid }).setCall h
            (some { c with stage := .locked }),
          .none)
      else none
    | none => none
  | .fill h =>
    match s.calls h with
    | some c =>
      if c.stage = .locked then
        let b := fill (s.buf c.buf) s.disk
        some ((s.setBuf c.buf b).setCall h (some { c with stage := .held }), .contents c.key b.data)
      else none
    | none => none
  | .modify h d =>
    match s.calls h with
    | some c =>
      if c.stage = .held then some (s.setBuf c.buf { s.buf c.buf with data := d }, .contents c.key d) else none
    | none => none
  | .bwrite h =>
    match s.calls h with
    | some c =>
      if c.stage = .held ∧ (s.buf c.buf).holdingsleep c.pid = true then
        some ({ s with disk := update s.disk (s.buf c.buf).key (s.buf c.buf).data }, .none)
      else none
    | none => none
  | .releasesleep h =>
    match s.calls h with
    | some c =>
      if c.stage = .held ∧ (s.buf c.buf).holdingsleep c.pid = true then
        some
          ((s.setBuf c.buf { s.buf c.buf with locked := false, pid := 0 }).setCall h
            (some { c with stage := .leaving }),
          .none)
      else none
    | none => none
  | .drop h =>
    match s.calls h with
    | some c =>
      if c.stage = .leaving then
        let r := drop s.buf s.links c.buf
        some ({ s with buf := r.1, links := r.2 }.setCall h none, .unref c.key)
      else none
    | none => none
  | .bpin i =>
    if s.assigned i then
      some
        ({ s.setBuf i { s.buf i with refcnt := (s.buf i).refcnt + 1 } with
            pins := update s.pins i (s.pins i + 1) },
        .ref (s.buf i).key)
    else none
  | .bunpin i =>
    if 0 < s.pins i then
      some
        ({ s.setBuf i { s.buf i with refcnt := (s.buf i).refcnt - 1 } with
            pins := update s.pins i (s.pins i - 1) },
        .unref (s.buf i).key)
    else none

variable (ι) in
abbrev Step : State ι → Event ι → State ι → Prop := Exec exec

omit [DecidableEq ι] in
def boot (disk : Key → Block) : State ι where
  buf _ := { valid := false, dev := 0, blockno := 0, locked := false, pid := 0, refcnt := 0, data := default }
  links := binit
  calls _ := none
  pins _ := 0
  assigned _ := false
  disk := disk

/-! ## What the cache is for -/

def Ret.use : Ret → Cache.Use Key Block → Cache.Use Key Block
  | .none, u => u
  | .ref k, u => u.ref k
  | .unref k, u => u.unref k
  | .contents k d, u => u.store k d

/-- What the users of the blocks know after a run. -/
def used (tr : List (Event ι)) : Cache.Use Key Block := tr.foldl (fun u ev => ev.2.use u) Cache.Use.start

/-- The list is one cycle, blocks have one buffer, and a buffer in use keeps its block. -/
def Ordered (step : State ι → Event ι → State ι → Prop) : Prop :=
  ∀ disk tr s, Run step (boot disk) tr s →
    (∃ lru : List (Fin NBUF), lru.Perm (List.finRange NBUF) ∧
      Links.Follows s.links.next none lru none ∧ Links.Follows s.links.prev none lru.reverse none) ∧
    (∀ i j, s.assigned i = true → s.assigned j = true → (s.buf i).key = (s.buf j).key → i = j) ∧
    ∀ i ev t, step s ev t → (s.buf i).refcnt ≠ 0 → (t.buf i).key = (s.buf i).key

/-- `bread` returns what is in memory since the block has come into use, or else, with the first user, something that
is `fresh`. -/
def Coherent (step : State ι → Event ι → State ι → Prop)
    (fresh : Cache.Use Key Block → (Key → Block) → Key → Block → Prop) : Prop :=
  Ordered step ∧ ∀ disk tr s, Run step (boot disk) tr s →
    ∀ h c ret t, s.calls h = some c → step s (.fill h, ret) t →
      (t.buf c.buf).key = c.key ∧
        match (used tr).mem c.key with
        | some x => (t.buf c.buf).data = x
        | none => fresh (used tr) s.disk c.key (t.buf c.buf).data

def OnDisk (_ : Cache.Use Key Block) (disk : Key → Block) (k : Key) (d : Block) : Prop := d = disk k

/-- The contents of the disk, or what the last users have left in the buffer. -/
def OnDiskOrLeft (u : Cache.Use Key Block) (disk : Key → Block) (k : Key) (d : Block) : Prop :=
  d = disk k ∨ u.last k = some d

end System

end Xv6.Bcache
