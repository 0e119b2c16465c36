import Xv6.Lib.Ring
import Xv6.Lib.Runs
import Xv6.Proc.Sleep

/-!
# The disk driver

`kernel/virtio_disk.c` after `virtio_disk_init`, with the disk.  `vdisk_lock` makes what the driver does between
taking the lock and giving it up one step; the interrupt handler is cut at every round of its loop.  The disk takes
chains from the avail ring in order and finishes them in any order, and moves the used index after it has written
the entry.  `β` are the buffers and `τ` the processes.
-/

namespace Xv6.Virtio

open Function Runs

def NUM : Nat := 8

instance : NeZero NUM := ⟨by decide⟩

def VRING_DESC_F_NEXT : BitVec 16 := 1
def VRING_DESC_F_WRITE : BitVec 16 := 2
def VIRTIO_BLK_T_IN : Nat := 0
def VIRTIO_BLK_T_OUT : Nat := 1

inductive Addr (β : Type) where
  | null
  | op (i : Nat)
  | data (b : β)
  | status (i : Nat)

structure VirtqDesc (β : Type) where
  addr : Addr β
  len : Nat
  flags : BitVec 16
  next : Nat

/-- `struct virtq_avail`, and `struct virtq_used` with the `id` of its entries. -/
structure Virtq where
  idx : BitVec 16
  ring : Fin NUM → Nat

structure VirtioBlkReq where
  type : Nat
  reserved : Nat
  sector : Nat
  deriving DecidableEq, Repr

structure Info (β : Type) where
  b : Option β
  status : UInt8

structure Request (β : Type) where
  b : β
  blockno : BitVec 32
  write : Bool
  deriving DecidableEq, Repr

abbrev Idx := Nat × Nat × Nat

/-- Where a process is in `virtio_disk_rw`. -/
inductive Pc (β : Type) where
  | idle
  /-- Before `acquire(&disk.vdisk_lock)`. -/
  | enter (r : Request β)
  /-- In `sleep(&disk.free[0], &disk.vdisk_lock)`. -/
  | starved (r : Request β)
  /-- In `sleep(b, &disk.vdisk_lock)`. -/
  | waiting (r : Request β) (idx : Idx)
  deriving DecidableEq, Repr

inductive Chan (β : Type) where
  | free
  | buf (b : β)
  deriving DecidableEq, Repr

structure State (β τ : Type) where
  desc : Nat → VirtqDesc β
  avail : Virtq
  used : Virtq
  free : Nat → Bool
  usedIdx : BitVec 16
  info : Nat → Info β
  ops : Nat → VirtioBlkReq
  disk : β → Bool
  /-- `virtio_disk_intr` is running, with the lock. -/
  intr : Bool
  proc : τ → Thread (Chan β) (Pc β)
  /-- How far the disk has looked in the avail ring. -/
  seen : BitVec 16
  /-- The chains that the disk is working on. -/
  taken : List Nat
  /-- The chain that it has just finished, before it moves the used index. -/
  answered : Option Nat

inductive Panic where
  | freeDesc1 | freeDesc2 | intrStatus
  /-- A store through `disk.info[id].b` when it is null. -/
  | nullBuf
  /-- The disk is given a chain that is not a request. -/
  | badChain
  /-- `free_chain` would not come to an end. -/
  | endless
  deriving DecidableEq, Repr

inductive Ret (β : Type) where
  | none
  /-- `virtio_disk_rw` has returned. -/
  | returned
  /-- The disk has done what the header says, to or from `b->data`. -/
  | served (op : VirtioBlkReq) (b : β)
  | panic (why : Panic)
  deriving DecidableEq, Repr

section Code

variable {β τ : Type} [DecidableEq β] [DecidableEq τ]

/-- `wakeup(chan)`; its caller is not asleep. -/
def State.wakeup (s : State β τ) (chan : Chan β) : State β τ := { s with proc := fun p => (s.proc p).wake chan }

/-! ## Descriptors -/

def allocDesc (s : State β τ) : Option (Nat × State β τ) :=
  ((List.range NUM).find? s.free).map fun i => (i, { s with free := update s.free i false })

def freeDesc (i : Nat) (s : State β τ) : Except Panic (State β τ) :=
  if NUM ≤ i then .error .freeDesc1
  else if s.free i then .error .freeDesc2
  else .ok (({ s with
    desc := update s.desc i { addr := .null, len := 0, flags := 0, next := 0 }
    free := update s.free i true } : State β τ).wakeup .free)

/-- The loop of `free_chain`.  It frees a descriptor in every round, so that there are at most `NUM + 1`. -/
def freeChain : Nat → Nat → State β τ → Except Panic (State β τ)
  | 0, _, _ => .error .endless
  | n + 1, i, s => do
    let flag := (s.desc i).flags
    let nxt := (s.desc i).next
    let s ← freeDesc i s
    if flag &&& VRING_DESC_F_NEXT ≠ 0 then freeChain n nxt s else pure s

def freeDescs : List Nat → State β τ → Except Panic (State β τ)
  | [], s => pure s
  | i :: idx, s => do
    let s ← freeDesc i s
    freeDescs idx s

def allocLoop : Nat → List Nat → State β τ → Except Panic (Option (List Nat) × State β τ)
  | 0, idx, s => pure (some idx, s)
  | n + 1, idx, s =>
    match allocDesc s with
    | some (i, s) => allocLoop n (idx ++ [i]) s
    | none => do
      let s ← freeDescs idx s
      pure (none, s)

def alloc3Desc (s : State β τ) : Except Panic (Option (List Nat) × State β τ) := allocLoop 3 [] s

/-! ## Requests -/

/-- What is put in `disk.ops`.  `b->blockno * (BSIZE / 512)` is computed with 32 bits. -/
def Request.op (r : Request β) : VirtioBlkReq where
  type := if r.write then VIRTIO_BLK_T_OUT else VIRTIO_BLK_T_IN
  reserved := 0
  sector := (r.blockno * 2).toNat

def Request.descs (r : Request β) (i j k : Nat) : VirtqDesc β × VirtqDesc β × VirtqDesc β :=
  ({ addr := .op i, len := 16, flags := VRING_DESC_F_NEXT, next := j },
    { addr := .data r.b, len := 1024, flags := (if r.write then 0 else VRING_DESC_F_WRITE) ||| VRING_DESC_F_NEXT, next := k },
    { addr := .status i, len := 1, flags := VRING_DESC_F_WRITE, next := 0 })

def submit (r : Request β) (i j k : Nat) (s : State β τ) : State β τ :=
  let d := r.descs i j k
  { s with
    ops := update s.ops i r.op
    desc := update (update (update s.desc i d.1) j d.2.1) k d.2.2
    info := update s.info i { b := some r.b, status := 0xff }
    disk := update s.disk r.b true
    avail := { idx := s.avail.idx + 1, ring := update s.avail.ring (Ring.cell NUM s.avail.idx) i } }

def State.setThread (s : State β τ) (p : τ) (th : Thread (Chan β) (Pc β)) : State β τ :=
  { s with proc := update s.proc p th }

def await (p : τ) (r : Request β) (idx : Idx) (s : State β τ) : Except Panic (State β τ × Ret β) :=
  if s.disk r.b then pure (s.setThread p ((s.proc p).sleep (.buf r.b) (.waiting r idx)), .none)
  else do
    let s := { s with info := update s.info idx.1 { s.info idx.1 with b := none } }
    let s ← freeChain (NUM + 1) idx.1 s
    pure (s.setThread p ((s.proc p).resume .idle), .returned)

/-- From `alloc3_desc` on. -/
def start (p : τ) (r : Request β) (s : State β τ) : Except Panic (State β τ × Ret β) := do
  let (idx, s) ← alloc3Desc s
  match idx with
  | some [i, j, k] => await p r (i, j, k) (submit r i j k s)
  | _ => pure (s.setThread p ((s.proc p).sleep .free (.starved r)), .none)

def handle (s : State β τ) : Except Panic (State β τ × Ret β) :=
  let id := s.used.ring (Ring.cell NUM s.usedIdx)
  if (s.info id).status ≠ 0 then .error .intrStatus
  else
    match (s.info id).b with
    | none => .error .nullBuf
    | some b =>
      pure (({ s with disk := update s.disk b false, usedIdx := s.usedIdx + 1 } : State β τ).wakeup (.buf b), .none)

/-! ## The disk -/

/-- The disk writes the status, which is in `disk.info[i]`, and the entry of the used ring. -/
def State.finish (s : State β τ) (head i : Nat) : State β τ :=
  { s with
    info := update s.info i { s.info i with status := 0 }
    used := { s.used with ring := update s.used.ring (Ring.cell NUM s.used.idx) head }
    taken := s.taken.erase head
    answered := some head }

def answer (head : Nat) (s : State β τ) : Except Panic (State β τ × Ret β) :=
  let data := (s.desc head).next
  let last := (s.desc data).next
  match (s.desc head).addr, (s.desc data).addr, (s.desc last).addr with
  | .op i, .data b, .status j => pure (s.finish head j, .served (s.ops i) b)
  | _, _, _ => .error .badChain

/-! ## The transition system -/

inductive Act (β τ : Type) where
  | call (p : τ) (r : Request β)
  /-- The process gets the lock, and looks for descriptors. -/
  | start (p : τ)
  /-- The process gets the lock again, and looks at `b->disk`. -/
  | resume (p : τ)
  | kill (p : τ)
  /-- The interrupt handler gets the lock. -/
  | intr
  | handle
  | take
  | answer (head : Nat)
  | publish
  deriving DecidableEq, Repr

abbrev Event (β τ : Type) := Act β τ × Ret β

/-- A panic leaves the machine as it is. -/
def State.outcome (s : State β τ) : Except Panic (State β τ × Ret β) → Option (State β τ × Ret β)
  | .ok r => some r
  | .error e => some (s, .panic e)

def exec (s : State β τ) : Act β τ → Option (State β τ × Ret β)
  | .call p r =>
    if (s.proc p).pc = .idle then some (s.setThread p { s.proc p with pc := .enter r }, .none) else none
  | .start p =>
    match (s.proc p).pc with
    | .enter r => if s.intr then none else s.outcome (start p r s)
    | .starved r => if s.intr ∨ (s.proc p).state = .sleeping then none else s.outcome (start p r s)
    | _ => none
  | .resume p =>
    match (s.proc p).pc with
    | .waiting r idx => if s.intr ∨ (s.proc p).state = .sleeping then none else s.outcome (await p r idx s)
    | _ => none
  | .kill p => some (s.setThread p (s.proc p).kill, .none)
  | .intr => if s.intr then none else some ({ s with intr := true }, .none)
  | .handle =>
    if s.intr then
      if s.usedIdx = s.used.idx then some ({ s with intr := false }, .none) else s.outcome (handle s)
    else none
  | .take =>
    if s.seen = s.avail.idx then none
    else
      some ({ s with seen := s.seen + 1, taken := s.taken ++ [s.avail.ring (Ring.cell NUM s.seen)] }, .none)
  | .answer head => if head ∈ s.taken ∧ s.answered = none then s.outcome (answer head s) else none
  | .publish =>
    if s.answered = none then none
    else some ({ s with used := { s.used with idx := s.used.idx + 1 }, answered := none }, .none)

abbrev Step : State β τ → Event β τ → State β τ → Prop := Exec exec

def boot : State β τ where
  desc := fun _ => { addr := .null, len := 0, flags := 0, next := 0 }
  avail := { idx := 0, ring := fun _ => 0 }
  used := { idx := 0, ring := fun _ => 0 }
  free := fun i => decide (i < NUM)
  usedIdx := 0
  info := fun _ => { b := none, status := 0 }
  ops := fun _ => { type := 0, reserved := 0, sector := 0 }
  disk := fun _ => false
  intr := false
  proc := fun _ => { state := .running, chan := none, killed := false, pc := .idle }
  seen := 0
  taken := []
  answered := none

end Code

end Xv6.Virtio
