import Xv6.Disk.Bio
import Xv6.Lib.Runs
import Xv6.Lib.Writes

/-!
# The redo log

`kernel/log.c` over the buffer cache.  The functions of the source come first; then the machine that runs them:
processes use the buffers in any order, the last `end_op` commits, and at any point the machine may crash and start
over with recovery.  A commit and a recovery are cut into steps with at most one disk write each.
-/

namespace Xv6.Log

open Function Runs

/-- `struct log` with the cache it works on.  `lh` is the part of `log.lh.block` below `log.lh.n`. -/
structure LogState where
  bio : Bio
  dev : Nat
  start : Nat
  outstanding : Nat := 0
  committing : Bool := false
  lh : List Nat := []

/-! ## The header block -/

/-- `lh->n` is a signed integer: the copying loops do not run for a negative one. -/
def readHeader (d : Block) : List Nat :=
  if d.word 0 < 2 ^ 31 then (List.range (d.word 0)).map fun i => d.word (i + 1) else []

def setBlocks (d : Block) (i : Nat) : List Nat → Block
  | [] => d
  | b :: bs => setBlocks (d.setWord (i + 1) b) (i + 1) bs

/-- The words of the block beyond the logged ones stay as they are. -/
def writeHeader (d : Block) (lh : List Nat) : Block := setBlocks (d.setWord 0 lh.length) 0 lh

def readHead (s : LogState) : Except Panic LogState := do
  let (buf, c) ← s.bio.bread s.dev s.start
  .ok { s with lh := readHeader (c.buf buf).data, bio := c.brelse buf }

def writeHead (s : LogState) : Except Panic LogState := do
  let (buf, c) ← s.bio.bread s.dev s.start
  let c := (c.setData buf (writeHeader (c.buf buf).data s.lh)).bwrite buf
  .ok { s with bio := c.brelse buf }

/-! ## Commit and recovery -/

/-- The body of the loop of `write_log`. -/
def writeLogAt (s : LogState) (tail : Nat) : Except Panic LogState := do
  let (toBuf, c) ← s.bio.bread s.dev (s.start + tail + 1)
  let (fromBuf, c) ← c.bread s.dev (s.lh.getD tail 0)
  let c := (c.setData toBuf (c.buf fromBuf).data).bwrite toBuf
  .ok { s with bio := (c.brelse fromBuf).brelse toBuf }

/-- The body of the loop of `install_trans`. -/
def installAt (recovering : Bool) (s : LogState) (tail : Nat) : Except Panic LogState := do
  let (lbuf, c) ← s.bio.bread s.dev (s.start + tail + 1)
  let (dbuf, c) ← c.bread s.dev (s.lh.getD tail 0)
  let c := (c.setData dbuf (c.buf lbuf).data).bwrite dbuf
  let c := if recovering then c else c.bunpin dbuf
  .ok { s with bio := (c.brelse lbuf).brelse dbuf }

/-- `for (tail = …; tail < …; tail++) body`, with the number of rounds left. -/
def forTail (body : LogState → Nat → Except Panic LogState) : Nat → Nat → LogState → Except Panic LogState
  | _, 0, s => .ok s
  | tail, k + 1, s => do
      let s ← body s tail
      forTail body (tail + 1) k s

def writeLog (s : LogState) : Except Panic LogState := forTail writeLogAt 0 s.lh.length s

def installTrans (recovering : Bool) (s : LogState) : Except Panic LogState :=
  forTail (installAt recovering) 0 s.lh.length s

def commit (s : LogState) : Except Panic LogState :=
  if s.lh.length > 0 then do
    let s ← writeLog s
    let s ← writeHead s
    let s ← installTrans false s
    writeHead { s with lh := [] }
  else .ok s

def recoverFromLog (s : LogState) : Except Panic LogState := do
  let s ← readHead s
  let s ← installTrans true s
  writeHead { s with lh := [] }

/-! ## The calls of the file system -/

/-- One turn of the loop of `begin_op`: `none` is a process that goes to sleep. -/
def beginOp (s : LogState) : Option LogState :=
  if s.committing then none
  else if s.lh.length + (s.outstanding + 1) * MAXOPBLOCKS > LOGBLOCKS then none
  else some { s with outstanding := s.outstanding + 1 }

/-- `end_op` up to the commit, with `do_commit`. -/
def endOp (s : LogState) : Except Panic (LogState × Bool) :=
  let s := { s with outstanding := s.outstanding - 1 }
  if s.committing then .error .logCommitting
  else if s.outstanding = 0 then .ok ({ s with committing := true }, true)
  else .ok (s, false)

def logWrite (s : LogState) (b : Fin NBUF) : Except Panic LogState :=
  if s.lh.length ≥ LOGBLOCKS then .error .tooBigATransaction
  else if s.outstanding < 1 then .error .logWriteOutsideOfTrans
  else if (s.bio.buf b).blockno ∈ s.lh then .ok s
  else .ok { s with bio := s.bio.bpin b, lh := s.lh ++ [(s.bio.buf b).blockno] }

/-! ## The machine -/

/-- A process: whether it is between `begin_op` and `end_op`, and the distinct blocks that it has
logged since. -/
structure Op where
  active : Bool := false
  logged : List Nat := []

/-- How far the committing process, or the recovery code, has come. -/
inductive Phase
  | idle
  | writeLog (tail : Nat)
  | writeHead
  | install (tail : Nat)
  | clearHead
  | commitDone
  | readHead
  | recoverInstall (tail : Nat)
  | recoverClear
  | halted
  deriving DecidableEq, Repr

def Phase.running : Phase → Bool
  | .readHead | .recoverInstall _ | .recoverClear | .halted => false
  | _ => true

def Phase.committing : Phase → Bool
  | .writeLog _ | .writeHead | .install _ | .clearHead | .commitDone => true
  | _ => false

/-- `committed` is a history variable: all blocks as they were at the last commit. -/
structure State where
  log : LogState
  proc : Fin NPROC → Op := fun _ => {}
  phase : Phase
  committed : Nat → Block

inductive Act
  | beginOp (p : Fin NPROC)
  | bread (p : Fin NPROC) (blockno : Nat)
  | logWrite (p : Fin NPROC) (b : Fin NBUF) (data : Block)
  | brelse (p : Fin NPROC) (b : Fin NBUF)
  | endOp (p : Fin NPROC)
  | advance
  | crash

def Home (start b : Nat) : Prop := b < 2 ^ 32 ∧ (b < start ∨ start + LOGBLOCKS < b)

instance (start b : Nat) : Decidable (Home start b) := inferInstanceAs (Decidable (_ ∧ _))

def LogState.locked (s : LogState) (b : Nat) : Prop := ∃ i, (s.bio.buf i).isFor s.dev b ∧ (s.bio.buf i).holder ≠ none

instance (s : LogState) (b : Nat) : Decidable (s.locked b) :=
  inferInstanceAs (Decidable (∃ _, _ ∧ _))

/-- A result of the kernel's code: the next state, or a panic, after which nothing runs any more. -/
def State.settle (s : State) (next : LogState → State) : Except Panic LogState → State × Option Panic
  | .ok log => (next log, none)
  | .error m => ({ s with phase := .halted }, some m)

def State.restart (s : State) : State :=
  { log := { bio := .binit s.log.bio.disk, dev := s.log.dev, start := s.log.start }
    phase := .readHead, committed := s.committed }

def advance (s : State) : Option (State × Option Panic) :=
  match s.phase with
  | .idle | .halted => none
  | .writeLog tail =>
    if tail < s.log.lh.length then
      if s.log.locked (s.log.start + tail + 1) ∨ s.log.locked (s.log.lh.getD tail 0) then none
      else some (s.settle (fun log => { s with log := log, phase := .writeLog (tail + 1) }) (writeLogAt s.log tail))
    else some ({ s with phase := .writeHead }, none)
  | .writeHead =>
    if s.log.locked s.log.start then none
    else some (s.settle (fun log =>
        -- the true point at which the transaction commits
        { s with log := log, phase := .install 0, committed := s.log.bio.content s.log.dev })
      (Log.writeHead s.log))
  | .install tail =>
    if tail < s.log.lh.length then
      if s.log.locked (s.log.start + tail + 1) ∨ s.log.locked (s.log.lh.getD tail 0) then none
      else some (s.settle (fun log => { s with log := log, phase := .install (tail + 1) }) (installAt false s.log tail))
    else some ({ s with phase := .clearHead }, none)
  | .clearHead =>
    if s.log.locked s.log.start then none
    else some (s.settle (fun log => { s with log := log, phase := .commitDone })
      (Log.writeHead { s.log with lh := [] }))
  | .commitDone => some ({ s with log := { s.log with committing := false }, phase := .idle }, none)
  | .readHead =>
    some (s.settle (fun log => { s with log := log, phase := .recoverInstall 0 }) (Log.readHead s.log))
  | .recoverInstall tail =>
    if tail < s.log.lh.length then
      some (s.settle (fun log => { s with log := log, phase := .recoverInstall (tail + 1) })
        (installAt true s.log tail))
    else some ({ s with phase := .recoverClear }, none)
  | .recoverClear =>
    some (s.settle (fun log => { s with log := log, phase := .idle }) (Log.writeHead { s.log with lh := [] }))

/-- A process that has changed a block it holds logs it. -/
def State.logged (s : State) (p : Fin NPROC) (b : Nat) : Fin NPROC → Op :=
  update s.proc p { s.proc p with logged := (s.proc p).logged.insert b }

def exec (s : State) : Act → Option (State × Option Panic)
  | .beginOp p =>
    if s.phase.running ∧ ¬ (s.proc p).active then
      (Log.beginOp s.log).map fun log =>
        ({ s with log := log, proc := update s.proc p { active := true } }, none)
    else none
  | .bread p b =>
    if s.phase.running ∧ ¬ s.log.locked b then
      some (s.settle (fun log => { s with log := log }) (do
        let (i, c) ← s.log.bio.bread s.log.dev b
        .ok { s.log with bio := c.setHolder i (some p) }))
    else none
  | .logWrite p b data =>
    -- only a block outside the log is ever logged
    if s.phase.running ∧ (s.proc p).active ∧ (s.log.bio.buf b).holder = some p ∧
        Home s.log.start (s.log.bio.buf b).blockno then
      some (s.settle
        (fun log => { s with log := log, proc := s.logged p (s.log.bio.buf b).blockno })
        (Log.logWrite { s.log with bio := s.log.bio.setData b data } b))
    else none
  | .brelse p b =>
    if s.phase.running ∧ (s.log.bio.buf b).holder = some p then
      some ({ s with log := { s.log with bio := (s.log.bio.setHolder b none).brelse b } }, none)
    else none
  | .endOp p =>
    if s.phase.running ∧ (s.proc p).active then
      match Log.endOp s.log with
      | .ok (log, doCommit) =>
        some ({ s with
          log := log, proc := update s.proc p {}
          phase := if doCommit then (if log.lh.length > 0 then .writeLog 0 else .commitDone)
            else s.phase }, none)
      | .error m => some ({ s with phase := .halted }, some m)
    else none
  | .advance => advance s
  | .crash => some (s.restart, none)

abbrev Event := Act × Option Panic

def Step : State → Event → State → Prop := Exec exec

/-! ## Starting up -/

/-- The writes that the log on a disk stands for. -/
def loggedWrites (start : Nat) (disk : Nat → Block) : List (Nat × Block) :=
  (readHeader (disk start)).zipIdx.map fun w => (w.1, disk (start + w.2 + 1))

/-- What recovery is to make of a disk. -/
def recovered (start : Nat) (disk : Nat → Block) : Nat → Block := Writes.replay (loggedWrites start disk) disk

/-- A disk whose log header is in order. -/
def HeaderOk (start : Nat) (disk : Nat → Block) : Prop :=
  (readHeader (disk start)).length ≤ LOGBLOCKS ∧ ∀ b ∈ readHeader (disk start), Home start b

def boot (dev start : Nat) (disk : Nat → Block) : State :=
  { log := { bio := .binit disk, dev := dev, start := start }
    phase := .readHead, committed := recovered start disk }

def Booted (s : State) : Prop := ∃ dev start disk, dev ≠ 0 ∧ HeaderOk start disk ∧ s = boot dev start disk

end Xv6.Log
