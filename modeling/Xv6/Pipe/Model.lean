import Mathlib.Logic.Function.Basic
import Xv6.Lib.Ring
import Xv6.Lib.Runs
import Xv6.Proc.Sleep

/-!
# Pipes

One pipe of `kernel/pipe.c` and the processes that use it.  `pi->lock` is part of the state, so that a writer or
reader can be met between any two bytes, by a `kill` in particular: `killed` is protected by `p->lock`.  What
`copyin` finds in the user's memory, and whether `copyout` succeeds, is part of the action.
-/

namespace Xv6.Pipes

open Function Runs

def PIPESIZE : Nat := 512

instance : NeZero PIPESIZE := ⟨by decide⟩

/-- `struct pipe`, less its lock. -/
structure Pipe where
  data : Fin PIPESIZE → UInt8
  nread : BitVec 32
  nwrite : BitVec 32
  readopen : Bool
  writeopen : Bool

def Pipe.isEmpty (pi : Pipe) : Prop := pi.nread = pi.nwrite

def Pipe.isFull (pi : Pipe) : Prop := pi.nwrite = pi.nread + BitVec.ofNat 32 PIPESIZE

instance (pi : Pipe) : Decidable pi.isEmpty := inferInstanceAs (Decidable (_ = _))

instance (pi : Pipe) : Decidable pi.isFull := inferInstanceAs (Decidable (_ = _))

def Pipe.store (pi : Pipe) (ch : UInt8) : Pipe :=
  { pi with data := update pi.data (Ring.cell PIPESIZE pi.nwrite) ch
            nwrite := pi.nwrite + 1 }

def Pipe.next (pi : Pipe) : UInt8 := pi.data (Ring.cell PIPESIZE pi.nread)

/-- The addresses that pipe code sleeps on. -/
inductive Chan where
  | nread
  | nwrite
  deriving DecidableEq, Repr

/-- Where a process is.  `n` and `i` are the variables of the call.  `fresh` is not a variable of the
code: it says whether the process has stored a byte since it last called `wakeup(&pi->nread)` or
took the lock. -/
inductive Pc where
  | user
  /-- `pipewrite`, before `i < n`. -/
  | writeTest (n : Int) (i : Nat) (fresh : Bool)
  /-- `pipewrite`, before `copyin`. -/
  | writeByte (n : Int) (i : Nat) (fresh : Bool)
  /-- `pipewrite`, before `sleep`. -/
  | writeMark (n : Int) (i : Nat)
  /-- `pipewrite`, in `sleep`, without the lock. -/
  | writeSleep (n : Int) (i : Nat)
  /-- `piperead`, before the test for an empty pipe. -/
  | readTest (n : Int)
  /-- `piperead`, before `sleep`. -/
  | readMark (n : Int)
  /-- `piperead`, in `sleep`, without the lock. -/
  | readSleep (n : Int)
  /-- `piperead`, before `i < n`. -/
  | readCopy (n : Int) (i : Nat)
  deriving DecidableEq, Repr

structure State where
  lock : Option (Fin NPROC)
  pipe : Pipe
  proc : Fin NPROC → Thread Chan Pc

/-- After `pipealloc`; the page that `kalloc` returned has any contents. -/
structure Fresh (s : State) : Prop where
  lock : s.lock = none
  nread : s.pipe.nread = 0
  nwrite : s.pipe.nwrite = 0
  readopen : s.pipe.readopen = true
  writeopen : s.pipe.writeopen = true
  proc : ∀ p, s.proc p = { state := .running, chan := none, killed := false, pc := .user }

inductive Act where
  | pipewrite (p : Fin NPROC) (n : Int)
  | piperead (p : Fin NPROC) (n : Int)
  | pipeclose (p : Fin NPROC) (writable : Bool)
  | advance (p : Fin NPROC)
  /-- `copyin` and the rest of the round; it finds this byte, or fails. -/
  | copyin (p : Fin NPROC) (ch : Option UInt8)
  /-- `copyout` and the rest of the round. -/
  | copyout (p : Fin NPROC) (copied : Bool)
  | kill (p : Fin NPROC)
  deriving DecidableEq, Repr

def Act.proc : Act → Fin NPROC
  | .pipewrite p _ | .piperead p _ | .pipeclose p _ | .advance p | .copyin p _ | .copyout p _
  | .kill p => p

inductive Ret where
  | none
  | stored (ch : UInt8)
  | delivered (ch : UInt8)
  | value (r : Int)
  deriving DecidableEq, Repr

abbrev Event := Act × Ret

def State.goto (s : State) (p : Fin NPROC) (pc : Pc) : State :=
  { s with proc := update s.proc p { s.proc p with pc := pc } }

def State.setPipe (s : State) (pi : Pipe) : State := { s with pipe := pi }

def State.wakeup (s : State) (p : Fin NPROC) (chan : Chan) : State := { s with proc := Xv6.wakeup p chan s.proc }

/-- `acquire(&pi->lock)`, with the process running from here on. -/
def State.take (s : State) (p : Fin NPROC) (pc : Pc) : State :=
  { s with lock := some p, proc := update s.proc p ((s.proc p).resume pc) }

def State.release (s : State) : State := { s with lock := none }

def State.kill (s : State) (p : Fin NPROC) : State := { s with proc := update s.proc p (s.proc p).kill }

/-- `sleep(chan, &pi->lock)`, up to where the process is off the CPU. -/
def State.sleep (s : State) (p : Fin NPROC) (chan : Chan) (pc : Pc) : State :=
  { s with lock := none, proc := update s.proc p ((s.proc p).sleep chan pc) }

def acquire (s : State) (p : Fin NPROC) (pc : Pc) : Option (State × Ret) :=
  -- Once both ends are closed the page is free and full of junk: nobody gets the lock any more.
  if (s.proc p).state ≠ .sleeping ∧ s.lock = .none ∧ (s.pipe.readopen ∨ s.pipe.writeopen) then
    some (s.take p pc, .none)
  else none

def leave (s : State) (p : Fin NPROC) (r : Int) : State × Ret := (s.release.goto p .user, .value r)

/-- The end of `pipewrite`, after its loop. -/
def writeDone (s : State) (p : Fin NPROC) (i : Int) : State × Ret := leave (s.wakeup p .nread) p i

/-- The end of `piperead`, after its second loop. -/
def readDone (s : State) (p : Fin NPROC) (i : Int) : State × Ret := leave (s.wakeup p .nwrite) p i

/-- `pipewrite`, from `i < n` to the next `copyin` or `sleep`. -/
def writeTest (s : State) (p : Fin NPROC) (n : Int) (i : Nat) (fresh : Bool) : State × Ret :=
  if i < n then
    if s.pipe.readopen = false ∨ (s.proc p).killed then leave s p (-1)
    else if s.pipe.isFull then ((s.wakeup p .nread).goto p (.writeMark n i), .none)
    else (s.goto p (.writeByte n i fresh), .none)
  else writeDone s p i

/-- `piperead`, from the test for an empty pipe to `sleep` or to the second loop. -/
def readTest (s : State) (p : Fin NPROC) (n : Int) : State × Ret :=
  if s.pipe.isEmpty ∧ s.pipe.writeopen then
    if (s.proc p).killed then leave s p (-1) else (s.goto p (.readMark n), .none)
  else (s.goto p (.readCopy n 0), .none)

/-- `pipewrite`, from `copyin` to the next round. -/
def writeByte (s : State) (p : Fin NPROC) (n : Int) (i : Nat) : Option UInt8 → State × Ret
  | some ch => ((s.setPipe (s.pipe.store ch)).goto p (.writeTest n (i + 1) true), .stored ch)
  | none => writeDone s p i

/-- `piperead`, from `copyout` to the next round. -/
def readByte (s : State) (p : Fin NPROC) (n : Int) (i : Nat) (copied : Bool) : State × Ret :=
  if copied then
    ((s.setPipe { s.pipe with nread := s.pipe.nread + 1 }).goto p (.readCopy n (i + 1)), .delivered s.pipe.next)
  else readDone s p (if i = 0 then -1 else i)

def moreToRead (s : State) (n : Int) (i : Nat) : Prop := i < n ∧ ¬ s.pipe.isEmpty

instance (s : State) (n : Int) (i : Nat) : Decidable (moreToRead s n i) :=
  inferInstanceAs (Decidable (_ ∧ _))

/-- `pipeclose` between `acquire` and `release`. -/
def pipeclose (s : State) (p : Fin NPROC) (writable : Bool) : State :=
  if writable then (s.setPipe { s.pipe with writeopen := false }).wakeup p .nread
  else (s.setPipe { s.pipe with readopen := false }).wakeup p .nwrite

def advance (s : State) (p : Fin NPROC) : Option (State × Ret) :=
  match (s.proc p).pc with
  | .writeTest n i fresh => some (writeTest s p n i fresh)
  | .writeMark n i => some (s.sleep p .nwrite (.writeSleep n i), .none)
  | .writeSleep n i => acquire s p (.writeTest n i false)
  | .readTest n => some (readTest s p n)
  | .readMark n => some (s.sleep p .nread (.readSleep n), .none)
  | .readSleep n => acquire s p (.readTest n)
  | .readCopy n i => if moreToRead s n i then none else some (readDone s p i)
  | .user | .writeByte _ _ _ => none

def exec (s : State) : Act → Option (State × Ret)
  | .pipewrite p n =>
    if (s.proc p).pc = .user then acquire s p (.writeTest n 0 false) else none
  | .piperead p n => if (s.proc p).pc = .user then acquire s p (.readTest n) else none
  | .pipeclose p writable =>
    if (s.proc p).pc = .user ∧ s.lock = .none ∧ (s.pipe.readopen ∨ s.pipe.writeopen) then
      some (pipeclose s p writable, .none)
    else none
  | .advance p => advance s p
  | .copyin p ch =>
    match (s.proc p).pc with
    | .writeByte n i _ => some (writeByte s p n i ch)
    | _ => none
  | .copyout p copied =>
    match (s.proc p).pc with
    | .readCopy n i => if moreToRead s n i then some (readByte s p n i copied) else none
    | _ => none
  | .kill p => some (s.kill p, .none)

abbrev Step : State → Event → State → Prop := Exec exec

def State.asleep (s : State) (p : Fin NPROC) (chan : Chan) : Prop :=
  (s.proc p).state = .sleeping ∧ (s.proc p).chan = some chan

instance (s : State) (p : Fin NPROC) (chan : Chan) : Decidable (s.asleep p chan) :=
  inferInstanceAs (Decidable (_ ∧ _))

def Pc.holdsLock : Pc → Bool
  | .writeTest _ _ _ | .writeByte _ _ _ | .writeMark _ _ | .readTest _ | .readMark _
  | .readCopy _ _ => true
  | .user | .writeSleep _ _ | .readSleep _ => false

/-! ## The small changes of the state, field by field -/

section Fields

variable {s : State} {pi : Pipe} {p q : Fin NPROC} {pc : Pc} {chan c : Chan}

@[simp] theorem goto_lock : (s.goto p pc).lock = s.lock := rfl
@[simp] theorem goto_pipe : (s.goto p pc).pipe = s.pipe := rfl
@[simp] theorem goto_pc : ((s.goto p pc).proc q).pc = if q = p then pc else (s.proc q).pc := by
  by_cases hq : q = p <;> simp [State.goto, hq]
@[simp] theorem goto_killed : ((s.goto p pc).proc q).killed = (s.proc q).killed := by
  by_cases hq : q = p <;> simp [State.goto, hq]
@[simp] theorem goto_asleep : (s.goto p pc).asleep q c ↔ s.asleep q c := by
  by_cases hq : q = p <;> simp [State.goto, State.asleep, hq]

@[simp] theorem setPipe_lock : (s.setPipe pi).lock = s.lock := rfl
@[simp] theorem setPipe_pipe : (s.setPipe pi).pipe = pi := rfl
@[simp] theorem setPipe_proc : (s.setPipe pi).proc = s.proc := rfl
@[simp] theorem setPipe_asleep : (s.setPipe pi).asleep q c ↔ s.asleep q c := Iff.rfl

@[simp] theorem release_proc : s.release.proc = s.proc := rfl
@[simp] theorem release_asleep : s.release.asleep q c ↔ s.asleep q c := Iff.rfl

@[simp] theorem wakeup_lock : (s.wakeup p chan).lock = s.lock := rfl
@[simp] theorem wakeup_pipe : (s.wakeup p chan).pipe = s.pipe := rfl
@[simp] theorem wakeup_proc_pc : ((s.wakeup p chan).proc q).pc = (s.proc q).pc := wakeup_pc p chan s.proc q
@[simp] theorem wakeup_proc_killed : ((s.wakeup p chan).proc q).killed = (s.proc q).killed := by
  unfold State.wakeup Xv6.wakeup
  dsimp only
  split
  · rfl
  · exact Thread.wake_killed _ _
@[simp] theorem wakeup_asleep : (s.wakeup p chan).asleep q c ↔ s.asleep q c ∧ (q = p ∨ c ≠ chan) := by
  unfold State.asleep State.wakeup Xv6.wakeup
  by_cases hq : q = p
  · simp [hq]
  · unfold Thread.wake
    grind

@[simp] theorem take_lock : (s.take p pc).lock = some p := rfl
@[simp] theorem take_pipe : (s.take p pc).pipe = s.pipe := rfl
@[simp] theorem take_pc : ((s.take p pc).proc q).pc = if q = p then pc else (s.proc q).pc := by
  by_cases hq : q = p <;> simp [State.take, Thread.resume, hq]
@[simp] theorem take_killed : ((s.take p pc).proc q).killed = (s.proc q).killed := by
  by_cases hq : q = p <;> simp [State.take, Thread.resume, hq]
@[simp] theorem take_asleep : (s.take p pc).asleep q c ↔ q ≠ p ∧ s.asleep q c := by
  by_cases hq : q = p <;> simp [State.take, State.asleep, Thread.resume, hq]

@[simp] theorem sleep_pc : ((s.sleep p chan pc).proc q).pc = if q = p then pc else (s.proc q).pc := by
  by_cases hq : q = p <;> simp [State.sleep, Thread.sleep, hq]
@[simp] theorem sleep_killed : ((s.sleep p chan pc).proc q).killed = (s.proc q).killed := by
  by_cases hq : q = p <;> simp [State.sleep, Thread.sleep, hq]
@[simp] theorem sleep_asleep : (s.sleep p chan pc).asleep q c ↔ if q = p then c = chan else s.asleep q c := by
  by_cases hq : q = p <;> simp [State.sleep, State.asleep, Thread.sleep, hq, eq_comm]

@[simp] theorem kill_lock : (s.kill p).lock = s.lock := rfl
@[simp] theorem kill_pipe : (s.kill p).pipe = s.pipe := rfl
@[simp] theorem kill_pc : ((s.kill p).proc q).pc = (s.proc q).pc := by
  by_cases hq : q = p <;> simp [State.kill, Thread.kill, hq]
@[simp] theorem kill_killed : ((s.kill p).proc q).killed = if q = p then true else (s.proc q).killed := by
  by_cases hq : q = p <;> simp [State.kill, Thread.kill, hq]
@[simp] theorem kill_asleep : (s.kill p).asleep q c ↔ q ≠ p ∧ s.asleep q c := by
  unfold State.kill State.asleep
  by_cases hq : q = p
  · simp only [hq, update_self, Thread.kill]
    grind
  · simp [hq]

end Fields

/-! ## What a step can do -/

/-- The transitions of process `p`, each with what it is conditional on. -/
inductive Moved (s : State) (a : Act) (p : Fin NPROC) : Ret → State → Prop
  | acquire (pc : Pc) (free : s.lock = none) (out : (s.proc p).pc.holdsLock = false)
      (start : (∃ n i, pc = .writeTest n i false) ∨ ∃ n, pc = .readTest n) :
      Moved s a p .none (s.take p pc)
  | writeGiveUp (n : Int) (i : Nat) (fresh : Bool)
      (pc : (s.proc p).pc = .writeTest n i fresh)
      (why : s.pipe.readopen = false ∨ (s.proc p).killed = true) :
      Moved s a p (.value (-1)) (s.release.goto p .user)
  | writeFull (n : Int) (i : Nat) (fresh : Bool)
      (pc : (s.proc p).pc = .writeTest n i fresh) (readopen : s.pipe.readopen = true)
      (full : s.pipe.isFull) : Moved s a p .none ((s.wakeup p .nread).goto p (.writeMark n i))
  | writeRoom (n : Int) (i : Nat) (fresh : Bool)
      (pc : (s.proc p).pc = .writeTest n i fresh) (readopen : s.pipe.readopen = true)
      (unkilled : (s.proc p).killed = false) (room : ¬ s.pipe.isFull) :
      Moved s a p .none (s.goto p (.writeByte n i fresh))
  | store (n : Int) (i : Nat) (fresh : Bool) (ch : UInt8)
      (pc : (s.proc p).pc = .writeByte n i fresh) :
      Moved s a p (.stored ch) ((s.setPipe (s.pipe.store ch)).goto p (.writeTest n (i + 1) true))
  | writeDone (n : Int) (i : Nat) (fresh : Bool)
      (pc : (s.proc p).pc = .writeTest n i fresh ∨ (s.proc p).pc = .writeByte n i fresh) :
      Moved s a p (.value i) ((s.wakeup p .nread).release.goto p .user)
  | writeSleep (n : Int) (i : Nat) (pc : (s.proc p).pc = .writeMark n i) :
      Moved s a p .none (s.sleep p .nwrite (.writeSleep n i))
  | readGiveUp (n : Int) (pc : (s.proc p).pc = .readTest n) :
      Moved s a p (.value (-1)) (s.release.goto p .user)
  | readEmpty (n : Int) (pc : (s.proc p).pc = .readTest n)
      (empty : s.pipe.isEmpty) (writeopen : s.pipe.writeopen = true) :
      Moved s a p .none (s.goto p (.readMark n))
  | readReady (n : Int) (pc : (s.proc p).pc = .readTest n)
      (ready : s.pipe.isEmpty → s.pipe.writeopen = false) :
      Moved s a p .none (s.goto p (.readCopy n 0))
  | readSleep (n : Int) (pc : (s.proc p).pc = .readMark n) :
      Moved s a p .none (s.sleep p .nread (.readSleep n))
  | deliver (n : Int) (i : Nat) (pc : (s.proc p).pc = .readCopy n i)
      (more : ¬ s.pipe.isEmpty) :
      Moved s a p (.delivered s.pipe.next)
        ((s.setPipe { s.pipe with nread := s.pipe.nread + 1 }).goto p (.readCopy n (i + 1)))
  | readDone (n : Int) (i : Nat) (r : Int) (pc : (s.proc p).pc = .readCopy n i)
      (why : (r = i ∧ ¬ moreToRead s n i) ∨ r = if i = 0 then -1 else (i : Int)) :
      Moved s a p (.value r) ((s.wakeup p .nwrite).release.goto p .user)
  | pipeclose (writable : Bool) (free : s.lock = none)
      (user : (s.proc p).pc = .user) :
      Moved s a p .none (Pipes.pipeclose s p writable)
  | kill (act : a = .kill p) : Moved s a p .none (s.kill p)

section Moved

variable {s s' : State} {p : Fin NPROC} {a : Act} {r : Ret}

theorem acquire_moved {pc : Pc} (h : acquire s p pc = some (s', r)) (hout : (s.proc p).pc.holdsLock = false)
    (hstart : (∃ n i, pc = .writeTest n i false) ∨ ∃ n, pc = .readTest n) : Moved s a p r s' := by
  obtain ⟨hfree, ⟨⟩⟩ := Option.ite_none_right_eq_some.mp h
  exact .acquire pc hfree.2.1 hout hstart

theorem writeTest_moved {n : Int} {i : Nat} {fresh : Bool} (hpc : (s.proc p).pc = .writeTest n i fresh) :
    Moved s a p (writeTest s p n i fresh).2 (writeTest s p n i fresh).1 := by
  unfold writeTest
  split
  · split
    · exact .writeGiveUp n i fresh hpc ‹_›
    rename_i hgo
    rw [not_or, Bool.not_eq_false, Bool.not_eq_true] at hgo
    split
    · exact .writeFull n i fresh hpc hgo.1 ‹_›
    · exact .writeRoom n i fresh hpc hgo.1 hgo.2 ‹_›
  · exact .writeDone n i fresh (.inl hpc)

theorem readTest_moved {n : Int} (hpc : (s.proc p).pc = .readTest n) :
    Moved s a p (readTest s p n).2 (readTest s p n).1 := by
  unfold readTest
  split
  · rename_i hempty
    split
    · exact .readGiveUp n hpc
    · exact .readEmpty n hpc hempty.1 hempty.2
  rename_i hready
  refine .readReady n hpc fun hempty => ?_
  rw [← Bool.not_eq_true]
  exact fun hopen => hready ⟨hempty, hopen⟩

theorem advance_moved (h : advance s p = some (s', r)) : Moved s a p r s' := by
  unfold advance at h
  split at h
  case h_1 n i fresh hpc =>
    have hmoved := writeTest_moved (a := a) hpc
    rw [Option.some.inj h] at hmoved
    exact hmoved
  case h_2 n i hpc =>
    cases h
    exact .writeSleep n i hpc
  case h_3 n i hpc => exact acquire_moved h (by rw [hpc]; rfl) (.inl ⟨n, i, rfl⟩)
  case h_4 n hpc =>
    have hmoved := readTest_moved (a := a) hpc
    rw [Option.some.inj h] at hmoved
    exact hmoved
  case h_5 n hpc =>
    cases h
    exact .readSleep n hpc
  case h_6 n hpc => exact acquire_moved h (by rw [hpc]; rfl) (.inr ⟨n, rfl⟩)
  case h_7 n i hpc =>
    split at h
    · cases h
    · cases h
      exact .readDone n i i hpc (.inl ⟨rfl, ‹_›⟩)
  case h_8 => cases h
  case h_9 => cases h

theorem step_moved (h : Step s (a, r) s') : Moved s a a.proc r s' := by
  cases a with
  | pipewrite p n =>
    obtain ⟨hpc, h⟩ := Option.ite_none_right_eq_some.mp h
    have hout : (s.proc p).pc.holdsLock = false := by rw [hpc]; rfl
    exact acquire_moved h hout (.inl ⟨n, 0, rfl⟩)
  | piperead p n =>
    obtain ⟨hpc, h⟩ := Option.ite_none_right_eq_some.mp h
    have hout : (s.proc p).pc.holdsLock = false := by rw [hpc]; rfl
    exact acquire_moved h hout (.inr ⟨n, rfl⟩)
  | pipeclose p writable =>
    obtain ⟨hfree, ⟨⟩⟩ := Option.ite_none_right_eq_some.mp h
    exact .pipeclose writable hfree.2.1 hfree.1
  | advance => exact advance_moved h
  | copyin p ch =>
    simp only [Step, Exec, exec] at h
    split at h
    · rename_i n i fresh hpc
      cases ch with
      | some ch =>
        cases h
        exact .store n i fresh ch hpc
      | none =>
        cases h
        exact .writeDone n i fresh (.inr hpc)
    · cases h
  | copyout p copied =>
    simp only [Step, Exec, exec] at h
    split at h
    · rename_i n i hpc
      obtain ⟨hmore, h⟩ := Option.ite_none_right_eq_some.mp h
      cases copied with
      | true =>
        cases h
        exact .deliver n i hpc hmore.2
      | false =>
        cases h
        exact .readDone n i _ hpc (.inr rfl)
    · cases h
  | kill =>
    cases h
    exact .kill rfl

end Moved

end Xv6.Pipes
