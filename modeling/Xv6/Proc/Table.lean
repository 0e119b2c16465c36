import Mathlib.Data.List.FinRange
import Xv6.Lib.Runs
import Xv6.Proc.Sleep

/-!
# The process table

Processes as `kernel/proc.c`, `kernel/sysproc.c` and `usertrap` of `kernel/trap.c` handle them: who is allocated, who
is whose parent, who has been killed and which signals are pending.  A process enters the kernel by a trap, runs one
system call there, and leaves through the end of `usertrap`; its `pc` says how far it is.  `kfork` is cut where it
gives up the child's lock.  Whether `allocproc` and `kfork` get their memory is part of the action.
-/

namespace Xv6.ProcTable

open Option Runs

/-- Total number of signals (`kernel/signal.h`). -/
def NSIG : Nat := 7

def SIG_DFL : UInt64 := 0
def SIG_IGN : UInt64 := 1

inductive Pc where
  | user
  /-- In `syscall()`, the call not yet made. -/
  | syscall
  /-- In `kfork`, with the child allocated and copied. -/
  | forkParent (np : Fin NPROC)
  /-- In `kfork`, with `np->parent` set. -/
  | forkRunnable (np : Fin NPROC)
  /-- In the loop of `kwait`, after its `sleep`. -/
  | waiting
  /-- At the end of `usertrap`, before `if(killed(p))`; the flag is `which_dev == 2`. -/
  | trapReturn (timer : Bool)
  deriving DecidableEq, Repr

/-- `struct proc`, less the memory and the files of the process. -/
structure Proc extends Thread (Fin NPROC) Pc where
  xstate : Int
  pid : Int
  parent : Option (Fin NPROC)
  signalHandlers : Fin NSIG → UInt64
  pendingSignals : BitVec 32
  sigmask : BitVec 32

structure State where
  proc : Fin NPROC → Proc
  nextpid : Int
  initproc : Fin NPROC

def Proc.zero : Proc where
  state := .unused
  chan := none
  killed := false
  pc := .user
  xstate := 0
  pid := 0
  parent := none
  signalHandlers _ := SIG_DFL
  pendingSignals := 0
  sigmask := 0

/-- Whether the memory allocations of `allocproc` and `kfork` succeed. -/
structure Alloc where
  trapframe : Bool
  pagetable : Bool
  uvmcopy : Bool
  deriving DecidableEq, Repr

/-- The causes of a trap from user mode that `usertrap` tells apart. -/
inductive Trap where
  | syscall
  /-- A device interrupt; the flag says that it is the timer. -/
  | device (timer : Bool)
  /-- A page fault that `vmfault` resolves. -/
  | lazyFault
  | unexpected
  deriving DecidableEq, Repr

inductive Act where
  | trap (p : Fin NPROC) (cause : Trap)
  /-- A system call that none of the others is, and that changes nothing modelled here. -/
  | otherCall (p : Fin NPROC)
  | fork (p : Fin NPROC) (mem : Alloc)
  | forkParent (p : Fin NPROC)
  | forkRunnable (p : Fin NPROC)
  | exit (p : Fin NPROC) (status : Int)
  /-- `wait`, and each further round of its loop; the flag says that the status can be copied out. -/
  | wait (p : Fin NPROC) (copied : Bool)
  | kill (p : Fin NPROC) (pid : Int)
  | signalInit (p : Fin NPROC)
  | signalSend (p : Fin NPROC) (pid signum : Int)
  | signalHandle (p : Fin NPROC) (signum : Int) (handler : UInt64)
  | sigmask (p : Fin NPROC) (signum block : Int)
  /-- The end of `usertrap`. -/
  | trapReturn (p : Fin NPROC)
  deriving DecidableEq, Repr

inductive Ret where
  | none
  | value (r : Int)
  | child (np : Fin NPROC)
  /-- `dispatch_signals` took the default action for these signals. -/
  | dispatched (defaulted : List (Fin NSIG))
  /-- The process has left through `kexit(-1)`. -/
  | exited
  deriving DecidableEq, Repr

abbrev Event := Act × Ret

def State.set (s : State) (p : Fin NPROC) (q : Proc) : State := { s with proc := Function.update s.proc p q }

def State.setPc (s : State) (p : Fin NPROC) (pc : Pc) : State := s.set p { s.proc p with pc := pc }

/-- `wakeup(chan)`, called by `me`, on the table. -/
def State.wakeup (s : State) (me chan : Fin NPROC) : State :=
  { s with proc := fun p =>
      if p = me then s.proc p else { s.proc p with toThread := (s.proc p).toThread.wake chan } }

/-! ## `kernel/proc.c` -/

def allocpid (s : State) : Int × State := (s.nextpid, { s with nextpid := int32 (s.nextpid + 1) })

def freeproc (s : State) (p : Fin NPROC) : State :=
  s.set p { s.proc p with
    pid := 0, parent := none, chan := none, killed := false, xstate := 0, state := .unused,
    signalHandlers := fun _ => SIG_DFL, pendingSignals := 0 }

/-- The slot the search loop of `allocproc` stops at. -/
def unusedSlot (s : State) : Option (Fin NPROC) := (List.finRange NPROC).find? fun p => (s.proc p).state = .unused

def allocproc (s : State) (mem : Alloc) : Option (Fin NPROC) × State :=
  match unusedSlot s with
  | none => (none, s)
  | some p =>
    let (pid, s) := allocpid s
    let s := s.set p { s.proc p with pid := pid, state := .used }
    if !mem.trapframe then (none, freeproc s p)
    else if !mem.pagetable then (none, freeproc s p)
    else
      -- the new context starts in forkret, which returns to user mode
      (some p, s.set p { s.proc p with
        pc := .user, signalHandlers := fun _ => SIG_DFL, pendingSignals := 0, sigmask := 0 })

/-- `kfork` up to the release of the child's lock. -/
def kfork (s : State) (p : Fin NPROC) (mem : Alloc) : State × Ret :=
  match allocproc s mem with
  | (none, s) => (s.setPc p (.trapReturn false), .value (-1))
  | (some np, s) =>
    if !mem.uvmcopy then ((freeproc s np).setPc p (.trapReturn false), .value (-1))
    else (s.setPc p (.forkParent np), .child np)

/-- `pp->parent = initproc`, if `pp` is a child of `p`. -/
def adopt (initproc p : Fin NPROC) (pp : Proc) : Proc :=
  if pp.parent = some p then { pp with parent := some initproc } else pp

/-- `reparent(p)`: the children of `p` go to init, which is woken up for each of them. -/
def reparent (s : State) (p : Fin NPROC) : State :=
  let orphans : State := { s with proc := fun pp => adopt s.initproc p (s.proc pp) }
  if (∃ pp, (s.proc pp).parent = some p) then orphans.wakeup p s.initproc else orphans

/-- `kexit`; `none` is its panic. -/
def kexit (s : State) (p : Fin NPROC) (status : Int) : Option State :=
  if p = s.initproc then none
  else
    let s := reparent s p
    let s := match (s.proc p).parent with
      | some parent => s.wakeup p parent
      | none => s
    some (s.set p { s.proc p with xstate := status, state := .zombie })

/-- The exited child that the scan of `kwait` finds. -/
def exitedChild (s : State) (p : Fin NPROC) : Option (Fin NPROC) :=
  (List.finRange NPROC).find? fun pp =>
    (s.proc pp).parent = some p ∧ (s.proc pp).state = .zombie

/-- One round of the loop of `kwait`. -/
def kwait (s : State) (p : Fin NPROC) (copied : Bool) : State × Ret :=
  match exitedChild s p with
  | some pp =>
    if copied then ((freeproc s pp).setPc p (.trapReturn false), .value (s.proc pp).pid)
    else (s.setPc p (.trapReturn false), .value (-1))
  | none =>
    if (¬ ∃ pp, (s.proc pp).parent = some p) ∨ (s.proc p).killed then
      (s.setPc p (.trapReturn false), .value (-1))
    else (s.set p { s.proc p with toThread := (s.proc p).toThread.sleep p .waiting }, .none)

/-- The slot the search loop of `kkill` stops at. -/
def slotWithPid (s : State) (pid : Int) : Option (Fin NPROC) :=
  (List.finRange NPROC).find? fun p => (s.proc p).pid = pid

def kkill (s : State) (pid : Int) : State × Int :=
  match slotWithPid s pid with
  | some p => (s.set p { s.proc p with toThread := (s.proc p).toThread.kill }, 0)
  | none => (s, -1)

def setkilled (q : Proc) : Proc := { q with killed := true }

/-! ## Signals (`kernel/sysproc.c`) -/

/-- The bit `1 << signum`; a shift takes its amount modulo the width of an `int`. -/
def sigbit (signum : Int) : BitVec 32 := 1#32 <<< (signum % 32).toNat

def signalInit (q : Proc) : Proc := { q with signalHandlers := fun _ => SIG_DFL, pendingSignals := 0 }

/-- The slot the search loop of `sys_signal_send` stops at. -/
def liveSlotWithPid (s : State) (pid : Int) : Option (Fin NPROC) :=
  (List.finRange NPROC).find? fun p => (s.proc p).pid = pid ∧ (s.proc p).state ≠ .unused

def signalSend (s : State) (pid signum : Int) : State × Int :=
  if signum ≤ 0 ∨ signum ≥ NSIG then (s, -1)
  else
    match liveSlotWithPid s pid with
    | some p =>
      (s.set p { s.proc p with pendingSignals := (s.proc p).pendingSignals ||| sigbit signum }, 0)
    | none => (s, -1)

def signalHandle (q : Proc) (signum : Int) (handler : UInt64) : Proc × Int :=
  if signum ≤ 0 ∨ signum ≥ NSIG then (q, -1)
  else
    ({ q with signalHandlers := fun i =>
        if (i : Int) = signum then handler else q.signalHandlers i }, 0)

def sigmask (q : Proc) (signum block : Int) : Proc :=
  if block ≠ 0 then { q with sigmask := q.sigmask ||| sigbit signum }
  else { q with sigmask := q.sigmask &&& ~~~ sigbit signum }

/-- How far `dispatch_signals` has come: the process, the signals it took the default action for,
and the user handler it has called, from the kernel, if any. -/
structure Dispatch where
  proc : Proc
  defaulted : List (Fin NSIG)
  called : Option (Fin NSIG × UInt64)

/-- The body of the loop of `dispatch_signals`.  Nothing is said about what happens after the
direct call of a user address in kernel mode: the loop stops there. -/
def dispatchSignal (d : Dispatch) (i : Fin NSIG) : Dispatch :=
  if d.called.isSome then d
  else if !d.proc.pendingSignals.getLsbD i then d
  else
    let q := { d.proc with pendingSignals := d.proc.pendingSignals &&& ~~~ sigbit i }
    let handler := q.signalHandlers i
    if handler = SIG_IGN then { d with proc := q }
    else if handler = SIG_DFL then
      { d with proc := setkilled q, defaulted := d.defaulted ++ [i] }
    else { d with proc := q, called := some (i, handler) }

/-- `dispatch_signals(p)`: the signals 1 to `NSIG - 1`, in order. -/
def dispatchSignals (q : Proc) : Dispatch :=
  ((List.finRange NSIG).tail).foldl dispatchSignal { proc := q, defaulted := [], called := none }

/-! ## The system -/

def State.canRun (s : State) (p : Fin NPROC) : Prop := (s.proc p).state = .runnable ∨ (s.proc p).state = .running

instance (s : State) (p : Fin NPROC) : Decidable (s.canRun p) := inferInstanceAs (Decidable (_ ∨ _))

def State.isAt (s : State) (p : Fin NPROC) (pc : Pc) : Prop := s.canRun p ∧ (s.proc p).pc = pc

instance (s : State) (p : Fin NPROC) (pc : Pc) : Decidable (s.isAt p pc) :=
  inferInstanceAs (Decidable (_ ∧ _))

/-- `usertrap` up to `if(killed(p)) kexit(-1)`, with the system call left to a step of its own. -/
def usertrap (s : State) (p : Fin NPROC) : Trap → Option (State × Ret)
  | .syscall =>
    if (s.proc p).killed then (kexit s p (-1)).map (·, .exited)
    else some (s.setPc p .syscall, .none)
  | .device timer => some (s.setPc p (.trapReturn timer), .none)
  | .lazyFault => some (s.setPc p (.trapReturn false), .none)
  | .unexpected => some ((s.set p (setkilled (s.proc p))).setPc p (.trapReturn false), .none)

/-- The rest of `usertrap`. -/
def usertrapReturn (s : State) (p : Fin NPROC) (timer : Bool) : Option (State × Ret) :=
  if (s.proc p).killed then (kexit s p (-1)).map (·, .exited)
  else
    let d := dispatchSignals (s.proc p)
    if d.called.isSome then none
    else
      let q := { d.proc with pc := .user }
      some (s.set p (if timer then { q with state := .runnable } else q), .dispatched d.defaulted)

def returns (s : State) (p : Fin NPROC) (r : Int) : Option (State × Ret) :=
  some (s.setPc p (.trapReturn false), .value r)

def exec (s : State) : Act → Option (State × Ret)
  | .trap p cause => if s.isAt p .user then usertrap s p cause else none
  | .otherCall p => if s.isAt p .syscall then returns s p 0 else none
  | .fork p mem => if s.isAt p .syscall then some (kfork s p mem) else none
  | .forkParent p =>
    match (s.proc p).pc with
    | .forkParent np =>
      if s.canRun p then
        some ((s.set np { s.proc np with parent := some p }).setPc p (.forkRunnable np), .none)
      else none
    | _ => none
  | .forkRunnable p =>
    match (s.proc p).pc with
    | .forkRunnable np =>
      if s.canRun p then
        returns (s.set np { s.proc np with state := .runnable }) p (s.proc np).pid
      else none
    | _ => none
  | .exit p status => if s.isAt p .syscall then (kexit s p status).map (·, .none) else none
  | .wait p copied =>
    if s.isAt p .syscall ∨ s.isAt p .waiting then some (kwait s p copied) else none
  | .kill p pid =>
    if s.isAt p .syscall then let r := kkill s pid; returns r.1 p r.2 else none
  | .signalInit p =>
    if s.isAt p .syscall then returns (s.set p (signalInit (s.proc p))) p 0 else none
  | .signalSend p pid signum =>
    if s.isAt p .syscall then let r := signalSend s pid signum; returns r.1 p r.2 else none
  | .signalHandle p signum handler =>
    if s.isAt p .syscall then
      let r := signalHandle (s.proc p) signum handler
      returns (s.set p r.1) p r.2
    else none
  | .sigmask p signum block =>
    if s.isAt p .syscall then returns (s.set p (sigmask (s.proc p) signum block)) p 0 else none
  | .trapReturn p =>
    match (s.proc p).pc with
    | .trapReturn timer => if s.canRun p then usertrapReturn s p timer else none
    | _ => none

abbrev Step : State → Event → State → Prop := Exec exec

/-- After `userinit`: the first process, in the first slot, is about to run. -/
def boot : State where
  proc := Function.update (fun _ => Proc.zero) 0 { Proc.zero with pid := 1, state := .runnable }
  nextpid := 2
  initproc := 0

def State.live (s : State) (p : Fin NPROC) : Prop := (s.proc p).state ≠ .unused

instance (s : State) (p : Fin NPROC) : Decidable (s.live p) := inferInstanceAs (Decidable (_ ≠ _))

/-! ## The steps as rules -/

theorem usertrapReturn_some {s s' : State} {p : Fin NPROC} {timer : Bool} {ret : Ret}
    (h : usertrapReturn s p timer = some (s', ret)) : kexit s p (-1) = some s' ∧ ret = .exited ∨
      (s.proc p).killed = false ∧ (dispatchSignals (s.proc p)).called = none ∧
        s' = s.set p (if timer then { (dispatchSignals (s.proc p)).proc with pc := .user, state := .runnable }
          else { (dispatchSignals (s.proc p)).proc with pc := .user }) ∧
        ret = .dispatched (dispatchSignals (s.proc p)).defaulted := by
  unfold usertrapReturn at h
  split at h
  · left
    obtain ⟨t, hexit, ⟨⟩⟩ := map_eq_some_iff.1 h
    exact ⟨hexit, rfl⟩
  rename_i hkilled
  dsimp only at h
  split at h
  · cases h
  rename_i hcalled
  right
  cases h
  exact ⟨by simpa using hkilled, by simpa using hcalled, rfl, rfl⟩

/-- The rules of `exec`, for a proof to go through one after the other. -/
inductive Does (s : State) : Event → State → Prop
  | trap {p : Fin NPROC} {cause : Trap} {ret : Ret} {s' : State} : s.isAt p .user →
      usertrap s p cause = some (s', ret) → Does s (.trap p cause, ret) s'
  | otherCall {p : Fin NPROC} : s.isAt p .syscall → Does s (.otherCall p, .value 0) (s.setPc p (.trapReturn false))
  | fork {p : Fin NPROC} {mem : Alloc} : s.isAt p .syscall → Does s (.fork p mem, (kfork s p mem).2) (kfork s p mem).1
  | forkParent {p np : Fin NPROC} : (s.proc p).pc = .forkParent np → s.canRun p →
      Does s (.forkParent p, .none) ((s.set np { s.proc np with parent := some p }).setPc p (.forkRunnable np))
  | forkRunnable {p np : Fin NPROC} : (s.proc p).pc = .forkRunnable np → s.canRun p →
      Does s (.forkRunnable p, .value (s.proc np).pid)
        ((s.set np { s.proc np with state := .runnable }).setPc p (.trapReturn false))
  | exit {p : Fin NPROC} {status : Int} {s' : State} : s.isAt p .syscall → kexit s p status = some s' →
      Does s (.exit p status, .none) s'
  | wait {p : Fin NPROC} {copied : Bool} : s.isAt p .syscall ∨ s.isAt p .waiting →
      Does s (.wait p copied, (kwait s p copied).2) (kwait s p copied).1
  | kill {p : Fin NPROC} {pid : Int} : s.isAt p .syscall →
      Does s (.kill p pid, .value (kkill s pid).2) ((kkill s pid).1.setPc p (.trapReturn false))
  | signalInit {p : Fin NPROC} : s.isAt p .syscall →
      Does s (.signalInit p, .value 0) ((s.set p (signalInit (s.proc p))).setPc p (.trapReturn false))
  | signalSend {p : Fin NPROC} {pid signum : Int} : s.isAt p .syscall →
      Does s (.signalSend p pid signum, .value (signalSend s pid signum).2)
        ((signalSend s pid signum).1.setPc p (.trapReturn false))
  | signalHandle {p : Fin NPROC} {signum : Int} {handler : UInt64} : s.isAt p .syscall →
      Does s (.signalHandle p signum handler, .value (signalHandle (s.proc p) signum handler).2)
        ((s.set p (signalHandle (s.proc p) signum handler).1).setPc p (.trapReturn false))
  | sigmask {p : Fin NPROC} {signum block : Int} : s.isAt p .syscall →
      Does s (.sigmask p signum block, .value 0)
        ((s.set p (sigmask (s.proc p) signum block)).setPc p (.trapReturn false))
  | trapReturn {p : Fin NPROC} {timer : Bool} {ret : Ret} {s' : State} : (s.proc p).pc = .trapReturn timer →
      s.canRun p → usertrapReturn s p timer = some (s', ret) → Does s (.trapReturn p, ret) s'

theorem Step.does {s s' : State} {ev : Event} (h : Step s ev s') : Does s ev s' := by
  obtain ⟨act, ret⟩ := ev
  unfold Step Exec at h
  cases act with
  | trap =>
    obtain ⟨hat, h⟩ := ite_none_right_eq_some.1 h
    exact .trap hat h
  | otherCall =>
    obtain ⟨hat, ⟨⟩⟩ := ite_none_right_eq_some.1 h
    exact .otherCall hat
  | fork =>
    obtain ⟨hat, h⟩ := ite_none_right_eq_some.1 h
    obtain ⟨rfl, rfl⟩ := Prod.mk.inj (some.inj h)
    exact .fork hat
  | forkParent =>
    simp only [exec] at h
    split at h
    · rename_i np hpc
      obtain ⟨hrun, ⟨⟩⟩ := ite_none_right_eq_some.1 h
      exact .forkParent hpc hrun
    · cases h
  | forkRunnable =>
    simp only [exec] at h
    split at h
    · rename_i np hpc
      obtain ⟨hrun, ⟨⟩⟩ := ite_none_right_eq_some.1 h
      exact .forkRunnable hpc hrun
    · cases h
  | exit =>
    obtain ⟨hat, h⟩ := ite_none_right_eq_some.1 h
    obtain ⟨t, hexit, ⟨⟩⟩ := map_eq_some_iff.1 h
    exact .exit hat hexit
  | wait =>
    obtain ⟨hat, h⟩ := ite_none_right_eq_some.1 h
    obtain ⟨rfl, rfl⟩ := Prod.mk.inj (some.inj h)
    exact .wait hat
  | kill =>
    obtain ⟨hat, ⟨⟩⟩ := ite_none_right_eq_some.1 h
    exact .kill hat
  | signalInit =>
    obtain ⟨hat, ⟨⟩⟩ := ite_none_right_eq_some.1 h
    exact .signalInit hat
  | signalSend =>
    obtain ⟨hat, ⟨⟩⟩ := ite_none_right_eq_some.1 h
    exact .signalSend hat
  | signalHandle =>
    obtain ⟨hat, ⟨⟩⟩ := ite_none_right_eq_some.1 h
    exact .signalHandle hat
  | sigmask =>
    obtain ⟨hat, ⟨⟩⟩ := ite_none_right_eq_some.1 h
    exact .sigmask hat
  | trapReturn =>
    simp only [exec] at h
    split at h
    · rename_i timer hpc
      obtain ⟨hrun, h⟩ := ite_none_right_eq_some.1 h
      exact .trapReturn hpc hrun h
    · cases h

end Xv6.ProcTable
