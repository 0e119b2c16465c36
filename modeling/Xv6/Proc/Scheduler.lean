import Mathlib.Logic.Function.Basic
import Xv6.Lib.Runs
import Xv6.Proc.Sleep

/-!
# The scheduler

The scheduler of each CPU and the kernel threads of the processes, lock by lock: `scheduler`, `sched`, `yield`,
`forkret`, `sleep`, `wakeup`, `kkill`, `kfork` with `allocproc`, `kexit`, and `kwait` with `freeproc`, of
`kernel/proc.c`, on any number of CPUs.  Of the other code in the kernel all that matters is that it may call these
functions, take the lock of a process without changing its state, and be interrupted where it holds no lock.
`wait_lock` and the condition locks of `sleep` only forbid some of the interleavings, and are left out.
-/

namespace Xv6.Scheduler

open Function Runs

/-- Where a thread of control holds no process lock. -/
inductive Point where
  /-- The scheduler, at the top of its loop. -/
  | idle
  /-- A process, in user space or elsewhere in the kernel. -/
  | kernel
  /-- In `kkill`, at the head of its loop for entry `i` of the table. -/
  | killScan (i : Nat) (pid : Int)
  /-- In `allocproc`, at the head of its loop. -/
  | forkScan (i : Nat)
  /-- In `kfork`, between the two critical sections of the child. -/
  | forkParent (np : Fin NPROC)
  /-- In `kwait`, at the head of its loop. -/
  | waitScan (i : Nat)
  /-- In `kexit`, before `acquire(&p->lock)`. -/
  | exiting (p : Fin NPROC)
  deriving DecidableEq

/-- Who has called `sched`. -/
inductive Caller where
  | yield (k : Point)
  | sleep
  | kexit
  deriving DecidableEq

/-- Where a thread of control is.  `χ` are the channels; a process is the value of the local `p`. -/
inductive Pc (χ : Type) where
  | point (k : Point)
  /-- In `wakeup`, at the head of its loop, and where it returns to. -/
  | wakeScan (i : Nat) (chan : χ) (k : Point)
  | wakeTest (i : Fin NPROC) (chan : χ) (k : Point)
  /-- In the scheduler, at the head of its inner loop. -/
  | scan (i : Nat)
  /-- Before the test of `p->state`. -/
  | look (p : Fin NPROC)
  /-- Before `c->proc = p`. -/
  | chosen (p : Fin NPROC)
  | swtch (p : Fin NPROC)
  /-- Back from `swtch`, before `c->proc = 0`. -/
  | back (p : Fin NPROC)
  /-- Before `release(&p->lock)`. -/
  | done (p : Fin NPROC)
  | forkret
  | yieldLock (p : Fin NPROC) (k : Point)
  | yieldMark (p : Fin NPROC) (k : Point)
  | sleepLock (p : Fin NPROC) (chan : χ)
  | sleepMark (p : Fin NPROC) (chan : χ)
  /-- In `sched`, before its checks and `swtch`. -/
  | sched (p : Fin NPROC) (r : Caller)
  /-- Back from `swtch`. -/
  | resumed (p : Fin NPROC) (r : Caller)
  | killTest (i : Fin NPROC) (pid : Int)
  /-- Other code that takes the lock of a process, such as `killed` and `sys_signal_send`. -/
  | peek (i : Fin NPROC)
  | forkTest (i : Fin NPROC)
  | forkFound (np : Fin NPROC)
  | forkRun (np : Fin NPROC)
  | waitTest (i : Fin NPROC)
  | exitMark (p : Fin NPROC)
  deriving DecidableEq

/-- The threads of control: a scheduler for each CPU, and the kernel threads. -/
inductive Tid (κ : Type) where
  | scheduler (c : κ)
  | process (p : Fin NPROC)
  deriving DecidableEq

structure State (κ χ : Type) where
  lock : Fin NPROC → Option κ
  /-- A process, and where its kernel thread is: at `p->context`, unless it runs. -/
  proc : Fin NPROC → Thread χ (Pc χ)
  pid : Fin NPROC → Int
  nextpid : Int
  cpuProc : κ → Option (Fin NPROC)
  /-- Where the scheduler is: at `c->context`, unless it runs. -/
  sched : κ → Pc χ
  /-- What a CPU executes. -/
  current : κ → Tid κ

variable {κ χ : Type}

def initproc : Fin NPROC := 0

/-- After `userinit`, as the CPUs enter `scheduler`. -/
def State.start : State κ χ where
  lock _ := none
  proc p := { state := if p = initproc then .runnable else .unused, chan := none, killed := false, pc := .forkret }
  pid p := if p = initproc then 1 else 0
  nextpid := 2
  cpuProc _ := none
  sched _ := .point .idle
  current c := .scheduler c

def State.pc (s : State κ χ) : Tid κ → Pc χ
  | .scheduler c => s.sched c
  | .process p => (s.proc p).pc

section Code

variable [DecidableEq κ] [DecidableEq χ]

namespace State

def setProc (s : State κ χ) (p : Fin NPROC) (t : Thread χ (Pc χ)) : State κ χ := { s with proc := update s.proc p t }

def setPc (s : State κ χ) (t : Tid κ) (pc : Pc χ) : State κ χ :=
  match t with
  | .scheduler c => { s with sched := update s.sched c pc }
  | .process p => s.setProc p { s.proc p with pc := pc }

def goto (s : State κ χ) (c : κ) (pc : Pc χ) : State κ χ := s.setPc (s.current c) pc

def setLock (s : State κ χ) (p : Fin NPROC) (o : Option κ) : State κ χ := { s with lock := update s.lock p o }

def setCpuProc (s : State κ χ) (c : κ) (o : Option (Fin NPROC)) : State κ χ :=
  { s with cpuProc := update s.cpuProc c o }

def setState (s : State κ χ) (p : Fin NPROC) (st : ProcState) : State κ χ := s.setProc p { s.proc p with state := st }

def acquire (s : State κ χ) (c : κ) (p : Fin NPROC) (pc : Pc χ) : Option (State κ χ) :=
  if s.lock p = none then some ((s.setLock p (some c)).goto c pc) else none

/-- `release(&p->lock)`, which panics if the CPU does not hold the lock. -/
def release (s : State κ χ) (c : κ) (p : Fin NPROC) (pc : Pc χ) : Option (State κ χ) :=
  if s.lock p = some c then some ((s.setLock p none).goto c pc) else none

/-- The saved registers of the thread on CPU `c` will have it go on at `pc`; the CPU executes `t`. -/
def swtch (s : State κ χ) (c : κ) (pc : Pc χ) (t : Tid κ) : State κ χ :=
  { s.goto c pc with current := update s.current c t }

/-- What `allocproc` does to the slot that it has found, up to the first allocation. -/
def alloc (s : State κ χ) (p : Fin NPROC) : State κ χ :=
  { s.setState p .used with pid := update s.pid p s.nextpid, nextpid := int32 (s.nextpid + 1) }

def free (s : State κ χ) (p : Fin NPROC) : State κ χ :=
  { s.setProc p { s.proc p with state := .unused, chan := none, killed := false } with
    pid := update s.pid p 0 }

end State

/-- The next statements of the thread of control on CPU `c`, where there is no choice. -/
def advance (s : State κ χ) (c : κ) : Option (State κ χ) :=
  match s.pc (s.current c) with
  | .point .idle => some (s.goto c (.scan 0))
  | .scan i =>
    if h : i < NPROC then s.acquire c ⟨i, h⟩ (.look ⟨i, h⟩) else some (s.goto c (.point .idle))
  | .look p =>
    if (s.proc p).state = .runnable then some ((s.setState p .running).goto c (.chosen p))
    else some (s.goto c (.done p))
  | .chosen p => some ((s.setCpuProc c (some p)).goto c (.swtch p))
  | .swtch p => some (s.swtch c (.back p) (.process p))
  | .back p => some ((s.setCpuProc c none).goto c (.done p))
  | .done p => s.release c p (.scan (p + 1))
  | .forkret =>
    match s.cpuProc c with
    | some p => s.release c p (.point .kernel)
    | none => none
  | .yieldLock p k => s.acquire c p (.yieldMark p k)
  | .yieldMark p k => some ((s.setState p .runnable).goto c (.sched p (.yield k)))
  | .sleepLock p chan => s.acquire c p (.sleepMark p chan)
  | .sleepMark p chan =>
    some ((s.setProc p ((s.proc p).sleep chan (s.proc p).pc)).goto c (.sched p .sleep))
  | .sched p r =>
    -- panic("sched p->lock"), panic("sched RUNNING")
    if s.lock p = some c ∧ (s.proc p).state ≠ .running then some (s.swtch c (.resumed p r) (.scheduler c))
    else none
  | .resumed p (.yield k) => s.release c p (.point k)
  | .resumed p .sleep => (s.setProc p { s.proc p with chan := none }).release c p (.point .kernel)
  | .resumed _ .kexit => none -- panic("zombie exit")
  | .wakeScan i chan k =>
    if h : i < NPROC then
      if s.cpuProc c = some ⟨i, h⟩ then some (s.goto c (.wakeScan (i + 1) chan k))
      else s.acquire c ⟨i, h⟩ (.wakeTest ⟨i, h⟩ chan k)
    else some (s.goto c (.point k))
  | .wakeTest i chan k => (s.setProc i ((s.proc i).wake chan)).release c i (.wakeScan (i + 1) chan k)
  | .point (.killScan i pid) =>
    if h : i < NPROC then s.acquire c ⟨i, h⟩ (.killTest ⟨i, h⟩ pid) else some (s.goto c (.point .kernel))
  | .killTest i pid =>
    if s.pid i = pid then (s.setProc i (s.proc i).kill).release c i (.point .kernel)
    else s.release c i (.point (.killScan (i + 1) pid))
  | .peek i => s.release c i (.point .kernel)
  | .point (.forkScan i) =>
    if h : i < NPROC then s.acquire c ⟨i, h⟩ (.forkTest ⟨i, h⟩) else some (s.goto c (.point .kernel))
  | .forkTest i =>
    if (s.proc i).state = .unused then some ((s.alloc i).goto c (.forkFound i))
    else s.release c i (.point (.forkScan (i + 1)))
  | .forkFound np => (s.setProc np { s.proc np with pc := .forkret }).release c np (.point (.forkParent np))
  | .point (.forkParent np) => s.acquire c np (.forkRun np)
  | .forkRun np => (s.setState np .runnable).release c np (.point .kernel)
  | .point (.waitScan i) =>
    if h : i < NPROC then s.acquire c ⟨i, h⟩ (.waitTest ⟨i, h⟩) else some (s.goto c (.point .kernel))
  | .waitTest i =>
    if (s.proc i).state = .zombie then (s.free i).release c i (.point .kernel)
    else s.release c i (.point (.waitScan (i + 1)))
  | .point (.exiting p) => s.acquire c p (.exitMark p)
  | .exitMark p => some ((s.setState p .zombie).goto c (.sched p .kexit))
  | .point .kernel => none

/-- A thread of control does something on CPU `c`. -/
inductive Act (κ χ : Type) where
  | advance (c : κ)
  /-- A call of `yield`, or a timer interrupt. -/
  | yield (c : κ)
  | sleep (c : κ) (chan : χ)
  /-- A call of `wakeup`, or a device interrupt. -/
  | wakeup (c : κ) (chan : χ)
  | kill (c : κ) (pid : Int)
  | peek (c : κ) (i : Fin NPROC)
  | fork (c : κ)
  /-- There is no memory for the child. -/
  | forkFails (c : κ)
  | wait (c : κ)
  /-- The entry is not a child of the caller. -/
  | waitSkips (c : κ)
  /-- The status cannot be copied out. -/
  | waitFails (c : κ)
  /-- `kexit`, from `wakeup(p->parent)` on. -/
  | exit (c : κ) (chan : χ)

/-- A process that is to call a function is at a point of its own. -/
def call (s : State κ χ) (c : κ) (pc : Pc χ) : Option (State κ χ) :=
  if s.pc (s.current c) = .point .kernel then some (s.goto c pc) else none

def step (s : State κ χ) : Act κ χ → Option (State κ χ)
  | .advance c => advance s c
  | .yield c =>
    match s.pc (s.current c), s.cpuProc c with
    | .point .idle, _ | .point (.exiting _), _ => none
    | .point k, some p => some (s.goto c (.yieldLock p k))
    | _, _ => none
  | .sleep c chan =>
    match s.cpuProc c with
    | some p => call s c (.sleepLock p chan)
    | none => none
  | .wakeup c chan =>
    match s.pc (s.current c) with
    | .point (.exiting _) => none
    | .point k => some (s.goto c (.wakeScan 0 chan k))
    | _ => none
  | .kill c pid => call s c (.point (.killScan 0 pid))
  | .peek c i => if s.pc (s.current c) = .point .kernel then s.acquire c i (.peek i) else none
  | .fork c => call s c (.point (.forkScan 0))
  | .forkFails c =>
    match s.pc (s.current c) with
    | .forkFound np => (s.free np).release c np (.point .kernel)
    | _ => none
  | .wait c => call s c (.point (.waitScan 0))
  | .waitSkips c =>
    match s.pc (s.current c) with
    | .point (.waitScan i) => some (s.goto c (.point (.waitScan (i + 1))))
    | _ => none
  | .waitFails c =>
    match s.pc (s.current c) with
    | .waitTest i => if (s.proc i).state = .zombie then s.release c i (.point .kernel) else none
    | _ => none
  | .exit c chan =>
    match s.cpuProc c with
    | some p => if p = initproc then none else call s c (.wakeScan 0 chan (.exiting p))
    | none => none

def exec (s : State κ χ) (a : Act κ χ) : Option (State κ χ × Unit) := (step s a).map (·, ())

def Step : State κ χ → Act κ χ × Unit → State κ χ → Prop := Exec exec

end Code

end Xv6.Scheduler
