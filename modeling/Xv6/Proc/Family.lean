import Mathlib.Logic.Function.Basic
import Xv6.Lib.Runs
import Xv6.Proc.Sleep

/-!
# Parents and children

`kfork`, `kexit` and `kwait` of `kernel/proc.c`, cut wherever `wait_lock` or some `p->lock` is taken or given back.
While a process goes through the table with `wait_lock`, in `reparent`, in the two calls of `wakeup` and in the scan
of `kwait`, the others take their own steps in between, as far as these do not need it.  A section under `p->lock` is
one step, except that an exited process holds its own lock until the scheduler has switched away from it.  Whether
there is memory for a fork, and whether `wait` can copy the status, is part of the action.
-/

namespace Xv6.Family

open Function Runs

inductive Pc where
  | user
  /-- In `kfork`, before `np->parent = p`; no lock is held. -/
  | forkParent (np : Fin NPROC)
  /-- In `kfork`, before `np->state = RUNNABLE`; no lock is held. -/
  | forkRunnable (np : Fin NPROC)
  /-- In `reparent`, before the test of entry `i`. -/
  | reparent (status : Int) (i : Nat)
  /-- In `reparent` for entry `i`, in `wakeup(initproc)` before entry `j`. -/
  | reparentWake (status : Int) (i j : Nat)
  /-- In `wakeup(p->parent)` before entry `j`. -/
  | exitWake (status : Int) (j : Nat)
  /-- In `kexit`, before `acquire(&p->lock)`. -/
  | exitMark (status : Int)
  /-- `ZOMBIE`, with `p->lock` still held. -/
  | exited
  /-- `ZOMBIE`, or a slot that was left by an exited process. -/
  | dead
  /-- In the scan of `kwait`, before entry `i`; `addr` says whether a status is asked for. -/
  | waitScan (addr : Bool) (i : Nat) (havekids : Bool)
  /-- In the `sleep` of `kwait`. -/
  | waitSleep (addr : Bool)
  deriving DecidableEq, Repr

structure Proc where
  state : ProcState
  pid : Int
  parent : Option (Fin NPROC)
  chan : Option (Fin NPROC)
  killed : Bool
  xstate : Int
  pc : Pc
  deriving DecidableEq, Repr

structure State where
  proc : Fin NPROC → Proc
  nextpid : Int
  initproc : Fin NPROC
  waitLock : Option (Fin NPROC)

def State.set (s : State) (p : Fin NPROC) (q : Proc) : State := { s with proc := update s.proc p q }

def State.goto (s : State) (p : Fin NPROC) (pc : Pc) : State := s.set p { s.proc p with pc := pc }

def State.setWaitLock (s : State) (o : Option (Fin NPROC)) : State := { s with waitLock := o }

def boot : State where
  proc := update
    (fun _ => { state := .unused, pid := 0, parent := none, chan := none, killed := false
                xstate := 0, pc := .user })
    0 { state := .runnable, pid := 1, parent := none, chan := none, killed := false, xstate := 0
        pc := .user }
  nextpid := 2
  initproc := 0
  waitLock := none

inductive Act where
  /-- `fork`: the search of `allocproc` stops at `np`, if it finds a slot; `mem` says that there is
  enough memory. -/
  | fork (p : Fin NPROC) (np : Option (Fin NPROC)) (mem : Bool)
  | exit (p : Fin NPROC) (status : Int)
  | wait (p : Fin NPROC) (addr : Bool)
  /-- The next section of the call the process is in. -/
  | advance (p : Fin NPROC) (copied : Bool)
  /-- The scheduler releases the lock of an exited process. -/
  | park (p : Fin NPROC)
  | kill (p : Fin NPROC)
  deriving DecidableEq, Repr

inductive Ret where
  | none
  | value (r : Int)
  | forked (np : Fin NPROC) (pid : Int)
  | exited (status : Int)
  /-- `wait` has returned: it has freed the slot `pp` of the process `pid`. -/
  | reaped (pp : Fin NPROC) (pid status : Int)
  deriving DecidableEq, Repr

abbrev Event := Act × Ret

def freeproc (q : Proc) : Proc :=
  { q with pid := 0, parent := none, chan := none, killed := false, xstate := 0, state := .unused }

/-- `kfork` from `allocproc` to the release of the child's lock. -/
def kfork (s : State) (p np : Fin NPROC) (mem : Bool) : State × Ret :=
  let pid := s.nextpid
  let s := { s with nextpid := int32 (s.nextpid + 1) }
  if !mem then (s.set np (freeproc (s.proc np)), .value (-1))
  else
    -- The new context starts in `forkret`, which returns to user mode.
    ((s.set np { s.proc np with pid := pid, state := .used, pc := .user }).goto p (.forkParent np), .forked np pid)

/-- What `wakeup(chan)` does to the process it looks at. -/
def Proc.wake (q : Proc) (chan : Option (Fin NPROC)) : Proc :=
  if q.state = .sleeping ∧ q.chan = chan then { q with state := .runnable } else q

def Proc.kill (q : Proc) : Proc :=
  { q with killed := true, state := if q.state = .sleeping then .runnable else q.state }

/-- `p->lock` is held, although no step is under way. -/
def State.locked (s : State) (p : Fin NPROC) : Prop := (s.proc p).pc = .exited

instance (s : State) (p : Fin NPROC) : Decidable (s.locked p) := inferInstanceAs (Decidable (_ = _))

/-- The round of `wakeup(chan)` for entry `j`, called by `p`, which goes on at `pc`. -/
def wakeEntry (s : State) (p j : Fin NPROC) (chan : Option (Fin NPROC)) (pc : Pc) : Option State :=
  if j = p then some (s.goto p pc)
  else if s.locked j then none
  else some ((s.set j ((s.proc j).wake chan)).goto p pc)

def reparentEntry (s : State) (p : Fin NPROC) (status : Int) (i : Fin NPROC) : State :=
  if (s.proc i).parent = some p then
    (s.set i { s.proc i with parent := some s.initproc }).goto p (.reparentWake status i 0)
  else s.goto p (.reparent status (i + 1))

/-- The end of `kexit`, up to `sched`. -/
def exitMark (s : State) (p : Fin NPROC) (status : Int) : State :=
  (s.set p { s.proc p with xstate := status, state := .zombie, pc := .exited }).setWaitLock none

/-- `release(&wait_lock)` and a return to user mode. -/
def leaveWait (s : State) (p : Fin NPROC) : State := (s.setWaitLock none).goto p .user

def scanEntry (s : State) (p : Fin NPROC) (addr : Bool) (i : Fin NPROC) (havekids copied : Bool) :
    Option (State × Ret) :=
  if (s.proc i).parent = some p then
    if s.locked i then none
    else if (s.proc i).state = .zombie then
      if addr ∧ !copied then some (leaveWait s p, .value (-1))
      else
        some (leaveWait (s.set i (freeproc (s.proc i))) p, .reaped i (s.proc i).pid (s.proc i).xstate)
    else some (s.goto p (.waitScan addr (i + 1) true), .none)
  else some (s.goto p (.waitScan addr (i + 1) havekids), .none)

/-- `kwait` after its scan. -/
def scanEnd (s : State) (p : Fin NPROC) (addr havekids : Bool) : State × Ret :=
  if !havekids ∨ (s.proc p).killed then (leaveWait s p, .value (-1))
  else
    ((s.set p { s.proc p with state := .sleeping, chan := some p, pc := .waitSleep addr }).setWaitLock none, .none)

def advance (s : State) (p : Fin NPROC) (copied : Bool) : Option (State × Ret) :=
  match (s.proc p).pc with
  | .forkParent np =>
    if s.waitLock = none then
      some ((s.set np { s.proc np with parent := some p }).goto p (.forkRunnable np), .none)
    else none
  | .forkRunnable np =>
    some ((s.set np { s.proc np with state := .runnable }).goto p .user, .value (s.proc np).pid)
  | .reparent status i =>
    if h : i < NPROC then some (reparentEntry s p status ⟨i, h⟩, .none)
    else some (s.goto p (.exitWake status 0), .none)
  | .reparentWake status i j =>
    if h : j < NPROC then
      (wakeEntry s p ⟨j, h⟩ (some s.initproc) (.reparentWake status i (j + 1))).map (·, .none)
    else some (s.goto p (.reparent status (i + 1)), .none)
  | .exitWake status j =>
    if h : j < NPROC then
      (wakeEntry s p ⟨j, h⟩ (s.proc p).parent (.exitWake status (j + 1))).map (·, .none)
    else some (s.goto p (.exitMark status), .none)
  | .exitMark status => some (exitMark s p status, .exited status)
  | .waitScan addr i havekids =>
    if h : i < NPROC then scanEntry s p addr ⟨i, h⟩ havekids copied
    else some (scanEnd s p addr havekids)
  | .waitSleep addr =>
    if s.waitLock = none then
      some (((s.set p { s.proc p with chan := none }).setWaitLock (some p)).goto p (.waitScan addr 0 false), .none)
    else none
  | .user | .exited | .dead => none

def State.canRun (s : State) (p : Fin NPROC) : Prop := (s.proc p).state = .runnable ∨ (s.proc p).state = .running

instance (s : State) (p : Fin NPROC) : Decidable (s.canRun p) := inferInstanceAs (Decidable (_ ∨ _))

def exec (s : State) : Act → Option (State × Ret)
  | .fork p np mem =>
    if s.canRun p ∧ (s.proc p).pc = .user then
      match np with
      | some np => if (s.proc np).state = .unused then some (kfork s p np mem) else none
      | none => some (s, .value (-1))
    else none
  | .exit p status =>
    -- init must not exit: `panic("init exiting")`.
    if s.canRun p ∧ (s.proc p).pc = .user ∧ p ≠ s.initproc ∧ s.waitLock = none then
      some ((s.setWaitLock (some p)).goto p (.reparent status 0), .none)
    else none
  | .wait p addr =>
    if s.canRun p ∧ (s.proc p).pc = .user ∧ s.waitLock = none then
      some ((s.setWaitLock (some p)).goto p (.waitScan addr 0 false), .none)
    else none
  | .advance p copied => if s.canRun p then advance s p copied else none
  | .park p => if s.locked p then some (s.goto p .dead, .none) else none
  | .kill p => if s.locked p then none else some (s.set p (s.proc p).kill, .none)

abbrev Step : State → Event → State → Prop := Exec exec

/-! ## What a step can do -/

def Pc.holdsWait : Pc → Bool
  | .reparent _ _ | .reparentWake _ _ _ | .exitWake _ _ | .exitMark _ | .waitScan _ _ _ => true
  | _ => false

/-- A process between two states that the others do not tell apart. -/
structure SameProc (q q' : Proc) : Prop where
  pid : q'.pid = q.pid
  parent : q'.parent = q.parent
  xstate : q'.xstate = q.xstate
  unused : q'.state = .unused ↔ q.state = .unused
  used : q'.state = .used ↔ q.state = .used
  zombie : q'.state = .zombie ↔ q.state = .zombie

/-- The ways through `kexit` and `kwait`, with what the process has seen. -/
inductive Edge (s : State) (p : Fin NPROC) : Pc → Pc → Prop
  | stay (pc : Pc) : Edge s p pc pc
  | exit (status : Int) (init : p ≠ s.initproc) : Edge s p .user (.reparent status 0)
  | reparentSkip (status : Int) (i : Fin NPROC) (other : (s.proc i).parent ≠ some p) :
      Edge s p (.reparent status i) (.reparent status (i + 1))
  | reparentEnd (status : Int) (i : Nat) (all : NPROC ≤ i) :
      Edge s p (.reparent status i) (.exitWake status 0)
  | reparentWake (status : Int) (i j : Nat) :
      Edge s p (.reparentWake status i j) (.reparentWake status i (j + 1))
  | reparentNext (status : Int) (i j : Nat) :
      Edge s p (.reparentWake status i j) (.reparent status (i + 1))
  | exitWake (status : Int) (j : Nat) : Edge s p (.exitWake status j) (.exitWake status (j + 1))
  | exitWakeEnd (status : Int) (j : Nat) : Edge s p (.exitWake status j) (.exitMark status)
  | park : Edge s p .exited .dead
  | wait (addr : Bool) : Edge s p .user (.waitScan addr 0 false)
  | scanSkip (addr : Bool) (i : Fin NPROC) (havekids : Bool)
      (other : (s.proc i).parent ≠ some p) :
      Edge s p (.waitScan addr i havekids) (.waitScan addr (i + 1) havekids)
  | scanKid (addr : Bool) (i : Nat) (havekids : Bool) :
      Edge s p (.waitScan addr i havekids) (.waitScan addr (i + 1) true)
  | waitReturn (addr : Bool) (i : Nat) (havekids : Bool) :
      Edge s p (.waitScan addr i havekids) .user
  | waitSleep (addr : Bool) (i : Nat) (havekids : Bool) :
      Edge s p (.waitScan addr i havekids) (.waitSleep addr)
  | waitAgain (addr : Bool) : Edge s p (.waitSleep addr) (.waitScan addr 0 false)

/-- Process `p` takes a step that nobody is born or dies in, and that leaves the family as it is. -/
structure Turn (s : State) (p : Fin NPROC) (s' : State) : Prop where
  init : s'.initproc = s.initproc
  same : ∀ i, SameProc (s.proc i) (s'.proc i)
  others : ∀ q ≠ p, (s'.proc q).pc = (s.proc q).pc
  edge : Edge s p (s.proc p).pc (s'.proc p).pc
  /-- Only a process that is on a CPU changes its place, the end of `kexit` apart. -/
  runs : (s'.proc p).pc ≠ (s.proc p).pc → (s.proc p).pc ≠ .exited → s.canRun p
  take : (s.proc p).pc.holdsWait = false → (s'.proc p).pc.holdsWait = true → s.waitLock = none ∧ s'.waitLock = some p
  free : (s.proc p).pc.holdsWait = true → (s'.proc p).pc.holdsWait = false → s'.waitLock = none
  keep : (s'.proc p).pc.holdsWait = (s.proc p).pc.holdsWait → s'.waitLock = s.waitLock

inductive Moved (s : State) (p : Fin NPROC) : Ret → State → Prop
  | turn (r : Ret) (s' : State) (turn : Turn s p s') (ret : r = .none ∨ ∃ v, r = .value v) :
      Moved s p r s'
  | forkFails (np : Fin NPROC) (unused : (s.proc np).state = .unused) :
      Moved s p (.value (-1)) ({ s with nextpid := int32 (s.nextpid + 1) }.set np (freeproc (s.proc np)))
  | forked (np : Fin NPROC) (unused : (s.proc np).state = .unused) (user : (s.proc p).pc = .user)
      (runs : s.canRun p) :
      Moved s p (.forked np s.nextpid)
        (({ s with nextpid := int32 (s.nextpid + 1) }.set np
          { s.proc np with pid := s.nextpid, state := .used, pc := .user }).goto p (.forkParent np))
  | forkParent (np : Fin NPROC) (pc : (s.proc p).pc = .forkParent np) (free : s.waitLock = none) :
      Moved s p .none ((s.set np { s.proc np with parent := some p }).goto p (.forkRunnable np))
  | forkRunnable (np : Fin NPROC) (pc : (s.proc p).pc = .forkRunnable np) :
      Moved s p (.value (s.proc np).pid) ((s.set np { s.proc np with state := .runnable }).goto p .user)
  | adopt (status : Int) (i : Fin NPROC) (pc : (s.proc p).pc = .reparent status i)
      (child : (s.proc i).parent = some p) :
      Moved s p .none ((s.set i { s.proc i with parent := some s.initproc }).goto p (.reparentWake status i 0))
  | exitMark (status : Int) (pc : (s.proc p).pc = .exitMark status) (runs : s.canRun p) :
      Moved s p (.exited status) (Family.exitMark s p status)
  | reaped (addr : Bool) (i : Fin NPROC) (havekids : Bool)
      (pc : (s.proc p).pc = .waitScan addr i havekids) (child : (s.proc i).parent = some p)
      (unlocked : (s.proc i).pc ≠ .exited) (zombie : (s.proc i).state = .zombie)
      (runs : s.canRun p) :
      Moved s p (.reaped i (s.proc i).pid (s.proc i).xstate) (leaveWait (s.set i (freeproc (s.proc i))) p)

def Act.proc : Act → Fin NPROC
  | .fork p _ _ | .exit p _ | .wait p _ | .advance p _ | .park p | .kill p => p

section Inversion

variable {s s' : State} {p q i j : Fin NPROC} {pc : Pc} {r : Ret}

@[simp] theorem set_self (q : Proc) : (s.set p q).proc p = q := by
  simp [State.set]

@[simp] theorem set_of_ne (h : i ≠ p) (q : Proc) : (s.set p q).proc i = s.proc i := by
  simp [State.set, h]

@[simp] theorem goto_self : (s.goto p pc).proc p = { s.proc p with pc := pc } := set_self _
@[simp] theorem goto_of_ne (h : i ≠ p) : (s.goto p pc).proc i = s.proc i := set_of_ne h _
@[simp] theorem setWaitLock_proc (o : Option (Fin NPROC)) : (s.setWaitLock o).proc = s.proc := rfl

theorem set_parent (q : Proc) : ((s.set p q).proc j).parent = if j = p then q.parent else (s.proc j).parent := by
  by_cases hj : j = p <;> simp [hj]
theorem set_state (q : Proc) : ((s.set p q).proc j).state = if j = p then q.state else (s.proc j).state := by
  by_cases hj : j = p <;> simp [hj]
theorem set_pc (q : Proc) : ((s.set p q).proc j).pc = if j = p then q.pc else (s.proc j).pc := by
  by_cases hj : j = p <;> simp [hj]
theorem goto_parent : ((s.goto p pc).proc j).parent = (s.proc j).parent := by
  by_cases hj : j = p <;> simp [hj]
theorem goto_state : ((s.goto p pc).proc j).state = (s.proc j).state := by
  by_cases hj : j = p <;> simp [hj]
theorem goto_pc : ((s.goto p pc).proc j).pc = if j = p then pc else (s.proc j).pc := by
  by_cases hj : j = p <;> simp [hj]

theorem SameProc.refl (q : Proc) : SameProc q q := ⟨rfl, rfl, rfl, .rfl, .rfl, .rfl⟩

theorem SameProc.trans {q q' q'' : Proc} (h : SameProc q q') (h' : SameProc q' q'') : SameProc q q'' :=
  ⟨h'.pid.trans h.pid, h'.parent.trans h.parent, h'.xstate.trans h.xstate,
    h'.unused.trans h.unused, h'.used.trans h.used, h'.zombie.trans h.zombie⟩

theorem SameProc.goto (s : State) (p i : Fin NPROC) (pc : Pc) : SameProc (s.proc i) ((s.goto p pc).proc i) := by
  by_cases hi : i = p
  · subst hi
    rw [goto_self]
    exact ⟨rfl, rfl, rfl, .rfl, .rfl, .rfl⟩
  · rw [goto_of_ne hi]
    exact .refl _

theorem SameProc.set {q : Proc} (h : SameProc (s.proc p) q) (i : Fin NPROC) :
    SameProc (s.proc i) ((s.set p q).proc i) := by
  by_cases hi : i = p
  · subst hi
    rw [set_self]
    exact h
  · rw [set_of_ne hi]
    exact .refl _

theorem SameProc.wake (q : Proc) (chan : Option (Fin NPROC)) : SameProc q (q.wake chan) := by
  unfold Proc.wake
  split
  · rename_i hsleep
    exact ⟨rfl, rfl, rfl, by simp [hsleep.1], by simp [hsleep.1], by simp [hsleep.1]⟩
  · exact .refl q

theorem SameProc.kill (q : Proc) : SameProc q q.kill := by
  by_cases hsleep : q.state = .sleeping
  all_goals exact ⟨rfl, rfl, rfl, by simp [Proc.kill, hsleep], by simp [Proc.kill, hsleep], by simp [Proc.kill, hsleep]⟩

@[simp] theorem wake_pc (q : Proc) (chan : Option (Fin NPROC)) : (q.wake chan).pc = q.pc := by
  unfold Proc.wake
  split <;> rfl

theorem Turn.own {q : Proc} (hinit : s'.initproc = s.initproc)
    (hproc : s'.proc = update s.proc p q) (hsame : SameProc (s.proc p) q) (hedge : Edge s p (s.proc p).pc q.pc)
    (hruns : q.pc ≠ (s.proc p).pc → (s.proc p).pc ≠ .exited → s.canRun p)
    (htake : (s.proc p).pc.holdsWait = false → q.pc.holdsWait = true → s.waitLock = none ∧ s'.waitLock = some p)
    (hfree : (s.proc p).pc.holdsWait = true → q.pc.holdsWait = false → s'.waitLock = none)
    (hkeep : q.pc.holdsWait = (s.proc p).pc.holdsWait → s'.waitLock = s.waitLock) : Turn s p s' := by
  have hp : s'.proc p = q := by rw [hproc, update_self]
  refine ⟨hinit, fun i => ?_, fun i hi => ?_, hp ▸ hedge, hp ▸ hruns, hp ▸ htake, hp ▸ hfree, hp ▸ hkeep⟩
  · by_cases hi : i = p
    · rw [hi, hp]
      exact hsame
    · rw [hproc, update_of_ne hi]
      exact .refl _
  · rw [hproc, update_of_ne hi]

theorem Turn.goto {old : Pc} (hpc : (s.proc p).pc = old) (hedge : Edge s p old pc) (hruns : s.canRun p)
    (hlock : pc.holdsWait = old.holdsWait) : Turn s p (s.goto p pc) := by
  subst hpc
  refine Turn.own rfl rfl ⟨rfl, rfl, rfl, .rfl, .rfl, .rfl⟩ hedge (fun _ _ => hruns) ?_ ?_ fun _ => rfl
  · intro hout hin
    rw [hlock, hout] at hin
    cases hin
  · intro hin hout
    rw [hlock, hin] at hout
    cases hout

theorem Turn.stay {q : Proc} (hinit : s'.initproc = s.initproc)
    (hproc : s'.proc = update s.proc p q) (hlock : s'.waitLock = s.waitLock)
    (hsame : SameProc (s.proc p) q) (hpc : q.pc = (s.proc p).pc) : Turn s p s' := by
  refine Turn.own hinit hproc hsame ?_ (fun hne => absurd hpc hne) ?_ ?_ fun _ => hlock
  · rw [hpc]
    exact .stay _
  · intro hout hin
    rw [hpc, hout] at hin
    cases hin
  · intro hin hout
    rw [hpc, hin] at hout
    cases hout

theorem Turn.take_wait {q : Proc} (hsame : SameProc (s.proc p) q)
    (hedge : Edge s p (s.proc p).pc q.pc) (hruns : s.canRun p) (hfree : s.waitLock = none)
    (hout : (s.proc p).pc.holdsWait = false) (hin : q.pc.holdsWait = true) :
    Turn s p ((s.set p q).setWaitLock (some p)) := by
  refine Turn.own rfl rfl hsame hedge (fun _ _ => hruns) (fun _ _ => ⟨hfree, rfl⟩) ?_ ?_
  · intro hin'
    rw [hout] at hin'
    cases hin'
  · intro hkeep
    rw [hin, hout] at hkeep
    cases hkeep

theorem Turn.drop_wait {q : Proc} (hsame : SameProc (s.proc p) q)
    (hedge : Edge s p (s.proc p).pc q.pc) (hruns : s.canRun p)
    (hin : (s.proc p).pc.holdsWait = true) (hout : q.pc.holdsWait = false) :
    Turn s p ((s.set p q).setWaitLock none) := by
  refine Turn.own rfl rfl hsame hedge (fun _ _ => hruns) ?_ (fun _ _ => rfl) ?_
  · intro hout'
    rw [hin] at hout'
    cases hout'
  · intro hkeep
    rw [hin, hout] at hkeep
    cases hkeep

theorem Turn.leaveWait {addr havekids : Bool} {i : Nat} (hruns : s.canRun p)
    (hpc : (s.proc p).pc = .waitScan addr i havekids) : Turn s p (leaveWait s p) := by
  apply Turn.drop_wait (q := { s.proc p with pc := .user }) ⟨rfl, rfl, rfl, .rfl, .rfl, .rfl⟩
  · rw [hpc]
    exact .waitReturn addr i havekids
  · exact hruns
  · rw [hpc]; rfl
  · rfl

theorem Turn.wakeEntry {chan : Option (Fin NPROC)} {old : Pc} (h : wakeEntry s p j chan pc = some s')
    (hpc : (s.proc p).pc = old) (hedge : Edge s p old pc) (hruns : s.canRun p)
    (hlock : pc.holdsWait = old.holdsWait) : Turn s p s' := by
  subst hpc
  unfold Family.wakeEntry at h
  split at h
  · cases h
    exact Turn.goto rfl hedge hruns hlock
  rename_i hj
  have hp : (s.set j ((s.proc j).wake chan)).proc p = s.proc p := set_of_ne (fun heq => hj heq.symm) _
  split at h
  · cases h
  cases h
  refine ⟨rfl, fun i => ?_, fun q hq => ?_, ?_, fun _ _ => hruns, fun hout hin => ?_, fun hin hout => ?_, fun _ => rfl⟩
  · exact (SameProc.set (SameProc.wake _ chan) i).trans (SameProc.goto _ p i pc)
  · rw [goto_of_ne hq]
    by_cases hqj : q = j
    · subst hqj
      simp
    · simp [hqj]
  · simpa using hedge
  · rw [goto_self] at hin
    simp [hlock, hout] at hin
  · rw [goto_self] at hout
    simp [hlock, hin] at hout

theorem advance_moved {copied : Bool} (hruns : s.canRun p) (h : advance s p copied = some (s', r)) :
    Moved s p r s' := by
  unfold advance at h
  split at h
  case h_1 np hpc =>
    split at h
    · cases h
      exact .forkParent np hpc ‹_›
    · cases h
  case h_2 np hpc =>
    cases h
    exact .forkRunnable np hpc
  case h_3 status i hpc =>
    split at h
    · rename_i hi
      cases h
      unfold reparentEntry
      split
      · exact .adopt status ⟨i, hi⟩ hpc ‹_›
      · exact .turn _ _ (Turn.goto hpc (.reparentSkip status ⟨i, hi⟩ ‹_›) hruns rfl) (.inl rfl)
    rename_i hi
    cases h
    exact .turn _ _ (Turn.goto hpc (.reparentEnd status i (Nat.le_of_not_lt hi)) hruns rfl) (.inl rfl)
  case h_4 status i j hpc =>
    split at h
    · obtain ⟨s₁, hwake, ⟨⟩⟩ := Option.map_eq_some_iff.mp h
      exact .turn _ _ (Turn.wakeEntry hwake hpc (.reparentWake status i j) hruns rfl) (.inl rfl)
    cases h
    exact .turn _ _ (Turn.goto hpc (.reparentNext status i j) hruns rfl) (.inl rfl)
  case h_5 status j hpc =>
    split at h
    · obtain ⟨s₁, hwake, ⟨⟩⟩ := Option.map_eq_some_iff.mp h
      exact .turn _ _ (Turn.wakeEntry hwake hpc (.exitWake status j) hruns rfl) (.inl rfl)
    cases h
    exact .turn _ _ (Turn.goto hpc (.exitWakeEnd status j) hruns rfl) (.inl rfl)
  case h_6 status hpc =>
    cases h
    exact .exitMark status hpc hruns
  case h_7 addr i havekids hpc =>
    split at h
    · rename_i hi
      unfold scanEntry at h
      split at h
      · split at h
        · cases h
        split at h
        · split at h
          · cases h
            exact .turn _ _ (Turn.leaveWait hruns hpc) (.inr ⟨_, rfl⟩)
          · cases h
            exact .reaped addr ⟨i, hi⟩ havekids hpc ‹_› ‹_› ‹_› hruns
        cases h
        exact .turn _ _ (Turn.goto hpc (.scanKid addr i havekids) hruns rfl) (.inl rfl)
      cases h
      exact .turn _ _ (Turn.goto hpc (.scanSkip addr ⟨i, hi⟩ havekids ‹_›) hruns rfl) (.inl rfl)
    unfold scanEnd at h
    split at h
    · cases h
      exact .turn _ _ (Turn.leaveWait hruns hpc) (.inr ⟨_, rfl⟩)
    cases h
    refine .turn _ _ (Turn.drop_wait ?_ ?_ hruns (by rw [hpc]; rfl) rfl) (.inl rfl)
    · refine ⟨rfl, rfl, rfl, ?_, ?_, ?_⟩
      all_goals rcases hruns with hrun | hrun <;> simp [hrun]
    · rw [hpc]
      exact .waitSleep addr i havekids
  case h_8 addr hpc =>
    obtain ⟨hfree, ⟨⟩⟩ := Option.ite_none_right_eq_some.mp h
    have hstate : (((s.set p { s.proc p with chan := none }).setWaitLock (some p)).goto p
        (.waitScan addr 0 false)) = (s.set p { s.proc p with
          chan := none, pc := .waitScan addr 0 false }).setWaitLock (some p) := by
      simp [State.goto, State.set, State.setWaitLock]
    rw [hstate]
    refine .turn _ _ (Turn.take_wait ⟨rfl, rfl, rfl, .rfl, .rfl, .rfl⟩ ?_ hruns hfree
      (by rw [hpc]; rfl) rfl) (.inl rfl)
    rw [hpc]
    exact .waitAgain addr
  case h_9 => cases h
  case h_10 => cases h
  case h_11 => cases h

theorem step_moved {a : Act} (h : Step s (a, r) s') : Moved s a.proc r s' := by
  cases a with
  | fork p np mem =>
    obtain ⟨hguard, h⟩ := Option.ite_none_right_eq_some.mp h
    cases np with
    | none =>
      cases h
      exact .turn _ _ (Turn.stay rfl (update_eq_self p s.proc).symm rfl (.refl _) rfl) (.inr ⟨_, rfl⟩)
    | some np =>
      dsimp only at h
      split at h
      · unfold kfork at h
        cases mem with
        | false =>
          cases h
          exact .forkFails np ‹_›
        | true =>
          cases h
          exact .forked np ‹_› hguard.2 hguard.1
      · cases h
  | exit p status =>
    obtain ⟨hguard, ⟨⟩⟩ := Option.ite_none_right_eq_some.mp h
    obtain ⟨hruns, hpc, hinit, hfree⟩ := hguard
    refine .turn _ _ (Turn.take_wait (p := p) (q := { s.proc p with pc := .reparent status 0 })
      ⟨rfl, rfl, rfl, .rfl, .rfl, .rfl⟩ ?_ hruns hfree (by rw [hpc]; rfl) rfl) (.inl rfl)
    rw [hpc]
    exact .exit status hinit
  | wait p addr =>
    obtain ⟨hguard, ⟨⟩⟩ := Option.ite_none_right_eq_some.mp h
    obtain ⟨hruns, hpc, hfree⟩ := hguard
    refine .turn _ _ (Turn.take_wait (p := p) (q := { s.proc p with pc := .waitScan addr 0 false })
      ⟨rfl, rfl, rfl, .rfl, .rfl, .rfl⟩ ?_ hruns hfree (by rw [hpc]; rfl) rfl) (.inl rfl)
    rw [hpc]
    exact .wait addr
  | advance =>
    simp only [Step, Exec, exec] at h
    split at h
    · exact advance_moved ‹_› h
    · cases h
  | park p =>
    obtain ⟨hlocked, h⟩ := Option.ite_none_right_eq_some.mp h
    have hpc : (s.proc p).pc = .exited := hlocked
    cases h
    refine .turn _ _ (Turn.own (p := p) (q := { s.proc p with pc := .dead }) rfl rfl
      ⟨rfl, rfl, rfl, .rfl, .rfl, .rfl⟩ ?_ ?_ ?_ ?_ fun _ => rfl) (.inl rfl)
    · rw [hpc]
      exact .park
    · exact fun _ hne => absurd hpc hne
    · intro _ hin
      cases hin
    · rw [hpc]
      intro hin
      cases hin
  | kill p =>
    simp only [Step, Exec, exec] at h
    split at h
    · cases h
    · cases h
      exact .turn _ _ (Turn.stay rfl rfl rfl (SameProc.kill (s.proc p)) rfl) (.inl rfl)

end Inversion

end Xv6.Family
