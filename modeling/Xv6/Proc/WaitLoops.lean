import Mathlib.Data.List.FinRange
import Xv6.Pipe.Model
import Xv6.Sem.Model

/-!
# The loops in which a process waits for another one

`piperead`, `pipewrite`, `consoleread`, `kwait`, `sys_pause` and `sem_wait`, in one system, with `kill` at any moment.
A process goes from one test of its loop to the next one, to `sleep` or out of the call, with the lock of the loop
held.  What the loops look at is changed by the others in any way, but only while the lock that protects it is free.
What `copyin` finds in the user's memory, and whether `copyout` succeeds, is part of the action.
-/

namespace Xv6.Waits

open Function Runs

structure Console where
  buf : Fin INPUT_BUF_SIZE → UInt8
  r : BitVec 32
  w : BitVec 32

structure Child where
  parent : Option (Fin NPROC)
  state : ProcState
  pid : Int

structure Shared where
  pipe : Nat → Pipes.Pipe
  cons : Console
  children : Fin NPROC → Child
  ticks : BitVec 32
  semtable : Fin NSEM → Sem.SemSlot

inductive Lock where
  | pipe (k : Nat)
  | cons
  | wait
  | ticks
  | sem (i : Fin NSEM)
  deriving DecidableEq, Repr

inductive Chan where
  | nread (k : Nat)
  | nwrite (k : Nat)
  | cons
  | proc (p : Fin NPROC)
  | ticks
  | sem (i : Fin NSEM)
  deriving DecidableEq, Repr

/-- A loop, with the variables of the call; `k` is the pipe. -/
inductive Loop where
  | piperead (k : Nat) (n : Int)
  /-- The second loop of `piperead`, which does not sleep. -/
  | pipereadCopy (k : Nat) (n : Int) (i : Nat)
  | pipewrite (k : Nat) (n : Int) (i : Nat)
  | consoleread (target n : Int)
  | wait
  | pause (n : Int) (ticks0 : BitVec 32)
  | semWait (i : Fin NSEM)
  deriving DecidableEq, Repr

/-- What the user's memory has to offer at the next access. -/
structure Memory where
  copyin : Option UInt8
  copyout : Bool
  deriving DecidableEq, Repr

inductive Outcome where
  | again (l : Loop)
  /-- The next statement is `sleep`. -/
  | block (l : Loop)
  | leave (r : Int)
  deriving DecidableEq, Repr

structure Round where
  data : Shared
  woken : List Chan
  outcome : Outcome

def Loop.lock : Loop → Lock
  | .piperead k _ | .pipereadCopy k _ _ | .pipewrite k _ _ => .pipe k
  | .consoleread _ _ => .cons
  | .wait => .wait
  | .pause _ _ => .ticks
  | .semWait i => .sem i

def Loop.chan (p : Fin NPROC) : Loop → Chan
  | .piperead k _ | .pipereadCopy k _ _ => .nread k
  | .pipewrite k _ _ => .nwrite k
  | .consoleread _ _ => .cons
  | .wait => .proc p
  | .pause _ _ => .ticks
  | .semWait i => .sem i

/-! ## One round of each loop -/

section Rounds

variable (d : Shared) (p : Fin NPROC) (killed : Bool) (mem : Memory)

def Shared.setPipe (k : Nat) (pi : Pipes.Pipe) : Shared := { d with pipe := update d.pipe k pi }

def piperead (k : Nat) (n : Int) : Round :=
  if (d.pipe k).isEmpty ∧ (d.pipe k).writeopen then
    if killed then ⟨d, [], .leave (-1)⟩ else ⟨d, [], .block (.piperead k n)⟩
  else ⟨d, [], .again (.pipereadCopy k n 0)⟩

def pipereadCopy (k : Nat) (n : Int) (i : Nat) : Round :=
  if i < n ∧ ¬ (d.pipe k).isEmpty then
    if mem.copyout then
      ⟨d.setPipe k { d.pipe k with nread := (d.pipe k).nread + 1 }, [], .again (.pipereadCopy k n (i + 1))⟩
    else ⟨d, [.nwrite k], .leave (if i = 0 then -1 else i)⟩
  else ⟨d, [.nwrite k], .leave i⟩

def pipewrite (k : Nat) (n : Int) (i : Nat) : Round :=
  if i < n then
    if (d.pipe k).readopen = false ∨ killed then ⟨d, [], .leave (-1)⟩
    else if (d.pipe k).isFull then ⟨d, [.nread k], .block (.pipewrite k n i)⟩
    else
      match mem.copyin with
      | some ch => ⟨d.setPipe k ((d.pipe k).store ch), [], .again (.pipewrite k n (i + 1))⟩
      | none => ⟨d, [.nread k], .leave i⟩
  else ⟨d, [.nread k], .leave i⟩

def consoleread (target n : Int) : Round :=
  if 0 < n then
    if d.cons.r = d.cons.w then
      if killed then ⟨d, [], .leave (-1)⟩ else ⟨d, [], .block (.consoleread target n)⟩
    else
      let c := d.cons.buf (Ring.cell INPUT_BUF_SIZE d.cons.r)
      let read : Shared := { d with cons := { d.cons with r := d.cons.r + 1 } }
      -- C('D'), the end of file, is kept for the next call if this one has bytes to return.
      if c = 4 then ⟨if n < target then d else read, [], .leave (target - n)⟩
      else if !mem.copyout then ⟨read, [], .leave (target - n)⟩
      else if c = 10 then ⟨read, [], .leave (target - (n - 1))⟩
      else ⟨read, [], .again (.consoleread target (n - 1))⟩
  else ⟨d, [], .leave (target - n)⟩

/-- The exited child that the scan of `kwait` finds. -/
def exitedChild : Option (Fin NPROC) :=
  (List.finRange NPROC).find? fun pp =>
    (d.children pp).parent = some p ∧ (d.children pp).state = .zombie

def kwait : Round :=
  match exitedChild d p with
  | some pp =>
    -- With `addr == 0` there is nothing to copy.
    if mem.copyout then
      ⟨{ d with children := update d.children pp ⟨none, .unused, 0⟩ }, [], .leave (d.children pp).pid⟩
    else ⟨d, [], .leave (-1)⟩
  | none =>
    if (¬ ∃ pp, (d.children pp).parent = some p) ∨ killed then ⟨d, [], .leave (-1)⟩
    else ⟨d, [], .block .wait⟩

def pause (n : Int) (ticks0 : BitVec 32) : Round :=
  if (d.ticks - ticks0).toNat < n then
    if killed then ⟨d, [], .leave (-1)⟩ else ⟨d, [], .block (.pause n ticks0)⟩
  else ⟨d, [], .leave 0⟩

def semWait (i : Fin NSEM) : Round :=
  let slot := d.semtable i
  if slot.value < 0 then
    ⟨{ d with semtable := update d.semtable i { slot with nwaiting := slot.nwaiting + 1 } }, [], .block (.semWait i)⟩
  else ⟨d, [], .leave 0⟩

/-- From the head of the loop to the end of the round. -/
def round : Loop → Round
  | .piperead k n => piperead d killed k n
  | .pipereadCopy k n i => pipereadCopy d mem k n i
  | .pipewrite k n i => pipewrite d killed mem k n i
  | .consoleread target n => consoleread d killed mem target n
  | .wait => kwait d p killed mem
  | .pause n ticks0 => pause d killed n ticks0
  | .semWait i => semWait d i

/-- From the end of `sleep`, with the lock taken again, to the head of the loop. -/
def afterSleep : Loop → Round
  | .semWait i =>
    let slot := { d.semtable i with nwaiting := (d.semtable i).nwaiting - 1 }
    let d := { d with semtable := update d.semtable i slot }
    if !slot.used then ⟨d, [], .leave (-1)⟩ else ⟨d, [], .again (.semWait i)⟩
  | l => ⟨d, [], .again l⟩

end Rounds

/-! ## The system -/

inductive Call where
  | piperead (k : Nat) (n : Int)
  | pipewrite (k : Nat) (n : Int)
  | consoleread (n : Int)
  | wait
  | pause (n : Int)
  | semWait (id : Int)
  deriving DecidableEq, Repr

inductive Pc where
  | user
  /-- In `syscall()`, after `usertrap` has seen that the process is not killed. -/
  | syscall
  /-- At the head of the loop, with its lock held. -/
  | test (l : Loop)
  /-- Before `sleep`, with the lock held. -/
  | mark (l : Loop)
  /-- In `sleep`, without the lock. -/
  | asleep (l : Loop)
  /-- Back in `usertrap`, before `if(killed(p))`. -/
  | trapReturn
  | gone
  deriving DecidableEq, Repr

structure State where
  data : Shared
  lock : Lock → Option (Fin NPROC)
  proc : Fin NPROC → Thread Chan Pc

structure Idle (s : State) : Prop where
  lock : ∀ k, s.lock k = none
  proc : ∀ p, s.proc p = { state := .running, chan := none, killed := false, pc := .user }

inductive Act where
  /-- `usertrap` up to `syscall()`. -/
  | trap (p : Fin NPROC)
  | call (p : Fin NPROC) (c : Call)
  | round (p : Fin NPROC) (mem : Memory)
  /-- The process calls `sleep` in its loop. -/
  | sleep (p : Fin NPROC)
  /-- The process runs again after `sleep`. -/
  | resume (p : Fin NPROC)
  | trapReturn (p : Fin NPROC)
  | kill (p : Fin NPROC)
  /-- Interrupts and other calls change what the loops look at. -/
  | setPipe (k : Nat) (pi : Pipes.Pipe)
  | setCons (cons : Console)
  | setChild (pp : Fin NPROC) (c : Child)
  | setTicks (ticks : BitVec 32)
  | setSem (i : Fin NSEM) (slot : Sem.SemSlot)
  | wakeup (chan : Chan)

abbrev Event := Act × Unit

def State.setProc (s : State) (p : Fin NPROC) (t : Thread Chan Pc) : State := { s with proc := update s.proc p t }

def State.goto (s : State) (p : Fin NPROC) (pc : Pc) : State := s.setProc p { s.proc p with pc := pc }

def State.setLock (s : State) (k : Lock) (o : Option (Fin NPROC)) : State := { s with lock := update s.lock k o }

def State.wakeups (s : State) (p : Fin NPROC) (woken : List Chan) : State :=
  { s with proc := woken.foldl (fun proc chan => Xv6.wakeup p chan proc) s.proc }

def Outcome.pc : Outcome → Pc
  | .again l => .test l
  | .block l => .mark l
  | .leave _ => .trapReturn

def State.after (s : State) (p : Fin NPROC) (k : Lock) (r : Round) : State :=
  let s := { s with data := r.data }.wakeups p r.woken
  let s := match r.outcome with
    | .leave _ => s.setLock k none
    | _ => s
  s.goto p r.outcome.pc

def enter (s : State) (p : Fin NPROC) (l : Loop) : Option State :=
  if s.lock l.lock = none then some ((s.setLock l.lock (some p)).goto p (.test l)) else none

def call (s : State) (p : Fin NPROC) : Call → Option State
  | .piperead k n => enter s p (.piperead k n)
  | .pipewrite k n => enter s p (.pipewrite k n 0)
  | .consoleread n => enter s p (.consoleread n n)
  | .wait => enter s p .wait
  | .pause n => enter s p (.pause (max n 0) s.data.ticks)
  | .semWait id =>
    match Sem.slotOf id with
    | none => some (s.goto p .trapReturn)
    | some i =>
      let slot := s.data.semtable i
      if s.lock (.sem i) ≠ none then none
      else if !slot.used then some (s.goto p .trapReturn)
      else
        enter { s with data := { s.data with
          semtable := update s.data.semtable i { slot with value := int32 (slot.value - 1) } } } p (.semWait i)

/-- Something outside of the loops changes a part of the data, under its lock. -/
def outside (s : State) (k : Lock) (d : Shared) : Option State :=
  if s.lock k = none then some { s with data := d } else none

def step (s : State) : Act → Option State
  | .trap p =>
    if (s.proc p).pc = .user then
      some (s.goto p (if (s.proc p).killed then .gone else .syscall))
    else none
  | .call p c => if (s.proc p).pc = .syscall then call s p c else none
  | .round p mem =>
    match (s.proc p).pc with
    | .test l => some (s.after p l.lock (round s.data p (s.proc p).killed mem l))
    | _ => none
  | .sleep p =>
    match (s.proc p).pc with
    | .mark l =>
      some ((s.setLock l.lock none).setProc p ((s.proc p).sleep (l.chan p) (.asleep l)))
    | _ => none
  | .resume p =>
    match (s.proc p).pc with
    | .asleep l =>
      if (s.proc p).state ≠ .sleeping ∧ s.lock l.lock = none then
        some (((s.setLock l.lock (some p)).setProc p ((s.proc p).resume (.asleep l))).after p l.lock
          (afterSleep s.data l))
      else none
    | _ => none
  | .trapReturn p =>
    if (s.proc p).pc = .trapReturn then
      some (s.goto p (if (s.proc p).killed then .gone else .user))
    else none
  | .kill p => some (s.setProc p (s.proc p).kill)
  | .setPipe k pi => outside s (.pipe k) (s.data.setPipe k pi)
  | .setCons cons => outside s .cons { s.data with cons := cons }
  | .setChild pp c =>
    outside s .wait { s.data with children := update s.data.children pp c }
  | .setTicks ticks => outside s .ticks { s.data with ticks := ticks }
  | .setSem i slot =>
    outside s (.sem i) { s.data with semtable := update s.data.semtable i slot }
  | .wakeup chan => some { s with proc := fun p => (s.proc p).wake chan }

def exec (s : State) (a : Act) : Option (State × Unit) := (step s a).map (·, ())

abbrev Step : State → Event → State → Prop := Exec exec

/-! ## What a step does to one process -/

def Act.proc : Act → Option (Fin NPROC)
  | .trap p | .call p _ | .round p _ | .sleep p | .resume p | .trapReturn p => some p
  | _ => none

section Fields

variable {s s' : State} {p q : Fin NPROC} {t : Thread Chan Pc}

@[simp] theorem setProc_self : (s.setProc p t).proc p = t := by
  simp [State.setProc]

@[simp] theorem setProc_of_ne (h : q ≠ p) : (s.setProc p t).proc q = s.proc q := by
  simp [State.setProc, h]

@[simp] theorem setLock_proc (k : Lock) (o : Option (Fin NPROC)) : (s.setLock k o).proc = s.proc := rfl

theorem wakeups_proc (woken : List Chan) : ((s.wakeups p woken).proc q).pc = (s.proc q).pc ∧
      ((s.wakeups p woken).proc q).killed = (s.proc q).killed ∧
      (((s.wakeups p woken).proc q).state = .sleeping → (s.proc q).state = .sleeping) := by
  unfold State.wakeups
  dsimp only
  generalize s.proc = proc
  induction woken generalizing proc with
  | nil => exact ⟨rfl, rfl, id⟩
  | cons chan woken ih =>
    obtain ⟨hpc, hkilled, hstate⟩ := ih (Xv6.wakeup p chan proc)
    rw [List.foldl_cons, hpc, hkilled]
    refine ⟨Xv6.wakeup_pc p chan proc q, ?_, fun hsleep => ?_⟩
    · unfold Xv6.wakeup
      split
      · rfl
      · exact Thread.wake_killed _ _
    · have hawake := hstate hsleep
      unfold Xv6.wakeup Thread.wake at hawake
      grind

@[simp] theorem wakeups_self (woken : List Chan) : (s.wakeups p woken).proc p = s.proc p := by
  unfold State.wakeups
  dsimp only
  generalize s.proc = proc
  induction woken generalizing proc with
  | nil => rfl
  | cons chan woken ih =>
    rw [List.foldl_cons, ih]
    simp [Xv6.wakeup]

/-- The process is at the same place, as killed as before, and has not gone to sleep. -/
structure Undisturbed (q : Fin NPROC) (s s' : State) : Prop where
  pc : (s'.proc q).pc = (s.proc q).pc
  killed : (s.proc q).killed = true → (s'.proc q).killed = true
  state : (s'.proc q).state = .sleeping → (s.proc q).state = .sleeping

theorem Undisturbed.of_eq (h : s'.proc q = s.proc q) : Undisturbed q s s' :=
  ⟨by rw [h], by rw [h]; exact id, by rw [h]; exact id⟩

theorem after_of_ne {k : Lock} {r : Round} (h : q ≠ p) : Undisturbed q s (s.after p k r) := by
  obtain ⟨hpc, hkilled, hstate⟩ := wakeups_proc (s := { s with data := r.data }) (p := p) (q := q) r.woken
  have hsame : (s.after p k r).proc q = ({ s with data := r.data }.wakeups p r.woken).proc q := by
    unfold State.after State.goto
    dsimp only
    split <;> simp [h]
  refine ⟨?_, ?_, ?_⟩
  · rw [hsame, hpc]
  · rw [hsame, hkilled]
    exact id
  · rw [hsame]
    exact hstate

theorem after_self (s : State) (p : Fin NPROC) (k : Lock) (r : Round) :
    (s.after p k r).proc p = { s.proc p with pc := r.outcome.pc } := by
  unfold State.after State.goto
  dsimp only
  split <;> simp

theorem enter_eq_some {l : Loop} (h : enter s p l = some s') : s' = (s.setLock l.lock (some p)).goto p (.test l) := by
  unfold enter at h
  split at h
  · exact (Option.some.inj h).symm
  · cases h

theorem call_proc {c : Call} (h : call s p c = some s') :
    ∃ pc, s'.proc = update s.proc p { s.proc p with pc := pc } := by
  have henter : ∀ {s₁ : State} {l : Loop}, s₁.proc = s.proc → enter s₁ p l = some s' →
      ∃ pc, s'.proc = update s.proc p { s.proc p with pc := pc } := by
    intro s₁ l hproc h
    rw [enter_eq_some h, ← hproc]
    exact ⟨.test l, rfl⟩
  cases c with
  | piperead | pipewrite | consoleread | wait | pause => exact henter rfl h
  | semWait =>
    simp only [call] at h
    split at h
    · cases h
      exact ⟨.trapReturn, rfl⟩
    split at h
    · cases h
    split at h
    · cases h
      exact ⟨.trapReturn, rfl⟩
    · refine henter ?_ h
      rfl

theorem outside_proc {k : Lock} {d : Shared} (h : outside s k d = some s') : s'.proc = s.proc := by
  unfold outside at h
  split at h
  · cases h
    rfl
  · cases h

/-- What a step can be. -/
inductive Does (s : State) : Act → State → Prop
  | trap {p : Fin NPROC} : (s.proc p).pc = .user →
      Does s (.trap p) (s.goto p (if (s.proc p).killed then .gone else .syscall))
  | call {p : Fin NPROC} {c : Call} {pc : Pc} {s' : State} : (s.proc p).pc = .syscall →
      s'.proc = update s.proc p { s.proc p with pc := pc } → Does s (.call p c) s'
  | round {p : Fin NPROC} {mem : Memory} {l : Loop} : (s.proc p).pc = .test l →
      Does s (.round p mem) (s.after p l.lock (round s.data p (s.proc p).killed mem l))
  | sleep {p : Fin NPROC} {l : Loop} : (s.proc p).pc = .mark l →
      Does s (.sleep p) ((s.setLock l.lock none).setProc p ((s.proc p).sleep (l.chan p) (.asleep l)))
  | resume {p : Fin NPROC} {l : Loop} : (s.proc p).pc = .asleep l → Does s (.resume p)
      (((s.setLock l.lock (some p)).setProc p ((s.proc p).resume (.asleep l))).after p l.lock (afterSleep s.data l))
  | trapReturn {p : Fin NPROC} : (s.proc p).pc = .trapReturn →
      Does s (.trapReturn p) (s.goto p (if (s.proc p).killed then .gone else .user))
  | kill {p : Fin NPROC} : Does s (.kill p) (s.setProc p (s.proc p).kill)
  | outside {a : Act} {s' : State} : a.proc = none → s'.proc = s.proc → Does s a s'
  | wakeup {chan : Chan} : Does s (.wakeup chan) { s with proc := fun p => (s.proc p).wake chan }

theorem step_does {a : Act} (h : step s a = some s') : Does s a s' := by
  cases a with
  | trap =>
    simp only [step, Option.ite_none_right_eq_some, Option.some.injEq] at h
    obtain ⟨hpc, rfl⟩ := h
    exact .trap hpc
  | trapReturn =>
    simp only [step, Option.ite_none_right_eq_some, Option.some.injEq] at h
    obtain ⟨hpc, rfl⟩ := h
    exact .trapReturn hpc
  | call =>
    simp only [step, Option.ite_none_right_eq_some] at h
    obtain ⟨hpc, h⟩ := h
    obtain ⟨pc, hproc⟩ := call_proc h
    exact .call hpc hproc
  | round | sleep =>
    simp only [step] at h
    split at h
    · cases h
      constructor
      assumption
    · cases h
  | resume =>
    simp only [step] at h
    split at h
    · rename_i l hpc
      split_ifs at h
      cases h
      exact .resume hpc
    · cases h
  | kill =>
    cases h
    exact .kill
  | setPipe | setCons | setChild | setTicks | setSem => exact .outside rfl (outside_proc h)
  | wakeup =>
    cases h
    exact .wakeup

theorem step_of_ne {a : Act} (h : step s a = some s') (ha : a.proc ≠ some q) : Undisturbed q s s' := by
  have hne : ∀ {p}, a.proc = some p → q ≠ p := by
    rintro p hp rfl
    exact ha hp
  cases step_does h with
  | trap | trapReturn => exact .of_eq (by simp [State.goto, hne rfl])
  | call _ hproc => exact .of_eq (by simp [hproc, hne rfl])
  | round => exact after_of_ne (hne rfl)
  | sleep => exact .of_eq (by simp [hne rfl])
  | @resume p l _ =>
    have hafter := after_of_ne (s := (s.setLock l.lock (some p)).setProc p ((s.proc p).resume (.asleep l)))
      (k := l.lock) (r := afterSleep s.data l) (hne rfl)
    have hsame : ((s.setLock l.lock (some p)).setProc p ((s.proc p).resume (.asleep l))).proc q = s.proc q := by
      simp [hne rfl]
    exact ⟨by rw [hafter.pc, hsame], fun hk => hafter.killed (by rw [hsame]; exact hk),
      fun hs => by rw [← hsame]; exact hafter.state hs⟩
  | @kill p =>
    by_cases hq : q = p
    · subst hq
      refine ⟨by simp [Thread.kill], by simp [Thread.kill], fun hs => ?_⟩
      simp only [setProc_self, Thread.kill] at hs
      split at hs
      · cases hs
      · exact hs
    · exact .of_eq (by simp [hq])
  | outside _ hproc => exact .of_eq (by rw [hproc])
  | wakeup =>
    refine ⟨by simp, by simp, fun hs => ?_⟩
    simp only [Thread.wake] at hs
    split at hs
    · cases hs
    · exact hs

end Fields

end Xv6.Waits
