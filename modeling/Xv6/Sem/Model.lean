import Mathlib.Data.List.FinRange
import Xv6.Lib.Runs
import Xv6.Proc.Sleep

/-!
# Semaphores

The model of `kernel/sem.c`.  Under `s->lock` each critical section is one step: the whole of `sem_post` and
`sem_close`, `sem_wait` from its `acquire` to its first `sleep` or its return, and each further round of its loop.
`sem_get` holds `semtable_lock` only, so that the others run between its tests and its stores: each slot it looks at
is a step, and so are `used = 1` with the key, which nobody else reads, and `value = initval` with `nwaiting = 0`.
Which process steps next is left open.  `kill` is a step too, because it makes a sleeping process runnable without
any post.
-/

namespace Xv6.Sem

open Runs

structure SemSlot where
  key : Int
  value : Int
  used : Bool
  nwaiting : Int
  deriving DecidableEq, Repr

/-- A process, sleeping on a semaphore slot or not; its `pc` is the slot whose `sem_wait` loop it
is in. -/
abbrev Waiter := Thread (Fin NSEM) (Option (Fin NSEM))

/-- The call of `sem_get` that holds `semtable_lock`. -/
structure Getter where
  who : Fin NPROC
  key : Int
  initval : Int
  /-- The slot it is at. -/
  i : Fin NSEM
  /-- It has stored `used = 1` there. -/
  taken : Bool
  nonneg : 0 ≤ initval
  deriving DecidableEq, Repr

structure State where
  semtable : Fin NSEM → SemSlot
  getter : Option Getter
  proc : Fin NPROC → Waiter

/-- After `seminit`, with every process running and outside of the semaphore code. -/
def boot : State where
  semtable _ := { key := 0, value := 0, used := false, nwaiting := 0 }
  getter := none
  proc _ := { state := .running, chan := none, killed := false, pc := none }

inductive Act where
  | semGet (p : Fin NPROC) (key initval : Int)
  /-- The process that holds `semtable_lock` goes on. -/
  | semGetStep
  | semWait (p : Fin NPROC) (id : Int)
  /-- A process in the loop of `sem_wait(i)` runs again after its `sleep`. -/
  | resume (p : Fin NPROC) (i : Fin NSEM)
  | semPost (p : Fin NPROC) (id : Int)
  | semClose (p : Fin NPROC) (id : Int)
  | kill (p : Fin NPROC)
  deriving DecidableEq, Repr

def State.setSlot (s : State) (i : Fin NSEM) (slot : SemSlot) : State :=
  { s with semtable := Function.update s.semtable i slot }

def State.setProc (s : State) (p : Fin NPROC) (t : Waiter) : State := { s with proc := Function.update s.proc p t }

/-- `&semtable[id]`, after the range check that every call makes on `id`. -/
def slotOf (id : Int) : Option (Fin NSEM) :=
  if h : 0 ≤ id ∧ id < NSEM then some ⟨id.toNat, by omega⟩ else none

/-- `sem_get` up to its `acquire`; `none` while somebody else holds the lock. -/
def semGet (s : State) (p : Fin NPROC) (key initval : Int) : Option (State × Option Int) :=
  if h : 0 ≤ initval then
    if s.getter = none then
      some ({ s with getter := some { who := p, key, initval, i := 0, taken := false, nonneg := h } }, none)
    else none
  else some (s, some (-1))

/-- A round of the loop of `sem_get`, or the rest of its body once the slot has been taken. -/
def semGetStep (s : State) (g : Getter) : State × Option Int :=
  let slot := s.semtable g.i
  if g.taken then
    ({ s.setSlot g.i { slot with value := g.initval, nwaiting := 0 } with getter := none }, some g.i)
  else if !slot.used then
    ({ s.setSlot g.i { slot with used := true, key := g.key } with getter := some { g with taken := true } }, none)
  else if h : g.i + 1 < NSEM then ({ s with getter := some { g with i := ⟨g.i + 1, h⟩ } }, none)
  else ({ s with getter := none }, some (-1))

/-- The critical section of a call on slot `id`. -/
def onSlot (s : State) (id : Int) (body : Fin NSEM → State × Option Int) : State × Option Int :=
  match slotOf id with
  | none => (s, some (-1))
  | some i => if !(s.semtable i).used then (s, some (-1)) else body i

/-- One evaluation of `while(s->value < 0)` and what follows it: the next round of the loop up to
`sleep`, with no value returned yet, or the `return 0`. -/
def waitLoop (s : State) (p : Fin NPROC) (i : Fin NSEM) : State × Option Int :=
  let slot := s.semtable i
  if slot.value < 0 then
    ((s.setSlot i { slot with nwaiting := slot.nwaiting + 1 }).setProc p ((s.proc p).sleep i (some i)), none)
  else (s.setProc p ((s.proc p).resume none), some 0)

def semWait (s : State) (p : Fin NPROC) (id : Int) : State × Option Int :=
  onSlot s id fun i => waitLoop (s.setSlot i { s.semtable i with value := int32 ((s.semtable i).value - 1) }) p i

/-- The code of `sem_wait` after `sleep` has returned. -/
def semWaitResume (s : State) (p : Fin NPROC) (i : Fin NSEM) : State × Option Int :=
  let slot := { s.semtable i with nwaiting := (s.semtable i).nwaiting - 1 }
  let s := s.setSlot i slot
  if !slot.used then (s.setProc p ((s.proc p).resume none), some (-1))
  else waitLoop s p i

/-- The slot changes, and `wakeup(s)`. -/
def State.notify (s : State) (p : Fin NPROC) (i : Fin NSEM) (slot : SemSlot) : State :=
  { s.setSlot i slot with proc := wakeup p i s.proc }

def semPost (s : State) (p : Fin NPROC) (id : Int) : State × Option Int :=
  onSlot s id fun i =>
    (s.notify p i { s.semtable i with value := int32 ((s.semtable i).value + 1) }, some 0)

def semClose (s : State) (p : Fin NPROC) (id : Int) : State × Option Int :=
  onSlot s id fun i => (s.notify p i { s.semtable i with used := false }, some 0)

/-- A process that can make a system call: it has the CPU and is not inside `sem_wait` or `sem_get`. -/
def State.free (s : State) (p : Fin NPROC) : Prop :=
  (s.proc p).pc = none ∧ (s.proc p).state ≠ .sleeping ∧ s.getter.map Getter.who ≠ some p

instance (s : State) (p : Fin NPROC) : Decidable (s.free p) := inferInstanceAs (Decidable (_ ∧ _))

/-- The transition function.  The value is what the call returns, `none` while it has not
returned; the whole is `none` when the process is not in a position to take the action. -/
def exec (s : State) : Act → Option (State × Option Int)
  | .semGet p key initval => if s.free p then semGet s p key initval else none
  | .semGetStep => s.getter.map (semGetStep s)
  | .semWait p id => if s.free p then some (semWait s p id) else none
  | .resume p i =>
    if (s.proc p).pc = some i ∧ (s.proc p).state ≠ .sleeping then some (semWaitResume s p i)
    else none
  | .semPost p id => if s.free p then some (semPost s p id) else none
  | .semClose p id => if s.free p then some (semClose s p id) else none
  | .kill p => some (s.setProc p (s.proc p).kill, none)

abbrev Event := Act × Option Int

abbrev Step : State → Event → State → Prop := Exec exec

def State.inside (s : State) (p : Fin NPROC) (i : Fin NSEM) : Prop := (s.proc p).pc = some i

instance (s : State) (p : Fin NPROC) (i : Fin NSEM) : Decidable (s.inside p i) :=
  inferInstanceAs (Decidable (_ = _))

/-- `sem_get` has taken slot `i` and has not stored its value yet. -/
def State.storing (s : State) (i : Fin NSEM) : Bool := s.getter.any fun g => g.taken && g.i == i

def State.asleep (s : State) (p : Fin NPROC) (i : Fin NSEM) : Prop := s.inside p i ∧ (s.proc p).state = .sleeping

instance (s : State) (p : Fin NPROC) (i : Fin NSEM) : Decidable (s.asleep p i) :=
  inferInstanceAs (Decidable (_ ∧ _))

/-! The events that count for slot `i`: a post that went through, a `sem_wait` that returned 0, at
once or after sleeping, and a close that went through. -/

def isPost (i : Fin NSEM) : Event → Bool
  | (.semPost _ id, some r) => slotOf id == some i && r == 0
  | _ => false

def isPass (i : Fin NSEM) : Event → Bool
  | (.semWait _ id, some r) => slotOf id == some i && r == 0
  | (.resume _ j, some r) => j == i && r == 0
  | _ => false

def isClose (i : Fin NSEM) : Event → Bool
  | (.semClose _ id, some r) => slotOf id == some i && r == 0
  | _ => false

@[simp] theorem setSlot_proc (s : State) (i : Fin NSEM) (slot : SemSlot) : (s.setSlot i slot).proc = s.proc := rfl

@[simp] theorem setSlot_self (s : State) (i : Fin NSEM) (slot : SemSlot) : (s.setSlot i slot).semtable i = slot := by
  simp [State.setSlot]

@[simp] theorem setSlot_of_ne (s : State) {i j : Fin NSEM} (slot : SemSlot) (h : j ≠ i) :
    (s.setSlot i slot).semtable j = s.semtable j := by
  simp [State.setSlot, h]

@[simp] theorem setProc_self (s : State) (p : Fin NPROC) (t : Waiter) : (s.setProc p t).proc p = t := by
  simp [State.setProc]

@[simp] theorem setProc_of_ne (s : State) {p q : Fin NPROC} (t : Waiter) (h : q ≠ p) :
    (s.setProc p t).proc q = s.proc q := by
  simp [State.setProc, h]

end Xv6.Sem
