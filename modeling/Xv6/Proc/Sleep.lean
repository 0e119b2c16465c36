import Xv6.Param

/-!
# Sleeping and waking up

The part of `struct proc` that `sleep`, `wakeup` and `kkill` of `kernel/proc.c` work on.  `sleep` becomes `SLEEPING`
before `p->lock` is given up, so that for every other process the release of the condition lock and the change of
state are one event.  A model of a wait loop therefore has one step up to and including `sleep`, and one step from
the wakeup to the next `sleep` or the return.
-/

namespace Xv6

inductive ProcState where
  | unused | used | sleeping | runnable | running | zombie
  deriving DecidableEq, Repr

/-- A process as the wait loops see it.  `χ` are the channels it can sleep on, `κ` says where in
the modelled kernel code it is. -/
structure Thread (χ κ : Type) where
  state : ProcState
  chan : Option χ
  killed : Bool
  pc : κ
  deriving DecidableEq, Repr

namespace Thread

variable {χ κ : Type}

/-- `sleep(chan, lk)` up to the call of `sched`. -/
def sleep (t : Thread χ κ) (chan : χ) (pc : κ) : Thread χ κ :=
  { t with chan := some chan, state := .sleeping, pc := pc }

/-- The end of `sleep`, run when the scheduler has picked the process again, and the code after
it up to `pc`. -/
def resume (t : Thread χ κ) (pc : κ) : Thread χ κ := { t with chan := none, state := .running, pc := pc }

/-- What `kkill` does to the process it has found. -/
def kill (t : Thread χ κ) : Thread χ κ :=
  { t with killed := true, state := if t.state = .sleeping then .runnable else t.state }

end Thread

section Wakeup

variable {χ κ : Type} [DecidableEq χ]

/-- What `wakeup(chan)` does to a process other than its caller. -/
def Thread.wake (chan : χ) (t : Thread χ κ) : Thread χ κ :=
  if t.state = .sleeping ∧ t.chan = some chan then { t with state := .runnable } else t

/-- `wakeup(chan)`, called by `me`. -/
def wakeup (me : Fin NPROC) (chan : χ) (proc : Fin NPROC → Thread χ κ) : Fin NPROC → Thread χ κ :=
  fun p => if p = me then proc p else (proc p).wake chan

@[simp] theorem Thread.wake_pc (chan : χ) (t : Thread χ κ) : (t.wake chan).pc = t.pc := by
  unfold Thread.wake
  split <;> rfl

@[simp] theorem Thread.wake_chan (chan : χ) (t : Thread χ κ) : (t.wake chan).chan = t.chan := by
  unfold Thread.wake
  split <;> rfl

@[simp] theorem Thread.wake_killed (chan : χ) (t : Thread χ κ) : (t.wake chan).killed = t.killed := by
  unfold Thread.wake
  split <;> rfl

variable {t : Thread χ κ}

theorem Thread.wake_of_not_sleeping {chan : χ} (h : t.state ≠ .sleeping) : t.wake chan = t := by
  unfold Thread.wake
  rw [if_neg (fun hc => h hc.1)]

theorem Thread.wake_of_chan_ne {chan : χ} (h : t.chan ≠ some chan) : t.wake chan = t := by
  unfold Thread.wake
  rw [if_neg (fun hc => h hc.2)]

theorem Thread.wake_state_ne_sleeping {chan : χ} (hchan : t.chan = some chan) : (t.wake chan).state ≠ .sleeping := by
  unfold Thread.wake
  split
  · simp
  · rename_i hc
    exact fun hs => hc ⟨hs, hchan⟩

variable (me : Fin NPROC) (chan : χ) (proc : Fin NPROC → Thread χ κ) (p : Fin NPROC)

@[simp] theorem wakeup_pc : (wakeup me chan proc p).pc = (proc p).pc := by
  unfold wakeup
  split <;> simp

@[simp] theorem wakeup_chan : (wakeup me chan proc p).chan = (proc p).chan := by
  unfold wakeup
  split <;> simp

theorem wakeup_of_not_sleeping (h : (proc p).state ≠ .sleeping) : wakeup me chan proc p = proc p := by
  unfold wakeup
  rw [Thread.wake_of_not_sleeping h, ite_self]

theorem wakeup_of_chan_ne (h : (proc p).chan ≠ some chan) : wakeup me chan proc p = proc p := by
  unfold wakeup
  rw [Thread.wake_of_chan_ne h, ite_self]

theorem wakeup_state_ne_sleeping (hp : p ≠ me) (hchan : (proc p).chan = some chan) :
    (wakeup me chan proc p).state ≠ .sleeping := by
  unfold wakeup
  rw [if_neg hp]
  exact Thread.wake_state_ne_sleeping hchan

end Wakeup

end Xv6
