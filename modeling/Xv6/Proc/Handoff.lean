import Mathlib.Logic.Function.Basic
import Xv6.Lib.Runs
import Xv6.Proc.Sleep

/-!
# From the condition lock to `p->lock`

`sleep` and `wakeup` of `kernel/proc.c`, lock by lock, with `sched`, the scheduler and `yield` around
them.  Any number of processes run

    acquire(lk); while(!cond) sleep(chan, lk); ...; release(lk)
    acquire(lk); make cond true; wakeup(chan); release(lk)

as often as they like, on any number of CPUs.  `sleep` takes `p->lock` before it lets go of `lk`, and keeps it until
`p->state` is `SLEEPING`; `wakeup` looks at each process under that process's lock.
-/

namespace Xv6.Handoff

open Function Runs

/-- Where a process goes on once the scheduler has picked it again: it made a system call of its own
(`idle`), or it is at the end of `sleep`, about to take the condition lock. -/
inductive Back where
  | idle
  | relock
  deriving DecidableEq

inductive Pc (n : Nat) where
  /-- Outside of the code shown above, or at the end of `sleep`; no lock is held. -/
  | outside (b : Back)
  /-- Holds `lk`, before the test of `cond`. -/
  | test
  /-- In `sleep`, before `acquire(&p->lock)`. -/
  | sleepLock
  /-- In `sleep`, before `release(lk)`. -/
  | sleepRelease
  /-- In `sleep`, before the change of `p->chan` and `p->state`. -/
  | sleepMark
  /-- Has called `sched`; the scheduler is to release `p->lock`. -/
  | switchOut (b : Back)
  /-- Not on a CPU. -/
  | off (b : Back)
  /-- Back from `sched`, with `p->lock` held since the scheduler took it. -/
  | switchIn (b : Back)
  /-- Past the loop, with `lk` held. -/
  | pass
  /-- A signaller that holds `lk`, before it makes `cond` true. -/
  | signal
  /-- In `wakeup`, at the head of its loop for entry `i` of the table. -/
  | wake (i : Nat)
  /-- In `wakeup`, with the lock of process `i` held. -/
  | wakeAt (i : Fin n)
  deriving DecidableEq

variable {n : Nat} {δ : Type} (cond : δ → Bool)

structure State (n : Nat) (δ : Type) where
  lk : Option (Fin n)
  /-- Who holds the lock of each process; the scheduler holds it for the process it switches. -/
  plock : Fin n → Option (Fin n)
  data : δ
  proc : Fin n → Thread Unit (Pc n)

def State.start (d : δ) : State n δ where
  lk := none
  plock _ := none
  data := d
  proc _ := { state := .running, chan := none, killed := false, pc := .outside .idle }

def State.setProc (s : State n δ) (p : Fin n) (t : Thread Unit (Pc n)) : State n δ :=
  { s with proc := update s.proc p t }

def State.goto (s : State n δ) (p : Fin n) (pc : Pc n) : State n δ := s.setProc p { s.proc p with pc := pc }

def State.setPlock (s : State n δ) (p : Fin n) (o : Option (Fin n)) : State n δ :=
  { s with plock := update s.plock p o }

inductive Act (n : Nat) (δ : Type) where
  /-- `acquire(lk)` of a waiter. -/
  | wait (p : Fin n)
  /-- `acquire(lk)` of a signaller. -/
  | signal (p : Fin n)
  | advance (p : Fin n)
  /-- A signaller makes `cond` true. -/
  | make (p : Fin n) (d : δ)
  /-- A waiter past its loop does what it waited for. -/
  | work (p : Fin n) (d : δ)
  /-- A timer interrupt: `yield` up to `sched`. -/
  | yield (p : Fin n)
  /-- The scheduler, back from `swtch`, releases `p->lock`. -/
  | park (p : Fin n)
  /-- The scheduler takes `p->lock`, finds the process runnable and switches to it. -/
  | dispatch (p : Fin n)
  | kill (p : Fin n)

def lock (s : State n δ) (p : Fin n) (pc : Pc n) : Option (State n δ) :=
  if s.lk = none then some ({ s with lk := some p }.goto p pc) else none

def unlock (s : State n δ) (p : Fin n) (pc : Pc n) : State n δ := { s with lk := none }.goto p pc

def advance (s : State n δ) (p : Fin n) : Option (State n δ) :=
  match (s.proc p).pc with
  | .test => some (s.goto p (if cond s.data then .pass else .sleepLock))
  | .sleepLock =>
    if s.plock p = none then some ((s.setPlock p (some p)).goto p .sleepRelease) else none
  | .sleepRelease => some (unlock s p .sleepMark)
  | .sleepMark => some (s.setProc p ((s.proc p).sleep () (.switchOut .relock)))
  | .switchIn b => some ((s.setPlock p none).setProc p ((s.proc p).resume (.outside b)))
  | .outside .relock => lock s p .test
  | .pass => some (unlock s p (.outside .idle))
  | .wake i =>
    if h : i < n then
      if i = p then some (s.goto p (.wake (i + 1)))
      else if s.plock ⟨i, h⟩ = none then
        some ((s.setPlock ⟨i, h⟩ (some p)).goto p (.wakeAt ⟨i, h⟩))
      else none
    else some (unlock s p (.outside .idle))
  | .wakeAt i =>
    some (((s.setPlock i none).setProc i ((s.proc i).wake ())).goto p (.wake (i + 1)))
  | _ => none

def exec (s : State n δ) : Act n δ → Option (State n δ × Unit)
  | .wait p => if (s.proc p).pc = .outside .idle then (lock s p .test).map (·, ()) else none
  | .signal p => if (s.proc p).pc = .outside .idle then (lock s p .signal).map (·, ()) else none
  | .advance p => (advance cond s p).map (·, ())
  | .make p d =>
    if (s.proc p).pc = .signal ∧ cond d then some ({ s with data := d }.goto p (.wake 0), ())
    else none
  | .work p d => if (s.proc p).pc = .pass then some ({ s with data := d }, ()) else none
  | .yield p =>
    match (s.proc p).pc with
    | .outside b =>
      if s.plock p = none then
        some ((s.setPlock p (some p)).setProc p { s.proc p with state := .runnable, pc := .switchOut b }, ())
      else none
    | _ => none
  | .park p =>
    match (s.proc p).pc with
    | .switchOut b => some ((s.setPlock p none).goto p (.off b), ())
    | _ => none
  | .dispatch p =>
    match (s.proc p).pc with
    | .off b =>
      if s.plock p = none ∧ (s.proc p).state = .runnable then
        some ((s.setPlock p (some p)).setProc p { s.proc p with state := .running, pc := .switchIn b }, ())
      else none
    | _ => none
  | .kill p => if s.plock p = none then some (s.setProc p (s.proc p).kill, ()) else none

def Step : State n δ → Act n δ × Unit → State n δ → Prop := Exec (exec cond)

def Pc.waking : Pc n → Bool
  | .wake _ | .wakeAt _ => true
  | _ => false

/-- A waiter sleeps although the condition holds and nobody is about to wake it. -/
def Lost (s : State n δ) (p : Fin n) : Prop :=
  (s.proc p).state = .sleeping ∧ (s.proc p).chan = some () ∧ cond s.data = true ∧ s.lk = none ∧
    ∀ q, (s.proc q).pc.waking = false

/-! ## The invariant -/

def Pc.holdsLk : Pc n → Bool
  | .test | .sleepLock | .sleepRelease | .pass | .signal | .wake _ | .wakeAt _ => true
  | _ => false

/-- The process sleeps on the channel, or will do so without looking at `cond` again. -/
def Committed (t : Thread Unit (Pc n)) : Prop := t.pc = .sleepMark ∨ (t.state = .sleeping ∧ t.chan = some ())

/-- A `wakeup` that has not come past process `p` yet. -/
def Ahead (pc : Pc n) (p : Fin n) : Prop := (∃ i, pc = .wake i ∧ i ≤ p) ∨ (∃ i, pc = .wakeAt i ∧ i ≤ p)

/-- What a process at this place relies on: in `sleep` the condition was false as long as it held `lk`, and it holds its
own lock up to the switch; past the loop, nobody is on the way to sleep. -/
def Stands (s : State n δ) (p : Fin n) : Pc n → Prop
  | .sleepLock => cond s.data = false
  | .sleepRelease => s.plock p = some p ∧ cond s.data = false
  | .sleepMark | .switchOut _ | .switchIn _ => s.plock p = some p
  | .wakeAt i => s.plock i = some p ∧ i ≠ p
  | .pass => ∀ q, ¬ Committed (s.proc q)
  | .outside _ | .test | .off _ | .signal | .wake _ => True

structure Inv (s : State n δ) : Prop where
  lk : ∀ p, (s.proc p).pc.holdsLk = true ↔ s.lk = some p
  stands : ∀ p, Stands cond s p (s.proc p).pc
  off : ∀ p, (s.proc p).state = .sleeping → ∃ b, (s.proc p).pc = .switchOut b ∨ (s.proc p).pc = .off b
  ahead : cond s.data = true → ∀ p, Committed (s.proc p) → ∃ q, Ahead (s.proc q).pc p

variable {cond} {s s' : State n δ} {p q : Fin n} {t : Thread Unit (Pc n)} {pc : Pc n}

theorem not_committed (hpc : t.pc ≠ .sleepMark) (hawake : t.state ≠ .sleeping) : ¬ Committed t :=
  fun hc => hc.elim hpc fun hsleep => hawake hsleep.1

theorem not_ahead (h : pc.waking = false) : ¬ Ahead pc q := by
  rintro (⟨i, rfl, -⟩ | ⟨i, rfl, -⟩) <;> cases h

theorem Inv.start (d : δ) : Inv cond (State.start (n := n) d) :=
  ⟨fun _ => ⟨nofun, nofun⟩, fun _ => trivial, nofun, fun _ _ hc => absurd hc (not_committed nofun nofun)⟩

theorem Ahead.holdsLk (h : Ahead pc p) : pc.holdsLk = true := by
  rcases h with ⟨i, rfl, -⟩ | ⟨i, rfl, -⟩ <;> rfl

theorem awake_of_holdsLk (hlk : t.pc.holdsLk = true)
    (hoff : t.state = .sleeping → ∃ b, t.pc = .switchOut b ∨ t.pc = .off b) : t.state ≠ .sleeping := by
  intro hsleep
  obtain ⟨b, hpc | hpc⟩ := hoff hsleep
  all_goals
    rw [hpc] at hlk
    cases hlk

theorem not_committed_of_holdsLk (hlk : t.pc.holdsLk = true)
    (hoff : t.state = .sleeping → ∃ b, t.pc = .switchOut b ∨ t.pc = .off b) : ¬ Committed t :=
  not_committed (fun hpc => by rw [hpc] at hlk; cases hlk) (awake_of_holdsLk hlk hoff)

/-- One process becomes `t`, and may take or give back locks that are free or its own. -/
structure Moves (cond : δ → Bool) (s s' : State n δ) (p : Fin n) (t : Thread Unit (Pc n)) : Prop where
  proc : s'.proc = update s.proc p t
  /-- What `lk` protects changes in the hands of its holder only, and with a `wakeup` to follow for
  everybody on the way to sleep. -/
  data : s'.data = s.data ∨ (s.lk = some p ∧ ∀ q ≠ p, Committed (s.proc q) → Ahead t.pc q)
  lk : t.pc.holdsLk = true ↔ s'.lk = some p
  others : ∀ q ≠ p, s'.lk = some q ↔ s.lk = some q
  plock : ∀ i, s'.plock i = s.plock i ∨ s.plock i = none ∨ s.plock i = some p
  stands : Stands cond { s' with proc := s.proc } p t.pc
  off : t.state = .sleeping → ∃ b, t.pc = .switchOut b ∨ t.pc = .off b
  /-- It commits itself only with `lk` in its hands and the condition false. -/
  commit : Committed t → Committed (s.proc p) ∨ (s.lk = some p ∧ cond s'.data = false)
  /-- It leaves nobody behind in its `wakeup`. -/
  ahead : ∀ q ≠ p, Committed (s.proc q) → Ahead (s.proc p).pc q → Ahead t.pc q

section

variable (hm : Moves cond s s' p t)

include hm

theorem Moves.self : s'.proc p = t := by rw [hm.proc, update_self]

theorem Moves.other (hq : q ≠ p) : s'.proc q = s.proc q := by rw [hm.proc, update_of_ne hq]

theorem Moves.plock_of_other {i : Fin n} (hq : q ≠ p) (hi : s.plock i = some q) : s'.plock i = some q := by
  rcases hm.plock i with hsame | hfree | hmine
  · rw [hsame, hi]
  · rw [hi] at hfree
    cases hfree
  · rw [hi] at hmine
    exact absurd (Option.some.inj hmine) hq

theorem Moves.committed (hq : Committed (s'.proc q)) :
    Committed (s.proc q) ∨ (q = p ∧ s.lk = some p ∧ cond s'.data = false) := by
  by_cases hqp : q = p
  · rw [hqp] at hq ⊢
    rw [hm.self] at hq
    exact (hm.commit hq).imp_right fun hnew => ⟨rfl, hnew⟩
  · rw [hm.other hqp] at hq
    exact .inl hq

theorem Moves.stands_self : Stands cond s' p t.pc := by
  cases hpc : t.pc with
  | pass =>
    have hnobody := hm.stands
    rw [hpc] at hnobody
    intro q hq
    rcases hm.committed hq with hold | ⟨hqp, -⟩
    · exact hnobody q hold
    · rw [hqp, hm.self] at hq
      exact not_committed_of_holdsLk (by rw [hpc]; rfl) hm.off hq
  | _ =>
    have hnew := hm.stands
    rw [hpc] at hnew
    exact hnew

/-- The holder of `lk` is the one that changes the data or commits itself. -/
theorem Moves.stands_other (h : Inv cond s) (hq : q ≠ p) : Stands cond s' q (s.proc q).pc := by
  have hold := h.stands q
  have hmine : (s.proc q).pc.holdsLk = true → s.lk ≠ some p := fun hholds hlk =>
    hq (Option.some.inj (((h.lk q).mp hholds).symm.trans hlk))
  generalize (s.proc q).pc = pc at hold hmine
  have hdata : pc.holdsLk = true → cond s'.data = cond s.data := fun hholds =>
    congrArg cond (hm.data.resolve_right fun hlk => hmine hholds hlk.1)
  cases pc with
  | sleepLock => exact (hdata rfl).trans hold
  | sleepRelease => exact ⟨hm.plock_of_other hq hold.1, (hdata rfl).trans hold.2⟩
  | sleepMark | switchOut | switchIn => exact hm.plock_of_other hq hold
  | wakeAt => exact ⟨hm.plock_of_other hq hold.1, hold.2⟩
  | pass => exact fun r hr => (hm.committed hr).elim (hold r) fun hnew => hmine rfl hnew.2.1
  | outside | test | off | signal | wake => trivial

end

theorem Inv.moves (h : Inv cond s) (hm : Moves cond s s' p t) : Inv cond s' := by
  constructor
  · intro q
    by_cases hq : q = p
    · rw [hq, hm.self]
      exact hm.lk
    · rw [hm.other hq, hm.others q hq]
      exact h.lk q
  · intro q
    by_cases hq : q = p
    · rw [hq, hm.self]
      exact hm.stands_self
    · rw [hm.other hq]
      exact hm.stands_other h hq
  · intro q
    by_cases hq : q = p
    · rw [hq, hm.self]
      exact hm.off
    · rw [hm.other hq]
      exact h.off q
  intro hcond r hr
  rcases hm.committed hr with hold | ⟨-, -, hfalse⟩
  · have hholder : ∀ q, (s.proc q).pc.holdsLk = true → r ≠ q := by
      rintro q hq rfl
      exact not_committed_of_holdsLk hq (h.off r) hold
    rcases hm.data with hdata | ⟨hlk, hnew⟩
    · rw [hdata] at hcond
      obtain ⟨q, hq⟩ := h.ahead hcond r hold
      by_cases hqp : q = p
      · rw [hqp] at hq
        exact ⟨p, hm.self ▸ hm.ahead r (hholder p hq.holdsLk) hold hq⟩
      · rw [← hm.other hqp] at hq
        exact ⟨q, hq⟩
    · exact ⟨p, hm.self ▸ hnew r (hholder p ((h.lk p).mpr hlk)) hold⟩
  · rw [hcond] at hfalse
    cases hfalse

section Transitions

variable {b : Back} {i : Fin n} {plock : Fin n → Option (Fin n)}

theorem plock_update (hi : s.plock i = none ∨ s.plock i = some p) (o : Option (Fin n)) (j : Fin n) :
    update s.plock i o j = s.plock j ∨ s.plock j = none ∨ s.plock j = some p := by
  by_cases hj : j = i
  · rw [hj]
    exact .inr hi
  · exact .inl (update_of_ne hj ..)

section

variable (h : Inv cond s)

include h

theorem Inv.lk_of_pc (hp : (s.proc p).pc = pc) (hholds : pc.holdsLk = true) : s.lk = some p :=
  (h.lk p).mp (by rw [hp, hholds])

theorem Inv.stands_of (hp : (s.proc p).pc = pc) : Stands cond s p pc := hp ▸ h.stands p

/-- A move of a process that does not hold `lk`, before or after. -/
theorem Inv.apart (hbefore : (s.proc p).pc.holdsLk = false) (hafter : t.pc.holdsLk = false)
    (hplock : ∀ j, plock j = s.plock j ∨ s.plock j = none ∨ s.plock j = some p)
    (hstands : Stands cond { s with plock := plock } p t.pc)
    (hoff : t.state = .sleeping → ∃ b, t.pc = .switchOut b ∨ t.pc = .off b)
    (hcommit : Committed t → Committed (s.proc p)) : Inv cond ({ s with plock := plock }.setProc p t) := by
  have hnot : ∀ {pc : Pc n}, pc.holdsLk = false → pc.holdsLk ≠ true := fun hpc => by rw [hpc]; nofun
  exact h.moves (t := t)
    { proc := rfl
      data := .inl rfl
      lk := iff_of_false (hnot hafter) fun hlk => hnot hbefore ((h.lk p).mpr hlk)
      others := fun _ _ => .rfl
      plock := hplock
      stands := hstands
      off := hoff
      commit := fun hc => .inl (hcommit hc)
      ahead := fun _ _ _ hahead => absurd hahead.holdsLk (hnot hbefore) }

/-- A move of the holder of `lk`, which keeps it. -/
theorem Inv.inside (hp : (s.proc p).pc.holdsLk = true) (hpc : pc.holdsLk = true)
    (hplock : ∀ j, plock j = s.plock j ∨ s.plock j = none ∨ s.plock j = some p)
    (hstands : Stands cond { s with plock := plock } p pc)
    (hahead : ∀ q ≠ p, Committed (s.proc q) → Ahead (s.proc p).pc q → Ahead pc q) :
    Inv cond ({ s with plock := plock }.goto p pc) := by
  have hawake := awake_of_holdsLk hp (h.off p)
  exact h.moves (t := { s.proc p with pc := pc })
    { proc := rfl
      data := .inl rfl
      lk := iff_of_true hpc ((h.lk p).mp hp)
      others := fun _ _ => .rfl
      plock := hplock
      stands := hstands
      off := fun hsleep => absurd hsleep hawake
      commit := fun hc => absurd hc (not_committed_of_holdsLk hpc fun hsleep => absurd hsleep hawake)
      ahead := hahead }

/-- The holder of `lk` lets go of it. -/
theorem Inv.release (hp : (s.proc p).pc.holdsLk = true) (hpc : pc.holdsLk = false) (hstands : Stands cond s p pc)
    (hfalse : pc = .sleepMark → cond s.data = false) (hdone : ∀ q ≠ p, ¬ Ahead (s.proc p).pc q) :
    Inv cond (Handoff.unlock s p pc) := by
  have hlk := (h.lk p).mp hp
  have hawake := awake_of_holdsLk hp (h.off p)
  refine h.moves (t := { s.proc p with pc := pc })
    { proc := rfl
      data := .inl rfl
      lk := iff_of_false (by rw [hpc]; nofun) nofun
      others := fun q hq => iff_of_false nofun fun heq => hq (Option.some.inj (heq.symm.trans hlk))
      plock := fun _ => .inl rfl
      stands := ?_
      off := fun hsleep => absurd hsleep hawake
      commit := fun hc => .inr ⟨hlk, hfalse (hc.resolve_right fun hsleep => hawake hsleep.1)⟩
      ahead := fun q hq _ hahead => absurd hahead (hdone q hq) }
  cases pc <;> exact hstands

theorem Inv.lock (hout : (s.proc p).pc = .outside b) (hfree : s.lk = none) (hpc : pc = .test ∨ pc = .signal) :
    Inv cond ({ s with lk := some p }.goto p pc) := by
  have hlater : pc.holdsLk = true ∧ pc ≠ .sleepMark := by rcases hpc with rfl | rfl <;> exact ⟨rfl, nofun⟩
  have hawake : (s.proc p).state ≠ .sleeping := by
    intro hsleep
    obtain ⟨b, hoff | hoff⟩ := h.off p hsleep
    all_goals
      rw [hout] at hoff
      cases hoff
  refine h.moves (t := { s.proc p with pc := pc })
    { proc := rfl
      data := .inl rfl
      lk := iff_of_true hlater.1 rfl
      others := fun q hq => iff_of_false (fun heq => hq (Option.some.inj heq).symm) (by rw [hfree]; nofun)
      plock := fun _ => .inl rfl
      stands := ?_
      off := fun hsleep => absurd hsleep hawake
      commit := fun hc => absurd hc (not_committed hlater.2 hawake)
      ahead := fun _ _ _ hahead => absurd hahead (not_ahead (by rw [hout]; rfl)) }
  rcases hpc with rfl | rfl <;> trivial

/-- Past the test with the condition true, there is nobody that went to sleep: a `wakeup` for it
would have to be under way, with `lk` in its hands. -/
theorem Inv.test (hp : (s.proc p).pc = .test) : Inv cond (s.goto p (if cond s.data then .pass else .sleepLock)) := by
  have hnot : ∀ q, ¬ Ahead (s.proc p).pc q := fun q => not_ahead (by rw [hp]; rfl)
  refine h.inside (by rw [hp]; rfl) ?_ (fun _ => .inl rfl) ?_ fun q _ _ hq => absurd hq (hnot q)
  · split <;> rfl
  split
  · next hcond =>
    intro q hq
    obtain ⟨r, hr⟩ := h.ahead hcond q hq
    have hrp := (h.lk r).mp hr.holdsLk
    rw [h.lk_of_pc hp rfl] at hrp
    exact hnot q (Option.some.inj hrp ▸ hr)
  · next hcond => exact Bool.eq_false_iff.mpr hcond

theorem Inv.sleepLock (hp : (s.proc p).pc = .sleepLock) (hfree : s.plock p = none) :
    Inv cond ((s.setPlock p (some p)).goto p .sleepRelease) :=
  h.inside (by rw [hp]; rfl) rfl (plock_update (.inl hfree) _) ⟨update_self .., h.stands_of hp⟩
    fun _ _ _ hq => absurd hq (not_ahead (by rw [hp]; rfl))

/-- The handover: `lk` is released, the condition was false up to this moment, and `p->lock` is held
already. -/
theorem Inv.sleepRelease (hp : (s.proc p).pc = .sleepRelease) : Inv cond (unlock s p .sleepMark) :=
  h.release (by rw [hp]; rfl) rfl (h.stands_of hp).1 (fun _ => (h.stands_of hp).2)
    fun _ _ => not_ahead (by rw [hp]; rfl)

theorem Inv.sleepMark (hp : (s.proc p).pc = .sleepMark) :
    Inv cond (s.setProc p ((s.proc p).sleep () (.switchOut .relock))) :=
  h.apart (by rw [hp]; rfl) rfl (fun _ => .inl rfl) (h.stands_of hp :) (fun _ => ⟨_, .inl rfl⟩) fun _ => .inl hp

theorem Inv.switchIn (hp : (s.proc p).pc = .switchIn b) :
    Inv cond ((s.setPlock p none).setProc p ((s.proc p).resume (.outside b))) :=
  h.apart (by rw [hp]; rfl) rfl (plock_update (.inr (h.stands_of hp)) _) trivial nofun
    fun hc => absurd hc (not_committed nofun nofun)

theorem Inv.unlock (hp : (s.proc p).pc.holdsLk = true) (hdone : ∀ q ≠ p, ¬ Ahead (s.proc p).pc q) :
    Inv cond (unlock s p (.outside .idle)) := h.release hp rfl trivial nofun hdone

theorem Inv.wakeSkip (hp : (s.proc p).pc = .wake p) : Inv cond (s.goto p (.wake (p + 1))) := by
  refine h.inside (by rw [hp]; rfl) rfl (fun _ => .inl rfl) trivial fun q hq _ hahead => ?_
  rw [hp] at hahead
  rcases hahead with ⟨i, ⟨⟩, hle⟩ | ⟨i, hi, -⟩
  · exact .inl ⟨_, rfl, Nat.lt_of_le_of_ne hle fun heq => hq (Fin.ext heq.symm)⟩
  · cases hi

theorem Inv.wakeVisit (hp : (s.proc p).pc = .wake i) (hi : i ≠ p) (hfree : s.plock i = none) :
    Inv cond ((s.setPlock i (some p)).goto p (.wakeAt i)) := by
  refine h.inside (by rw [hp]; rfl) rfl (plock_update (.inl hfree) _) ⟨update_self .., hi⟩ fun q _ _ hahead => ?_
  rw [hp] at hahead
  rcases hahead with ⟨j, ⟨⟩, hle⟩ | ⟨j, hj, -⟩
  · exact .inr ⟨i, rfl, hle⟩
  · cases hj

theorem Inv.wakeNext (hp : (s.proc p).pc = .wakeAt i) (hawake : ¬ Committed (s.proc i)) :
    Inv cond ((s.setPlock i none).goto p (.wake (i + 1))) := by
  refine h.inside (by rw [hp]; rfl) rfl (plock_update (.inr (h.stands_of hp).1) _) trivial
    fun q _ hcommitted hahead => ?_
  rw [hp] at hahead
  rcases hahead with ⟨j, ⟨⟩, -⟩ | ⟨j, hj, hle⟩
  · cases hj
    exact .inl ⟨_, rfl, Nat.lt_of_le_of_ne hle fun heq => hawake (Fin.ext heq ▸ hcommitted)⟩

theorem Inv.yield (hp : (s.proc p).pc = .outside b) (hfree : s.plock p = none) :
    Inv cond ((s.setPlock p (some p)).setProc p { s.proc p with state := .runnable, pc := .switchOut b }) :=
  h.apart (by rw [hp]; rfl) rfl (plock_update (.inl hfree) _) (update_self ..) nofun
    fun hc => absurd hc (not_committed nofun nofun)

theorem Inv.park (hp : (s.proc p).pc = .switchOut b) : Inv cond ((s.setPlock p none).goto p (.off b)) :=
  h.apart (by rw [hp]; rfl) rfl (plock_update (.inr (h.stands_of hp)) _) trivial (fun _ => ⟨b, .inr rfl⟩)
    fun hc => .inr (hc.resolve_left nofun)

theorem Inv.dispatch (hp : (s.proc p).pc = .off b) (hfree : s.plock p = none) :
    Inv cond ((s.setPlock p (some p)).setProc p { s.proc p with state := .running, pc := .switchIn b }) :=
  h.apart (by rw [hp]; rfl) rfl (plock_update (.inl hfree) _) (update_self ..) nofun
    fun hc => absurd hc (not_committed nofun nofun)

theorem Inv.rouse (hpc : t.pc = (s.proc p).pc)
    (hsleep : t.state = .sleeping → (s.proc p).state = .sleeping ∧ t.chan = (s.proc p).chan) :
    Inv cond (s.setProc p t) :=
  h.moves (t := t)
    { proc := rfl
      data := .inl rfl
      lk := hpc ▸ h.lk p
      others := fun _ _ => .rfl
      plock := fun _ => .inl rfl
      stands := hpc ▸ h.stands p
      off := fun hs => hpc ▸ h.off p (hsleep hs).1
      commit := fun hc => .inl (hc.imp (hpc ▸ ·) fun ⟨hs, hchan⟩ => ⟨(hsleep hs).1, (hsleep hs).2 ▸ hchan⟩)
      ahead := fun _ _ _ hahead => hpc ▸ hahead }

theorem Inv.kill : Inv cond (s.setProc p (s.proc p).kill) := by
  apply h.rouse
  · rfl
  intro hsleep
  simp only [Thread.kill] at hsleep ⊢
  split at hsleep
  · cases hsleep
  · exact ⟨hsleep, trivial⟩

theorem Inv.wakeAt (hp : (s.proc p).pc = .wakeAt i) :
    Inv cond (((s.setPlock i none).setProc i ((s.proc i).wake ())).goto p (.wake (i + 1))) := by
  obtain ⟨hheld, hne⟩ := h.stands_of hp
  have hroused : Inv cond (s.setProc i ((s.proc i).wake ())) := by
    apply h.rouse
    · exact Thread.wake_pc _ _
    intro hsleep
    unfold Thread.wake at hsleep ⊢
    split at hsleep
    · cases hsleep
    · rename_i hother
      rw [if_neg hother]
      exact ⟨hsleep, rfl⟩
  have hawake : ¬ Committed ((s.proc i).wake ()) := by
    rintro (hmark | ⟨hsleep, hchan⟩)
    · -- A process between the two halves of `sleep` holds its own lock, and `p` has it.
      rw [Thread.wake_pc] at hmark
      have hself : s.plock i = some i := h.stands_of hmark
      rw [hheld] at hself
      exact hne (Option.some.inj hself).symm
    · rw [Thread.wake_chan] at hchan
      exact Thread.wake_state_ne_sleeping hchan hsleep
  apply hroused.wakeNext
  · exact (congrArg Thread.pc (update_of_ne hne.symm ..)).trans hp
  · rwa [show (s.setProc i ((s.proc i).wake ())).proc i = _ from update_self ..]

theorem Inv.make {d : δ} (hp : (s.proc p).pc = .signal) : Inv cond ({ s with data := d }.goto p (.wake 0)) := by
  have hlk := h.lk_of_pc hp rfl
  have hawake := awake_of_holdsLk (by rw [hp]; rfl) (h.off p)
  exact h.moves (t := { s.proc p with pc := .wake 0 })
    { proc := rfl
      data := .inr ⟨hlk, fun q _ _ => .inl ⟨0, rfl, Nat.zero_le _⟩⟩
      lk := iff_of_true rfl hlk
      others := fun _ _ => .rfl
      plock := fun _ => .inl rfl
      stands := trivial
      off := fun hsleep => absurd hsleep hawake
      commit := fun hc => absurd hc (not_committed nofun hawake)
      ahead := fun q _ _ _ => .inl ⟨0, rfl, Nat.zero_le _⟩ }

theorem Inv.work {d : δ} (hp : (s.proc p).pc = .pass) : Inv cond { s with data := d } :=
  h.moves (t := s.proc p)
    { proc := (update_eq_self ..).symm
      data := .inr ⟨h.lk_of_pc hp rfl, fun q _ hq => absurd hq (h.stands_of hp q)⟩
      lk := h.lk p
      others := fun _ _ => .rfl
      plock := fun _ => .inl rfl
      stands := by rw [hp]; exact h.stands_of hp
      off := h.off p
      commit := .inl
      ahead := fun _ _ _ hahead => hahead }

end

end Transitions

theorem lock_eq_some {pc : Pc n} (h : lock s p pc = some s') :
    s.lk = none ∧ s' = { s with lk := some p }.goto p pc := by
  unfold lock at h
  split at h
  · exact ⟨‹_›, (Option.some.inj h).symm⟩
  · cases h

theorem Inv.advance (h : Inv cond s) (hstep : advance cond s p = some s') : Inv cond s' := by
  unfold Handoff.advance at hstep
  split at hstep
  case h_1 hp =>
    cases hstep
    exact h.test hp
  case h_2 hp =>
    split at hstep
    · cases hstep
      exact h.sleepLock hp ‹_›
    · cases hstep
  case h_3 hp =>
    cases hstep
    exact h.sleepRelease hp
  case h_4 hp =>
    cases hstep
    exact h.sleepMark hp
  case h_5 b hp =>
    cases hstep
    exact h.switchIn hp
  case h_6 hp =>
    obtain ⟨hfree, rfl⟩ := lock_eq_some hstep
    exact h.lock hp hfree (.inl rfl)
  case h_7 hp =>
    cases hstep
    apply h.unlock
    · rw [hp]; rfl
    · simp [hp, Ahead]
  case h_8 i hp =>
    split at hstep
    · split at hstep
      · rename_i hi
        cases hstep
        subst hi
        exact h.wakeSkip hp
      split at hstep
      · rename_i hlt hne hfree
        cases hstep
        exact h.wakeVisit (i := ⟨i, hlt⟩) hp (fun heq => hne (congrArg Fin.val heq)) hfree
      · cases hstep
    -- The whole table has been visited.
    rename_i hend
    cases hstep
    apply h.unlock
    · rw [hp]; rfl
    rintro q - (⟨j, hj, hle⟩ | ⟨j, hj, -⟩)
    · rw [hp] at hj
      cases hj
      exact hend (Nat.lt_of_le_of_lt hle q.isLt)
    · rw [hp] at hj
      cases hj
  case h_9 i hp =>
    cases hstep
    exact h.wakeAt hp
  case h_10 => cases hstep

theorem Inv.step {e : Act n δ × Unit} (h : Inv cond s) (hstep : Step cond s e s') : Inv cond s' := by
  obtain ⟨a, u⟩ := e
  unfold Step Exec at hstep
  cases a with
  | wait =>
    simp only [exec] at hstep
    split at hstep
    · obtain ⟨s₁, hlock, heq⟩ := Option.map_eq_some_iff.mp hstep
      obtain ⟨hfree, rfl⟩ := lock_eq_some hlock
      cases heq
      exact h.lock ‹_› hfree (.inl rfl)
    · cases hstep
  | signal =>
    simp only [exec] at hstep
    split at hstep
    · obtain ⟨s₁, hlock, heq⟩ := Option.map_eq_some_iff.mp hstep
      obtain ⟨hfree, rfl⟩ := lock_eq_some hlock
      cases heq
      exact h.lock ‹_› hfree (.inr rfl)
    · cases hstep
  | advance =>
    obtain ⟨s₁, hadvance, ⟨⟩⟩ := Option.map_eq_some_iff.mp hstep
    exact h.advance hadvance
  | make =>
    obtain ⟨hp, ⟨⟩⟩ := Option.ite_none_right_eq_some.mp hstep
    exact h.make hp.1
  | work =>
    simp only [exec] at hstep
    split at hstep
    · cases hstep
      exact h.work ‹_›
    · cases hstep
  | yield =>
    simp only [exec] at hstep
    split at hstep
    · split at hstep
      · cases hstep
        exact h.yield ‹_› ‹_›
      · cases hstep
    · cases hstep
  | park =>
    simp only [exec] at hstep
    split at hstep
    · cases hstep
      exact h.park ‹_›
    · cases hstep
  | dispatch =>
    simp only [exec] at hstep
    split at hstep
    · obtain ⟨hfree, ⟨⟩⟩ := Option.ite_none_right_eq_some.mp hstep
      exact h.dispatch ‹_› hfree.1
    · cases hstep
  | kill =>
    simp only [exec] at hstep
    split at hstep
    · cases hstep
      exact h.kill
    · cases hstep

theorem Inv.not_lost (h : Inv cond s) : ¬ Lost cond s p := by
  rintro ⟨hsleep, hchan, hcond, -, hquiet⟩
  obtain ⟨q, hq⟩ := h.ahead hcond p (.inr ⟨hsleep, hchan⟩)
  have hwaking := hquiet q
  rcases hq with ⟨i, hpc, -⟩ | ⟨i, hpc, -⟩
  all_goals
    rw [hpc] at hwaking
    cases hwaking

/-- No reachable state of any number of waiters and signallers has a lost wakeup. -/
def NoLostWakeup (cond : δ → Bool) : Prop :=
  ∀ (n : Nat) (d : δ) (s : State n δ), Reachable (· = State.start d) (Step cond) s → ∀ p, ¬ Lost cond s p

theorem noLostWakeup (cond : δ → Bool) : NoLostWakeup cond := by
  intro n d s hreach p
  have hinv : Inv cond s := by
    refine Reachable.invariant ?_ ?_ hreach
    · rintro s rfl
      exact Inv.start d
    · intro s e s' h hstep
      exact h.step hstep
  exact hinv.not_lost

end Xv6.Handoff
