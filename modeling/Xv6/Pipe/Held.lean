import Xv6.Pipe.Model

/-!
# What the holder of `pi->lock` knows

Between two tests of the pipe its lock is not given up, so what a process has found out about the
pipe stays true until it acts on it.
-/

namespace Xv6.Pipes

/-- What a process at this place knows about the pipe, from its last test. -/
def Pc.knows (pi : Pipe) : Pc → Prop
  | .writeTest _ _ fresh => fresh = true → pi.readopen = true
  | .writeByte _ _ _ => ¬ pi.isFull ∧ pi.readopen = true
  | .writeMark _ _ => pi.isFull ∧ pi.readopen = true
  | .readMark _ => pi.isEmpty ∧ pi.writeopen = true
  | .readCopy _ i => i = 0 → pi.isEmpty → pi.writeopen = false
  | .user | .writeSleep _ _ | .readTest _ | .readSleep _ => True

structure Held (s : State) : Prop where
  lock : ∀ p, (s.proc p).pc.holdsLock = true ↔ s.lock = some p
  knows : ∀ p, (s.proc p).pc.knows s.pipe

variable {s s' : State} {p q : Fin NPROC} {pc : Pc} {pi : Pipe} {a : Act} {r : Ret}

theorem Pc.knows_of_not_holdsLock (h : pc.holdsLock = false) : pc.knows pi := by
  cases pc with
  | writeTest | writeByte | writeMark | readMark | readCopy => cases h
  | user | writeSleep | readTest | readSleep => trivial

theorem Fresh.held (h : Fresh s) : Held s := by
  constructor
  · intro p
    rw [h.proc, h.lock]
    simp [Pc.holdsLock]
  · intro p
    rw [h.proc]
    trivial

theorem Held.lock_of_pc (h : Held s) (hp : (s.proc p).pc = pc) (hholds : pc.holdsLock = true) : s.lock = some p :=
  (h.lock p).mp (by rw [hp, hholds])

theorem Held.knows_of_pc (h : Held s) (hp : (s.proc p).pc = pc) : pc.knows s.pipe := hp ▸ h.knows p

theorem Held.turn (h : Held s) (hpc : ∀ q ≠ p, (s'.proc q).pc = (s.proc q).pc)
    (hlock : ∀ q ≠ p, s'.lock = some q ↔ s.lock = some q) (hpipe : s'.pipe = s.pipe ∨ ∀ q ≠ p, s.lock ≠ some q)
    (hown : (s'.proc p).pc.holdsLock = true ↔ s'.lock = some p)
    (hknows : (s'.proc p).pc.knows s'.pipe) : Held s' := by
  constructor
  · intro q
    by_cases hq : q = p
    · rw [hq]
      exact hown
    · rw [hpc q hq, hlock q hq]
      exact h.lock q
  intro q
  by_cases hq : q = p
  · rw [hq]
    exact hknows
  rw [hpc q hq]
  rcases hpipe with hsame | hfree
  · rw [hsame]
    exact h.knows q
  · apply Pc.knows_of_not_holdsLock
    rw [← Bool.not_eq_true, h.lock q]
    exact hfree q hq

theorem Held.goto (pi : Pipe) (h : Held s) (hp : s.lock = some p) (hholds : pc.holdsLock = true)
    (hknows : pc.knows pi) : Held ((s.setPipe pi).goto p pc) := by
  apply h.turn (p := p)
  · intro q hq
    simp [hq]
  · intro q hq
    simp
  · right
    intro q hq heq
    rw [hp] at heq
    exact hq (Option.some.inj heq).symm
  · simp [hholds, hp]
  · simpa using hknows

section

variable (h : Held s)

include h

theorem Held.unlock (hp : s.lock = some p) (hpc : ∀ q ≠ p, (s'.proc q).pc = (s.proc q).pc)
    (hlock : s'.lock = none) (hpipe : s'.pipe = s.pipe) (hown : (s'.proc p).pc.holdsLock = false) : Held s' := by
  apply h.turn (p := p) hpc
  · intro q hq
    rw [hlock, hp]
    constructor
    · intro heq
      cases heq
    · intro heq
      exact absurd (Option.some.inj heq).symm hq
  · exact .inl hpipe
  · rw [hown, hlock]
    simp
  · exact Pc.knows_of_not_holdsLock hown

theorem Held.wakeup {chan : Chan} : Held (s.wakeup p chan) := by
  constructor
  · simpa using h.lock
  · simpa using h.knows

theorem Held.leave (hp : s.lock = some p) : Held (s.release.goto p .user) := by
  apply h.unlock hp
  · intro q hq
    simp [hq]
  · rfl
  · rfl
  · simp [Pc.holdsLock]

theorem Held.sleep {chan : Chan} (hp : s.lock = some p) (hout : pc.holdsLock = false) : Held (s.sleep p chan pc) := by
  apply h.unlock hp
  · intro q hq
    simp [hq]
  · rfl
  · rfl
  · simpa using hout

theorem Held.take (hfree : s.lock = none) (hholds : pc.holdsLock = true)
    (hknows : pc.knows s.pipe) : Held (s.take p pc) := by
  apply h.turn (p := p)
  · intro q hq
    simp [hq]
  · intro q hq
    rw [take_lock, hfree]
    simp [hq.symm]
  · exact .inl rfl
  · simp [hholds]
  · simpa using hknows

theorem Held.pipeclose {writable : Bool} (hfree : s.lock = none) : Held (pipeclose s p writable) := by
  -- Nobody has the lock, so nobody knows anything.
  have hout : ∀ q, (s.proc q).pc.holdsLock = false := by
    intro q
    rw [← Bool.not_eq_true, h.lock q, hfree]
    simp
  unfold Pipes.pipeclose
  constructor
  · intro q
    split <;> simpa using h.lock q
  · intro q
    apply Pc.knows_of_not_holdsLock
    split <;> simpa using hout q

theorem Held.kill : Held (s.kill p) := by
  constructor
  · simpa using h.lock
  · simpa using h.knows

theorem Held.moved (hm : Moved s a p r s') : Held s' := by
  cases hm with
  | acquire pc hfree hout hstart =>
    rcases hstart with ⟨n, i, rfl⟩ | ⟨n, rfl⟩
    · exact h.take hfree rfl fun hfresh => nomatch hfresh
    · exact h.take hfree rfl trivial
  | writeGiveUp n i fresh hpc | readGiveUp n hpc => exact h.leave (h.lock_of_pc hpc rfl)
  | writeFull n i fresh hpc hopen hfull =>
    exact h.wakeup.goto s.pipe (h.lock_of_pc hpc rfl) rfl ⟨hfull, hopen⟩
  | writeRoom n i fresh hpc hopen hlive hroom =>
    exact h.goto s.pipe (h.lock_of_pc hpc rfl) rfl ⟨hroom, hopen⟩
  | store n i fresh ch hpc =>
    exact h.goto _ (h.lock_of_pc hpc rfl) rfl fun _ => (h.knows_of_pc hpc).2
  | writeDone n i fresh hpc =>
    rcases hpc with hpc | hpc <;> exact h.wakeup.leave (h.lock_of_pc hpc rfl)
  | writeSleep n i hpc | readSleep n hpc => exact h.sleep (h.lock_of_pc hpc rfl) rfl
  | readEmpty n hpc hempty hopen =>
    exact h.goto s.pipe (h.lock_of_pc hpc rfl) rfl ⟨hempty, hopen⟩
  | readReady n hpc hready => exact h.goto s.pipe (h.lock_of_pc hpc rfl) rfl fun _ => hready
  | deliver n i hpc =>
    exact h.goto _ (h.lock_of_pc hpc rfl) rfl fun hzero => absurd hzero (Nat.succ_ne_zero i)
  | readDone n i r hpc => exact h.wakeup.leave (h.lock_of_pc hpc rfl)
  | pipeclose writable hfree => exact h.pipeclose hfree
  | kill => exact h.kill

end

end Xv6.Pipes
