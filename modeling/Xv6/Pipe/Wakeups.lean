import Xv6.Pipe.Held

/-!
# Who sleeps on a pipe

A reader sleeps on an empty pipe, a writer on a full one, and whoever changes that calls `wakeup` before it gives the
lock back, with one exception: a writer that finds itself killed leaves `pipewrite` in the middle of its loop, and the
bytes it has stored by then are not announced.
-/

namespace Xv6.Pipes

open Runs

/-- Whenever the lock is free, nobody sleeps who has no reason to. -/
def SleepersHaveReason (step : State → Event → State → Prop) : Prop :=
  ∀ s, Reachable Fresh step s → s.lock = none →
    ((¬ s.pipe.isEmpty ∨ s.pipe.writeopen = false) → ∀ p, ¬ s.asleep p .nread) ∧
    ((¬ s.pipe.isFull ∨ s.pipe.readopen = false) → ∀ p, ¬ s.asleep p .nwrite)

/-- The writer has stored a byte that it has not announced, or has made its last test before it
stores one. -/
def Pc.midWrite : Pc → Bool
  | .writeTest _ _ fresh => fresh
  | .writeByte _ _ _ => true
  | _ => false

/-- `kill` does not hit a writer between the test of `killed` that lets it store a byte and the
`wakeup` that announces the byte. -/
def SparesWriters (s : State) : Event → Prop
  | (.kill p, _) => (s.proc p).pc.midWrite = false
  | _ => True

/-! ## The invariant -/

/-- What the lock holder has to do for the sleepers on an address before it gives the lock back. -/
def Pc.owes : Chan → Pc → Bool
  | .nread, .writeTest _ _ fresh | .nread, .writeByte _ _ fresh => fresh
  | .nwrite, .readCopy _ _ => true
  | _, _ => false

def Pc.sleepsOn : Pc → Option Chan
  | .writeSleep _ _ => some .nwrite
  | .readSleep _ => some .nread
  | _ => none

def Pipe.blocks (pi : Pipe) : Chan → Prop
  | .nread => pi.isEmpty ∧ pi.writeopen = true
  | .nwrite => pi.isFull ∧ pi.readopen = true

structure Inv (s : State) : Prop extends Held s where
  sleeps : ∀ p chan, s.asleep p chan → (s.proc p).pc.sleepsOn = some chan
  unkilled : ∀ p, (s.proc p).pc.midWrite = true → (s.proc p).killed = false
  reason : ∀ p chan, s.asleep p chan → s.pipe.blocks chan ∨ ∃ q, s.lock = some q ∧ (s.proc q).pc.owes chan = true

variable {s s' : State} {p q : Fin NPROC} {chan c : Chan} {n : Int} {i : Nat} {fresh : Bool}
  {pc : Pc}

theorem Fresh.inv (h : Fresh s) : Inv s where
  toHeld := h.held
  sleeps p chan hp := by simp [State.asleep, h.proc] at hp
  unkilled p hmid := by simp [h.proc]
  reason p chan hp := by simp [State.asleep, h.proc] at hp

theorem Inv.not_asleep (h : Inv s) (hp : (s.proc p).pc.sleepsOn = none) : ¬ s.asleep p chan := by
  intro hasleep
  rw [h.sleeps p chan hasleep] at hp
  cases hp

theorem Pc.sleepsOn_of_holdsLock (h : pc.holdsLock = true) : pc.sleepsOn = none := by
  cases pc with
  | writeSleep | readSleep => cases h
  | user | writeTest | writeByte | writeMark | readTest | readMark | readCopy => rfl

theorem Inv.not_asleep_of_lock (h : Inv s) (hp : s.lock = some p) : ¬ s.asleep p chan :=
  h.not_asleep (Pc.sleepsOn_of_holdsLock ((h.lock p).mpr hp))

theorem Inv.blocks (h : Inv s) (hq : s.asleep q chan)
    (hnone : ∀ p, s.lock = some p → (s.proc p).pc.owes chan = false) : s.pipe.blocks chan := by
  rcases h.reason q chan hq with hreason | ⟨r, hr, howes⟩
  · exact hreason
  · rw [hnone r hr] at howes
    cases howes

theorem Inv.blocks_of_holder (h : Inv s) (hp : s.lock = some p)
    (hnone : (s.proc p).pc.owes chan = false) (hq : s.asleep q chan) : s.pipe.blocks chan := by
  apply h.blocks hq
  intro r hr
  rw [hp] at hr
  rw [← Option.some.inj hr]
  exact hnone

theorem Inv.blocks_of_free (h : Inv s) (hfree : s.lock = none) (hq : s.asleep q chan) : s.pipe.blocks chan := by
  apply h.blocks hq
  intro r hr
  rw [hfree] at hr
  cases hr

theorem Inv.nobody_asleep (h : Inv s) (hp : (s.proc p).pc.sleepsOn = none) : ¬ (s.wakeup p chan).asleep q chan := by
  rw [wakeup_asleep]
  rintro ⟨hasleep, heq | hne⟩
  · rw [heq] at hasleep
    exact h.not_asleep hp hasleep
  · exact hne rfl

theorem Inv.wakeup (h : Inv s) : Inv (s.wakeup p chan) where
  toHeld := h.toHeld.wakeup
  sleeps q c hq := by
    rw [wakeup_proc_pc]
    exact h.sleeps q c (wakeup_asleep.mp hq).1
  unkilled := by simpa using h.unkilled
  reason q c hq := by simpa using h.reason q c (wakeup_asleep.mp hq).1

/-- The lock holder changes the pipe and goes on to another place.  Whoever sleeps has a reason to,
or is owed a wakeup. -/
theorem Inv.change (pi : Pipe) (h : Inv s) (hp : s.lock = some p) (hholds : pc.holdsLock = true)
    (hknows : pc.knows pi) (hmid : pc.midWrite = true → (s.proc p).killed = false)
    (hreason : ∀ q c, s.asleep q c → pi.blocks c ∨ pc.owes c = true) : Inv ((s.setPipe pi).goto p pc) where
  toHeld := h.toHeld.goto pi hp hholds hknows
  sleeps q c hq := by
    rw [goto_asleep, setPipe_asleep] at hq
    have hne : q ≠ p := fun heq => h.not_asleep_of_lock hp (heq ▸ hq)
    simpa [hne] using h.sleeps q c hq
  unkilled q hmid' := by
    by_cases hq : q = p
    · subst hq
      simpa using hmid (by simpa using hmid')
    · simpa using h.unkilled q (by simpa [hq] using hmid')
  reason q c hq := by
    rw [goto_asleep, setPipe_asleep] at hq
    rcases hreason q c hq with hblocks | howes
    · exact .inl hblocks
    · exact .inr ⟨p, by simpa using hp, by simpa using howes⟩

section

variable (h : Inv s)

include h

theorem Inv.goto (hp : s.lock = some p) (hholds : pc.holdsLock = true)
    (hknows : pc.knows s.pipe) (hmid : pc.midWrite = true → (s.proc p).killed = false)
    (howes : ∀ c, (s.proc p).pc.owes c = true → pc.owes c = true) : Inv (s.goto p pc) := by
  apply h.change s.pipe hp hholds hknows hmid
  intro q c hq
  cases hc : (s.proc p).pc.owes c with
  | true => exact .inr (howes c hc)
  | false => exact .inl (h.blocks_of_holder hp hc hq)

theorem Inv.leave (hp : s.lock = some p)
    (hreason : ∀ q c, s.asleep q c → s.pipe.blocks c) : Inv (s.release.goto p .user) where
  toHeld := h.toHeld.leave hp
  sleeps q c hq := by
    rw [goto_asleep, release_asleep] at hq
    have hne : q ≠ p := fun heq => h.not_asleep_of_lock hp (heq ▸ hq)
    simpa [hne] using h.sleeps q c hq
  unkilled q hmid := by
    by_cases hq : q = p
    · simp [hq, Pc.midWrite] at hmid
    · simpa using h.unkilled q (by simpa [hq] using hmid)
  reason q c hq := .inl (hreason q c (by simpa using hq))

theorem Inv.sleep (hp : s.lock = some p) (hout : pc.holdsLock = false)
    (hsleeps : pc.sleepsOn = some chan) (hmid : pc.midWrite = false)
    (howes : ∀ c, (s.proc p).pc.owes c = false) (hblocks : s.pipe.blocks chan) : Inv (s.sleep p chan pc) where
  toHeld := h.toHeld.sleep hp hout
  sleeps q c hq := by
    rw [sleep_asleep] at hq
    by_cases hqp : q = p
    · simp only [hqp, if_true] at hq ⊢
      simp [hq, hsleeps]
    · simpa [hqp] using h.sleeps q c (by simpa [hqp] using hq)
  unkilled q hmid' := by
    by_cases hq : q = p
    · simp [hq, hmid] at hmid'
    · simpa using h.unkilled q (by simpa [hq] using hmid')
  reason q c hq := by
    rw [sleep_asleep] at hq
    split at hq
    · exact .inl (hq ▸ hblocks)
    · exact .inl (h.blocks_of_holder hp (howes c) hq)

theorem Inv.acquire (hfree : s.lock = none) (hholds : pc.holdsLock = true)
    (hknows : pc.knows s.pipe) (hmid : pc.midWrite = false) : Inv (s.take p pc) where
  toHeld := h.toHeld.take hfree hholds hknows
  sleeps q c hq := by
    obtain ⟨hqp, hasleep⟩ := take_asleep.mp hq
    simpa [hqp] using h.sleeps q c hasleep
  unkilled q hmid' := by
    by_cases hq : q = p
    · simp [hq, hmid] at hmid'
    · simpa using h.unkilled q (by simpa [hq] using hmid')
  reason q c hq := .inl (h.blocks_of_free hfree (take_asleep.mp hq).2)

/-- A byte is stored: from now on the readers have to be woken up.  No writer sleeps, since the pipe
is not full. -/
theorem Inv.store {ch : UInt8} (hpc : (s.proc p).pc = .writeByte n i fresh) :
    Inv ((s.setPipe (s.pipe.store ch)).goto p (.writeTest n (i + 1) true)) := by
  have hp := h.lock_of_pc hpc rfl
  have hknows := h.knows_of_pc hpc
  apply h.change _ hp
  · rfl
  · exact fun _ => hknows.2
  · exact fun _ => h.unkilled p (by rw [hpc]; rfl)
  intro q c hq
  cases c with
  | nread => exact .inr rfl
  | nwrite =>
    have hblocks := h.blocks_of_holder hp (by rw [hpc]; rfl) hq
    exact absurd hblocks.1 hknows.1

/-- A byte is taken out: from now on the writers have to be woken up.  No reader sleeps, since the
pipe is not empty. -/
theorem Inv.deliver {pi : Pipe} (hpc : (s.proc p).pc = .readCopy n i)
    (hmore : ¬ s.pipe.isEmpty) : Inv ((s.setPipe pi).goto p (.readCopy n (i + 1))) := by
  have hp := h.lock_of_pc hpc rfl
  apply h.change _ hp
  · rfl
  · exact fun hzero => absurd hzero (Nat.succ_ne_zero i)
  · intro hmid
    cases hmid
  intro q c hq
  cases c with
  | nread =>
    have hblocks := h.blocks_of_holder hp (by rw [hpc]; rfl) hq
    exact absurd hblocks.1 hmore
  | nwrite => exact .inr rfl

theorem Inv.writeFull (hpc : (s.proc p).pc = .writeTest n i fresh)
    (hopen : s.pipe.readopen = true) (hfull : s.pipe.isFull) : Inv ((s.wakeup p .nread).goto p (.writeMark n i)) := by
  have hp := h.lock_of_pc hpc rfl
  apply h.wakeup.change s.pipe hp
  · rfl
  · exact ⟨hfull, hopen⟩
  · intro hmid
    cases hmid
  intro q c hq
  cases c with
  | nread => exact absurd hq (h.nobody_asleep (by rw [hpc]; rfl))
  | nwrite => exact .inl ⟨hfull, hopen⟩

/-- A writer leaves in the middle of its loop.  It has not stored a byte since it took the lock: it was
not killed at the time of its last test, and no `kill` came in between. -/
theorem Inv.writeGiveUp (hpc : (s.proc p).pc = .writeTest n i fresh)
    (hwhy : s.pipe.readopen = false ∨ (s.proc p).killed = true) : Inv (s.release.goto p .user) := by
  have hp := h.lock_of_pc hpc rfl
  have hfresh : fresh = false := by
    rw [← Bool.not_eq_true]
    intro hfresh
    rcases hwhy with hclosed | hkilled
    · rw [h.knows_of_pc hpc hfresh] at hclosed
      cases hclosed
    · rw [h.unkilled p (by rw [hpc]; exact hfresh)] at hkilled
      cases hkilled
  apply h.leave hp
  intro q c hq
  apply h.blocks_of_holder hp _ hq
  rw [hpc, hfresh]
  cases c <;> rfl

/-- The regular end of a call: the sleepers it may have something for are woken up, and it owes the
others nothing. -/
theorem Inv.done (hp : s.lock = some p) (howes : ∀ c, c ≠ chan → (s.proc p).pc.owes c = false) :
    Inv ((s.wakeup p chan).release.goto p .user) := by
  apply h.wakeup.leave hp
  intro q c hq
  by_cases hc : c = chan
  · rw [hc] at hq
    exact absurd hq (h.nobody_asleep (Pc.sleepsOn_of_holdsLock ((h.lock p).mpr hp)))
  · exact h.blocks_of_holder hp (howes c hc) (wakeup_asleep.mp hq).1

theorem Inv.close {pi : Pipe} (hfree : s.lock = none) (huser : (s.proc p).pc = .user)
    (hblocks : ∀ c, c ≠ chan → s.pipe.blocks c → pi.blocks c)
    (hheld : Held ((s.setPipe pi).wakeup p chan)) : Inv ((s.setPipe pi).wakeup p chan) where
  toHeld := hheld
  sleeps q c hq := by simpa using h.sleeps q c (wakeup_asleep.mp hq).1
  unkilled := by simpa using h.unkilled
  reason q c hq := by
    have hasleep := (wakeup_asleep.mp hq).1
    by_cases hc : c = chan
    · rcases (wakeup_asleep.mp hq).2 with heq | hne
      · exact absurd (heq ▸ hasleep) (h.not_asleep (by rw [huser]; rfl))
      · exact absurd hc hne
    · exact .inl (hblocks c hc (h.blocks_of_free hfree hasleep))

theorem Inv.pipeclose {writable : Bool} (hfree : s.lock = none)
    (huser : (s.proc p).pc = .user) : Inv (pipeclose s p writable) := by
  have hheld : Held (Pipes.pipeclose s p writable) := h.toHeld.pipeclose hfree
  unfold Pipes.pipeclose at hheld ⊢
  cases writable with
  | true =>
    apply h.close hfree huser _ hheld
    intro c hc hblocks
    cases c with
    | nread => exact absurd rfl hc
    | nwrite => exact hblocks
  | false =>
    apply h.close hfree huser _ hheld
    intro c hc hblocks
    cases c with
    | nread => exact hblocks
    | nwrite => exact absurd rfl hc

theorem Inv.kill (hspared : (s.proc p).pc.midWrite = false) : Inv (s.kill p) where
  toHeld := h.toHeld.kill
  sleeps q c hq := by
    rw [kill_pc]
    exact h.sleeps q c (kill_asleep.mp hq).2
  unkilled q hmid := by
    rw [kill_pc] at hmid
    have hne : q ≠ p := by
      intro heq
      rw [heq, hspared] at hmid
      cases hmid
    simpa [hne] using h.unkilled q hmid
  reason q c hq := by simpa using h.reason q c (kill_asleep.mp hq).2

theorem Inv.moved {a : Act} {r : Ret} (hm : Moved s a p r s') (hspared : SparesWriters s (a, r)) : Inv s' := by
  cases hm with
  | acquire pc hfree hout hstart =>
    rcases hstart with ⟨n, i, rfl⟩ | ⟨n, rfl⟩
    · exact h.acquire hfree rfl (fun hfresh => nomatch hfresh) rfl
    · exact h.acquire hfree rfl trivial rfl
  | writeGiveUp n i fresh hpc hwhy => exact h.writeGiveUp hpc hwhy
  | writeFull n i fresh hpc hopen hfull => exact h.writeFull hpc hopen hfull
  | writeRoom n i fresh hpc hopen hlive hroom =>
    apply h.goto (h.lock_of_pc hpc rfl)
    · rfl
    · exact ⟨hroom, hopen⟩
    · exact fun _ => hlive
    · rw [hpc]
      intro c hc
      cases c <;> exact hc
  | store n i fresh ch hpc => exact h.store hpc
  | writeDone n i fresh hpc =>
    rcases hpc with hpc | hpc
    · apply h.done (h.lock_of_pc hpc rfl)
      intro c hc
      rw [hpc]
      cases c <;> trivial
    apply h.done (h.lock_of_pc hpc rfl)
    intro c hc
    rw [hpc]
    cases c <;> trivial
  | writeSleep n i hpc | readSleep n hpc =>
    apply h.sleep (h.lock_of_pc hpc rfl) rfl rfl rfl
    · rw [hpc]
      intro c
      cases c <;> rfl
    · exact h.knows_of_pc hpc
  | readGiveUp n hpc =>
    have hp := h.lock_of_pc hpc rfl
    apply h.leave hp
    intro q c hq
    apply h.blocks_of_holder hp _ hq
    rw [hpc]
    cases c <;> rfl
  | readEmpty n hpc hempty hopen =>
    apply h.goto (h.lock_of_pc hpc rfl)
    · rfl
    · exact ⟨hempty, hopen⟩
    · intro hmid
      cases hmid
    · rw [hpc]
      intro c hc
      cases c <;> cases hc
  | readReady n hpc hready =>
    apply h.goto (h.lock_of_pc hpc rfl)
    · rfl
    · exact fun _ => hready
    · intro hmid
      cases hmid
    · rw [hpc]
      intro c hc
      cases c <;> cases hc
  | deliver n i hpc hmore => exact h.deliver hpc hmore
  | readDone n i r hpc =>
    apply h.done (h.lock_of_pc hpc rfl)
    intro c hc
    rw [hpc]
    cases c <;> trivial
  | pipeclose writable hfree huser => exact h.pipeclose hfree huser
  | kill hact =>
    subst hact
    exact h.kill hspared

theorem Inv.noSleepers (hfree : s.lock = none) :
    ((¬ s.pipe.isEmpty ∨ s.pipe.writeopen = false) → ∀ p, ¬ s.asleep p .nread) ∧
    ((¬ s.pipe.isFull ∨ s.pipe.readopen = false) → ∀ p, ¬ s.asleep p .nwrite) := by
  constructor
  · intro hwhy p hp
    have hblocks := h.blocks_of_free hfree hp
    rcases hwhy with hmore | hclosed
    · exact hmore hblocks.1
    · rw [hblocks.2] at hclosed
      cases hclosed
  intro hwhy p hp
  have hblocks := h.blocks_of_free hfree hp
  rcases hwhy with hroom | hclosed
  · exact hroom hblocks.1
  · rw [hblocks.2] at hclosed
    cases hclosed

end

theorem sleepersHaveReason_of_sparesWriters (step : State → Event → State → Prop)
    (hsub : ∀ s ev t, step s ev t → restrict SparesWriters Step s ev t) : SleepersHaveReason step := by
  intro s hreach hfree
  have hinv : Inv s := by
    refine Reachable.invariant ?_ ?_ hreach
    · exact fun s h => h.inv
    · rintro s ⟨a, r⟩ s' h hstep
      obtain ⟨hspared, hstep⟩ := hsub _ _ _ hstep
      exact h.moved (step_moved hstep) hspared
  exact hinv.noSleepers hfree

/-! ## A writer that is killed after its first byte -/

def newPipe : State where
  lock := none
  pipe := { data := fun _ => 0, nread := 0, nwrite := 0, readopen := true, writeopen := true }
  proc _ := { state := .running, chan := none, killed := false, pc := .user }

instance (s : State) (ev : Event) : Decidable (SparesWriters s ev) := by
  unfold SparesWriters
  split <;> infer_instance

/-- Process 0 reads and sleeps; process 1 writes a byte and wakes it up. -/
theorem writer_wakes_reader : ∃ s, Reachable Fresh (restrict SparesWriters Step) s ∧
    ¬ s.pipe.isEmpty ∧ ¬ s.asleep 0 .nread := by
  have hrun : ((execs (guarded SparesWriters exec) newPipe
      [.piperead 0 1, .advance 0, .advance 0, .pipewrite 1 1, .advance 1, .copyin 1 (some 97),
        .advance 1]).any fun r => r.1.lock = none ∧ ¬ r.1.pipe.isEmpty) = true := by
    decide +kernel
  obtain ⟨s, tr, hrun, hcheck⟩ := Run.of_any_execs hrun
  obtain ⟨hfree, hmore⟩ := of_decide_eq_true hcheck
  have hreach : Reachable Fresh (restrict SparesWriters Step) s :=
    ⟨newPipe, tr, ⟨rfl, rfl, rfl, rfl, rfl, fun _ => rfl⟩, hrun⟩
  have hclaim := sleepersHaveReason_of_sparesWriters _ (fun _ _ _ h => h) s hreach hfree
  exact ⟨s, hreach, hmore, hclaim.1 (.inl hmore) 0⟩

/-- Process 0 reads and sleeps; process 1 writes two bytes and is killed after the first. -/
def killedWriter : List Act :=
  [.piperead 0 1, .advance 0, .advance 0, .pipewrite 1 2, .advance 1, .copyin 1 (some 97), .kill 1, .advance 1]

/-- The byte is in the pipe, the lock is free, and the reader sleeps. -/
theorem killedWriter_strands_reader : ¬ SleepersHaveReason Step := by
  intro h
  have hrun : (execs exec newPipe killedWriter).any (fun r =>
      decide (r.1.lock = none ∧ ¬ r.1.pipe.isEmpty ∧ r.1.asleep 0 .nread)) = true := by
    decide +kernel
  obtain ⟨⟨s, tr⟩, hexec, hend⟩ := (Option.any_eq_true _ _).mp hrun
  obtain ⟨hfree, hmore, hasleep⟩ := of_decide_eq_true hend
  have hreach : Reachable Fresh Step s := ⟨newPipe, tr, ⟨rfl, rfl, rfl, rfl, rfl, fun _ => rfl⟩, Run.of_execs hexec⟩
  exact (h s hreach hfree).1 (.inl hmore) 0 hasleep

end Xv6.Pipes
