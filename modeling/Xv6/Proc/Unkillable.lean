import Xv6.Proc.WaitLoops

/-!
# Whether a killed process stops waiting

Five of the six loops test `killed` between the end of one `sleep` and the beginning of the next one, so that a
process that `kill` has woken up leaves.  `sem_wait` does not test `killed`: its process finds the value still
negative and sleeps again.
-/

namespace Xv6.Waits

open Option Runs

def Loop.isSemWait : Loop → Bool
  | .semWait _ => true
  | _ => false

def Loop.waits : Loop → Bool
  | .pipereadCopy _ _ _ => false
  | _ => true

def Pc.waiting : Pc → Bool
  | .test l | .mark l | .asleep l => l.waits
  | _ => false

/-- How many rounds a killed process makes at most: `consoleread` hands out the bytes there are. -/
def Loop.patience : Loop → Nat
  | .consoleread _ n => n.toNat + 1
  | _ => 1

def isRound (p : Fin NPROC) : Event → Bool
  | (.round q _, _) => q == p
  | _ => false

/-- A process that `kill` has found asleep does not call `sleep` again, and leaves its loop. -/
def KilledLeave (step : State → Event → State → Prop) : Prop :=
  ∀ s s₁ p, Reachable Idle step s → (s.proc p).state = .sleeping → step s (.kill p, ()) s₁ →
    ∃ l, (s.proc p).pc = .asleep l ∧ ∀ tr s₂, Run step s₁ tr s₂ →
      (.sleep p, ()) ∉ tr ∧
      ((s₂.proc p).pc.waiting = true → tr.countP (isRound p) < l.patience)

/-- `kill` does not find a process asleep in `sem_wait`. -/
def SparesSemWaiters (s : State) : Event → Prop
  | (.kill p, _) => ∀ i, (s.proc p).pc = .asleep (.semWait i) → (s.proc p).state ≠ .sleeping
  | _ => True

/-! ## Rounds of a killed process -/

variable {s s' : State} {p : Fin NPROC} {l : Loop} {a : Act}

theorem round_of_killed (d : Shared) (mem : Memory) (hl : l.isSemWait = false) :
    (∃ r, (round d p true mem l).outcome = .leave r) ∨
      ∃ l', (round d p true mem l).outcome = .again l' ∧ l'.isSemWait = false ∧
        (l'.waits = true → l.waits = true ∧ l'.patience < l.patience) := by
  cases l with
  | piperead =>
    simp only [round, piperead]
    split
    · exact .inl ⟨-1, rfl⟩
    · exact .inr ⟨_, rfl, rfl, fun hw => nomatch hw⟩
  | pipereadCopy =>
    simp only [round, pipereadCopy]
    split
    · split
      · exact .inr ⟨_, rfl, rfl, fun hw => nomatch hw⟩
      · exact .inl ⟨_, rfl⟩
    · exact .inl ⟨_, rfl⟩
  | pipewrite =>
    simp only [round, pipewrite, or_true, if_true]
    split <;> exact .inl ⟨_, rfl⟩
  | consoleread target n =>
    simp only [round, consoleread]
    split
    · split
      · exact .inl ⟨_, rfl⟩
      split
      · exact .inl ⟨_, rfl⟩
      split
      · exact .inl ⟨_, rfl⟩
      split
      · exact .inl ⟨_, rfl⟩
      · refine .inr ⟨_, rfl, rfl, fun _ => ⟨rfl, ?_⟩⟩
        show (n - 1).toNat + 1 < n.toNat + 1
        omega
    · exact .inl ⟨_, rfl⟩
  | wait =>
    simp only [round, kwait, or_true, if_true]
    split
    · split <;> exact .inl ⟨_, rfl⟩
    · exact .inl ⟨_, rfl⟩
  | pause =>
    simp only [round, pause]
    split <;> exact .inl ⟨_, rfl⟩
  | semWait => cases hl

/-- The process is killed and on its way out; it has made `k` of at most `bound` rounds. -/
structure Doomed (bound k : Nat) (s : State) (p : Fin NPROC) : Prop where
  killed : (s.proc p).killed = true
  place : (s.proc p).pc = .trapReturn ∨ (s.proc p).pc = .gone ∨
    ∃ l, ((s.proc p).pc = .asleep l ∨ (s.proc p).pc = .test l) ∧ l.isSemWait = false ∧
      (l.waits = true → k + l.patience ≤ bound)

variable {bound k : Nat}

section

variable (h : Doomed bound k s p)

include h

theorem Doomed.not_mark : (s.proc p).pc ≠ .mark l := by
  intro hpc
  rcases h.place with hp | hp | ⟨l', hp | hp, -⟩
  all_goals
    rw [hpc] at hp
    cases hp

theorem Doomed.count_lt (hw : (s.proc p).pc.waiting = true) : k < bound := by
  rcases h.place with hp | hp | ⟨l, hp, -, hbound⟩
  · rw [hp] at hw
    cases hw
  · rw [hp] at hw
    cases hw
  have hwaits : l.waits = true := by
    rcases hp with hp | hp <;> rwa [hp] at hw
  have hle := hbound hwaits
  have hpos : 0 < l.patience := by
    cases l <;> exact Nat.succ_pos _
  omega

theorem Doomed.undisturbed (hu : Undisturbed p s s') : Doomed bound k s' p := by
  refine ⟨hu.killed h.killed, ?_⟩
  rw [hu.pc]
  exact h.place

theorem Doomed.at_loop (hpc : (s.proc p).pc = .asleep l ∨ (s.proc p).pc = .test l) :
    l.isSemWait = false ∧ (l.waits = true → k + l.patience ≤ bound) := by
  rcases h.place with hp | hp | ⟨l', hp | hp, hl⟩ <;> rcases hpc with hpc | hpc <;> rw [hpc] at hp <;> cases hp
  all_goals exact hl

theorem Doomed.round {mem : Memory} (hpc : (s.proc p).pc = .test l) :
    Doomed bound (k + 1) (s.after p l.lock (round s.data p (s.proc p).killed mem l)) p := by
  have hplace := h.at_loop (.inr hpc)
  refine ⟨by rw [after_self]; exact h.killed, ?_⟩
  rw [after_self, h.killed]
  rcases round_of_killed (p := p) s.data mem hplace.1 with ⟨r, hr⟩ | ⟨l', hl', hsem, hcloser⟩
  · rw [hr]
    exact .inl rfl
  rw [hl']
  refine .inr (.inr ⟨l', .inr rfl, hsem, fun hw => ?_⟩)
  obtain ⟨hwaits, hlt⟩ := hcloser hw
  have hle := hplace.2 hwaits
  omega

theorem Doomed.resume (hpc : (s.proc p).pc = .asleep l) :
    Doomed bound k (((s.setLock l.lock (some p)).setProc p ((s.proc p).resume (.asleep l))).after p
      l.lock (afterSleep s.data l)) p := by
  have hplace := h.at_loop (.inl hpc)
  refine ⟨?_, ?_⟩
  · rw [after_self, setProc_self]
    exact h.killed
  rw [after_self]
  have houtcome : (afterSleep s.data l).outcome = .again l := by
    cases l with
    | semWait => cases hplace.1
    | piperead | pipereadCopy | pipewrite | consoleread | wait | pause => rfl
  rw [houtcome]
  exact .inr (.inr ⟨l, .inr rfl, hplace⟩)

theorem Doomed.not_at {pc : Pc} (hpc : pc = .user ∨ pc = .syscall) : (s.proc p).pc ≠ pc := by
  intro heq
  rcases hpc with rfl | rfl
  all_goals
    rcases h.place with hp | hp | ⟨l', hp | hp, -⟩
    all_goals
      rw [heq] at hp
      cases hp

theorem Doomed.step (hstep : step s a = some s') :
    Doomed bound (k + if isRound p (a, ()) then 1 else 0) s' p ∧ a ≠ .sleep p := by
  by_cases ha : a.proc = some p
  · cases step_does hstep with
    | round hpc =>
      obtain rfl := some.inj ha
      refine ⟨?_, by simp⟩
      simpa [isRound] using h.round hpc
    | resume hpc =>
      obtain rfl := some.inj ha
      exact ⟨h.resume hpc, by simp⟩
    | trapReturn =>
      obtain rfl := some.inj ha
      refine ⟨⟨by simpa [State.goto] using h.killed, .inr (.inl ?_)⟩, by simp⟩
      simp [State.goto, h.killed]
    | sleep hpc =>
      obtain rfl := some.inj ha
      exact absurd hpc h.not_mark
    | trap hpc =>
      obtain rfl := some.inj ha
      exact absurd hpc (h.not_at (.inl rfl))
    | call hpc =>
      obtain rfl := some.inj ha
      exact absurd hpc (h.not_at (.inr rfl))
    | kill | wakeup => cases ha
    | outside hnone =>
      rw [hnone] at ha
      cases ha
  have hround : isRound p (a, ()) = false := by
    cases a with
    | round =>
      simp only [isRound, beq_eq_false_iff_ne]
      exact fun heq => ha (congrArg some heq)
    | _ => rfl
  rw [hround]
  refine ⟨h.undisturbed (step_of_ne hstep ha), ?_⟩
  rintro rfl
  exact ha rfl

end

/-! ## Whoever sleeps is in a loop -/

def SleepsInLoop (s : State) (p : Fin NPROC) : Prop := (s.proc p).state = .sleeping → ∃ l, (s.proc p).pc = .asleep l

theorem SleepsInLoop.of_awake (h : SleepsInLoop s p) (hstate : (s'.proc p).state = (s.proc p).state)
    (hpc : ∀ l, (s.proc p).pc ≠ .asleep l) : SleepsInLoop s' p := by
  intro hsleep
  rw [hstate] at hsleep
  obtain ⟨l, hl⟩ := h hsleep
  exact absurd hl (hpc l)

theorem SleepsInLoop.step (h : SleepsInLoop s p) (hstep : step s a = some s') : SleepsInLoop s' p := by
  by_cases ha : a.proc = some p
  · cases step_does hstep with
    | trap hpc | trapReturn hpc =>
      obtain rfl := some.inj ha
      exact h.of_awake (by simp [State.goto]) (by simp [hpc])
    | call hpc hproc =>
      obtain rfl := some.inj ha
      exact h.of_awake (by simp [hproc]) (by simp [hpc])
    | round hpc =>
      obtain rfl := some.inj ha
      exact h.of_awake (by rw [after_self]) (by simp [hpc])
    | @sleep _ l _ =>
      obtain rfl := some.inj ha
      exact fun _ => ⟨l, by simp [Thread.sleep]⟩
    | resume =>
      obtain rfl := some.inj ha
      intro hsleep
      rw [after_self, setProc_self] at hsleep
      cases hsleep
    | kill | wakeup => cases ha
    | outside hnone =>
      rw [hnone] at ha
      cases ha
  have hsame := step_of_ne hstep ha
  intro hsleep
  rw [hsame.pc]
  exact h (hsame.state hsleep)

theorem step_eq_some {e : Event} (h : Step s e s') : step s e.1 = some s' := by
  obtain ⟨s₁, hstep, ⟨⟩⟩ := map_eq_some_iff.mp h
  exact hstep

theorem killedLeave_of_sparesSemWaiters (step : State → Event → State → Prop)
    (hsub : ∀ s ev t, step s ev t → restrict SparesSemWaiters Step s ev t) : KilledLeave step := by
  intro s s₁ p hreach hsleep hkill
  replace hkill := hsub _ _ _ hkill
  have hloop : SleepsInLoop s p := by
    refine Reachable.invariant (P := fun s => SleepsInLoop s p) ?_ ?_ hreach
    · intro s hidle hs
      rw [hidle.proc] at hs
      cases hs
    · intro s e s' h hstep
      exact h.step (step_eq_some (hsub _ _ _ hstep).2)
  obtain ⟨l, hpc⟩ := hloop hsleep
  refine ⟨l, hpc, fun tr s₂ hrun => ?_⟩
  have hsem : l.isSemWait = false := by
    cases l with
    | semWait i => exact absurd hsleep (hkill.1 i hpc)
    | piperead | pipereadCopy | pipewrite | consoleread | wait | pause => rfl
  have hdoomed : Doomed l.patience 0 s₁ p := by
    cases step_eq_some hkill.2
    refine ⟨by simp [Thread.kill], .inr (.inr ⟨l, .inl ?_, hsem, fun _ => by omega⟩)⟩
    simpa [Thread.kill] using hpc
  -- By induction on the run: the process stays doomed, and each of its rounds counts.
  have hall : (.sleep p, ()) ∉ tr ∧ Doomed l.patience (tr.countP (isRound p)) s₂ p := by
    refine Run.invariant_trace (P := fun tr s => (Act.sleep p, ()) ∉ tr ∧
      Doomed l.patience (tr.countP (isRound p)) s p) ?_ hrun ⟨List.not_mem_nil, hdoomed⟩
    rintro tr s ⟨a, u⟩ s' ⟨hnone, h⟩ hstep
    obtain ⟨hnext, hne⟩ := h.step (step_eq_some (hsub _ _ _ hstep).2)
    refine ⟨?_, ?_⟩
    · simp only [List.mem_append, List.mem_singleton, Prod.mk.injEq, and_true, not_or]
      exact ⟨hnone, fun heq => hne heq.symm⟩
    · rw [List.countP_append, List.countP_singleton]
      exact hnext
  exact ⟨hall.1, hall.2.count_lt⟩

/-! ## A process that waits for a semaphore -/

def oneSemaphore : State where
  data :=
    { pipe := fun _ => { data := fun _ => 0, nread := 0, nwrite := 0, readopen := false
                         writeopen := false }
      cons := { buf := fun _ => 0, r := 0, w := 0 }
      children := fun _ => { parent := none, state := .unused, pid := 0 }
      ticks := 0
      semtable := Function.update (fun _ => { key := 0, value := 0, used := false, nwaiting := 0 }) 0
        { key := 1, value := 0, used := true, nwaiting := 0 } }
  lock _ := none
  proc _ := { state := .running, chan := none, killed := false, pc := .user }

instance (s : State) (ev : Event) : Decidable (SparesSemWaiters s ev) := by
  unfold SparesSemWaiters
  split <;> infer_instance

def noMemory : Memory := { copyin := none, copyout := false }

/-- Killed in `pause`, the process leaves. -/
theorem pause_leaves_on_kill : ∃ s s₁, Reachable Idle (restrict SparesSemWaiters Step) s ∧
    (s.proc 0).state = .sleeping ∧ restrict SparesSemWaiters Step s (.kill 0, ()) s₁ ∧
    ∀ tr s₂, Run (restrict SparesSemWaiters Step) s₁ tr s₂ → (.sleep 0, ()) ∉ tr := by
  have hpause : ((execs (guarded SparesSemWaiters exec) oneSemaphore
      [.trap 0, .call 0 (.pause 5), .round 0 noMemory, .sleep 0]).any fun r =>
        (r.1.proc 0).state = .sleeping ∧ (r.1.proc 0).pc = .asleep (.pause 5 0)) = true := by
    decide +kernel
  obtain ⟨s, tr, hrun, hcheck⟩ := Run.of_any_execs hpause
  obtain ⟨hsleep, hpc⟩ := of_decide_eq_true hcheck
  have hreach : Reachable Idle (restrict SparesSemWaiters Step) s :=
    ⟨oneSemaphore, tr, ⟨fun _ => rfl, fun _ => rfl⟩, hrun⟩
  have hkill : restrict SparesSemWaiters Step s (.kill 0, ()) (s.setProc 0 (s.proc 0).kill) := by
    refine ⟨fun i hsem => ?_, rfl⟩
    rw [hpc] at hsem
    cases hsem
  obtain ⟨l, -, hleave⟩ := killedLeave_of_sparesSemWaiters _ (fun _ _ _ h => h) s _ 0 hreach hsleep hkill
  exact ⟨s, _, hreach, hsleep, hkill, fun tr s₂ hrun => (hleave tr s₂ hrun).1⟩

def waitForSemaphore : List Act := [.trap 0, .call 0 (.semWait 0), .round 0 noMemory, .sleep 0]

/-- Killed in `sem_wait`, the process sleeps again. -/
theorem semWait_ignores_kill : ¬ KilledLeave Step := by
  intro h
  have hwait : (execs exec oneSemaphore waitForSemaphore).any (fun r =>
      decide ((r.1.proc 0).state = .sleeping) &&
      (execs exec (r.1.setProc 0 (r.1.proc 0).kill) [.resume 0, .round 0 noMemory, .sleep 0]).isSome)
      = true := by
    decide +kernel
  obtain ⟨⟨s, tr⟩, hexec, hend⟩ := (any_eq_true _ _).mp hwait
  rw [Bool.and_eq_true, decide_eq_true_eq] at hend
  have hreach : Reachable Idle Step s := ⟨oneSemaphore, tr, ⟨fun _ => rfl, fun _ => rfl⟩, Run.of_execs hexec⟩
  obtain ⟨l, -, hleave⟩ := h s _ 0 hreach hend.1 rfl
  obtain ⟨⟨s₂, tr₂⟩, hagain⟩ := isSome_iff_exists.mp hend.2
  have hnone := (hleave tr₂ s₂ (Run.of_execs hagain)).1
  have hsleep : Act.sleep 0 ∈ tr₂.map Prod.fst := by
    rw [map_fst_of_execs hagain]
    exact List.mem_of_getElem? (i := 2) rfl
  obtain ⟨⟨a, u⟩, hmem, rfl⟩ := List.mem_map.mp hsleep
  exact hnone hmem

end Xv6.Waits
