import Xv6.Sem.Effect

/-!
# Closing a semaphore

`sem_close` clears `s->used` and wakes everybody; a woken waiter returns -1 if it finds the slot not in use when it
runs again.  So the answer is about the slot's present owner: once `sem_get` has given the slot out anew, a waiter of
the closed semaphore takes the new one for its own.
-/

namespace Xv6.Sem

open Runs

/-- From `s` on, in runs of `step`, the call of `sem_wait(i)` that `q` is in returns -1: it does so
when `q` runs for the first time, and until then `q` is runnable and able to do so. -/
def Aborted (step : State → Event → State → Prop) (i : Fin NSEM) (q : Fin NPROC) (s : State) : Prop :=
  ∀ tr t, Run step s tr t →
    (∀ tr₁ ret tr₂, tr = tr₁ ++ (.resume q i, ret) :: tr₂ → (∀ ev ∈ tr₁, ev.1 ≠ .resume q i) → ret = some (-1)) ∧
    ((∀ ev ∈ tr, ev.1 ≠ .resume q i) → t.inside q i ∧ ¬ t.asleep q i ∧ ∃ u, Step t (.resume q i, some (-1)) u)

/-- `sem_close` aborts exactly the waiters of its semaphore: it aborts every one of them, it leaves
the processes waiting on other semaphores as they are, and a call that went to sleep returns -1
only if its semaphore has been closed since. -/
def ClosesExactly (step : State → Event → State → Prop) : Prop :=
  (∀ s s' p id i, Reach s → Step s (.semClose p id, some 0) s' → slotOf id = some i →
    (∀ q, s.inside q i → Aborted step i q s') ∧
    (∀ q j, j ≠ i → s.inside q j → s'.proc q = s.proc q)) ∧
  (∀ s₀ s t u q id i tr, Reach s₀ → Step s₀ (.semWait q id, none) s → slotOf id = some i →
    Run step s tr t → (∀ ev ∈ tr, isClose i ev = false) → ¬ Step t (.resume q i, some (-1)) u)

/-- `sem_get` does not take a slot that still has a process in its loop. -/
def FreshSlot (s : State) : Event → Prop
  | (.semGetStep, _) =>
    ∀ g, s.getter = some g → g.taken = false → (s.semtable g.i).used = false → ∀ q, ¬ s.inside q g.i
  | _ => True

section Closing

variable {s s' : State} {p q : Fin NPROC} {i : Fin NSEM} {id : Int} {ev : Event}

/-- What a waiter of a closed semaphore relies on until it runs. -/
structure Doomed (i : Fin NSEM) (q : Fin NPROC) (s : State) : Prop where
  wf : WellFormed s
  unused : (s.semtable i).used = false
  inside : s.inside q i
  awake : ¬ s.asleep q i

theorem Doomed.of_close (hwf : WellFormed s) (hstep : Step s (.semClose p id, some 0) s')
    (hid : slotOf id = some i) (hin : s.inside q i) : Doomed i q s' := by
  have hwf' := wellFormed_step hwf hstep
  have heff := step_effect hwf hstep i
  cases heff with
  | close _ _ he => exact ⟨hwf', he.used, (he.inside q).mpr hin, he.awake q⟩
  | other hs =>
    have hclose := hs.close
    simp [isClose, hid] at hclose

theorem Doomed.resume (h : Doomed i q s) : ∃ u, Step s (.resume q i, some (-1)) u := by
  have hawake : (s.proc q).state ≠ .sleeping := fun hsleep => h.awake ⟨h.inside, hsleep⟩
  have hguard : (s.proc q).pc = some i ∧ (s.proc q).state ≠ .sleeping := ⟨h.inside, hawake⟩
  refine ⟨(semWaitResume s q i).1, ?_⟩
  show exec s (.resume q i) = _
  simp only [exec, if_pos hguard, semWaitResume_of_unused h.unused]

theorem Doomed.ret_of_resume {ret : Option Int} (h : Doomed i q s)
    (hstep : Step s (.resume q i, ret) s') : ret = some (-1) := by
  obtain ⟨u, hu⟩ := h.resume
  have heq : some (s', ret) = some (u, some (-1)) := Eq.trans (Eq.symm hstep) hu
  exact congrArg Prod.snd (Option.some.inj heq)

theorem Doomed.step (h : Doomed i q s) (hfresh : FreshSlot s ev) (hstep : Step s ev s')
    (hother : ev.1 ≠ .resume q i) : Doomed i q s' := by
  have hwf' := wellFormed_step h.wf hstep
  have hused {b : Bool} (hb : (s.semtable i).used = b) (hbt : b = true) : False := by
    rw [h.unused] at hb
    rw [← hb] at hbt
    cases hbt
  cases step_effect h.wf hstep i with
  | take hg htaken hi hunused =>
    subst hi
    exact absurd h.inside (hfresh _ hg htaken hunused q)
  | store _ _ _ _ hu hproc =>
    refine ⟨hwf', hu.trans h.unused, ?_, ?_⟩
    · rw [State.inside, hproc]
      exact h.inside
    · rw [State.asleep, State.inside, hproc]
      exact h.awake
  | enterSleep _ hu | enterPass _ hu | resumeSleep _ _ hu | resumePass _ _ hu | post _ hu | close _ hu =>
    exact (hused hu rfl).elim
  | @resumeAbort p' _ _ _ _ he =>
    have hqp : q ≠ p' := by
      rintro rfl
      exact hother rfl
    exact ⟨hwf', he.used.trans h.unused, (he.inside q hqp).mpr h.inside, fun hq => h.awake ((he.asleep q hqp).mp hq)⟩
  | other _ he =>
    exact ⟨hwf', he.used.trans h.unused, (he.inside q).mpr h.inside, fun hq => h.awake (he.asleep q hq)⟩

theorem Doomed.run {tr : List Event} (h : Doomed i q s) (hrun : Run (restrict FreshSlot Step) s tr s')
    (hother : ∀ ev ∈ tr, ev.1 ≠ .resume q i) : Doomed i q s' := by
  have hinv := Run.invariant_trace
    (P := fun tr s => (∀ ev ∈ tr, ev.1 ≠ Act.resume q i) → Doomed i q s) ?_ hrun (fun _ => h)
  · exact hinv hother
  · intro tr s ev s' ih hstep hnone
    have hdoomed := ih fun e he => hnone e (by simp [he])
    exact hdoomed.step hstep.1 hstep.2 (hnone ev (by simp))

theorem Doomed.aborted (h : Doomed i q s) : Aborted (restrict FreshSlot Step) i q s := by
  intro tr t hrun
  refine ⟨?_, ?_⟩
  · rintro tr₁ ret tr₂ rfl hfirst
    obtain ⟨m, hpre, hpost⟩ := hrun.split
    obtain ⟨n, hstep, _⟩ := hpost.of_cons
    exact (h.run hpre hfirst).ret_of_resume hstep.2
  · intro hnone
    have hdoomed := h.run hrun hnone
    exact ⟨hdoomed.inside, hdoomed.awake, hdoomed.resume⟩

theorem proc_of_close {j : Fin NSEM} (hwf : WellFormed s) (hstep : Step s (.semClose p id, some 0) s')
    (hid : slotOf id = some i) (hji : j ≠ i) (hin : s.inside q j) : s'.proc q = s.proc q := by
  cases hstep.does with
  | @close _ _ i' _ hid' _ =>
    obtain rfl : i = i' := Option.some.inj (hid.symm.trans hid')
    by_cases hsleep : (s.proc q).state = .sleeping
    · apply wakeup_of_chan_ne
      rw [hwf q j ⟨hin, hsleep⟩]
      simpa using hji
    · exact wakeup_of_not_sleeping _ _ _ _ hsleep

theorem used_step (hwf : WellFormed s) (hused : (s.semtable i).used = true)
    (hclose : isClose i ev = false) (hstep : Step s ev s') : (s'.semtable i).used = true := by
  cases step_effect hwf hstep i with
  | take _ _ _ _ hu => exact hu
  | store _ _ _ _ hu => exact hu.trans hused
  | enterSleep _ _ _ he | enterPass _ _ _ _ he | resumeAbort _ _ _ he | resumeSleep _ _ _ he | resumePass _ _ _ _ he =>
    exact he.used.trans hused
  | post _ _ he => exact he.used
  | close hid => simp [isClose, hid] at hclose
  | other _ he => exact he.used.trans hused

theorem used_run {tr : List Event} (hwf : WellFormed s) (hused : (s.semtable i).used = true)
    (hrun : Run Step s tr s') (hclose : ∀ ev ∈ tr, isClose i ev = false) : (s'.semtable i).used = true := by
  have hinv := Run.invariant_trace
    (P := fun tr s => WellFormed s ∧ ((∀ ev ∈ tr, isClose i ev = false) → (s.semtable i).used = true))
    (fun tr s ev s' ih hstep => ⟨wellFormed_step ih.1 hstep, fun hnone =>
      used_step ih.1 (ih.2 fun e he => hnone e (by simp [he])) (hnone ev (by simp)) hstep⟩)
    hrun ⟨hwf, fun _ => hused⟩
  exact hinv.2 hclose

end Closing

/-- In runs where `sem_get` gives out only slots that nobody is left in, `sem_close` aborts exactly
the waiters of the semaphore it closes. -/
theorem closesExactly_of_freshSlot (step : State → Event → State → Prop)
    (hsub : ∀ s ev t, step s ev t → restrict FreshSlot Step s ev t) : ClosesExactly step := by
  refine ⟨fun s s' p id i hs hstep hid => ⟨fun q hin => ?_, fun q j hji hin => ?_⟩, ?_⟩
  · intro tr t hrun
    exact (Doomed.of_close hs.wellFormed hstep hid hin).aborted tr t (hrun.mono hsub)
  · exact proc_of_close hs.wellFormed hstep hid hji hin
  intro s₀ s t u q id i tr h₀ hwait hid hrun hclose habort
  have hwf := wellFormed_step h₀.wellFormed hwait
  have hused : (s.semtable i).used = true := by
    cases h₀.effect hwait i with
    | enterSleep _ hu _ he => exact he.used.trans hu
    | other _ he =>
      -- a call that goes to sleep is on a slot in use
      cases hwait.does with
      | @wait _ _ i' _ _ _ _ hid' hu _ _ _ =>
        obtain rfl : i = i' := Option.some.inj (hid.symm.trans hid')
        exact he.used.trans hu
  have hstill := used_run hwf hused (hrun.mono fun _ _ _ h => (hsub _ _ _ h).2) hclose
  unfold Step Exec at habort
  simp only [exec] at habort
  split at habort
  · rw [semWaitResume_of_used hstill] at habort
    unfold waitLoop at habort
    dsimp only at habort
    split at habort <;> simp at habort
  · cases habort

/-- `semget(1, 0)` by process 0, and process 1 goes to sleep in `sem_wait(0)`. -/
def sleepOnNew : List Act := [.semGet 0 1 0, .semGetStep, .semGetStep, .semWait 1 0]

/-- Process 1 sleeps on slot 0 and process 0 closes the slot. -/
theorem closedWaiter_aborted : ∃ r c, execs exec boot sleepOnNew = some r ∧
    Step r.1 (.semClose 0 0, some 0) c ∧ Aborted (restrict FreshSlot Step) 0 1 c := by
  obtain ⟨r, hexec, hin, hclose⟩ : ∃ r, execs exec boot sleepOnNew = some r ∧ r.1.inside 1 0 ∧
      (exec r.1 (.semClose 0 0)).any (fun r => r.2 = some 0) = true := ⟨_, rfl, by decide, by decide⟩
  obtain ⟨c, ret, hclose, hret⟩ := Exec.of_any hclose
  obtain rfl := of_decide_eq_true hret
  have hreach : Reach r.1 := Reachable.run (Reachable.of_init rfl) (Run.of_execs hexec)
  exact ⟨r, c, hexec, hclose,
    ((closesExactly_of_freshSlot _ fun _ _ _ h => h).1 r.1 c 0 0 0 hreach hclose (by decide)).1 1 hin⟩

/-- Process 1 sleeps on slot 0, process 0 closes the slot, and process 2 gets it anew before
process 1 runs: its call returns 0. -/
theorem recycledSlot_not_aborted : ¬ ClosesExactly Step := by
  rintro ⟨hclaim, _⟩
  obtain ⟨r, hexec, hin, hrest⟩ : ∃ r, execs exec boot sleepOnNew = some r ∧ r.1.inside 1 0 ∧
      (execs exec r.1 [.semClose 0 0, .semGet 2 7 0, .semGetStep, .semGetStep, .resume 1 0]).any (fun r =>
        r.2 = [(.semClose 0 0, some 0), (.semGet 2 7 0, none), (.semGetStep, none), (.semGetStep, some 0),
          (.resume 1 0, some 0)]) = true := ⟨_, rfl, by decide, by decide⟩
  obtain ⟨⟨t, tr⟩, hrun, htr⟩ := (Option.any_eq_true _ _).1 hrest
  obtain rfl := of_decide_eq_true htr
  obtain ⟨c, hclose, hrun⟩ := (Run.of_execs hrun).of_cons
  have hreach : Reach r.1 := Reachable.run (Reachable.of_init rfl) (Run.of_execs hexec)
  have habort := (hclaim r.1 c 0 0 0 hreach hclose (by decide)).1 1 hin
  have hret := (habort _ _ hrun).1 [_, _, _] (some 0) [] rfl (by decide)
  exact absurd hret (by decide)

end Xv6.Sem
