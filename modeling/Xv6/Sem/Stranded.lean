import Xv6.Sem.Counter

/-!
# Stranded waiters

`sem_wait` takes its unit when it enters (`s->value--`) and then waits for the shared count to become non-negative.
A waiter that a post has woken therefore also waits for the units of all the others in the loop: with two processes
asleep, one post leaves `value = -1`, both test it, and both go back to sleep although a unit is there.  What does
hold is that the loss comes from that one branch alone.
-/

namespace Xv6.Sem

open Runs

/-- A woken waiter does not test the count while it is negative and above minus the number of
processes in the loop, and no post makes the count run over. -/
def Admits (i : Fin NSEM) (s : State) : Event → Prop
  | (.resume _ j, _) =>
    j = i → ¬ (-((waiting s i).card : Int) < (s.semtable i).value ∧ (s.semtable i).value < 0)
  | (.semPost _ id, _) => slotOf id = some i → (s.semtable i).value < 2 ^ 31 - 1
  | _ => True

section Preservation

variable {i : Fin NSEM} {v c : Int} {tr : List Event} {s s' : State} {ev : Event}

/-! ## Nobody sleeps on a slot that is given out -/

/-- Nobody sleeps on a slot that is not in use, because its last `sem_close` woke everybody, or that has no value
yet. -/
def Calm (i : Fin NSEM) (s : State) : Prop :=
  WellFormed s ∧ ((s.semtable i).used = false ∨ s.storing i = true → ∀ q, ¬ s.asleep q i)

theorem not_asleep_of_leaves {p q : Fin NPROC} {w : Int} (he : Leaves i p w s s') (h : ¬ s.asleep q i) :
    ¬ s'.asleep q i := by
  intro hq
  by_cases hqp : q = p
  · have hin := hq.1
    rw [hqp, State.inside, he.self] at hin
    cases hin
  · exact h ((he.asleep q hqp).mp hq)

theorem calm_step (h : Calm i s) (hstep : restrict (Settled i) Step s ev s') : Calm i s' := by
  obtain ⟨hsettled, hstep⟩ := hstep
  refine ⟨wellFormed_step h.1 hstep, fun hidle q hq => ?_⟩
  -- Somebody falls asleep only on a slot in use that has its value.
  have hnew : (s'.semtable i).used = (s.semtable i).used → (s.semtable i).used = true → s.storing i = false →
      ev ≠ (.semGetStep, none) → False := by
    intro hkept hused hstoring hev
    rcases hidle with hunused | hstoring'
    · rw [hkept, hused] at hunused
      cases hunused
    rcases storing_step hstep hstoring' with hbefore | ⟨_, -, -, -, -, htake⟩
    · rw [hstoring] at hbefore
      cases hbefore
    · exact hev htake
  have hold : (s'.semtable i).used = (s.semtable i).used → ¬ s.asleep q i := by
    intro hkept
    apply h.2
    rcases hidle with hunused | hstoring
    · exact .inl (hkept.symm.trans hunused)
    · rcases storing_step hstep hstoring with hbefore | ⟨_, -, -, -, hunused, -⟩
      · exact .inr hbefore
      · exact .inl hunused
  cases step_effect h.1 hstep i with
  | take _ _ _ hunused _ hproc =>
    rw [State.asleep, State.inside, hproc] at hq
    exact h.2 (.inl hunused) q hq
  | store _ _ _ _ hkept hproc =>
    rw [State.asleep, State.inside, hproc] at hq
    exact hold hkept hq
  | enterSleep hid hused _ he => exact hnew he.used hused (hsettled hid) fun heq => by cases heq
  | resumeSleep _ _ hused he => exact hnew he.used hused (hsettled rfl) fun heq => by cases heq
  | enterPass _ _ _ _ he | resumeAbort _ _ _ he | resumePass _ _ _ _ he =>
    exact not_asleep_of_leaves he (hold he.used) hq
  | post _ _ he | close _ _ he => exact he.awake q hq
  | other _ he => exact hold he.used (he.asleep q hq)

theorem calm_boot (i : Fin NSEM) : Calm i boot := by
  refine ⟨?_, ?_⟩
  · rintro p j ⟨_, hsleep⟩
    cases hsleep
  · rintro _ q ⟨_, hsleep⟩
    cases hsleep

/-! ## The invariant between `semget` and `semclose` -/

/-- A negative count has somebody in the loop for every missing unit, so the count stays far from
the lower end of an `int`. -/
theorem Counted.int32_pred (h : Counted i v c tr s) : int32 ((s.semtable i).value - 1) = (s.semtable i).value - 1 := by
  have hcard := card_waiting_le s i
  have hlow := h.lower
  have hup := h.upper
  apply int32_eq_self <;> omega

theorem not_all_asleep (hcard : 0 < (waiting s i).card) (hawake : ∀ q, ¬ s.asleep q i) :
    ¬ ∀ q, s.inside q i → s.asleep q i := by
  intro hall
  obtain ⟨q, hq⟩ := Finset.card_pos.mp hcard
  exact hawake q (hall q (mem_waiting.mp hq))

/-- Nobody sleeps unless the count is negative, and everybody does only if there is no unit left. -/
def Sleepers (i : Fin NSEM) (s : State) : Prop :=
  (∀ q, s.asleep q i → (s.semtable i).value < 0) ∧
    ((∀ q, s.inside q i → s.asleep q i) → 0 < (waiting s i).card → (s.semtable i).value + (waiting s i).card ≤ 0)

theorem Sleepers.of_awake (hawake : ∀ q, ¬ s.asleep q i) : Sleepers i s :=
  ⟨fun q hq => absurd hq (hawake q), fun hall hcard => absurd hall (not_all_asleep hcard hawake)⟩

/-- Somebody leaves the loop only when the count is not negative, and then nobody is asleep. -/
theorem Sleepers.leaves {p : Fin NPROC} {w : Int} (h : Sleepers i s) (hpos : 0 ≤ (s.semtable i).value)
    (he : Leaves i p w s s') : Sleepers i s' :=
  .of_awake fun q => not_asleep_of_leaves he fun hq => absurd (h.1 q hq) (not_lt.2 hpos)

theorem Sleepers.step (h : Sleepers i s) (hc : Counted i v c tr s) (hclose : isClose i ev = false)
    (hstep : restrict (Admits i) Step s ev s') : Sleepers i s' := by
  obtain ⟨hgood, hstep⟩ := hstep
  cases step_effect hc.wf hstep i with
  | take _ _ _ hunused | resumeAbort _ _ hunused =>
    rw [hc.used] at hunused
    cases hunused
  | store hg htaken hi =>
    have hsettled := hc.settled
    simp [State.storing, hg, htaken, hi] at hsettled
  | @enterSleep p id _ _ _ hfree he =>
    have hout : ¬ s.inside p i := by
      intro hin
      rw [State.inside, hfree.1] at hin
      cases hin
    have hcard := card_waiting_enter hout he.self.1 he.inside
    have hval := he.value.trans hc.int32_pred
    have hneg := he.neg
    rw [hc.int32_pred] at hneg
    refine ⟨fun _ _ => by omega, fun hall _ => ?_⟩
    rw [hval, hcard]
    -- everybody who was in the loop before is asleep too
    by_cases hbefore : 0 < (waiting s i).card
    · have hdrained := h.2 (fun q hq => ?_) hbefore
      · omega
      · have hqp : q ≠ p := fun hqp => hout (hqp ▸ hq)
        exact (he.asleep q hqp).mp (hall q ((he.inside q hqp).mpr hq))
    · omega
  | enterPass _ _ _ hpos he =>
    rw [hc.int32_pred] at hpos
    exact h.leaves (by omega) he
  | resumeSleep hin _ _ he =>
    have hwait := waiting_same_of_inside ⟨fun _ => hin, fun _ => he.self.1⟩ he.inside
    have hneg := he.neg
    have hgood := hgood rfl
    refine ⟨fun _ _ => he.value ▸ hneg, fun _ _ => ?_⟩
    rw [he.value, hwait]
    omega
  | resumePass _ _ _ hpos he => exact h.leaves hpos he
  | post _ _ he => exact .of_awake he.awake
  | close hid => simp [isClose, hid] at hclose
  | other _ he =>
    have hwait := waiting_congr he.inside
    refine ⟨fun q hq => he.value ▸ h.1 q (he.asleep q hq), fun hall hcard => ?_⟩
    rw [he.value, hwait]
    rw [hwait] at hcard
    exact h.2 (fun q hq => he.asleep q (hall q ((he.inside q).mpr hq))) hcard

theorem Admits.room (h : Admits i s ev) (hpost : isPost i ev = true) : (s.semtable i).value < 2 ^ 31 - 1 := by
  obtain ⟨act, r⟩ := ev
  cases act with
  | semPost =>
    cases r with
    | none => cases hpost
    | some =>
      simp only [isPost, Bool.and_eq_true, beq_iff_eq] at hpost
      exact h hpost.1
  | _ => cases hpost

end Preservation

theorem OpenSince.sleepers {i : Fin NSEM} {v : Int} {tr : List Event} {s : State} (hv : v < 2 ^ 31)
    (h : OpenSince (restrict (Settled i) Step) (restrict (Admits i) Step) i v tr s) :
    ∃ c : Nat, Counted i v c tr s ∧ Sleepers i s := by
  refine h.invariant (P := fun tr s => ∃ c : Nat, Counted i v c tr s ∧ Sleepers i s) ?_ fun s₀ s₁ hopened => ?_
  · rintro tr s ev s' ⟨c, hcounted, hsleepers⟩ hclose hstep
    exact ⟨c, counted_step hcounted hclose hstep.1.room hstep.2, hsleepers.step hcounted hclose hstep⟩
  have hstored := hopened.stored fun _ _ _ hstep => hstep.2
  have hcalm : Calm i s₀ := Reachable.invariant (by rintro _ rfl; exact calm_boot i)
    (fun _ _ _ hs hstep => calm_step hs hstep) hopened.reach
  refine ⟨_, hstored.counted hv, .of_awake fun q hq => hcalm.2 (.inr hstored.storing) q ?_⟩
  rwa [State.asleep, State.inside, hstored.proc] at hq

/-- Between a `semget(key, v)` and the `semclose` of its slot, in every state of every run of
admitted steps: if nobody inside `sem_wait` is runnable and units are left, nobody is asleep. -/
theorem noStrandedWaiter_of_admits (i : Fin NSEM) (v : Int) (tr : List Event) (s : State)
    (hv : v < 2 ^ 31) (hopen : OpenSince (restrict (Settled i) Step) (restrict (Admits i) Step) i v tr s)
    (hquiet : ∀ q, s.inside q i → s.asleep q i) (hunits : 0 < v + posts i tr - passed i tr) :
    ∀ q, ¬ s.asleep q i := by
  obtain ⟨c, hcounted, hsleepers⟩ := hopen.sleepers hv
  intro q hq
  have hcard : 0 < (waiting s i).card := Finset.card_pos.mpr ⟨q, mem_waiting.mpr hq.1⟩
  have hdrained := hsleepers.2 hquiet hcard
  have hvalue := hcounted.value
  have hinside := hcounted.card
  omega

instance (i : Fin NSEM) (s : State) : (ev : Event) → Decidable (Admits i s ev)
  | (.resume _ _, _) | (.semPost _ _, _) => inferInstanceAs (Decidable (_ → _))
  | (.semGet _ _ _, _) | (.semGetStep, _) | (.semWait _ _, _) | (.semClose _ _, _) | (.kill _, _) => isTrue trivial

theorem settled_of_get {i : Fin NSEM} {v : Int} {s t : State} {ev : Event} (_ : s.proc = boot.proc)
    (hev : ev.1 = .semGet 0 1 v ∨ ev.1 = .semGetStep) (hstep : Step s ev t) : restrict (Settled i) Step s ev t := by
  obtain ⟨act, ret⟩ := ev
  rcases hev with rfl | rfl <;> exact ⟨trivial, hstep⟩

/-- Process 1 waits and sleeps, a post lets it through, and a second post leaves a unit over. -/
theorem noStrandedWaiter_two_posts : ∃ r, execs (guarded (Admits 0) exec) (afterGet (Int.le_refl 0))
        [.semWait 1 0, .semPost 0 0, .resume 1 0, .semPost 0 0] = some r ∧
      0 < 0 + posts 0 r.2 - passed 0 r.2 ∧ ∀ q, ¬ r.1.asleep q 0 := by
  obtain ⟨r, hexec, hclose, hquiet, hunits⟩ : ∃ r, execs (guarded (Admits 0) exec) (afterGet (Int.le_refl 0))
      [.semWait 1 0, .semPost 0 0, .resume 1 0, .semPost 0 0] = some r ∧
      (∀ ev ∈ r.2, isClose 0 ev = false) ∧ (∀ q, r.1.inside q 0 → r.1.asleep q 0) ∧
      0 < 0 + posts 0 r.2 - passed 0 r.2 :=
    ⟨_, rfl, by decide, by decide, by decide⟩
  exact ⟨r, hexec, hunits, noStrandedWaiter_of_admits 0 0 r.2 r.1 (by decide)
    ⟨_, _, opened_afterGet _ fun _ _ _ => settled_of_get, Run.of_guarded_execs hexec, hclose⟩ hquiet hunits⟩

/-- One post for two sleeping waiters lets neither of them through: processes 1 and 2 wait on a new
semaphore of value 0, process 0 posts once, both waiters run, and both are asleep again. -/
theorem strandedWaiter_of_one_post : ¬ ∀ (i : Fin NSEM) (v : Int) (tr : List Event) (s : State),
    v < 2 ^ 31 → OpenSince (restrict (Settled i) Step) Step i v tr s → (∀ q, s.inside q i → s.asleep q i) →
    0 < v + posts i tr - passed i tr → ∀ q, ¬ s.asleep q i := by
  intro hclaim
  obtain ⟨r, hexec, hclose, hquiet, hunits, hasleep⟩ : ∃ r, execs exec (afterGet (Int.le_refl 0))
      [.semWait 1 0, .semWait 2 0, .semPost 0 0, .resume 1 0, .resume 2 0] = some r ∧
      (∀ ev ∈ r.2, isClose 0 ev = false) ∧ (∀ q, r.1.inside q 0 → r.1.asleep q 0) ∧
      0 < 0 + posts 0 r.2 - passed 0 r.2 ∧ r.1.asleep 1 0 :=
    ⟨_, rfl, by decide, by decide, by decide, by decide⟩
  exact hclaim 0 0 r.2 r.1 (by decide)
    ⟨_, _, opened_afterGet _ fun _ _ _ => settled_of_get, Run.of_execs hexec, hclose⟩ hquiet hunits 1 hasleep

end Xv6.Sem
