import Xv6.Sem.Close
import Xv6.Sem.Counter

/-!
# How many callers a semaphore lets through

Every caller of `sem_wait` takes its unit off the count when it enters, and is let through only while the count is
not negative.  So the callers let through never outnumber the units, as long as everybody in the loop has entered it
since `sem_get`.
-/

namespace Xv6.Sem

open Runs

/-- As long as the slot is not closed, and the count does not run over, no more calls of `sem_wait`
have returned 0 than there were units. -/
def NeverOverAdmits (step : State → Event → State → Prop) : Prop :=
  ∀ i v tr s, OpenSince step step i v tr s → v + posts i tr < 2 ^ 31 → passed i tr ≤ v + posts i tr

/-- `sem_get` takes only slots that nobody is left in, and nobody uses a slot that has no value yet. -/
def Orderly (s : State) (ev : Event) : Prop := FreshSlot s ev ∧ ∀ i, Settled i s ev

/-- Nobody is in the loop of a slot that has no value yet. -/
def Vacant (s : State) : Prop := WellFormed s ∧ ∀ i, s.storing i = true → ∀ q, ¬ s.inside q i

section Preservation

variable {i : Fin NSEM} {v : Int} {tr : List Event} {s s' : State} {ev : Event}

theorem Vacant.step (h : Vacant s) (hstep : restrict Orderly Step s ev s') : Vacant s' := by
  obtain ⟨⟨hfresh, hsettled⟩, hstep⟩ := hstep
  refine ⟨wellFormed_step h.1 hstep, fun i hstoring q hq => ?_⟩
  have hbefore := storing_step hstep hstoring
  have hout : ∀ q, ¬ s.inside q i := by
    rcases hbefore with hbefore | ⟨g, hg, htaken, rfl, hunused, rfl⟩
    · exact h.2 i hbefore
    · exact hfresh g hg htaken hunused
  cases step_effect h.1 hstep i with
  | take _ _ _ _ _ hproc | store _ _ _ _ _ hproc =>
    rw [State.inside, hproc] at hq
    exact hout q hq
  | enterSleep hid | enterPass hid =>
    rcases hbefore with hbefore | ⟨_, -, -, -, -, hev⟩
    · rw [hsettled i hid] at hbefore
      cases hbefore
    · cases hev
  | resumeAbort hin | resumeSleep hin | resumePass hin => exact hout _ hin
  | post _ _ he | close _ _ he | other _ he => exact hout q ((he.inside q).mp hq)

theorem vacant_boot : Vacant boot := by
  refine ⟨?_, fun i hstoring => absurd hstoring Bool.false_ne_true⟩
  rintro p j ⟨_, hsleep⟩
  cases hsleep

theorem posts_nonneg (i : Fin NSEM) (tr : List Event) : 0 ≤ posts i tr ∧ 0 ≤ entered i tr ∧ 0 ≤ passed i tr :=
  ⟨Int.natCast_nonneg _, Int.natCast_nonneg _, Int.natCast_nonneg _⟩

/-- The callers let through are the ones that have entered and are not in the loop. -/
theorem passed_le_step (h : Counted i v 0 tr s) (hbound : passed i tr ≤ v + posts i tr) (hclose : isClose i ev = false)
    (hroom : v + posts i (tr ++ [ev]) < 2 ^ 31) (hstep : Step s ev s') :
    Counted i v 0 (tr ++ [ev]) s' ∧ passed i (tr ++ [ev]) ≤ v + posts i (tr ++ [ev]) := by
  have hold := h.value
  have hnonneg := posts_nonneg i tr
  have hcounted : Counted i v 0 (tr ++ [ev]) s' := by
    refine counted_step h hclose (fun hpost => ?_) hstep
    rw [posts_snoc, if_pos hpost] at hroom
    omega
  refine ⟨hcounted, ?_⟩
  obtain ⟨p, e, a, ht⟩ := step_turn h.wf h.used h.settled hclose hstep
  have hrange := ht.range
  have hvalue := hcounted.value
  have hcard := hcounted.card
  rcases ht.pass with hnone | hpos
  · rw [ht.posts, ht.passed]
    omega
  · omega

end Preservation

/-- In runs where `sem_get` gives out only slots that nobody is left in, and nobody uses a slot before it has its
value, a semaphore lets no more callers through than it has units. -/
theorem neverOverAdmits_of_orderly (step : State → Event → State → Prop)
    (hsub : ∀ s ev t, step s ev t → restrict Orderly Step s ev t) : NeverOverAdmits step := by
  intro i v tr s hopen hroom
  have hinv : v + posts i tr < 2 ^ 31 → Counted i v 0 tr s ∧ passed i tr ≤ v + posts i tr := by
    refine hopen.invariant (P := fun tr s => v + posts i tr < 2 ^ 31 → Counted i v 0 tr s ∧
      passed i tr ≤ v + posts i tr) ?_ fun s₀ s₁ hopened hv => ?_
    · intro tr s ev s' ih hclose hstep hroom
      have hbefore : v + posts i tr < 2 ^ 31 := by
        rw [posts_snoc] at hroom
        split at hroom <;> omega
      exact passed_le_step (ih hbefore).1 (ih hbefore).2 hclose hroom (hsub _ _ _ hstep).2
    have hstored := hopened.stored fun _ _ _ hstep => (hsub _ _ _ hstep).2
    have hvacant : Vacant s₀ := Reachable.invariant (by rintro _ rfl; exact vacant_boot)
      (fun _ _ _ hs hstep => hs.step (hsub _ _ _ hstep)) hopened.reach
    have hempty : waiting s₁ i = ∅ := by
      rw [Finset.eq_empty_iff_forall_notMem]
      intro q hq
      rw [mem_waiting, State.inside, hstored.proc] at hq
      exact hvacant.2 i hstored.storing q hq
    have hcounted := hstored.counted (by simpa [posts] using hv)
    rw [hempty] at hcounted
    exact ⟨hcounted, by simpa [posts, passed] using hstored.nonneg⟩
  exact (hinv hroom).2

/-- A semaphore with one unit lets one caller through. -/
theorem oneUnit_admits_one : ∃ tr s, OpenSince (restrict Orderly Step) (restrict Orderly Step) 0 1 tr s ∧
    passed 0 tr = 1 ∧ passed 0 tr ≤ 1 + posts 0 tr := by
  have hopened : Opened (restrict Orderly Step) 0 1 (slotTaken (Int.zero_le_ofNat 1)) (afterGet (Int.zero_le_ofNat 1)) := by
    refine opened_afterGet _ fun s ev t hproc hev hstep => ⟨⟨?_, ?_⟩, hstep⟩
    · obtain ⟨act, ret⟩ := ev
      rcases hev with rfl | rfl
      · trivial
      · intro g _ _ _ q hin
        rw [State.inside, hproc] at hin
        cases hin
    obtain ⟨act, ret⟩ := ev
    rcases hev with rfl | rfl <;> exact fun _ => trivial
  have hwait : restrict Orderly Step (afterGet (Int.zero_le_ofNat 1)) (.semWait 1 0, some 0)
      (semWait (afterGet (Int.zero_le_ofNat 1)) 1 0).1 := ⟨⟨trivial, fun _ _ => rfl⟩, rfl⟩
  have hopen : OpenSince (restrict Orderly Step) (restrict Orderly Step) 0 1 [(.semWait 1 0, some 0)]
      (semWait (afterGet (Int.zero_le_ofNat 1)) 1 0).1 := ⟨_, _, hopened, Run.single hwait, by decide⟩
  exact ⟨_, _, hopen, by decide, neverOverAdmits_of_orderly _ (fun _ _ _ h => h) 0 1 _ _ hopen (by decide)⟩

/-- Process 1 has gone to sleep on slot 0, process 0 has closed the slot, and process 2 gets it anew, with the value 0,
before process 1 runs: process 1 is let through although there is no unit. -/
theorem recycledSlot_over_admits : ¬ NeverOverAdmits Step := by
  intro hclaim
  obtain ⟨r, hexec, hgetter, hused, hrest⟩ : ∃ r, execs exec boot [.semGet 0 1 0, .semGetStep, .semGetStep,
      .semWait 1 0, .semClose 0 0, .semGet 2 7 0, .semGetStep] = some r ∧
      (∃ g, r.1.getter = some g ∧ g.taken = true ∧ g.initval = 0) ∧ (r.1.semtable 0).used = true ∧
      (execs exec r.1 [.semGetStep, .resume 1 0]).any
        (fun r => r.2 = [(.semGetStep, some 0), (.resume 1 0, some 0)]) = true :=
    ⟨_, rfl, ⟨_, rfl, rfl, rfl⟩, rfl, by decide⟩
  obtain ⟨⟨t, tr⟩, hrun, htr⟩ := (Option.any_eq_true _ _).1 hrest
  obtain rfl := of_decide_eq_true htr
  obtain ⟨u, hstore, hrun⟩ := (Run.of_execs hrun).of_cons
  have hreach : Reachable (· = boot) Step r.1 := ⟨boot, _, rfl, Run.of_execs hexec⟩
  have hbound := hclaim 0 0 _ t ⟨r.1, u, ⟨hreach, hgetter, hused, hstore⟩, hrun, by decide⟩ (by decide)
  exact absurd hbound (by decide)

end Xv6.Sem
