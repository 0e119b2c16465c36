import Xv6.Sem.Model

/-!
# What a step does to one semaphore slot

Every proof about a slot goes through `step_effect`: it lists, for a slot `i`, all that a step of
the system can do to the slot and to the processes in its loop.
-/

namespace Xv6.Sem

open Runs

/-! ## The steps -/

/-- What a step can be. -/
inductive Does (s : State) : Event → State → Prop
  /-- A bad argument, or a slot that is not in use. -/
  | refused {act : Act} : Does s (act, some (-1)) s
  | call {p : Fin NPROC} {key v : Int} {hv : 0 ≤ v} : s.getter = none → Does s (.semGet p key v, none)
      { s with getter := some { who := p, key := key, initval := v, i := 0, taken := false, nonneg := hv } }
  | store {g : Getter} : s.getter = some g → g.taken = true → Does s (.semGetStep, some g.i)
      { s.setSlot g.i { s.semtable g.i with value := g.initval, nwaiting := 0 } with getter := none }
  | take {g : Getter} : s.getter = some g → g.taken = false → (s.semtable g.i).used = false →
      Does s (.semGetStep, none) { s.setSlot g.i { s.semtable g.i with used := true, key := g.key } with
        getter := some { g with taken := true } }
  | next {g : Getter} {j : Fin NSEM} : s.getter = some g → g.taken = false →
      Does s (.semGetStep, none) { s with getter := some { g with i := j } }
  | full : Does s (.semGetStep, some (-1)) { s with getter := none }
  | wait {p : Fin NPROC} {id : Int} {i : Fin NSEM} {r : State × Option Int} {ret : Option Int} {s' : State} :
      s.free p → slotOf id = some i → (s.semtable i).used = true →
      r = waitLoop (s.setSlot i { s.semtable i with value := int32 ((s.semtable i).value - 1) }) p i →
      ret = r.2 → s' = r.1 → Does s (.semWait p id, ret) s'
  | abort {p : Fin NPROC} {i : Fin NSEM} : s.inside p i → (s.proc p).state ≠ .sleeping →
      (s.semtable i).used = false → Does s (.resume p i, some (-1))
        ((s.setSlot i { s.semtable i with nwaiting := (s.semtable i).nwaiting - 1 }).setProc p ((s.proc p).resume none))
  | again {p : Fin NPROC} {i : Fin NSEM} {r : State × Option Int} {ret : Option Int} {s' : State} :
      s.inside p i → (s.proc p).state ≠ .sleeping → (s.semtable i).used = true →
      r = waitLoop (s.setSlot i { s.semtable i with nwaiting := (s.semtable i).nwaiting - 1 }) p i →
      ret = r.2 → s' = r.1 → Does s (.resume p i, ret) s'
  | post {p : Fin NPROC} {id : Int} {i : Fin NSEM} : s.free p → slotOf id = some i → (s.semtable i).used = true →
      Does s (.semPost p id, some 0) (s.notify p i { s.semtable i with value := int32 ((s.semtable i).value + 1) })
  | close {p : Fin NPROC} {id : Int} {i : Fin NSEM} : s.free p → slotOf id = some i → (s.semtable i).used = true →
      Does s (.semClose p id, some 0) (s.notify p i { s.semtable i with used := false })
  | kill {p : Fin NPROC} : Does s (.kill p, none) (s.setProc p (s.proc p).kill)

variable {i : Fin NSEM} {s : State} {ev : Event}

section Does

variable {s s' : State} {p : Fin NPROC} {i : Fin NSEM} {id : Int} {body : Fin NSEM → State × Option Int}

theorem onSlot_of_used (hid : slotOf id = some i) (hused : (s.semtable i).used = true) : onSlot s id body = body i := by
  unfold onSlot
  rw [hid]
  exact if_neg (by simp [hused])

theorem onSlot_of_unused (hid : slotOf id = some i) (hunused : (s.semtable i).used = false) :
    onSlot s id body = (s, some (-1)) := by
  unfold onSlot
  rw [hid]
  exact if_pos (by simp [hunused])

theorem onSlot_cases (s : State) (id : Int) (body : Fin NSEM → State × Option Int) :
    onSlot s id body = (s, some (-1)) ∨
      ∃ i, slotOf id = some i ∧ (s.semtable i).used = true ∧ onSlot s id body = body i := by
  cases hid : slotOf id with
  | none => exact .inl (by simp only [onSlot, hid])
  | some i =>
    cases hused : (s.semtable i).used with
    | false => exact .inl (onSlot_of_unused hid hused)
    | true => exact .inr ⟨i, rfl, hused, onSlot_of_used hid hused⟩

theorem semWaitResume_of_used (hused : (s.semtable i).used = true) : semWaitResume s p i = waitLoop
      (s.setSlot i { s.semtable i with nwaiting := (s.semtable i).nwaiting - 1 }) p i :=
  if_neg (by simp [hused])

theorem semWaitResume_of_unused (hused : (s.semtable i).used = false) : semWaitResume s p i =
      ((s.setSlot i { s.semtable i with nwaiting := (s.semtable i).nwaiting - 1 }).setProc p
        ((s.proc p).resume none), some (-1)) :=
  if_pos (by simp [hused])

theorem does_of_onSlot {act : Act} (h : ∀ i, slotOf id = some i → (s.semtable i).used = true →
    Does s (act, (body i).2) (body i).1) : Does s (act, (onSlot s id body).2) (onSlot s id body).1 := by
  rcases onSlot_cases s id body with hrefused | ⟨i, hid, hused, heq⟩
  · rw [hrefused]
    exact .refused
  · rw [heq]
    exact h i hid hused

theorem semGetStep_does {g : Getter} (hg : s.getter = some g) :
    Does s (.semGetStep, (semGetStep s g).2) (semGetStep s g).1 := by
  unfold semGetStep
  dsimp only
  split
  · exact .store hg ‹_›
  rename_i htaken
  have htaken : g.taken = false := by simpa using htaken
  split
  · rename_i hunused
    exact .take hg htaken (by simpa using hunused)
  · split
    · exact .next hg htaken
    · exact .full

theorem Step.does (h : Step s ev s') : Does s ev s' := by
  obtain ⟨act, ret⟩ := ev
  unfold Step Exec at h
  cases act with
  | semGet =>
    simp only [exec, semGet] at h
    split_ifs at h with hfree hv hlock
    · cases h
      exact .call hlock
    · cases h
      exact .refused
  | semGetStep =>
    obtain ⟨g, hg, heq⟩ := Option.map_eq_some_iff.1 h
    have hdoes := semGetStep_does hg
    rwa [heq] at hdoes
  | semWait p id =>
    simp only [exec] at h
    split_ifs at h with hfree
    have hdoes : Does s (.semWait p id, (semWait s p id).2) (semWait s p id).1 :=
      does_of_onSlot fun i hid hused => .wait hfree hid hused rfl rfl rfl
    rwa [Option.some.inj h] at hdoes
  | resume p i =>
    simp only [exec] at h
    split_ifs at h with hguard
    cases hused : (s.semtable i).used with
    | false =>
      rw [semWaitResume_of_unused hused] at h
      cases h
      exact .abort hguard.1 hguard.2 hused
    | true =>
      exact .again hguard.1 hguard.2 hused ((Option.some.inj h).symm.trans (semWaitResume_of_used hused)) rfl rfl
  | semPost p id =>
    simp only [exec] at h
    split_ifs at h with hfree
    have hdoes : Does s (.semPost p id, (semPost s p id).2) (semPost s p id).1 :=
      does_of_onSlot fun i hid hused => .post hfree hid hused
    rwa [Option.some.inj h] at hdoes
  | semClose p id =>
    simp only [exec] at h
    split_ifs at h with hfree
    have hdoes : Does s (.semClose p id, (semClose s p id).2) (semClose s p id).1 :=
      does_of_onSlot fun i hid hused => .close hfree hid hused
    rwa [Option.some.inj h] at hdoes
  | kill =>
    cases h
    exact .kill

end Does

theorem waitLoop_getter (s : State) (p : Fin NPROC) (i : Fin NSEM) : (waitLoop s p i).1.getter = s.getter := by
  unfold waitLoop
  dsimp only
  split <;> rfl

/-! ## Sleepers and their channels -/

/-- A process that sleeps in the loop of a slot sleeps on the slot's channel. -/
def WellFormed (s : State) : Prop := ∀ p i, s.asleep p i → (s.proc p).chan = some i

section WellFormed

variable {s s' : State} {p : Fin NPROC} {i : Fin NSEM}

theorem WellFormed.of_proc (h : WellFormed s) (hproc : s'.proc = s.proc) : WellFormed s' := by
  intro q j hq
  rw [State.asleep, State.inside, hproc] at hq
  rw [hproc]
  exact h q j hq

section

variable (h : WellFormed s)

include h

theorem WellFormed.setProc {t : Waiter} (ht : ∀ i, t.pc = some i → t.state = .sleeping → t.chan = some i) :
    WellFormed (s.setProc p t) := by
  intro q j hq
  by_cases hqp : q = p
  · subst hqp
    simp only [State.asleep, State.inside, setProc_self] at hq ⊢
    exact ht j hq.1 hq.2
  · simp only [State.asleep, State.inside, setProc_of_ne s t hqp] at hq ⊢
    exact h q j hq

theorem WellFormed.notify (me : Fin NPROC) (slot : SemSlot) : WellFormed (s.notify me i slot) := by
  intro q j hq
  obtain ⟨hin, hsleep⟩ := hq
  simp only [State.notify, State.inside, wakeup_pc] at hin
  simp only [State.notify, wakeup_chan]
  refine h q j ⟨hin, ?_⟩
  by_contra hawake
  simp only [State.notify, wakeup_of_not_sleeping me i s.proc q hawake] at hsleep
  exact hawake hsleep

theorem WellFormed.waitLoop : WellFormed (waitLoop s p i).1 := by
  unfold Sem.waitLoop
  by_cases hneg : (s.semtable i).value < 0
  · simp only [hneg, if_true]
    exact WellFormed.setProc (h.of_proc rfl) (fun j hj _ => hj)
  · simp only [hneg, if_false]
    exact h.setProc (by simp [Thread.resume])

theorem WellFormed.kill : WellFormed (s.setProc p (s.proc p).kill) := by
  refine h.setProc fun j hj hsleep => h p j ⟨hj, ?_⟩
  by_contra hawake
  simp [Thread.kill, hawake] at hsleep

theorem wellFormed_step (hstep : Step s ev s') : WellFormed s' := by
  cases hstep.does with
  | refused => exact h
  | call | store | take | next | full => exact h.of_proc rfl
  | wait _ _ _ hr _ hs | again _ _ _ hr _ hs =>
    rw [hs, hr]
    exact WellFormed.waitLoop (h.of_proc rfl)
  | abort => exact WellFormed.setProc (h.of_proc rfl) (by simp [Thread.resume])
  | post | close => exact h.notify _ _
  | kill => exact h.kill

end

end WellFormed

/-- The states the system can be in: those reached from boot. -/
def Reach (s : State) : Prop := Reachable (· = boot) Step s

theorem Reach.wellFormed (h : Reach s) : WellFormed s := by
  refine Reachable.invariant ?_ (fun _ _ _ hs hstep => wellFormed_step hs hstep) h
  rintro _ rfl p i ⟨_, hsleep⟩
  cases hsleep

/-! ## The effects on a slot -/

/-- The value and the use of the slot are as before, nobody enters or leaves its loop, and nobody
falls asleep in it. -/
structure Untouched (i : Fin NSEM) (s s' : State) : Prop where
  value : (s'.semtable i).value = (s.semtable i).value
  used : (s'.semtable i).used = (s.semtable i).used
  inside : ∀ q, s'.inside q i ↔ s.inside q i
  asleep : ∀ q, s'.asleep q i → s.asleep q i

/-- `p`, in the loop of slot `i` or not, ends up asleep in it, with `v` in the slot. -/
structure FallsAsleep (i : Fin NSEM) (p : Fin NPROC) (v : Int) (s s' : State) : Prop where
  value : (s'.semtable i).value = v
  neg : v < 0
  used : (s'.semtable i).used = (s.semtable i).used
  self : s'.asleep p i
  inside : ∀ q, q ≠ p → (s'.inside q i ↔ s.inside q i)
  asleep : ∀ q, q ≠ p → (s'.asleep q i ↔ s.asleep q i)

/-- `p` ends up outside of the loop, with `v` in the slot. -/
structure Leaves (i : Fin NSEM) (p : Fin NPROC) (v : Int) (s s' : State) : Prop where
  value : (s'.semtable i).value = v
  used : (s'.semtable i).used = (s.semtable i).used
  self : (s'.proc p).pc = none
  inside : ∀ q, q ≠ p → (s'.inside q i ↔ s.inside q i)
  asleep : ∀ q, q ≠ p → (s'.asleep q i ↔ s.asleep q i)

/-- The slot holds `v`, and all processes in its loop have been woken up. -/
structure Wakes (i : Fin NSEM) (v : Int) (u : Bool) (s s' : State) : Prop where
  value : (s'.semtable i).value = v
  used : (s'.semtable i).used = u
  inside : ∀ q, s'.inside q i ↔ s.inside q i
  awake : ∀ q, ¬ s'.asleep q i

/-- The event does not count for slot `i`. -/
structure Silent (i : Fin NSEM) (ev : Event) : Prop where
  post : isPost i ev = false
  pass : isPass i ev = false
  close : isClose i ev = false

/-- The effects of a step on slot `i`. -/
inductive Effect (i : Fin NSEM) (s : State) : Event → State → Prop
  | take {g : Getter} {s' : State} : s.getter = some g → g.taken = false → g.i = i → (s.semtable i).used = false →
      (s'.semtable i).used = true → s'.proc = s.proc → Effect i s (.semGetStep, none) s'
  | store {g : Getter} {s' : State} : s.getter = some g → g.taken = true → g.i = i →
      (s'.semtable i).value = g.initval → (s'.semtable i).used = (s.semtable i).used → s'.proc = s.proc →
      s'.getter = none → Effect i s (.semGetStep, some i) s'
  | enterSleep {p : Fin NPROC} {id : Int} {s' : State} :
      slotOf id = some i → (s.semtable i).used = true → s.free p →
      FallsAsleep i p (int32 ((s.semtable i).value - 1)) s s' → Effect i s (.semWait p id, none) s'
  | enterPass {p : Fin NPROC} {id : Int} {s' : State} :
      slotOf id = some i → (s.semtable i).used = true → s.free p →
      0 ≤ int32 ((s.semtable i).value - 1) → Leaves i p (int32 ((s.semtable i).value - 1)) s s' →
      Effect i s (.semWait p id, some 0) s'
  | resumeAbort {p : Fin NPROC} {s' : State} :
      s.inside p i → ¬ s.asleep p i → (s.semtable i).used = false →
      Leaves i p (s.semtable i).value s s' → Effect i s (.resume p i, some (-1)) s'
  | resumeSleep {p : Fin NPROC} {s' : State} :
      s.inside p i → ¬ s.asleep p i → (s.semtable i).used = true →
      FallsAsleep i p (s.semtable i).value s s' → Effect i s (.resume p i, none) s'
  | resumePass {p : Fin NPROC} {s' : State} :
      s.inside p i → ¬ s.asleep p i → (s.semtable i).used = true → 0 ≤ (s.semtable i).value →
      Leaves i p (s.semtable i).value s s' → Effect i s (.resume p i, some 0) s'
  | post {p : Fin NPROC} {id : Int} {s' : State} :
      slotOf id = some i → (s.semtable i).used = true →
      Wakes i (int32 ((s.semtable i).value + 1)) true s s' → Effect i s (.semPost p id, some 0) s'
  | close {p : Fin NPROC} {id : Int} {s' : State} :
      slotOf id = some i → (s.semtable i).used = true →
      Wakes i (s.semtable i).value false s s' → Effect i s (.semClose p id, some 0) s'
  | other {ev : Event} {s' : State} :
      Silent i ev → Untouched i s s' → Effect i s ev s'

theorem silent_of_failed (i : Fin NSEM) (act : Act) : Silent i (act, some (-1)) := by
  constructor <;> cases act <;> simp [isPost, isPass, isClose]

theorem silent_semGetStep (i : Fin NSEM) (r : Option Int) : Silent i (.semGetStep, r) := by
  constructor <;> cases r <;> rfl

section Silent

variable {i j : Fin NSEM} {p : Fin NPROC} {id : Int}

theorem silent_resume (h : i ≠ j) (r : Option Int) : Silent i (.resume p j, r) := by
  constructor <;> cases r <;> simp [isPost, isPass, isClose, Ne.symm h]

variable (hid : slotOf id = some j) (h : i ≠ j) (r : Option Int)

include hid h

theorem silent_semWait : Silent i (.semWait p id, r) := by
  constructor <;> cases r <;> simp [isPost, isPass, isClose, hid, Ne.symm h]

theorem silent_semPost : Silent i (.semPost p id, r) := by
  constructor <;> cases r <;> simp [isPost, isPass, isClose, hid, Ne.symm h]

theorem silent_semClose : Silent i (.semClose p id, r) := by
  constructor <;> cases r <;> simp [isPost, isPass, isClose, hid, Ne.symm h]

end Silent

theorem untouched_of_slot_ne {i j : Fin NSEM} (slot : SemSlot) (h : i ≠ j) : Untouched i s (s.setSlot j slot) :=
  ⟨by simp [h], by simp [h], fun _ => .rfl, fun _ => id⟩

theorem untouched_refl (i : Fin NSEM) (s : State) : Untouched i s s := ⟨rfl, rfl, fun _ => .rfl, fun _ => id⟩

theorem Untouched.getter {s s' : State} (h : Untouched i s s') (o : Option Getter) :
    Untouched i s { s' with getter := o } :=
  ⟨h.value, h.used, h.inside, h.asleep⟩

theorem untouched_of_proc {p : Fin NPROC} {t : Waiter}
    (hbefore : (s.proc p).pc ≠ some i) (hafter : t.pc ≠ some i) : Untouched i s (s.setProc p t) := by
  have hproc : ∀ q, (s.setProc p t).proc q = s.proc q ∨ q = p := by
    intro q
    by_cases hq : q = p
    · exact .inr hq
    · exact .inl (setProc_of_ne s t hq)
  refine ⟨rfl, rfl, fun q => ?_, fun q => ?_⟩
  · rcases hproc q with h | rfl
    · simp only [State.inside, h]
    · simp [State.inside, hbefore, hafter]
  rcases hproc q with h | rfl
  · simp only [State.asleep, State.inside, h]
    exact id
  · simp [State.asleep, State.inside, hafter]

theorem Untouched.trans {s s' s'' : State} (h : Untouched i s s') (h' : Untouched i s' s'') : Untouched i s s'' :=
  ⟨h'.value.trans h.value, h'.used.trans h.used, fun q => (h'.inside q).trans (h.inside q),
    fun q hq => h.asleep q (h'.asleep q hq)⟩

section WaitLoop

variable {s : State} {p : Fin NPROC} {i j : Fin NSEM}

theorem waitLoop_sleep (h : (s.semtable i).value < 0) :
    (waitLoop s p i).2 = none ∧ FallsAsleep i p (s.semtable i).value s (waitLoop s p i).1 := by
  unfold waitLoop
  simp only [h, if_true, true_and]
  refine ⟨by simp [State.setProc], h, by simp [State.setProc], ?_, fun q hq => ?_, fun q hq => ?_⟩
  · simp [State.asleep, State.inside, Thread.sleep]
  · simp [State.inside, hq]
  · simp [State.asleep, State.inside, hq]

theorem waitLoop_pass (h : 0 ≤ (s.semtable i).value) :
    (waitLoop s p i).2 = some 0 ∧ Leaves i p (s.semtable i).value s (waitLoop s p i).1 := by
  unfold waitLoop
  simp only [not_lt.mpr h, if_false, true_and]
  refine ⟨rfl, rfl, by simp [Thread.resume], fun q hq => ?_, fun q hq => ?_⟩
  · simp [State.inside, hq]
  · simp [State.asleep, State.inside, hq]

theorem waitLoop_other (hji : j ≠ i) (hp : (s.proc p).pc ≠ some j) : Untouched j s (waitLoop s p i).1 := by
  unfold waitLoop
  by_cases hneg : (s.semtable i).value < 0
  · simp only [hneg, if_true]
    refine (untouched_of_slot_ne _ hji).trans (untouched_of_proc hp ?_)
    simpa [Thread.sleep] using Ne.symm hji
  · simp only [hneg, if_false]
    exact untouched_of_proc hp (by simp [Thread.resume])

end WaitLoop

theorem wakes_of_notify {me : Fin NPROC} (hwf : WellFormed s)
    (hme : (s.proc me).pc = none) (slot : SemSlot) : Wakes i slot.value slot.used s (s.notify me i slot) := by
  refine ⟨by simp [State.notify], by simp [State.notify], fun q => by simp [State.notify, State.inside], fun q hq => ?_⟩
  obtain ⟨hin, hsleep⟩ := hq
  simp only [State.notify, State.inside, wakeup_pc] at hin
  have hne : q ≠ me := by
    rintro rfl
    rw [hme] at hin
    cases hin
  by_cases hbefore : (s.proc q).state = .sleeping
  · exact wakeup_state_ne_sleeping me i s.proc q hne (hwf q i ⟨hin, hbefore⟩) hsleep
  · simp only [State.notify, wakeup_of_not_sleeping me i s.proc q hbefore] at hsleep
    exact hbefore hsleep

theorem untouched_of_notify {me : Fin NPROC} {i j : Fin NSEM} (slot : SemSlot) (h : i ≠ j) :
    Untouched i s (s.notify me j slot) := by
  refine ⟨by simp [State.notify, h], by simp [State.notify, h], fun q => by simp [State.notify, State.inside],
    fun q hq => ?_⟩
  obtain ⟨hin, hsleep⟩ := hq
  refine ⟨by simpa [State.notify, State.inside] using hin, ?_⟩
  by_contra hbefore
  simp only [State.notify, wakeup_of_not_sleeping me j s.proc q hbefore] at hsleep
  exact hbefore hsleep

theorem untouched_of_kill (s : State) (p : Fin NPROC) (i : Fin NSEM) : Untouched i s (s.setProc p (s.proc p).kill) := by
  refine ⟨rfl, rfl, fun q => ?_, fun q => ?_⟩ <;> by_cases hq : q = p
  · subst hq
    simp [State.inside, Thread.kill]
  · simp [State.inside, hq]
  · subst hq
    simp only [State.asleep, State.inside, setProc_self, Thread.kill]
    split <;> simp
  · simp [State.asleep, State.inside, hq]

theorem waitLoop_after_setSlot {p : Fin NPROC} (slot : SemSlot)
    (hused : slot.used = (s.semtable i).used) :
    ((waitLoop (s.setSlot i slot) p i).2 = none ∧
        FallsAsleep i p slot.value s (waitLoop (s.setSlot i slot) p i).1) ∨
      (0 ≤ slot.value ∧ (waitLoop (s.setSlot i slot) p i).2 = some 0 ∧
        Leaves i p slot.value s (waitLoop (s.setSlot i slot) p i).1) := by
  by_cases hneg : slot.value < 0
  · obtain ⟨hret, h⟩ := waitLoop_sleep (s := s.setSlot i slot) (p := p) (i := i) (by simpa using hneg)
    rw [setSlot_self] at h
    exact .inl ⟨hret, h.value, h.neg, by rw [h.used, setSlot_self, hused], h.self, h.inside, h.asleep⟩
  · obtain ⟨hret, h⟩ := waitLoop_pass (s := s.setSlot i slot) (p := p) (i := i) (by simpa using not_lt.mp hneg)
    rw [setSlot_self] at h
    exact .inr ⟨not_lt.mp hneg, hret, h.value, by rw [h.used, setSlot_self, hused], h.self, h.inside, h.asleep⟩

theorem step_effect {s s' : State} (hwf : WellFormed s) (hstep : Step s ev s') (i : Fin NSEM) : Effect i s ev s' := by
  have hsame := untouched_refl i s
  cases hstep.does with
  | refused => exact .other (silent_of_failed i _) hsame
  | call => exact .other ⟨rfl, rfl, rfl⟩ (hsame.getter _)
  | @store g hg htaken =>
    by_cases hij : i = g.i
    · subst hij
      exact .store hg htaken rfl (by simp) (by simp) rfl rfl
    · exact .other (silent_semGetStep i _) ((untouched_of_slot_ne _ hij).getter _)
  | @take g hg htaken hunused =>
    by_cases hij : i = g.i
    · subst hij
      exact .take hg htaken rfl hunused (by simp) rfl
    · exact .other (silent_semGetStep i _) ((untouched_of_slot_ne _ hij).getter _)
  | next | full => exact .other (silent_semGetStep i _) (hsame.getter _)
  | @wait p id j r ret s' hfree hid hused hr hret hs =>
    subst hr hret hs
    by_cases hij : i = j
    · subst hij
      rcases waitLoop_after_setSlot (s := s) (p := p) (i := i)
        { s.semtable i with value := int32 ((s.semtable i).value - 1) } rfl with ⟨hret, h⟩ | ⟨hpos, hret, h⟩
      · rw [hret]
        exact .enterSleep hid hused hfree h
      · rw [hret]
        exact .enterPass hid hused hfree hpos h
    · refine .other (silent_semWait hid hij _) ((untouched_of_slot_ne _ hij).trans (waitLoop_other hij ?_))
      rw [setSlot_proc, hfree.1]
      exact (Option.some_ne_none i).symm
  | @abort p j hin hawake hunused =>
    by_cases hij : i = j
    · subst hij
      refine .resumeAbort hin (fun h => hawake h.2) hunused
        ⟨by simp [State.setProc], by simp [State.setProc], by simp [Thread.resume], ?_, ?_⟩
      · intro q hq
        simp [State.inside, hq]
      · intro q hq
        simp [State.asleep, State.inside, hq]
    refine .other (silent_resume hij _) ((untouched_of_slot_ne _ hij).trans
      (untouched_of_proc ?_ (by simp [Thread.resume])))
    rw [setSlot_proc, hin]
    simpa using Ne.symm hij
  | @again p j r ret s' hin hawake hused hr hret hs =>
    subst hr hret hs
    by_cases hij : i = j
    · subst hij
      have hnot : ¬ s.asleep p i := fun h => hawake h.2
      rcases waitLoop_after_setSlot (s := s) (p := p) (i := i)
        { s.semtable i with nwaiting := (s.semtable i).nwaiting - 1 } rfl with ⟨hret, h⟩ | ⟨hpos, hret, h⟩
      · rw [hret]
        exact .resumeSleep hin hnot hused h
      · rw [hret]
        exact .resumePass hin hnot hused hpos h
    · refine .other (silent_resume hij _) ((untouched_of_slot_ne _ hij).trans (waitLoop_other hij ?_))
      rw [setSlot_proc, hin]
      simpa using Ne.symm hij
  | @post p id j hfree hid hused =>
    by_cases hij : i = j
    · subst hij
      exact .post hid hused (hused ▸ wakes_of_notify hwf hfree.1 { s.semtable i with value := _ })
    · exact .other (silent_semPost hid hij _) (untouched_of_notify _ hij)
  | @close p id j hfree hid hused =>
    by_cases hij : i = j
    · subst hij
      exact .close hid hused (wakes_of_notify hwf hfree.1 { s.semtable i with used := false })
    · exact .other (silent_semClose hid hij _) (untouched_of_notify _ hij)
  | kill => exact .other ⟨rfl, rfl, rfl⟩ (untouched_of_kill s _ i)

theorem Reach.effect {s s' : State} (h : Reach s) (hstep : Step s ev s') (i : Fin NSEM) : Effect i s ev s' :=
  step_effect h.wellFormed hstep i

end Xv6.Sem
