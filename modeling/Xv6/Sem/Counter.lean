import Mathlib.Data.Fintype.Card
import Mathlib.Data.Finset.Card
import Xv6.Sem.Effect

/-!
# The counter of a semaphore

`value` is an `int` that `sem_post` increments without a look at it.  Downwards it cannot run over, because whoever takes
it below zero stays in the loop; upwards it can.
-/

namespace Xv6.Sem

open Runs

def posts (i : Fin NSEM) (tr : List Event) : Int := tr.countP (isPost i)

def passed (i : Fin NSEM) (tr : List Event) : Int := tr.countP (isPass i)

/-- A `sem_wait` on slot `i` that found it in use, and took its unit off the count. -/
def isEnter (i : Fin NSEM) : Event → Bool
  | (.semWait _ id, r) => slotOf id == some i && r != some (-1)
  | _ => false

def entered (i : Fin NSEM) (tr : List Event) : Int := tr.countP (isEnter i)

def waiting (s : State) (i : Fin NSEM) : Finset (Fin NPROC) := Finset.univ.filter fun q => s.inside q i

/-- In a run of `before`, a `sem_get` stores the initial value `v` in slot `i` and returns `i`; the slot has not been
closed since it was taken. -/
structure Opened (before : State → Event → State → Prop) (i : Fin NSEM) (v : Int) (s₀ s₁ : State) : Prop where
  reach : Reachable (· = boot) before s₀
  getter : ∃ g, s₀.getter = some g ∧ g.taken = true ∧ g.initval = v
  used : (s₀.semtable i).used = true
  step : before s₀ (.semGetStep, some (i : Int)) s₁

/-- The trace `tr` of steps of `step` leads to `s` from there, and the slot has not been closed in between. -/
def OpenSince (before step : State → Event → State → Prop) (i : Fin NSEM) (v : Int) (tr : List Event)
    (s : State) : Prop :=
  ∃ s₀ s₁, Opened before i v s₀ s₁ ∧ Run step s₁ tr s ∧ ∀ ev ∈ tr, isClose i ev = false

/-- Nobody uses slot `i` between the two stores of a `sem_get`. -/
def Settled (i : Fin NSEM) (s : State) : Event → Prop
  | (.semWait _ id, _) | (.semPost _ id, _) => slotOf id = some i → s.storing i = false
  | (.resume _ j, _) => j = i → s.storing i = false
  | _ => True

instance (i : Fin NSEM) (s : State) : (ev : Event) → Decidable (Settled i s ev)
  | (.semWait _ _, _) | (.semPost _ _, _) | (.resume _ _, _) => inferInstanceAs (Decidable (_ → _))
  | (.semGet _ _ _, _) | (.semGetStep, _) | (.semClose _ _, _) | (.kill _, _) => isTrue trivial

/-! ## Counting the processes in a loop -/

variable {i : Fin NSEM} {s s' : State} {p : Fin NPROC}

theorem mem_waiting {s : State} {q : Fin NPROC} : q ∈ waiting s i ↔ s.inside q i := by
  simp [waiting]

theorem card_waiting_le (s : State) (i : Fin NSEM) : (waiting s i).card ≤ 64 := by
  have h := Finset.card_le_univ (waiting s i)
  rw [Fintype.card_fin] at h
  exact h

theorem waiting_congr (h : ∀ q, s'.inside q i ↔ s.inside q i) : waiting s' i = waiting s i := by
  ext q
  rw [mem_waiting, mem_waiting, h]

theorem card_waiting_enter (hout : ¬ s.inside p i) (hin : s'.inside p i)
    (h : ∀ q, q ≠ p → (s'.inside q i ↔ s.inside q i)) : (waiting s' i).card = (waiting s i).card + 1 := by
  have hset : waiting s' i = insert p (waiting s i) := by
    ext q
    rw [Finset.mem_insert, mem_waiting, mem_waiting]
    by_cases hq : q = p
    · simp [hq, hin]
    · simp [hq, h q hq]
  rw [hset, Finset.card_insert_of_notMem (by rwa [mem_waiting])]

theorem card_waiting_leave (hin : s.inside p i) (hout : ¬ s'.inside p i)
    (h : ∀ q, q ≠ p → (s'.inside q i ↔ s.inside q i)) : (waiting s' i).card + 1 = (waiting s i).card :=
  (card_waiting_enter hout hin fun q hq => (h q hq).symm).symm

theorem waiting_same_of_inside
    (hp : s'.inside p i ↔ s.inside p i) (h : ∀ q, q ≠ p → (s'.inside q i ↔ s.inside q i)) :
    waiting s' i = waiting s i := by
  apply waiting_congr
  intro q
  by_cases hq : q = p
  · rw [hq, hp]
  · exact h q hq

/-! ## What a step counts for -/

section Turn

variable {i : Fin NSEM} {s s' : State} {ev : Event} {p e a : Int}

theorem posts_snoc (tr : List Event) (ev : Event) :
    posts i (tr ++ [ev]) = posts i tr + if isPost i ev then 1 else 0 := by
  cases h : isPost i ev <;> simp [posts, List.countP_append, h]

theorem passed_snoc (tr : List Event) (ev : Event) :
    passed i (tr ++ [ev]) = passed i tr + if isPass i ev then 1 else 0 := by
  cases h : isPass i ev <;> simp [passed, List.countP_append, h]

theorem entered_snoc (tr : List Event) (ev : Event) :
    entered i (tr ++ [ev]) = entered i tr + if isEnter i ev then 1 else 0 := by
  cases h : isEnter i ev <;> simp [entered, List.countP_append, h]

/-- A step counts for `p` posts, `e` entries and `a` calls let through, and these are what it changes in the count and
in the number of processes in the loop. -/
structure Turn (i : Fin NSEM) (s : State) (ev : Event) (s' : State) (p e a : Int) : Prop where
  post : (if isPost i ev then 1 else 0) = p
  enter : (if isEnter i ev then 1 else 0) = e
  through : (if isPass i ev then 1 else 0) = a
  used : (s'.semtable i).used = true
  value : -(2 ^ 31) ≤ (s.semtable i).value + p - e → (s.semtable i).value + p - e < 2 ^ 31 →
    (s'.semtable i).value = (s.semtable i).value + p - e
  card : ((waiting s' i).card : Int) = (waiting s i).card + e - a
  settled : s'.storing i = false
  pass : a = 0 ∨ 0 ≤ (s'.semtable i).value

section

variable (h : Turn i s ev s' p e a)

include h

theorem Turn.posts (tr : List Event) : posts i (tr ++ [ev]) = posts i tr + p := by
  rw [posts_snoc, h.post]

theorem Turn.passed (tr : List Event) : passed i (tr ++ [ev]) = passed i tr + a := by
  rw [passed_snoc, h.through]

theorem Turn.entered (tr : List Event) : entered i (tr ++ [ev]) = entered i tr + e := by
  rw [entered_snoc, h.enter]

theorem Turn.range : (0 ≤ p ∧ p ≤ 1) ∧ (0 ≤ e ∧ e ≤ 1) ∧ (0 ≤ a ∧ a ≤ 1) := by
  rw [← h.post, ← h.enter, ← h.through]
  refine ⟨?_, ?_, ?_⟩ <;> split <;> decide

theorem Turn.room (hroom : isPost i ev = true → (s.semtable i).value < 2 ^ 31 - 1) :
    p = 0 ∨ (s.semtable i).value < 2 ^ 31 - 1 := by
  rw [← h.post]
  split
  · exact .inr (hroom ‹_›)
  · exact .inl rfl

end

theorem waitLoop_value (s : State) (q : Fin NPROC) (i : Fin NSEM) :
    ((waitLoop s q i).1.semtable i).value = (s.semtable i).value := by
  unfold waitLoop
  dsimp only
  split <;> simp [State.setProc]

/-- A slot whose value is to be stored has been taken before, or is taken now. -/
theorem storing_step (hstep : Step s ev s') (h : s'.storing i = true) : s.storing i = true ∨ ∃ g,
    s.getter = some g ∧ g.taken = false ∧ g.i = i ∧ (s.semtable i).used = false ∧ ev = (.semGetStep, none) := by
  cases hstep.does with
  | @take g hg htaken hunused =>
    have hi : g.i = i := by simpa [State.storing] using h
    exact .inr ⟨g, hg, htaken, hi, hi ▸ hunused, rfl⟩
  | next _ htaken => simp [State.storing, htaken] at h
  | call | store | full => simp [State.storing] at h
  | wait _ _ _ hr _ hs | again _ _ _ hr _ hs =>
    rw [State.storing, hs, hr, waitLoop_getter] at h
    exact .inl h
  | refused | abort | post | close | kill => exact .inl h

theorem isEnter_of_untouched (hstep : Step s ev s') (he : Untouched i s s') : isEnter i ev = false := by
  by_contra henter
  cases hstep.does with
  | refused =>
    rename_i act
    cases act <;> simp [isEnter] at henter
  | @wait p id j r _ _ _ hid _ hr _ hs =>
    simp only [isEnter, hid, Bool.not_eq_false, Bool.and_eq_true, beq_iff_eq, Option.some.injEq] at henter
    have hvalue := he.value
    rw [hs, hr, henter.1, waitLoop_value, setSlot_self] at hvalue
    dsimp only at hvalue
    unfold int32 at hvalue
    omega
  | _ => exact henter rfl

theorem step_turn (hwf : WellFormed s) (hused : (s.semtable i).used = true) (hsettled : s.storing i = false)
    (hclose : isClose i ev = false) (hstep : Step s ev s') : ∃ p e a, Turn i s ev s' p e a := by
  have hsettled' : s'.storing i = false := by
    apply Bool.eq_false_iff.2
    intro hstoring
    rcases storing_step hstep hstoring with hbefore | ⟨g, -, -, -, hunused, -⟩
    · rw [hsettled] at hbefore
      cases hbefore
    · rw [hused] at hunused
      cases hunused
  cases step_effect hwf hstep i with
  | take _ _ _ hunused | resumeAbort _ _ hunused =>
    rw [hused] at hunused
    cases hunused
  | store hg htaken hi => simp [State.storing, hg, htaken, hi] at hsettled
  | @enterSleep q id _ hid _ hfree he =>
    have hout : ¬ s.inside q i := by
      intro hin
      rw [State.inside, hfree.1] at hin
      cases hin
    have hcard := card_waiting_enter hout he.self.1 he.inside
    refine ⟨0, 1, 0, by simp [isPost], by simp [isEnter, hid], by simp [isPass], he.used.trans hused, ?_, by omega,
      hsettled', .inl rfl⟩
    intro hlo hhi
    rw [he.value, int32_eq_self] <;> omega
  | @enterPass q id _ hid _ hfree hpos he =>
    have hout : s'.inside q i ↔ s.inside q i := by
      rw [State.inside, State.inside, he.self, hfree.1]
    have hwait := waiting_same_of_inside hout he.inside
    refine ⟨0, 1, 1, by simp [isPost], by simp [isEnter, hid], by simp [isPass, hid], he.used.trans hused, ?_,
      by rw [hwait]; omega, hsettled', .inr (he.value ▸ hpos)⟩
    intro hlo hhi
    rw [he.value, int32_eq_self] <;> omega
  | resumeSleep hin _ _ he =>
    have hwait := waiting_same_of_inside ⟨fun _ => hin, fun _ => he.self.1⟩ he.inside
    exact ⟨0, 0, 0, by simp [isPost], by simp [isEnter], by simp [isPass], he.used.trans hused,
      fun _ _ => by rw [he.value]; omega, by rw [hwait]; omega, hsettled', .inl rfl⟩
  | @resumePass q _ hin _ _ hpos he =>
    have hout : ¬ s'.inside q i := by
      rw [State.inside, he.self]
      exact (Option.some_ne_none i).symm
    have hcard := card_waiting_leave hin hout he.inside
    exact ⟨0, 0, 1, by simp [isPost], by simp [isEnter], by simp [isPass], he.used.trans hused,
      fun _ _ => by rw [he.value]; omega, by omega, hsettled', .inr (he.value ▸ hpos)⟩
  | post hid _ he =>
    refine ⟨1, 0, 0, by simp [isPost, hid], by simp [isEnter], by simp [isPass], he.used, ?_,
      by rw [waiting_congr he.inside]; omega, hsettled', .inl rfl⟩
    intro hlo hhi
    rw [he.value, int32_eq_self] <;> omega
  | close hid => simp [isClose, hid] at hclose
  | other hs he =>
    have henter := isEnter_of_untouched hstep he
    exact ⟨0, 0, 0, by simp [hs.post], by simp [henter], by simp [hs.pass], he.used.trans hused,
      fun _ _ => by rw [he.value]; omega, by rw [waiting_congr he.inside]; omega, hsettled', .inl rfl⟩

end Turn

/-! ## Between `semget` and `semclose` -/

/-- What holds of slot `i` from its `semget(_, v)` on, which has left `c` processes in the loop. -/
structure Counted (i : Fin NSEM) (v c : Int) (tr : List Event) (s : State) : Prop where
  wf : WellFormed s
  used : (s.semtable i).used = true
  settled : s.storing i = false
  value : (s.semtable i).value = v + posts i tr - entered i tr
  card : ((waiting s i).card : Int) = c + entered i tr - passed i tr
  lower : -((waiting s i).card : Int) ≤ (s.semtable i).value
  upper : (s.semtable i).value < 2 ^ 31

section Preservation

variable {before step : State → Event → State → Prop} {i : Fin NSEM} {v c : Int} {tr : List Event}
  {s s' s₀ s₁ : State} {ev : Event}

theorem counted_step (h : Counted i v c tr s) (hclose : isClose i ev = false)
    (hroom : isPost i ev = true → (s.semtable i).value < 2 ^ 31 - 1) (hstep : Step s ev s') :
    Counted i v c (tr ++ [ev]) s' := by
  obtain ⟨p, e, a, ht⟩ := step_turn h.wf h.used h.settled hclose hstep
  have hrange := ht.range
  have hle := card_waiting_le s i
  have hcard := h.card
  have hcard' := ht.card
  have hold := h.value
  have hlow := h.lower
  have hup := h.upper
  have hpass := ht.pass
  have hroom := ht.room hroom
  have hval := ht.value (by omega) (by omega)
  refine ⟨wellFormed_step h.wf hstep, ht.used, ht.settled, ?_, ?_, by omega, by omega⟩
  · rw [ht.posts, ht.entered]
    omega
  · rw [ht.entered, ht.passed]
    omega

/-- The state before a `sem_get` stores its value and returns, and the state after it. -/
structure Stored (i : Fin NSEM) (v : Int) (s₀ s₁ : State) : Prop where
  wf : WellFormed s₀
  storing : s₀.storing i = true
  proc : s₁.proc = s₀.proc
  nonneg : 0 ≤ v
  value : (s₁.semtable i).value = v
  used : (s₁.semtable i).used = true
  settled : s₁.storing i = false

theorem Opened.stored (hsub : ∀ s ev t, before s ev t → Step s ev t) (h : Opened before i v s₀ s₁) :
    Stored i v s₀ s₁ := by
  obtain ⟨g, hg, htaken, rfl⟩ := h.getter
  have hreach : Reach s₀ := by
    obtain ⟨b, tr, hb, hrun⟩ := h.reach
    exact ⟨b, tr, hb, hrun.mono hsub⟩
  have hused := h.used
  have hdoes := (hsub _ _ _ h.step).does
  generalize hret : some (i : Int) = ret at hdoes
  cases hdoes with
  | @store g' hg' htaken' =>
    obtain rfl : g = g' := Option.some.inj (hg.symm.trans hg')
    obtain rfl : i = g.i := Fin.ext (Int.ofNat_inj.mp (Option.some.inj hret))
    exact ⟨hreach.wellFormed, by simp [State.storing, hg, htaken], rfl, g.nonneg, by simp, by simpa using hused, rfl⟩
  | take | next => cases hret
  | refused | full =>
    have hneg := Option.some.inj hret
    omega

theorem Stored.counted (h : Stored i v s₀ s₁) (hv : v < 2 ^ 31) : Counted i v (waiting s₁ i).card [] s₁ := by
  have hnonneg := h.nonneg
  have hvalue := h.value
  refine ⟨h.wf.of_proc h.proc, h.used, h.settled, ?_, ?_, by omega, by omega⟩
  · simpa [posts, entered] using hvalue
  · simp [entered, passed]

/-- An invariant of a semaphore from its `semget` on. -/
theorem OpenSince.invariant {P : List Event → State → Prop} (h : OpenSince before step i v tr s)
    (hstep : ∀ tr s ev s', P tr s → isClose i ev = false → step s ev s' → P (tr ++ [ev]) s')
    (hinit : ∀ s₀ s₁, Opened before i v s₀ s₁ → P [] s₁) : P tr s := by
  obtain ⟨s₀, s₁, hopened, hrun, hclose⟩ := h
  have hinv := Run.invariant_trace (P := fun tr s => (∀ ev ∈ tr, isClose i ev = false) → P tr s)
    (fun tr s ev s' ih hlast hclosed =>
      hstep tr s ev s' (ih fun e he => hclosed e (by simp [he])) (hclosed ev (by simp)) hlast)
    hrun fun _ => hinit s₀ s₁ hopened
  exact hinv hclose

end Preservation

/-- The count has room for one more unit when it is posted. -/
def Room (i : Fin NSEM) (s : State) (ev : Event) : Prop := isPost i ev = true → (s.semtable i).value < 2 ^ 31 - 1

instance (i : Fin NSEM) (s : State) (ev : Event) : Decidable (Room i s ev) := inferInstanceAs (Decidable (_ → _))

/-- Between a `semget(key, v)` and the `semclose` of its slot, `value` is the number of units less the waits entered. -/
def ValueCounts (step : State → Event → State → Prop) (i : Fin NSEM) : Prop :=
  ∀ v tr s, v < 2 ^ 31 → OpenSince Step step i v tr s →
    (s.semtable i).value = v + posts i tr - entered i tr ∧ (s.semtable i).value < 2 ^ 31

/-- As long as no post finds the count at `INT_MAX`, it is exact. -/
theorem valueCounts_of_room (i : Fin NSEM) (step : State → Event → State → Prop)
    (hsub : ∀ s ev t, step s ev t → restrict (Room i) Step s ev t) : ValueCounts step i := by
  intro v tr s hv hopen
  have hcounted : ∃ c, Counted i v c tr s := hopen.invariant (P := fun tr s => ∃ c, Counted i v c tr s)
    (fun tr s ev s' hcounted hclose hstep => by
      obtain ⟨c, hcounted⟩ := hcounted
      obtain ⟨hroom, hstep⟩ := hsub _ _ _ hstep
      exact ⟨c, counted_step hcounted hclose hroom hstep⟩)
    fun s₀ s₁ hopened => ⟨_, (hopened.stored fun _ _ _ h => h).counted hv⟩
  obtain ⟨c, hcounted⟩ := hcounted
  exact ⟨hcounted.value, hcounted.upper⟩

/-! Process 0 calls `semget(1, v)` after boot. -/

section First

variable {v : Int} (hv : 0 ≤ v)

def first : Getter := { who := 0, key := 1, initval := v, i := 0, taken := false, nonneg := hv }

def called : State := { boot with getter := some (first hv) }

def slotTaken : State := (semGetStep (called hv) (first hv)).1

def afterGet : State := (semGetStep (slotTaken hv) { first hv with taken := true }).1

theorem opened_afterGet {before : State → Event → State → Prop} (hbefore : ∀ s ev t, s.proc = boot.proc →
    ev.1 = .semGet 0 1 v ∨ ev.1 = .semGetStep → Step s ev t → before s ev t) :
    Opened before 0 v (slotTaken hv) (afterGet hv) := by
  have hcall : Step boot (.semGet 0 1 v, none) (called hv) := by
    show exec boot (.semGet 0 1 v) = _
    simp only [exec, if_pos (show boot.free 0 by decide), semGet, dif_pos hv]
    rfl
  have htake : before (called hv) (.semGetStep, none) (slotTaken hv) := hbefore _ _ _ rfl (.inr rfl) rfl
  exact ⟨⟨boot, _, rfl, (Run.single (hbefore _ _ _ rfl (.inl rfl) hcall)).snoc htake⟩, ⟨_, rfl, rfl, rfl⟩, rfl,
    hbefore _ _ _ rfl (.inr rfl) rfl⟩

end First

theorem valueCounts_post_wait : ∃ r, execs (guarded (Room 0) exec) (afterGet (Int.le_refl 0))
      [.semPost 0 0, .semWait 1 0, .semWait 2 0] = some r ∧
    (r.1.semtable 0).value = 0 + posts 0 r.2 - entered 0 r.2 ∧ (r.1.semtable 0).value < 2 ^ 31 := by
  obtain ⟨r, hexec, hclose⟩ : ∃ r, execs (guarded (Room 0) exec) (afterGet (Int.le_refl 0))
      [.semPost 0 0, .semWait 1 0, .semWait 2 0] = some r ∧ ∀ ev ∈ r.2, isClose 0 ev = false := ⟨_, rfl, by decide⟩
  exact ⟨r, hexec, valueCounts_of_room 0 _ (fun _ _ _ h => h) 0 r.2 r.1 (by decide)
    ⟨_, _, opened_afterGet (Int.le_refl 0) (fun _ _ _ _ _ h => h), Run.of_guarded_execs hexec, hclose⟩⟩

/-- A `semget(1, INT_MAX)` and one `sem_post`, which returns 0: the count is `INT_MIN`. -/
theorem value_wraps : ¬ ValueCounts Step 0 := by
  intro hclaim
  have hpost : Step (afterGet (v := 2 ^ 31 - 1) (by decide)) (.semPost 0 0, some 0)
      (semPost (afterGet (v := 2 ^ 31 - 1) (by decide)) 0 0).1 := rfl
  have hvalue := hclaim (2 ^ 31 - 1) _ _ (by decide)
    ⟨_, _, opened_afterGet _ (fun _ _ _ _ _ h => h), Run.single hpost, by decide⟩
  exact absurd hvalue.1 (by decide)

end Xv6.Sem
