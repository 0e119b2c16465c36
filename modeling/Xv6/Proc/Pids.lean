import Xv6.Proc.Signals

/-!
# Whom a pid names

`allocpid` counts up and never looks whether the number is in use.  As long as the counter has not run
over, the pids of the processes in the table differ and are positive.  A process may live for ever,
init does, and a `fork` that fails takes a pid too: after 2³² calls the numbers come round to those
that are still in use.
-/

namespace Xv6.ProcTable

open Runs

/-- What pids are meant to be, in runs of `step` from boot. -/
def PidsIdentify (step : State → Event → State → Prop) : Prop :=
  ∀ tr s, Run step boot tr s →
    (∀ i, s.live i → 0 < (s.proc i).pid) ∧
    (∀ i j, s.live i → s.live j → (s.proc i).pid = (s.proc j).pid → i = j)

/-- No pid is taken once the counter has run over. -/
def BeforeWrap (s : State) (ev : Event) : Prop := takesPid s ev = true → 0 < s.nextpid

instance (s : State) (ev : Event) : Decidable (BeforeWrap s ev) := inferInstanceAs (Decidable (_ → _))

variable {i j p q np : Fin NPROC} {s s' : State} {ev : Event}

/-! ## Who is in the table -/

/-- The children that are being made: each is an embryo, and one process makes it. -/
structure Embryos (s : State) : Prop where
  embryo : ∀ {p np}, (s.proc p).card.forks = some np → (s.proc np).card.stage = .embryo
  once : ∀ {p q np}, (s.proc p).card.forks = some np → (s.proc q).card.forks = some np → p = q

/-- The pids given out so far. -/
structure Numbered (s : State) : Prop extends Embryos s where
  pos : ∀ {i}, s.live i → 0 < (s.proc i).pid
  below : ∀ {i}, s.live i → 0 < s.nextpid → (s.proc i).pid < s.nextpid
  distinct : ∀ {i j}, s.live i → s.live j → (s.proc i).pid = (s.proc j).pid → i = j
  next_lt : s.nextpid < 2 ^ 31

theorem Embryos.live_of_forks (h : Embryos s) (hf : (s.proc p).card.forks = some np) : s.live np := by
  rw [live_iff_stage, h.embryo hf]
  decide

theorem Embryos.live_cases (h : Embryos s) (hstep : Step s ev s') (hlive : s'.live i) :
    s.live i ∧ (s'.proc i).pid = (s.proc i).pid ∨
      ¬ s.live i ∧ (∃ p mem, ev = (.fork p mem, .child i)) ∧ (s'.proc i).pid = s.nextpid := by
  -- Most steps keep stage and pid.
  have hkeep : (s'.proc i).card.stage = (s.proc i).card.stage →
      (s'.proc i).card.pid = (s.proc i).card.pid → s.live i ∧ (s'.proc i).pid = (s.proc i).pid := by
    intro hstage hpid
    refine ⟨?_, hpid⟩
    rwa [live_iff_stage, ← hstage, ← live_iff_stage]
  cases step_signed hstep i with
  | same _ hcard | forking _ _ hcard | forked hcard | sent _ _ _ hcard | sentOther _ _ hcard | dispatch _ _ hcard =>
    exact .inl (hkeep (by rw [hcard]) (by rw [hcard]))
  | freed _ _ hfree => exact absurd hfree (live_iff_stage.1 hlive)
  | alloc hfree hcard =>
    refine .inr ⟨?_, ⟨_, _, rfl⟩, congrArg Card.pid hcard⟩
    rw [live_iff_stage, hfree]
    exact fun hne => hne rfl
  | born _ hforks hcard => exact .inl ⟨h.live_of_forks hforks, congrArg Card.pid hcard⟩
  | init hcard => exact .inl (hkeep (by rw [hcard]; rfl) (by rw [hcard]; rfl))
  | handle hcard =>
    rw [signalHandle] at hcard
    split at hcard
    · exact .inl (hkeep (by rw [hcard]) (by rw [hcard]))
    · exact .inl (hkeep (by rw [hcard]; rfl) (by rw [hcard]; rfl))
  | mask hcard =>
    rw [sigmask] at hcard
    split at hcard <;> exact .inl (hkeep (by rw [hcard]; rfl) (by rw [hcard]; rfl))

theorem takesPid_of_child {mem : Alloc} (hstep : Step s (.fork p mem, .child i) s') :
    takesPid s (.fork p mem, .child i) = true ∧ (s.proc i).card.stage = .free := by
  have hfree : (s.proc i).card.stage = .free := by
    cases step_signed hstep i with
    | same hev | freed hev => simp [quiet] at hev
    | alloc hfree => exact hfree
    | forking hne => exact absurd rfl hne
  refine ⟨?_, hfree⟩
  have hunused : (s.proc i).state = .unused := by
    by_contra hlive
    exact live_iff_stage.1 hlive hfree
  show (unusedSlot s).isSome = true
  rw [unusedSlot, List.find?_isSome]
  exact ⟨i, List.mem_finRange i, by simpa using hunused⟩

theorem forks_cases (hstep : Step s ev s') (hf : (s'.proc p).card.forks = some np) :
    (s.proc p).card.forks = some np ∧ (∀ ret, ev ≠ (.forkRunnable p, ret)) ∨ ∃ mem, ev = (.fork p mem, .child np) := by
  have hquiet : quiet p ev = true → ∀ ret, ev ≠ (.forkRunnable p, ret) := by
    rintro hev ret rfl
    simp [quiet] at hev
  cases step_signed hstep p with
  | same hev hcard => exact .inl ⟨hcard ▸ hf, hquiet hev⟩
  | freed hev _ _ _ hkeep => exact .inl ⟨hkeep np hf, hquiet hev⟩
  | alloc _ hcard =>
    rw [hcard] at hf
    cases hf
  | forking _ _ hcard =>
    rw [hcard] at hf
    cases hf
    exact .inr ⟨_, rfl⟩
  | born hne _ hcard =>
    rw [hcard] at hf
    exact .inl ⟨hf, fun ret heq => by cases heq; exact hne rfl⟩
  | forked hcard =>
    rw [hcard] at hf
    cases hf
  | sent _ _ _ hcard | sentOther _ _ hcard | init hcard | dispatch _ _ hcard =>
    rw [hcard] at hf
    exact .inl ⟨hf, fun ret => by simp⟩
  | handle hcard =>
    refine .inl ⟨?_, fun ret => by simp⟩
    rw [hcard, signalHandle] at hf
    split at hf <;> exact hf
  | mask hcard =>
    refine .inl ⟨?_, fun ret => by simp⟩
    rw [hcard, sigmask] at hf
    split at hf <;> exact hf

theorem Embryos.embryo_step (h : Embryos s) (hstep : Step s ev s')
    (hf : (s.proc p).card.forks = some np) (hev : ∀ ret, ev ≠ (.forkRunnable p, ret)) :
    (s'.proc np).card.stage = .embryo := by
  have hembryo := h.embryo hf
  cases step_signed hstep np with
  | same _ hcard => rw [hcard, hembryo]
  | freed _ hne => exact absurd hembryo hne
  | alloc hfree =>
    rw [hembryo] at hfree
    cases hfree
  | forking _ hgrown =>
    rw [hembryo] at hgrown
    cases hgrown
  | born _ hforks =>
    rw [h.once hforks hf] at hev
    exact absurd rfl (hev _)
  | forked hcard | sent _ _ _ hcard | sentOther _ _ hcard => rw [hcard, hembryo]
  | init hcard =>
    rw [hcard]
    exact hembryo
  | handle hcard =>
    rw [hcard, signalHandle]
    split <;> exact hembryo
  | mask hcard =>
    rw [hcard, sigmask]
    split <;> exact hembryo
  | dispatch _ _ hcard => rw [hcard, hembryo]

theorem Embryos.step (h : Embryos s) (hstep : Step s ev s') : Embryos s' := by
  refine ⟨fun hf => ?_, fun hf hg => ?_⟩
  · rcases forks_cases hstep hf with ⟨hold, hev⟩ | ⟨mem, rfl⟩
    · exact h.embryo_step hstep hold hev
    rename_i p np
    cases step_signed hstep np with
    | same hev | freed hev => simp [quiet] at hev
    | alloc _ hcard =>
      rw [hcard]
      rfl
    | forking hne => exact absurd rfl hne
  -- A child that is being made already was no free slot.
  have hnew : ∀ {p q np mem}, ev = (.fork p mem, .child np) → (s.proc q).card.forks ≠ some np := by
    rintro p q np mem rfl hold
    have hfree := (takesPid_of_child hstep).2
    rw [h.embryo hold] at hfree
    cases hfree
  rcases forks_cases hstep hf with ⟨hold, -⟩ | ⟨mem, hev⟩
  · rcases forks_cases hstep hg with ⟨hold', -⟩ | ⟨mem, hev⟩
    · exact h.once hold hold'
    · exact absurd hold (hnew hev)
  rcases forks_cases hstep hg with ⟨hold', -⟩ | ⟨mem', hev'⟩
  · exact absurd hold' (hnew hev)
  · rw [hev] at hev'
    cases hev'
    rfl

theorem int32_lt (x : Int) : int32 x < 2 ^ 31 := by
  unfold int32
  omega

theorem Numbered.step (h : Numbered s) (hstep : restrict BeforeWrap Step s ev s') : Numbered s' := by
  obtain ⟨hwrap, hstep⟩ := hstep
  have hnext := step_nextpid hstep
  -- The counter goes up or is left alone, unless it has run over.
  have hup : 0 < s'.nextpid → s.nextpid ≤ s'.nextpid ∧ 0 < s.nextpid := by
    intro hpos
    have hlt := h.next_lt
    cases htakes : takesPid s ev with
    | false =>
      rw [htakes] at hnext
      simp only [Bool.false_eq_true, if_false] at hnext
      omega
    | true =>
      have hbefore := hwrap htakes
      rw [htakes, if_pos rfl] at hnext
      unfold int32 at hnext
      omega
  have hchild : ∀ {i}, (∃ p mem, ev = (.fork p mem, .child i)) →
      0 < s.nextpid ∧ (0 < s'.nextpid → s.nextpid < s'.nextpid) := by
    rintro i ⟨p, mem, rfl⟩
    have htakes := (takesPid_of_child hstep).1
    have hbefore := hwrap htakes
    have hlt := h.next_lt
    rw [htakes, if_pos rfl] at hnext
    unfold int32 at hnext
    exact ⟨hbefore, fun hpos => by omega⟩
  refine ⟨h.toEmbryos.step hstep, fun hlive => ?_, fun hlive hpos => ?_, fun hi hj heq => ?_, ?_⟩
  · rcases h.live_cases hstep hlive with ⟨hold, hpid⟩ | ⟨-, hev, hpid⟩
    · rw [hpid]
      exact h.pos hold
    · rw [hpid]
      exact (hchild hev).1
  · rcases h.live_cases hstep hlive with ⟨hold, hpid⟩ | ⟨-, hev, hpid⟩
    · have hlt := h.below hold (hup hpos).2
      have hle := (hup hpos).1
      omega
    · rw [hpid]
      exact (hchild hev).2 hpos
  · rcases h.live_cases hstep hi with ⟨hold, hpid⟩ | ⟨-, hev, hpid⟩
    · rcases h.live_cases hstep hj with ⟨hold', hpid'⟩ | ⟨-, hev', hpid'⟩
      · exact h.distinct hold hold' (by rw [← hpid, ← hpid', heq])
      · have hlt := h.below hold (hchild hev').1
        omega
    rcases h.live_cases hstep hj with ⟨hold', hpid'⟩ | ⟨-, hev', hpid'⟩
    · have hlt := h.below hold' (hchild hev).1
      omega
    obtain ⟨p, mem, rfl⟩ := hev
    obtain ⟨p', mem', ⟨⟩⟩ := hev'
    rfl
  rw [hnext]
  split
  · exact int32_lt _
  · exact h.next_lt

theorem embryos_boot : Embryos boot := by
  have hforks : ∀ p, (boot.proc p).card.forks = none := by decide
  refine ⟨fun hf => ?_, fun hf => ?_⟩
  all_goals
    rw [hforks] at hf
    cases hf

theorem numbered_boot : Numbered boot := by
  have hlive : ∀ i, boot.live i → i = 0 := by decide
  refine ⟨embryos_boot, fun hi => ?_, fun hi _ => ?_, fun hi hj _ => ?_, by decide⟩
  · rw [hlive _ hi]
    decide
  · rw [hlive _ hi]
    decide
  · rw [hlive _ hi, hlive _ hj]

/-- While the counter has not run over, a pid names one process. -/
theorem pidsIdentify_of_beforeWrap (step : State → Event → State → Prop)
    (hsub : ∀ s ev t, step s ev t → restrict BeforeWrap Step s ev t) : PidsIdentify step := by
  intro tr s hrun
  have hnumbered : Numbered s := Run.invariant (fun _ _ _ hs hstep => hs.step hstep) (hrun.mono hsub) numbered_boot
  exact ⟨fun i hi => hnumbered.pos hi, fun i j hi hj heq => hnumbered.distinct hi hj heq⟩

/-- init and its child have different pids. -/
theorem child_pid_differs : ∃ s tr, Run (restrict BeforeWrap Step) boot tr s ∧ s.live 1 ∧
    (s.proc 0).pid ≠ (s.proc 1).pid := by
  have hrun : ((execs (guarded BeforeWrap exec) boot
      [.trap 0 .syscall, .fork 0 ⟨true, true, true⟩]).any fun r => r.1.live 0 ∧ r.1.live 1) = true := by
    decide
  obtain ⟨s, tr, hrun, hcheck⟩ := Run.of_any_execs hrun
  obtain ⟨hzero, hone⟩ := of_decide_eq_true hcheck
  have hclaim := pidsIdentify_of_beforeWrap _ (fun _ _ _ h => h) tr s hrun
  exact ⟨s, tr, hrun, hone, fun heq => absurd (hclaim.2 0 1 hzero hone heq) (by decide)⟩

/-! ## When the counter comes round -/

def idle (n : Int) : State := { boot with nextpid := n }

theorem dispatchSignals_of_none {q : Proc} (h : q.pendingSignals = 0) :
    dispatchSignals q = { proc := q, defaulted := [], called := none } := by
  have hfold : ∀ l : List (Fin NSIG), l.foldl dispatchSignal { proc := q, defaulted := [], called := none } =
      { proc := q, defaulted := [], called := none } := by
    intro l
    induction l with
    | nil => rfl
    | cons j l ih =>
      have hstep : dispatchSignal { proc := q, defaulted := [], called := none } j =
          { proc := q, defaulted := [], called := none } := by
        simp [dispatchSignal, h]
      rw [List.foldl_cons, hstep, ih]
  exact hfold _

theorem failedFork (n : Int) : ∃ tr, Run Step (idle n) tr (idle (int32 (n + 1))) := by
  have htrap : Step (idle n) (.trap 0 .syscall, .none) ((idle n).setPc 0 .syscall) := rfl
  -- `kfork` has taken the first free slot and freed it again.
  have hfork : Step ((idle n).setPc 0 .syscall) (.fork 0 ⟨false, true, true⟩, .value (-1))
      ((freeproc (State.set { (idle n).setPc 0 .syscall with nextpid := int32 (n + 1) } 1
        { Proc.zero with pid := n, state := .used }) 1).setPc 0 (.trapReturn false)) := rfl
  generalize hfailed : (freeproc (State.set { (idle n).setPc 0 .syscall with nextpid := int32 (n + 1) } 1
    { Proc.zero with pid := n, state := .used }) 1).setPc 0 (.trapReturn false) = failed at hfork
  have hinit : failed.proc 0 = { (idle n).proc 0 with pc := .trapReturn false } := by
    rw [← hfailed]
    rfl
  have hnone : dispatchSignals (failed.proc 0) = { proc := failed.proc 0, defaulted := [], called := none } :=
    dispatchSignals_of_none (by rw [hinit]; rfl)
  have hreturn : Step failed (.trapReturn 0, .dispatched []) (failed.set 0 (boot.proc 0)) := by
    have hpc : (failed.proc 0).pc = .trapReturn false := by rw [hinit]
    have hrun : failed.canRun 0 := .inl (by rw [hinit]; rfl)
    have hkilled : (failed.proc 0).killed = false := by
      rw [hinit]
      rfl
    have huser : ({ failed.proc 0 with pc := .user } : Proc) = boot.proc 0 := by
      rw [hinit]
      rfl
    show exec failed (.trapReturn 0) = _
    simp only [exec, hpc, if_pos hrun]
    rw [← huser]
    unfold usertrapReturn
    rw [hnone, if_neg (by rw [hkilled]; decide)]
    rfl
  have hsame : failed.set 0 (boot.proc 0) = idle (int32 (n + 1)) := by
    have hproc : (failed.set 0 (boot.proc 0)).proc = boot.proc := by
      funext i
      by_cases hzero : i = 0
      · rw [hzero, set_self]
      rw [set_of_ne _ _ hzero, ← hfailed, State.setPc, set_of_ne _ _ hzero, freeproc]
      by_cases hone : i = 1
      · rw [hone, set_self, set_self]
        rfl
      · rw [set_of_ne _ _ hone, set_of_ne _ _ hone, State.setPc]
        exact set_of_ne _ _ hzero
    show State.mk (failed.set 0 (boot.proc 0)).proc failed.nextpid failed.initproc = _
    rw [hproc, ← hfailed]
    rfl
  rw [hsame] at hreturn
  exact ⟨_, ((Run.nil.snoc htrap).snoc hfork).snoc hreturn⟩

theorem int32_int32_succ (x : Int) : int32 (int32 x + 1) = int32 (x + 1) := by
  unfold int32
  omega

theorem failedForks (n : Int) (k : Nat) : ∃ tr, Run Step (idle n) tr (idle (int32 (n + k + 1))) := by
  induction k with
  | zero =>
    rw [Int.natCast_zero, Int.add_zero]
    exact failedFork n
  | succ k ih =>
    obtain ⟨tr, hrun⟩ := ih
    obtain ⟨tr', hrun'⟩ := failedFork (int32 (n + k + 1))
    rw [int32_int32_succ] at hrun'
    have hcount : n + (k + 1 : Nat) + 1 = n + k + 1 + 1 := by omega
    rw [hcount]
    exact ⟨tr ++ tr', hrun.trans hrun'⟩

/-- After 2³² - 1 failed calls of `fork` the counter is back at 1, and the next child gets init's pid. -/
theorem counter_comes_round : ¬ PidsIdentify Step := by
  intro hclaim
  obtain ⟨tr, hrun⟩ := failedForks 2 (2 ^ 32 - 2)
  have hround : int32 (2 + (2 ^ 32 - 2 : Nat) + 1) = 1 := by decide
  rw [hround] at hrun
  obtain ⟨r, hexec, hzero, hone, hsame⟩ : ∃ r, execs exec (idle 1)
      [.trap 0 .syscall, .fork 0 ⟨true, true, true⟩] = some r ∧ r.1.live 0 ∧ r.1.live 1 ∧
        (r.1.proc 0).pid = (r.1.proc 1).pid :=
    ⟨_, rfl, by decide, by decide, by decide⟩
  have hboot : Run Step boot (tr ++ r.2) r.1 := hrun.trans (Run.of_execs hexec)
  exact absurd ((hclaim _ _ hboot).2 0 1 hzero hone hsame) (by decide)

end Xv6.ProcTable
