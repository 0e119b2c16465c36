import Xv6.Proc.Scheduler

/-!
# One CPU for each running process

A scheduler that finds a process runnable is busy with it until it has cleared `c->proc`, and in between the kernel
thread of the process may run on its CPU.  Two CPUs are never busy with the same process: it is `RUNNING`, or it is on
its way out and its lock is held.
-/

namespace Xv6.Scheduler

open Function Runs

variable {κ χ : Type}

/-! ## What a place in the code says -/

/-- The local variables of a thread are about the thread itself, and it is not in the code of another kind. -/
def Point.Fits (t : Tid κ) : Point → Prop
  | .idle => ∃ c, t = .scheduler c
  | .exiting p => t = .process p
  | _ => ∃ p, t = .process p

def Caller.Fits (t : Tid κ) : Caller → Prop
  | .yield k => k.Fits t
  | .sleep | .kexit => True

def Pc.Fits (t : Tid κ) : Pc χ → Prop
  | .point k | .wakeScan _ _ k | .wakeTest _ _ k => k.Fits t
  | .scan _ | .look _ | .chosen _ | .swtch _ | .back _ | .done _ => ∃ c, t = .scheduler c
  | .yieldLock p k | .yieldMark p k => t = .process p ∧ k.Fits t
  | .sched p r | .resumed p r => t = .process p ∧ r.Fits t
  | .sleepLock p _ | .sleepMark p _ | .exitMark p => t = .process p
  | .forkret | .killTest _ _ | .peek _ | .forkTest _ | .forkFound _ | .forkRun _ | .waitTest _ =>
    ∃ p, t = .process p

/-- The process lock that a thread holds there. -/
def held (t : Tid κ) : Pc χ → Option (Fin NPROC)
  | .look p | .chosen p | .swtch p | .back p | .done p => some p
  | .yieldMark p _ | .sleepMark p _ | .sched p _ | .resumed p _ | .exitMark p => some p
  | .wakeTest i _ _ | .killTest i _ | .peek i | .forkTest i | .forkFound i | .forkRun i | .waitTest i => some i
  | .forkret =>
    match t with
    | .process p => some p
    | .scheduler _ => none
  | _ => none

/-- The process that a scheduler has set to `RUNNING`, until it is done with it. -/
def Pc.target : Pc χ → Option (Fin NPROC)
  | .chosen p | .swtch p | .back p => some p
  | _ => none

/-- `c->proc` while the scheduler runs. -/
def Pc.chose : Pc χ → Option (Fin NPROC)
  | .swtch p | .back p => some p
  | _ => none

def claimed (t : Tid κ) (pc : Pc χ) : Option (Fin NPROC) :=
  match t with
  | .process p => some p
  | .scheduler _ => pc.target

def onCpu (t : Tid κ) (pc : Pc χ) : Option (Fin NPROC) :=
  match t with
  | .process p => some p
  | .scheduler _ => pc.chose

/-- The process has changed its state and is on the way out. -/
def Pc.leaving : Pc χ → Bool
  | .sched _ _ | .back _ => true
  | _ => false

def Point.pending : Point → Option (Fin NPROC)
  | .forkParent np => some np
  | _ => none

def Caller.pending : Caller → Option (Fin NPROC)
  | .yield k => k.pending
  | .sleep | .kexit => none

def Pc.pending : Pc χ → Option (Fin NPROC)
  | .point k | .wakeScan _ _ k | .wakeTest _ _ k | .yieldLock _ k | .yieldMark _ k => k.pending
  | .sched _ r | .resumed _ r => r.pending
  | .forkFound np | .forkRun np => some np
  | _ => none

/-- Where a process is left by `swtch`, or starts. -/
def Pc.Parked : Pc χ → Prop
  | .forkret | .resumed _ _ => True
  | _ => False

/-- What the state of a process is while a CPU is busy with it. -/
def BusyState (leaving : Bool) (st : ProcState) : Prop :=
  if leaving then st = .runnable ∨ st = .sleeping ∨ st = .zombie else st = .running

theorem not_running_of_out {st : ProcState} (h : st = .runnable ∨ st = .sleeping ∨ st = .zombie) :
    st ≠ .running ∧ st ≠ .used := by
  rcases h with rfl | rfl | rfl <;> exact ⟨nofun, nofun⟩

/-! ## The invariant -/

structure Inv (s : State κ χ) : Prop where
  lock : ∀ p c, s.lock p = some c ↔ held (s.current c) (s.pc (s.current c)) = some p
  cpuProc : ∀ c, s.cpuProc c = onCpu (s.current c) (s.pc (s.current c))
  current : ∀ c, s.current c = .scheduler c ∨ ∃ p, s.current c = .process p ∧ s.sched c = .back p
  fits : ∀ t, (s.pc t).Fits t
  parked : ∀ p, (∀ c, s.current c ≠ .process p) → (s.proc p).pc.Parked
  unique : ∀ c c' p, claimed (s.current c) (s.pc (s.current c)) = some p →
    claimed (s.current c') (s.pc (s.current c')) = some p → c = c'
  busy : ∀ c p, claimed (s.current c) (s.pc (s.current c)) = some p →
    BusyState (s.pc (s.current c)).leaving (s.proc p).state
  running : ∀ p, (s.proc p).state = .running → ∃ c, claimed (s.current c) (s.pc (s.current c)) = some p
  child : ∀ q np, (s.proc q).pc.pending = some np → (s.proc np).state = .used
  once : ∀ q q' np, (s.proc q).pc.pending = some np → (s.proc q').pc.pending = some np → q = q'

variable {s s' s₁ : State κ χ} {c c' : κ} {t : Tid κ} {p i : Fin NPROC} {pc pc' : Pc χ}

theorem Inv.start : Inv (State.start : State κ χ) := by
  refine ⟨fun _ _ => ⟨nofun, nofun⟩, fun _ => rfl, fun _ => .inl rfl, fun t => ?_, fun _ _ => trivial, nofun, nofun,
    fun p hp => ?_, nofun, nofun⟩
  · cases t with
    | scheduler c => exact ⟨c, rfl⟩
    | process p => exact ⟨p, rfl⟩
  · unfold State.start at hp
    dsimp only at hp
    split at hp <;> cases hp

theorem held_of_leaving (hfits : pc.Fits t) (hleaving : pc.leaving = true) (h : claimed t pc = some p) :
    held t pc = some p := by
  cases pc with
  | sched =>
    obtain ⟨rfl, -⟩ := hfits
    exact h
  | back =>
    obtain ⟨c, rfl⟩ := hfits
    exact h
  | _ => cases hleaving

theorem onCpu_of_claimed (h : claimed t pc = some p) : onCpu t pc = some p ∨ held t pc = some p := by
  cases t with
  | process => exact .inl h
  | scheduler =>
    cases pc with
    | chosen => exact .inr h
    | swtch | back => exact .inl h
    | _ => cases h

theorem claimed_of_onCpu (h : onCpu t pc = some p) : claimed t pc = some p := by
  cases t with
  | process => exact h
  | scheduler =>
    cases pc with
    | swtch | back => exact h
    | _ => cases h

theorem pending_scheduler (hfits : pc.Fits (.scheduler c)) : pc.pending = none := by
  have hpoint : ∀ k : Point, k.Fits (.scheduler c) → k.pending = none := by
    intro k hk
    cases k with
    | forkParent =>
      obtain ⟨p, ⟨⟩⟩ := hk
    | _ => rfl
  cases pc with
  | point k | wakeScan _ _ k | wakeTest _ _ k => exact hpoint k hfits
  | yieldLock | yieldMark | sched | resumed => cases hfits.1
  | forkFound | forkRun =>
    obtain ⟨p, ⟨⟩⟩ := hfits
  | _ => rfl

theorem Inv.fits_of (h : Inv s) (hpc : s.pc (s.current c) = pc) : pc.Fits (s.current c) := hpc ▸ h.fits _

theorem Inv.current_ne (h : Inv s) (hne : c' ≠ c) : s.current c' ≠ s.current c := by
  intro heq
  rcases h.current c with hc | ⟨p, hc, -⟩
  · rcases h.current c' with hc' | ⟨p', hc', -⟩
    · rw [hc, hc'] at heq
      exact hne (Tid.scheduler.inj heq)
    · rw [hc, hc'] at heq
      cases heq
  refine hne (h.unique c' c p ?_ ?_)
  · rw [heq, hc]
    rfl
  · rw [hc]
    rfl

theorem Inv.not_claimed (h : Inv s) (hlock : s.lock p = some c) (hstate : (s.proc p).state ≠ .running)
    (hleaving : (s.pc (s.current c)).leaving = false) (c' : κ) :
    claimed (s.current c') (s.pc (s.current c')) ≠ some p := by
  intro hclaim
  have hbusy := h.busy c' p hclaim
  cases hout : (s.pc (s.current c')).leaving with
  | false =>
    rw [hout] at hbusy
    exact hstate hbusy
  | true =>
    have hown := (h.lock p c').mpr (held_of_leaving (h.fits _) hout hclaim)
    rw [hlock] at hown
    rw [← Option.some.inj hown, hleaving] at hout
    cases hout

/-! ## Moves of one thread -/

section

variable [DecidableEq κ]

theorem pc_setPc_self (s : State κ χ) (t : Tid κ) (pc : Pc χ) : (s.setPc t pc).pc t = pc := by
  cases t with
  | scheduler => exact update_self ..
  | process p =>
    show (update s.proc p _ p).pc = pc
    rw [update_self]

theorem pc_setPc_of_ne {t' : Tid κ} (h : t' ≠ t) : (s.setPc t pc).pc t' = s.pc t' := by
  cases t with
  | scheduler =>
    cases t' with
    | scheduler => exact update_of_ne (fun heq => h (congrArg _ heq)) ..
    | process => rfl
  | process =>
    cases t' with
    | scheduler => rfl
    | process => exact congrArg Thread.pc (update_of_ne (fun heq => h (congrArg _ heq)) ..)

section

variable (s t pc)

theorem state_setPc (p : Fin NPROC) : ((s.setPc t pc).proc p).state = (s.proc p).state := by
  cases t with
  | scheduler => rfl
  | process q =>
    show (update s.proc q _ p).state = _
    by_cases hp : p = q
    · rw [hp, update_self]
    · rw [update_of_ne hp]

theorem lock_setPc : (s.setPc t pc).lock = s.lock := by
  cases t <;> rfl

theorem cpuProc_setPc : (s.setPc t pc).cpuProc = s.cpuProc := by
  cases t <;> rfl

theorem current_setPc : (s.setPc t pc).current = s.current := by
  cases t <;> rfl

end

/-- What becomes of the child that a thread makes. -/
structure Rears (s s₁ : State κ χ) (pc pc' : Pc χ) : Prop where
  child : ∀ np, pc'.pending = some np → (s₁.proc np).state = .used ∧ (pc.pending = some np ∨ (s.proc np).state ≠ .used)
  used : ∀ np, (s.proc np).state = .used → (s₁.proc np).state ≠ .used → pc.pending = some np

/-- The thread on CPU `c` goes on at `pc'` from `s₁`, where it may have changed a process whose lock it holds. -/
structure Moves (s s₁ : State κ χ) (c : κ) (pc' : Pc χ) : Prop where
  current : s₁.current = s.current
  pcs : ∀ t, s₁.pc t = s.pc t ∨ (s₁.pc t = .forkret ∧ (∃ p, t = .process p) ∧ ∀ c', s.current c' ≠ t)
  fits : pc'.Fits (s.current c)
  lock : ∀ p, s₁.lock p = some c ↔ held (s.current c) pc' = some p
  locks : ∀ p, ∀ c' ≠ c, s₁.lock p = some c' ↔ s.lock p = some c'
  cpuProc : s₁.cpuProc c = onCpu (s.current c) pc'
  cpuProcs : ∀ c' ≠ c, s₁.cpuProc c' = s.cpuProc c'
  changed : ∀ p, (s₁.proc p).state ≠ (s.proc p).state → held (s.current c) (s.pc (s.current c)) = some p ∧
    ((s.proc p).state = .running → claimed (s.current c) (s.pc (s.current c)) = some p)
  busy : ∀ p, claimed (s.current c) pc' = some p → BusyState pc'.leaving (s₁.proc p).state ∧
    ∀ c' ≠ c, claimed (s.current c') (s.pc (s.current c')) ≠ some p
  kept : ∀ p, claimed (s.current c) (s.pc (s.current c)) = some p →
    claimed (s.current c) pc' = some p ∨ (s₁.proc p).state ≠ .running
  started : ∀ p, (s₁.proc p).state = .running → (s.proc p).state = .running ∨ claimed (s.current c) pc' = some p
  rears : Rears s s₁ (s.pc (s.current c)) pc'

section

variable (h : Inv s) (hm : Moves s s₁ c pc')

include hm

theorem Moves.pc_self : (s₁.goto c pc').pc (s.current c) = pc' := by
  unfold State.goto
  rw [hm.current]
  exact pc_setPc_self _ _ _

theorem Moves.others (ht : t ≠ s.current c) : (s₁.goto c pc').pc t = s.pc t ∨
    ((s₁.goto c pc').pc t = .forkret ∧ (∃ p, t = .process p) ∧ ∀ c', s.current c' ≠ t) := by
  unfold State.goto
  rw [hm.current, pc_setPc_of_ne ht]
  exact hm.pcs t

theorem Moves.pending {q np : Fin NPROC} (hq : ((s₁.goto c pc').proc q).pc.pending = some np) :
    ((s.proc q).pc.pending = some np ∧ .process q ≠ s.current c) ∨ (.process q = s.current c ∧ pc'.pending = some np) := by
  have hq' : ((s₁.goto c pc').pc (.process q)).pending = some np := hq
  by_cases heq : .process q = s.current c
  · rw [heq, hm.pc_self] at hq'
    exact .inr ⟨heq, hq'⟩
  rcases hm.others heq with hsame | ⟨hnew, -⟩
  · rw [hsame] at hq'
    exact .inl ⟨hq', heq⟩
  · rw [hnew] at hq'
    cases hq'

include h

theorem Moves.pc_other (hne : c' ≠ c) : (s₁.goto c pc').pc (s.current c') = s.pc (s.current c') := by
  rcases hm.others (h.current_ne hne) with hsame | ⟨-, -, hoff⟩
  · exact hsame
  · exact absurd rfl (hoff c')

omit [DecidableEq κ] in
theorem Moves.state_other (hne : c' ≠ c)
    (hclaim : claimed (s.current c') (s.pc (s.current c')) = some p) : (s₁.proc p).state = (s.proc p).state := by
  by_contra hchanged
  obtain ⟨hheld, hrun⟩ := hm.changed p hchanged
  have hbusy := h.busy c' p hclaim
  cases hout : (s.pc (s.current c')).leaving with
  | false =>
    rw [hout] at hbusy
    exact hne (h.unique c' c p hclaim (hrun hbusy))
  | true =>
    -- On the way out the process holds its lock, which the thread on `c` needs to change the state.
    have hmine := (h.lock p c).mpr hheld
    have htheirs := (h.lock p c').mpr (held_of_leaving (h.fits _) hout hclaim)
    rw [hmine] at htheirs
    exact hne (Option.some.inj htheirs).symm

omit [DecidableEq κ] hm in
theorem Inv.scheduler_ne (hc' : s.current c' = .process p) : .scheduler c' ≠ s.current c := by
  intro heq
  rcases h.current c with hc | ⟨q, hc, -⟩
  · rw [hc] at heq
    rw [Tid.scheduler.inj heq, hc] at hc'
    cases hc'
  · rw [hc] at heq
    cases heq

theorem Moves.unique (c₁ c₂ : κ) (h₁ : claimed (s.current c₁) ((s₁.goto c pc').pc (s.current c₁)) = some p)
    (h₂ : claimed (s.current c₂) ((s₁.goto c pc').pc (s.current c₂)) = some p) : c₁ = c₂ := by
  by_cases hc₁ : c₁ = c
  · rw [hc₁, hm.pc_self] at h₁
    by_contra hne
    rw [hc₁] at hne
    rw [hm.pc_other h (Ne.symm hne)] at h₂
    exact (hm.busy p h₁).2 c₂ (Ne.symm hne) h₂
  rw [hm.pc_other h hc₁] at h₁
  by_cases hc₂ : c₂ = c
  · rw [hc₂, hm.pc_self] at h₂
    exact absurd h₁ ((hm.busy p h₂).2 c₁ hc₁)
  · rw [hm.pc_other h hc₂] at h₂
    exact h.unique c₁ c₂ p h₁ h₂

theorem Moves.running (hrun : (s₁.proc p).state = .running) :
    ∃ c', claimed (s.current c') ((s₁.goto c pc').pc (s.current c')) = some p := by
  have hself : claimed (s.current c) pc' = some p →
      ∃ c', claimed (s.current c') ((s₁.goto c pc').pc (s.current c')) = some p :=
    fun hclaim => ⟨c, by rw [hm.pc_self]; exact hclaim⟩
  rcases hm.started p hrun with hold | hnew
  · obtain ⟨c', hclaim⟩ := h.running p hold
    by_cases hc : c' = c
    · rw [hc] at hclaim
      exact hself ((hm.kept p hclaim).resolve_right fun hstop => hstop hrun)
    · refine ⟨c', ?_⟩
      rw [hm.pc_other h hc]
      exact hclaim
  · exact hself hnew

omit [DecidableEq κ] in
theorem Moves.used_other {q np : Fin NPROC}
    (hold : (s.proc q).pc.pending = some np) (hne : .process q ≠ s.current c) : (s₁.proc np).state = .used := by
  by_contra hchanged
  -- Only the maker of the child changes its state, and there is one maker.
  have hmine := hm.rears.used np (h.child q np hold) hchanged
  rcases h.current c with hc | ⟨q', hc, -⟩
  · rw [hc, pending_scheduler (h.fits _)] at hmine
    cases hmine
  · rw [hc] at hmine
    rw [h.once q q' np hold hmine] at hne
    exact hne hc.symm

omit [DecidableEq κ] in
theorem Moves.once_other {q q' np : Fin NPROC} (hold : (s.proc q).pc.pending = some np) (hnew : pc'.pending = some np)
    (heq : .process q' = s.current c) : q = q' := by
  rcases (hm.rears.child np hnew).2 with hmine | hunused
  · rw [← heq] at hmine
    exact h.once q q' np hold hmine
  · exact absurd (h.child q np hold) hunused

theorem Moves.once {q q' np : Fin NPROC} (hq : ((s₁.goto c pc').proc q).pc.pending = some np)
    (hq' : ((s₁.goto c pc').proc q').pc.pending = some np) : q = q' := by
  rcases hm.pending hq with ⟨hold, -⟩ | ⟨heq, hnew⟩
  · rcases hm.pending hq' with ⟨hold', -⟩ | ⟨heq', hnew'⟩
    · exact h.once q q' np hold hold'
    · exact hm.once_other h hold hnew' heq'
  rcases hm.pending hq' with ⟨hold', -⟩ | ⟨heq', -⟩
  · exact (hm.once_other h hold' hnew heq).symm
  · rw [← heq'] at heq
    exact Tid.process.inj heq

theorem Inv.moves : Inv (s₁.goto c pc') := by
  have hcur : (s₁.goto c pc').current = s.current := (current_setPc _ _ _).trans hm.current
  have hstate : ∀ p, ((s₁.goto c pc').proc p).state = (s₁.proc p).state := fun p => state_setPc _ _ _ p
  have hlock : (s₁.goto c pc').lock = s₁.lock := lock_setPc _ _ _
  have hcpu : (s₁.goto c pc').cpuProc = s₁.cpuProc := cpuProc_setPc _ _ _
  have hother : ∀ {c'}, c' ≠ c → (s₁.goto c pc').pc (s.current c') = s.pc (s.current c') := hm.pc_other h
  constructor
  case unique =>
    rw [hcur]
    exact fun c₁ c₂ p => hm.unique h c₁ c₂
  case running =>
    intro p hrun
    rw [hstate] at hrun
    rw [hcur]
    exact hm.running h hrun
  case once => exact fun q q' np => hm.once h
  case child =>
    intro q np hq
    rw [hstate]
    rcases hm.pending hq with ⟨hold, hne⟩ | ⟨-, hnew⟩
    · exact hm.used_other h hold hne
    · exact (hm.rears.child np hnew).1
  -- What is said of each thread by itself.
  case current =>
    intro c'
    rw [hcur]
    refine (h.current c').imp_right fun ⟨p, hc', hback⟩ => ⟨p, hc', ?_⟩
    rcases hm.others (h.scheduler_ne hc') with hsame | ⟨-, ⟨q, hproc⟩, -⟩
    · exact hsame.trans hback
    · cases hproc
  case fits =>
    intro t
    by_cases ht : t = s.current c
    · rw [ht, hm.pc_self]
      exact hm.fits
    rcases hm.others ht with hsame | ⟨hnew, hp, -⟩
    · rw [hsame]
      exact h.fits t
    · rw [hnew]
      exact hp
  case parked =>
    intro p hoff
    rw [hcur] at hoff
    show ((s₁.goto c pc').pc (.process p)).Parked
    rcases hm.others (hoff c).symm with hsame | ⟨hnew, -⟩
    · rw [hsame]
      exact h.parked p hoff
    · rw [hnew]
      trivial
  -- What is said of each CPU by itself: of `c` by the move, of the others as before.
  case lock =>
    intro p c'
    rw [hcur, hlock]
    by_cases hc : c' = c
    · rw [hc, hm.pc_self]
      exact hm.lock p
    · rw [hm.locks p c' hc, hother hc]
      exact h.lock p c'
  case cpuProc =>
    intro c'
    rw [hcur, hcpu]
    by_cases hc : c' = c
    · rw [hc, hm.pc_self]
      exact hm.cpuProc
    · rw [hm.cpuProcs c' hc, hother hc]
      exact h.cpuProc c'
  case busy =>
    intro c' p hclaim
    rw [hcur] at hclaim ⊢
    rw [hstate]
    by_cases hc : c' = c
    · rw [hc, hm.pc_self] at hclaim ⊢
      exact (hm.busy p hclaim).1
    · rw [hother hc] at hclaim ⊢
      rw [hm.state_other h hc hclaim]
      exact h.busy c' p hclaim

end

end

/-- A thread goes from `pc` to `pc'` with the same process to care for. -/
structure Follows (t : Tid κ) (pc pc' : Pc χ) : Prop where
  fits : pc'.Fits t
  target : pc'.target = pc.target := by rfl
  chose : pc'.chose = pc.chose := by rfl
  stays : pc.leaving = false := by rfl
  stays' : pc'.leaving = false := by rfl

theorem Follows.claimed (h : Follows t pc pc') : claimed t pc' = claimed t pc := by
  cases t with
  | process => rfl
  | scheduler => exact h.target

theorem Follows.onCpu (h : Follows t pc pc') : onCpu t pc' = onCpu t pc := by
  cases t with
  | process => rfl
  | scheduler => exact h.chose

/-- What a thread may do to the processes before it goes on: it may change one whose lock it holds and which does
not run, and set up the context of one that is on no CPU. -/
structure Edits (s s₁ : State κ χ) (c : κ) : Prop where
  lock : s₁.lock = s.lock
  current : s₁.current = s.current
  cpuProc : s₁.cpuProc = s.cpuProc
  pcs : ∀ t, s₁.pc t = s.pc t ∨ (s₁.pc t = .forkret ∧ (∃ p, t = .process p) ∧ ∀ c', s.current c' ≠ t)
  changed : ∀ p, (s₁.proc p).state ≠ (s.proc p).state → held (s.current c) (s.pc (s.current c)) = some p ∧
    (s.proc p).state ≠ .running ∧ (s₁.proc p).state ≠ .running

theorem Edits.refl (s : State κ χ) (c : κ) : Edits s s c := ⟨rfl, rfl, rfl, fun _ => .inl rfl, fun _ h => absurd rfl h⟩

theorem state_setState_self (s : State κ χ) (p : Fin NPROC) (st : ProcState) :
    ((s.setState p st).proc p).state = st := by
  show (update s.proc p _ p).state = st
  rw [update_self]

variable {u : Thread χ (Pc χ)} {q : Fin NPROC}

theorem proc_setProc_of_ne {r : Thread χ (Pc χ)} (hq : q ≠ p) : (s.setProc p r).proc q = s.proc q := update_of_ne hq ..

theorem pc_setProc {r : Thread χ (Pc χ)} (hr : r.pc = (s.proc p).pc) (t : Tid κ) : (s.setProc p r).pc t = s.pc t := by
  cases t with
  | scheduler => rfl
  | process q =>
    show (update s.proc p r q).pc = (s.proc q).pc
    by_cases hq : q = p
    · rw [hq, update_self]
      exact hr
    · rw [update_of_ne hq]

theorem pc_setState (s : State κ χ) (p : Fin NPROC) (st : ProcState) (t : Tid κ) : (s.setState p st).pc t = s.pc t :=
  pc_setProc (r := { s.proc p with state := st }) rfl t

theorem state_setState_of_ne {st : ProcState} (hq : q ≠ p) :
    ((s.setState p st).proc q).state = (s.proc q).state := congrArg Thread.state (proc_setProc_of_ne hq)

theorem Rears.spares (h : Inv s) (hpc : s.pc (s.current c) = pc) (hsame : pc'.pending = none ∨ pc'.pending = pc.pending)
    (hused : ∀ np, (s.proc np).state = .used → (s₁.proc np).state = .used) : Rears s s₁ pc pc' := by
  refine ⟨fun np hnp => ?_, fun np hold hnot => absurd (hused np hold) hnot⟩
  rcases hsame with hnone | heq
  · rw [hnone] at hnp
    cases hnp
  rw [heq] at hnp
  refine ⟨hused np ?_, .inl hnp⟩
  rcases h.current c with hc | ⟨q, hc, -⟩
  · have hfits := h.fits_of hpc
    rw [hc] at hfits
    rw [pending_scheduler hfits] at hnp
    cases hnp
  · apply h.child q np
    rw [← hnp, ← hpc, hc]
    rfl

theorem Rears.drop (hpending : pc.pending = some i) (hpending' : pc'.pending = none) :
    Rears s (s.setProc i u) pc pc' := by
  refine ⟨fun np hnp => ?_, fun np hold hnot => ?_⟩
  · rw [hpending'] at hnp
    cases hnp
  by_cases hnp : np = i
  · rw [hnp]
    exact hpending
  · rw [proc_setProc_of_ne hnp] at hnot
    exact absurd hold hnot

theorem parked_spec (hparked : pc.Parked) (hfits : pc.Fits (.process p : Tid κ)) :
    held (.process p : Tid κ) pc = some p ∧ pc.leaving = false := by
  cases pc with
  | forkret => exact ⟨rfl, rfl⟩
  | resumed =>
    obtain ⟨⟨⟩, -⟩ := hfits
    exact ⟨rfl, rfl⟩
  | _ => exact hparked.elim

theorem Edits.setProc (hheld : held (s.current c) (s.pc (s.current c)) = some i) (hu : u.pc = (s.proc i).pc)
    (hstate : u.state = (s.proc i).state ∨ ((s.proc i).state ≠ .running ∧ u.state ≠ .running)) :
    Edits s (s.setProc i u) c := by
  refine ⟨rfl, rfl, rfl, fun t => .inl (pc_setProc hu t), fun q hch => ?_⟩
  by_cases hq : q = i
  · have hself : (s.setProc i u).proc i = u := update_self ..
    rw [hq, hself] at hch ⊢
    exact ⟨hheld, hstate.resolve_left hch⟩
  · exact absurd (congrArg Thread.state (proc_setProc_of_ne hq)) hch

theorem Inv.myproc (h : Inv s) (hcur : s.current c = .process q) (hproc : s.cpuProc c = some p) : p = q := by
  rw [h.cpuProc, hcur] at hproc
  exact (Option.some.inj hproc).symm

theorem Inv.off_of_used (h : Inv s) (hused : (s.proc i).state = .used) (c' : κ) : s.current c' ≠ .process i := by
  intro hcur
  have hbusy := h.busy c' i (by rw [hcur]; rfl)
  unfold BusyState at hbusy
  split at hbusy
  · exact (not_running_of_out hbusy).2 hused
  · exact absurd (hused.symm.trans hbusy) nofun

theorem Inv.visit (u : Thread χ (Pc χ)) (pc' : Pc χ) (h : Inv s) (hpc : s.pc (s.current c) = pc)
    (hheld : held (s.current c) pc = some i) (hu : u.pc = (s.proc i).pc) (hstate : u.state = (s.proc i).state ∨
      ((s.proc i).state ≠ .running ∧ (s.proc i).state ≠ .used ∧ u.state ≠ .running))
    (hsame : pc'.pending = none ∨ pc'.pending = pc.pending) :
    Edits s (s.setProc i u) c ∧ Rears s (s.setProc i u) pc pc' := by
  refine ⟨.setProc (by rw [hpc]; exact hheld) hu (hstate.imp_right fun hst => ⟨hst.1, hst.2.2⟩), ?_⟩
  refine .spares h hpc hsame fun np hused => ?_
  by_cases hnp : np = i
  · rw [hnp] at hused ⊢
    have hself : (s.setProc i u).proc i = u := update_self ..
    rw [hself]
    rcases hstate with heq | ⟨-, hnot, -⟩
    · exact heq.trans hused
    · exact absurd hused hnot
  · rw [proc_setProc_of_ne hnp]
    exact hused

theorem Edits.free (h : Edits s (s.setProc i { s.proc i with state := .unused, chan := none, killed := false }) c) :
    Edits s (s.free i) c := ⟨rfl, rfl, rfl, h.pcs, h.changed⟩

theorem Rears.free
    (h : Rears s (s.setProc i { s.proc i with state := .unused, chan := none, killed := false }) pc pc') :
    Rears s (s.free i) pc pc' := ⟨h.child, h.used⟩

theorem Inv.finishChild (u : Thread χ (Pc χ)) (h : Inv s) (hpc : s.pc (s.current c) = pc)
    (hheld : held (s.current c) pc = some i) (hpending : pc.pending = some i) (hu : u.pc = (s.proc i).pc)
    (hstate : u.state ≠ .running) : Edits s (s.setProc i u) c ∧ Rears s (s.setProc i u) pc (.point .kernel) := by
  have hused : (s.proc i).state = .used := ((Rears.spares h hpc (.inr rfl) fun _ hold => hold).child i hpending).1
  refine ⟨.setProc (by rw [hpc]; exact hheld) hu (.inr ⟨?_, hstate⟩), .drop hpending rfl⟩
  rw [hused]
  decide

section Steps

variable [DecidableEq κ]

section

variable (h : Inv s)

include h

section

variable (hpc : s.pc (s.current c) = pc)

include hpc

theorem Inv.follow {l : Fin NPROC → Option κ} (he : Edits s s₁ c)
    (hf : Follows (s.current c) pc pc') (hr : Rears s s₁ pc pc')
    (hlock : ∀ p, l p = some c ↔ held (s.current c) pc' = some p)
    (hlocks : ∀ p, ∀ c' ≠ c, l p = some c' ↔ s.lock p = some c') : Inv ({ s₁ with lock := l }.goto c pc') := by
  refine h.moves ⟨he.current, he.pcs, hf.fits, hlock, hlocks, ?_, fun c' _ => congrFun he.cpuProc c', fun p hch => ?_,
    fun p hclaim => ?_, fun p hclaim => ?_, fun p hrun => ?_, by rw [hpc]; exact ⟨hr.child, hr.used⟩⟩
  · rw [hf.onCpu, ← hpc, ← h.cpuProc c]
    exact congrFun he.cpuProc c
  · obtain ⟨hheld, hold, -⟩ := he.changed p hch
    exact ⟨hheld, fun hrun => absurd hrun hold⟩
  · rw [hf.claimed, ← hpc] at hclaim
    have hbusy := h.busy c p hclaim
    rw [hpc, hf.stays] at hbusy
    rw [hf.stays']
    refine ⟨?_, fun c' hne hclaim' => hne (h.unique c' c p hclaim' hclaim)⟩
    show BusyState false (s₁.proc p).state
    by_cases hsame : (s₁.proc p).state = (s.proc p).state
    · rw [hsame]
      exact hbusy
    · exact absurd hbusy (he.changed p hsame).2.1
  · left
    rw [hf.claimed, ← hpc]
    exact hclaim
  left
  by_contra hold
  have hsame : (s₁.proc p).state ≠ (s.proc p).state := by
    intro heq
    rw [← heq] at hold
    exact hold hrun
  exact (he.changed p hsame).2.2 hrun

theorem Inv.editGoto (he : Edits s s₁ c) (hf : Follows (s.current c) pc pc') (hr : Rears s s₁ pc pc')
    (hheld : held (s.current c) pc' = held (s.current c) pc) : Inv (s₁.goto c pc') := by
  refine h.follow (l := s₁.lock) hpc he hf hr (fun p => ?_) fun p c' _ => ?_
  · rw [hheld, ← hpc, he.lock]
    exact h.lock p c
  · rw [he.lock]

theorem Inv.goto (hf : Follows (s.current c) pc pc') (hheld : held (s.current c) pc' = held (s.current c) pc)
    (hpending : pc'.pending = none ∨ pc'.pending = pc.pending) : Inv (s.goto c pc') :=
  h.editGoto hpc (.refl s c) hf (.spares h hpc hpending fun _ hused => hused) hheld

theorem Inv.acquire (hrun : s.acquire c p pc' = some s')
    (hf : Follows (s.current c) pc pc') (hbefore : held (s.current c) pc = none)
    (hafter : held (s.current c) pc' = some p) (hpending : pc'.pending = none ∨ pc'.pending = pc.pending) :
    Inv s' := by
  unfold State.acquire at hrun
  split at hrun
  · next hfree =>
    cases hrun
    refine h.follow hpc (.refl s c) hf (.spares h hpc hpending fun _ hused => hused) (fun q => ?_) fun q c' hne => ?_
    · rw [hafter]
      by_cases hq : q = p
      · rw [hq, update_self]
        exact ⟨fun _ => rfl, fun _ => rfl⟩
      · rw [update_of_ne hq, h.lock q c, hpc, hbefore]
        exact ⟨fun hbad => (by cases hbad), fun heq => absurd (Option.some.inj heq).symm hq⟩
    by_cases hq : q = p
    · rw [hq, update_self, hfree]
      exact ⟨fun heq => absurd (Option.some.inj heq).symm hne, fun hbad => (by cases hbad)⟩
    · rw [update_of_ne hq]
  · cases hrun

theorem Inv.release (he : Edits s s₁ c)
    (hrun : s₁.release c p pc' = some s') (hf : Follows (s.current c) pc pc') (hr : Rears s s₁ pc pc')
    (hbefore : held (s.current c) pc = some p) (hafter : held (s.current c) pc' = none) : Inv s' := by
  unfold State.release at hrun
  split at hrun
  · next hmine =>
    cases hrun
    refine h.follow hpc he hf hr (fun q => ?_) fun q c' hne => ?_
    · rw [hafter, he.lock]
      by_cases hq : q = p
      · rw [hq, update_self]
        exact ⟨fun hbad => (by cases hbad), fun hbad => (by cases hbad)⟩
      · rw [update_of_ne hq, h.lock q c, hpc, hbefore]
        exact ⟨fun heq => absurd (Option.some.inj heq).symm hq, fun hbad => (by cases hbad)⟩
    rw [he.lock] at hmine ⊢
    by_cases hq : q = p
    · rw [hq, update_self, hmine]
      exact ⟨fun hbad => (by cases hbad), fun heq => absurd (Option.some.inj heq).symm hne⟩
    · rw [update_of_ne hq]
  · cases hrun

end

theorem Inv.choose (hpc : s.pc (s.current c) = .look p) (hstate : (s.proc p).state = .runnable) :
    Inv ((s.setState p .running).goto c (.chosen p)) := by
  obtain ⟨c', hcur⟩ := h.fits_of hpc
  have hheld : held (s.current c) (s.pc (s.current c)) = some p := by
    rw [hpc]
    rfl
  have halone := h.not_claimed ((h.lock p c).mpr hheld) (by rw [hstate]; decide) (by rw [hpc]; rfl)
  refine h.moves ⟨rfl, fun t => .inl (pc_setState s p _ t), ⟨c', hcur⟩, fun q => ?_, fun _ _ _ => .rfl, ?_,
    fun _ _ => rfl, fun q hch => ?_, fun q hclaim => ?_, fun q hclaim => absurd hclaim ?_, fun q hrun => ?_,
    nofun, fun np hused hnot => ?_⟩
  · have hlock := h.lock q c
    rw [hpc] at hlock
    exact hlock
  · have hproc := h.cpuProc c
    rw [hpc, hcur] at hproc
    rw [hcur]
    exact hproc
  · by_cases hq : q = p
    · rw [hq]
      exact ⟨hheld, fun hbad => by rw [hstate] at hbad; cases hbad⟩
    · exact absurd (state_setState_of_ne hq) hch
  · rw [hcur] at hclaim
    cases hclaim
    exact ⟨state_setState_self _ _ _, fun c' _ => halone c'⟩
  · rw [hpc, hcur]
    exact fun hbad => by cases hbad
  · by_cases hq : q = p
    · right
      rw [hq, hcur]
      rfl
    · rw [state_setState_of_ne hq] at hrun
      exact .inl hrun
  by_cases hq : np = p
  · rw [hq, hstate] at hused
    cases hused
  · rw [state_setState_of_ne hq] at hnot
    exact absurd hused hnot

theorem Inv.setCpuProc {o : Option (Fin NPROC)} (hpc : s.pc (s.current c) = pc)
    (hcur : s.current c = .scheduler c') (hfits : pc'.Fits (s.current c))
    (hheld : held (s.current c) pc' = held (s.current c) pc) (hchose : pc'.chose = o)
    (hstays : pc'.leaving = false) (hpending : pc'.pending = none)
    (htarget : pc.leaving = false ∧ pc'.target = pc.target ∨ pc.leaving = true ∧ pc'.target = none) :
    Inv ((s.setCpuProc c o).goto c pc') := by
  have hclaim : ∀ {q}, claimed (s.current c) pc' = some q →
      pc.leaving = false ∧ claimed (s.current c) (s.pc (s.current c)) = some q := by
    intro q hq
    rw [hcur] at hq
    rcases htarget with ⟨hin, hsame⟩ | ⟨-, hnone⟩
    · rw [hpc, hcur]
      exact ⟨hin, hsame.symm.trans hq⟩
    · have hbad : pc'.target = some q := hq
      rw [hnone] at hbad
      cases hbad
  refine h.moves ⟨rfl, fun _ => .inl rfl, hfits, fun q => ?_, fun _ _ _ => .rfl, ?_, fun c₁ hne => ?_,
    fun q hch => absurd rfl hch, fun q hq => ?_, fun q hq => ?_, fun q hrun => .inl hrun,
    fun np hnp => ?_, fun np hused hnot => absurd hused hnot⟩
  · rw [hheld, ← hpc]
    exact h.lock q c
  · rw [hcur]
    exact (update_self ..).trans hchose.symm
  · exact update_of_ne hne ..
  · obtain ⟨hin, hold⟩ := hclaim hq
    have hbusy := h.busy c q hold
    rw [hpc, hin] at hbusy
    rw [hstays]
    exact ⟨hbusy, fun c₁ hne hclaim₁ => hne (h.unique c₁ c q hclaim₁ hold)⟩
  · rcases htarget with ⟨hin, hsame⟩ | ⟨hout, -⟩
    · left
      rw [hpc, hcur] at hq
      rw [hcur]
      exact hsame.trans hq
    right
    have hbusy := h.busy c q hq
    rw [hpc, hout] at hbusy
    exact (not_running_of_out hbusy).1
  · rw [hpending] at hnp
    cases hnp

theorem Inv.leave {r : Caller} (hpc : s.pc (s.current c) = pc)
    (hcur : s.current c = .process p) (hheld : held (s.current c) pc = some p) (hstays : pc.leaving = false)
    (hr : r.Fits (s.current c)) (hpending : r.pending = pc.pending) (hu : u.pc = (s.proc p).pc)
    (hstate : u.state = .runnable ∨ u.state = .sleeping ∨ u.state = .zombie) :
    Inv ((s.setProc p u).goto c (.sched p r)) := by
  have hself : ((s.setProc p u).proc p) = u := update_self ..
  have hclaim : claimed (s.current c) (s.pc (s.current c)) = some p := by
    rw [hcur]
    rfl
  have hrun := h.busy c p hclaim
  rw [hpc, hstays] at hrun
  have hother : ∀ {q}, q ≠ p → ((s.setProc p u).proc q).state = (s.proc q).state :=
    fun hq => congrArg Thread.state (proc_setProc_of_ne hq)
  refine h.moves ⟨rfl, fun t => .inl (pc_setProc hu t), ⟨hcur, hr⟩, fun q => ?_, fun _ _ _ => .rfl, ?_,
    fun _ _ => rfl, fun q hch => ?_, fun q hq => ?_, fun q hq => ?_, fun q hq => ?_,
    fun np hnp => ?_, fun np hused hgone => ?_⟩
  · have hlock := h.lock q c
    rw [hpc, hheld] at hlock
    exact hlock
  · have hproc := h.cpuProc c
    rw [hcur] at hproc ⊢
    exact hproc
  · by_cases hq : q = p
    · rw [hq, hpc]
      exact ⟨hheld, fun _ => by rw [hcur]; rfl⟩
    · exact absurd (hother hq) hch
  · rw [hcur] at hq
    cases hq
    rw [hself]
    exact ⟨hstate, fun c' hne hclaim' => hne (h.unique c' c p hclaim' hclaim)⟩
  · left
    rw [hcur] at hq ⊢
    exact hq
  · by_cases hqp : q = p
    · rw [hqp, hself] at hq
      exact absurd hq (not_running_of_out hstate).1
    · rw [hother hqp] at hq
      exact .inl hq
  · have hold : (s.pc (s.current c)).pending = some np := by
      rw [hpc, ← hpending]
      exact hnp
    refine ⟨?_, .inl hold⟩
    have hused : (s.proc np).state = .used := by
      apply h.child p np
      rw [hcur] at hold
      exact hold
    have hne : np ≠ p := by
      intro heq
      rw [heq] at hused
      rw [hused] at hrun
      cases hrun
    rw [hother hne]
    exact hused
  by_cases hq : np = p
  · rw [hq] at hused
    rw [hused] at hrun
    cases hrun
  · rw [hother hq] at hgone
    exact absurd hused hgone

theorem Inv.view_swtch {α : Type} {t' : Tid κ} (pc : Pc χ) (hoff : ∀ c', s.current c' ≠ t')
    (f : Tid κ → Pc χ → α) (hf : f t' (s.pc t') = f (s.current c) (s.pc (s.current c))) (c' : κ) :
    f ((s.swtch c pc t').current c') ((s.swtch c pc t').pc ((s.swtch c pc t').current c')) =
      f (s.current c') (s.pc (s.current c')) := by
  by_cases hc : c' = c
  · have hcur : (s.swtch c pc t').current c = t' := update_self ..
    have hpc : (s.swtch c pc t').pc t' = s.pc t' := pc_setPc_of_ne (hoff c).symm
    rw [hc, hcur, hpc]
    exact hf
  · have hcur : (s.swtch c pc t').current c' = s.current c' := update_of_ne hc ..
    have hpc : (s.swtch c pc t').pc (s.current c') = s.pc (s.current c') := pc_setPc_of_ne (h.current_ne hc)
    rw [hcur, hpc]

theorem Inv.switch {t' : Tid κ} (hoff : ∀ c', s.current c' ≠ t')
    (hheld : held t' (s.pc t') = held (s.current c) (s.pc (s.current c)))
    (hclaimed : claimed t' (s.pc t') = claimed (s.current c) (s.pc (s.current c)))
    (honCpu : onCpu t' (s.pc t') = onCpu (s.current c) (s.pc (s.current c)))
    (hleaving : (s.pc t').leaving = (s.pc (s.current c)).leaving) (hfits : pc.Fits (s.current c))
    (hpending : pc.pending = (s.pc (s.current c)).pending)
    (hcurrent : t' = .scheduler c ∨ ∃ p, t' = .process p ∧ s.current c = .scheduler c ∧ pc = .back p)
    (hparked : ∀ p, s.current c = .process p → pc.Parked) : Inv (s.swtch c pc t') := by
  have hother : ∀ {c'}, c' ≠ c → (s.swtch c pc t').current c' = s.current c' := fun hne => update_of_ne hne ..
  have hsaved : (s.swtch c pc t').pc (s.current c) = pc := pc_setPc_self s (s.current c) pc
  have hpcs : ∀ {t}, t ≠ s.current c → (s.swtch c pc t').pc t = s.pc t := fun hne => pc_setPc_of_ne hne
  have hstate : ∀ q, ((s.swtch c pc t').proc q).state = (s.proc q).state := fun q => state_setPc s (s.current c) pc q
  -- Every CPU is busy with the process that it was busy with.
  have hclaim := h.view_swtch pc hoff claimed hclaimed
  have hpend : ∀ q, ((s.swtch c pc t').proc q).pc.pending = (s.proc q).pc.pending := by
    intro q
    show ((s.swtch c pc t').pc (.process q)).pending = (s.pc (.process q)).pending
    by_cases hq : .process q = s.current c
    · rw [hq, hsaved]
      exact hpending
    · rw [hpcs hq]
  constructor
  case lock =>
    intro q c'
    rw [h.view_swtch pc hoff held hheld, ← h.lock]
    exact iff_of_eq (congrArg (· q = some c') (lock_setPc s (s.current c) pc))
  case cpuProc =>
    intro c'
    rw [h.view_swtch pc hoff onCpu honCpu, ← h.cpuProc]
    exact congrFun (cpuProc_setPc s (s.current c) pc) c'
  case current =>
    intro c'
    by_cases hc : c' = c
    · have hself : (s.swtch c pc t').current c = t' := update_self ..
      rw [hc, hself]
      rcases hcurrent with hsched | ⟨p, hproc, hcur, hback⟩
      · exact .inl hsched
      · refine .inr ⟨p, hproc, ?_⟩
        rw [hcur] at hsaved
        exact hsaved.trans hback
    · rw [hother hc]
      exact (h.current c').imp_right fun ⟨p, hproc, hback⟩ => ⟨p, hproc, (hpcs (h.scheduler_ne hproc)).trans hback⟩
  case fits =>
    intro t
    by_cases ht : t = s.current c
    · rw [ht, hsaved]
      exact hfits
    · rw [hpcs ht]
      exact h.fits t
  case parked =>
    intro q hq
    show ((s.swtch c pc t').pc (.process q)).Parked
    by_cases hmine : .process q = s.current c
    · rw [hmine, hsaved]
      exact hparked q hmine.symm
    rw [hpcs hmine]
    refine h.parked q fun c' hcur => ?_
    by_cases hc : c' = c
    · rw [hc] at hcur
      exact hmine hcur.symm
    · exact hq c' ((hother hc).trans hcur)
  case unique =>
    intro c₁ c₂ q h₁ h₂
    rw [hclaim] at h₁ h₂
    exact h.unique c₁ c₂ q h₁ h₂
  case busy =>
    intro c' q hq
    rw [hclaim] at hq
    rw [hstate, h.view_swtch pc hoff (fun _ pc => pc.leaving) hleaving]
    exact h.busy c' q hq
  case running =>
    intro q hq
    rw [hstate] at hq
    obtain ⟨c', hc'⟩ := h.running q hq
    exact ⟨c', (hclaim c').trans hc'⟩
  case child =>
    intro q np hq
    rw [hpend] at hq
    rw [hstate]
    exact h.child q np hq
  case once =>
    intro q q' np hq hq'
    rw [hpend] at hq hq'
    exact h.once q q' np hq hq'

theorem Inv.swtch (hpc : s.pc (s.current c) = .swtch p) : Inv (s.swtch c (.back p) (.process p)) := by
  obtain ⟨c₀, hc₀⟩ := h.fits_of hpc
  have hcur : s.current c = .scheduler c := by
    rcases h.current c with hsched | ⟨q, hproc, -⟩
    · exact hsched
    · rw [hc₀] at hproc
      cases hproc
  have hoff : ∀ c', s.current c' ≠ .process p := by
    intro c' hc'
    have heq : c' = c := by
      apply h.unique c' c p
      · rw [hc']
        rfl
      · rw [hpc, hcur]
        rfl
    rw [heq, hcur] at hc'
    cases hc'
  obtain ⟨hheld, hstays⟩ := parked_spec (h.parked p hoff) (h.fits (.process p))
  apply h.switch hoff
  · rw [hpc, hcur]
    exact hheld
  · rw [hpc, hcur]
    rfl
  · rw [hpc, hcur]
    rfl
  · rw [hpc]
    exact hstays
  · exact ⟨c₀, hc₀⟩
  · rw [hpc]
    rfl
  · exact .inr ⟨p, rfl, hcur, rfl⟩
  · intro q hq
    rw [hcur] at hq
    cases hq

theorem Inv.sched {r : Caller} (hpc : s.pc (s.current c) = .sched p r) :
    Inv (s.swtch c (.resumed p r) (.scheduler c)) := by
  obtain ⟨hcur, hr⟩ := h.fits_of hpc
  have hback : s.sched c = .back p := by
    rcases h.current c with hsched | ⟨q, hproc, hq⟩
    · rw [hcur] at hsched
      cases hsched
    · rw [hcur] at hproc
      cases hproc
      exact hq
  have hsaved : s.pc (.scheduler c) = .back p := hback
  apply h.switch
  · intro c' hc'
    rcases h.current c' with hsched | ⟨q, hproc, -⟩
    · rw [hsched] at hc'
      rw [Tid.scheduler.inj hc', hcur] at hsched
      cases hsched
    · rw [hproc] at hc'
      cases hc'
  · rw [hsaved, hpc]
    rfl
  · rw [hsaved, hpc, hcur]
    rfl
  · rw [hsaved, hpc, hcur]
    rfl
  · rw [hsaved, hpc]
    rfl
  · exact ⟨hcur, hr⟩
  · rw [hpc]
    rfl
  · exact .inl rfl
  · intro q _
    trivial

/-! ## Every step -/

theorem Inv.alloc (hpc : s.pc (s.current c) = .forkTest i) (hunused : (s.proc i).state = .unused) :
    Inv ((s.alloc i).goto c (.forkFound i)) := by
  have hfits := h.fits_of hpc
  have he : Edits s (s.setState i .used) c := by
    refine .setProc (by rw [hpc]; rfl) rfl (.inr ⟨?_, nofun⟩)
    rw [hunused]
    decide
  have hself := state_setState_self s i .used
  refine h.editGoto hpc ⟨rfl, rfl, rfl, he.pcs, he.changed⟩ (.mk hfits)
    ⟨fun np hnp => ?_, fun np hused hnot => ?_⟩ rfl
  · cases hnp
    refine ⟨hself, .inr ?_⟩
    rw [hunused]
    decide
  by_cases hnp : np = i
  · rw [hnp] at hnot
    exact absurd hself hnot
  · exact absurd ((state_setState_of_ne hnp).trans hused) hnot

theorem Inv.forkFound (hpc : s.pc (s.current c) = .forkFound i)
    (hstep : (s.setProc i { s.proc i with pc := .forkret }).release c i (.point (.forkParent i)) = some s') :
    Inv s' := by
  obtain ⟨q, hcur⟩ := h.fits_of hpc
  have hused : (s.proc i).state = .used := ((Rears.spares h hpc (.inr rfl) fun _ hold => hold).child i rfl).1
  have hstate : ∀ p, ((s.setProc i { s.proc i with pc := .forkret }).proc p).state = (s.proc p).state := by
    intro p
    show (update s.proc i _ p).state = _
    by_cases hp : p = i
    · rw [hp, update_self]
    · rw [update_of_ne hp]
  have he : Edits s (s.setProc i { s.proc i with pc := .forkret }) c := by
    refine ⟨rfl, rfl, rfl, fun t => ?_, fun p hch => absurd (hstate p) hch⟩
    by_cases ht : t = .process i
    · right
      rw [ht]
      refine ⟨?_, ⟨i, rfl⟩, h.off_of_used hused⟩
      show (update s.proc i _ i).pc = .forkret
      rw [update_self]
    left
    cases t with
    | scheduler => rfl
    | process p =>
      show (update s.proc i _ p).pc = (s.proc p).pc
      rw [update_of_ne fun hp => ht (congrArg _ hp)]
  refine h.release hpc he hstep (.mk ⟨q, hcur⟩) ?_ rfl rfl
  exact .spares h hpc (.inr rfl) fun np hnp => (hstate np).trans hnp

theorem Inv.unlock (hpc : s.pc (s.current c) = pc) (hrun : s.release c p pc' = some s')
    (hf : Follows (s.current c) pc pc') (hbefore : held (s.current c) pc = some p)
    (hafter : held (s.current c) pc' = none) (hpending : pc'.pending = none ∨ pc'.pending = pc.pending) : Inv s' :=
  h.release hpc (.refl s c) hrun hf (.spares h hpc hpending fun _ hused => hused) hbefore hafter

end

theorem Inv.loopHead {n : Nat} (body : Fin NPROC → Pc χ) (h : Inv s) (hpc : s.pc (s.current c) = pc)
    (hrun : (if hn : n < NPROC then s.acquire c ⟨n, hn⟩ (body ⟨n, hn⟩) else some (s.goto c pc')) = some s')
    (hbody : ∀ i, Follows (s.current c) pc (body i)) (hexit : Follows (s.current c) pc pc')
    (hbefore : held (s.current c) pc = none) (hafter : ∀ i, held (s.current c) (body i) = some i)
    (hexited : held (s.current c) pc' = none) (hpending : ∀ i, (body i).pending = none)
    (hpending' : pc'.pending = none) : Inv s' := by
  split at hrun
  · exact h.acquire hpc hrun (hbody _) hbefore (hafter _) (.inl (hpending _))
  · cases hrun
    exact h.goto hpc hexit (hexited.trans hbefore.symm) (.inl hpending')

theorem kill_visits (u : Thread χ (Pc χ)) : u.kill.state = u.state ∨
    (u.state ≠ .running ∧ u.state ≠ .used ∧ u.kill.state ≠ .running) := by
  unfold Thread.kill
  dsimp only
  split
  · next hasleep =>
    rw [hasleep]
    exact .inr ⟨by decide, by decide, nofun⟩
  · exact .inl rfl

variable [DecidableEq χ]

theorem wake_visits (u : Thread χ (Pc χ)) (chan : χ) : (u.wake chan).state = u.state ∨
    (u.state ≠ .running ∧ u.state ≠ .used ∧ (u.wake chan).state ≠ .running) := by
  unfold Thread.wake
  split
  · next hasleep =>
    rw [hasleep.1]
    exact .inr ⟨by decide, by decide, nofun⟩
  · exact .inl rfl

theorem Inv.advance_point {k : Point} (h : Inv s) (hpc : s.pc (s.current c) = .point k)
    (hstep : advance s c = some s') : Inv s' := by
  have hfits := h.fits_of hpc
  unfold Scheduler.advance at hstep
  rw [hpc] at hstep
  cases k with
  | idle =>
    cases hstep
    exact h.goto hpc (.mk hfits) rfl (.inl rfl)
  | kernel => cases hstep
  | killScan i pid =>
    exact h.loopHead (fun i => .killTest i pid) hpc hstep (fun _ => .mk hfits)
      (.mk hfits) rfl (fun _ => rfl) rfl (fun _ => rfl) rfl
  | forkScan =>
    exact h.loopHead .forkTest hpc hstep (fun _ => .mk hfits) (.mk hfits) rfl (fun _ => rfl)
      rfl (fun _ => rfl) rfl
  | forkParent => exact h.acquire hpc hstep (.mk hfits) rfl rfl (.inr rfl)
  | waitScan =>
    exact h.loopHead .waitTest hpc hstep (fun _ => .mk hfits) (.mk hfits) rfl (fun _ => rfl)
      rfl (fun _ => rfl) rfl
  | exiting => exact h.acquire hpc hstep (.mk hfits) rfl rfl (.inl rfl)

theorem Inv.advance_resumed {r : Caller} (h : Inv s) (hpc : s.pc (s.current c) = .resumed p r)
    (hstep : advance s c = some s') : Inv s' := by
  have hfits := h.fits_of hpc
  unfold Scheduler.advance at hstep
  rw [hpc] at hstep
  cases r with
  | yield => exact h.unlock hpc hstep (.mk hfits.2) rfl rfl (.inr rfl)
  | sleep =>
    obtain ⟨he, hr⟩ := h.visit { s.proc p with chan := none } (.point .kernel) hpc rfl rfl (.inl rfl) (.inl rfl)
    exact h.release hpc he hstep (.mk ⟨p, hfits.1⟩) hr rfl rfl
  | kexit => cases hstep

theorem Inv.advance (h : Inv s) (hstep : advance s c = some s') : Inv s' := by
  have hfits := h.fits (s.current c)
  have hadvance := hstep
  unfold Scheduler.advance at hstep
  generalize hpc : s.pc (s.current c) = pc at hstep hfits
  cases pc with
  | point => exact h.advance_point hpc hadvance
  | resumed => exact h.advance_resumed hpc hadvance
  -- The scheduler.
  | scan =>
    exact h.loopHead .look hpc hstep (fun _ => .mk hfits) (.mk hfits) rfl (fun _ => rfl)
      rfl (fun _ => rfl) rfl
  | look =>
    dsimp only at hstep
    split at hstep
    · next hrunnable =>
      cases hstep
      exact h.choose hpc hrunnable
    · cases hstep
      exact h.goto hpc (.mk hfits) rfl (.inl rfl)
  | chosen =>
    cases hstep
    obtain ⟨c', hcur⟩ := hfits
    exact h.setCpuProc hpc hcur ⟨c', hcur⟩ rfl rfl rfl rfl (.inl ⟨rfl, rfl⟩)
  | swtch =>
    cases hstep
    exact h.swtch hpc
  | back =>
    cases hstep
    obtain ⟨c', hcur⟩ := hfits
    exact h.setCpuProc hpc hcur ⟨c', hcur⟩ rfl rfl rfl rfl (.inr ⟨rfl, rfl⟩)
  | done | peek => exact h.unlock hpc hstep (.mk hfits) rfl rfl (.inl rfl)
  | forkret =>
    obtain ⟨q, hcur⟩ := hfits
    dsimp only at hstep
    split at hstep
    · next p hproc =>
      refine h.unlock hpc hstep (.mk ⟨q, hcur⟩) ?_ rfl (.inl rfl)
      rw [hcur, h.myproc hcur hproc]
      rfl
    · cases hstep
  -- The ways into `sched`, from the lock on.
  | yieldLock => exact h.acquire hpc hstep (.mk hfits) rfl rfl (.inr rfl)
  | yieldMark =>
    cases hstep
    exact h.leave hpc hfits.1 rfl rfl hfits.2 rfl rfl (.inl rfl)
  | sleepLock => exact h.acquire hpc hstep (.mk hfits) rfl rfl (.inl rfl)
  | sleepMark =>
    cases hstep
    exact h.leave hpc hfits rfl rfl trivial rfl rfl (.inr (.inl rfl))
  | exitMark =>
    cases hstep
    exact h.leave hpc hfits rfl rfl trivial rfl rfl (.inr (.inr rfl))
  | sched =>
    dsimp only at hstep
    split at hstep
    · cases hstep
      exact h.sched hpc
    · cases hstep
  -- The loops over the process table, with the lock of an entry held.
  | wakeScan =>
    dsimp only at hstep
    split at hstep
    · split at hstep
      · cases hstep
        exact h.goto hpc (.mk hfits) rfl (.inr rfl)
      · exact h.acquire hpc hstep (.mk hfits) rfl rfl (.inr rfl)
    · cases hstep
      exact h.goto hpc (.mk hfits) rfl (.inr rfl)
  | wakeTest i chan k =>
    obtain ⟨he, hr⟩ := h.visit ((s.proc i).wake chan) (.wakeScan (i + 1) chan k) hpc rfl (Thread.wake_pc _ _)
      (wake_visits _ chan) (.inr rfl)
    exact h.release hpc he hstep (.mk hfits) hr rfl rfl
  | killTest i =>
    dsimp only at hstep
    split at hstep
    · obtain ⟨he, hr⟩ := h.visit (s.proc i).kill (.point .kernel) hpc rfl rfl (kill_visits _) (.inl rfl)
      exact h.release hpc he hstep (.mk hfits) hr rfl rfl
    · exact h.unlock hpc hstep (.mk hfits) rfl rfl (.inl rfl)
  | forkTest =>
    dsimp only at hstep
    split at hstep
    · next hunused =>
      cases hstep
      exact h.alloc hpc hunused
    · exact h.unlock hpc hstep (.mk hfits) rfl rfl (.inl rfl)
  | forkFound => exact h.forkFound hpc hstep
  | forkRun np =>
    obtain ⟨he, hr⟩ := h.finishChild { s.proc np with state := .runnable } hpc rfl rfl rfl nofun
    exact h.release hpc he hstep (.mk hfits) hr rfl rfl
  | waitTest i =>
    dsimp only at hstep
    split at hstep
    · next hzombie =>
      obtain ⟨he, hr⟩ := h.visit { s.proc i with state := .unused, chan := none, killed := false } (.point .kernel) hpc
        rfl rfl (.inr (by rw [hzombie]; exact ⟨by decide, by decide, nofun⟩)) (.inl rfl)
      exact h.release hpc he.free hstep (.mk hfits) hr.free rfl rfl
    · exact h.unlock hpc hstep (.mk hfits) rfl rfl (.inl rfl)

theorem Inv.call (h : Inv s) (hstep : call s c pc' = some s') (hfits : ∀ p, s.current c = .process p →
      pc'.Fits (s.current c)) (htarget : pc'.target = none) (hchose : pc'.chose = none) (hstays : pc'.leaving = false)
    (hheld : held (s.current c) pc' = none) (hpending : pc'.pending = none) : Inv s' := by
  unfold Scheduler.call at hstep
  split at hstep
  · next hpc =>
    cases hstep
    obtain ⟨p, hcur⟩ := h.fits_of hpc
    exact h.goto hpc ⟨hfits p hcur, htarget, hchose, rfl, hstays⟩ hheld (.inl hpending)
  · cases hstep

theorem Inv.step {a : Act κ χ} (h : Inv s) (hstep : step s a = some s') : Inv s' := by
  cases a with
  | advance => exact h.advance hstep
  | yield c =>
    simp only [Scheduler.step] at hstep
    split at hstep
    · cases hstep
    · cases hstep
    · next k p hne hne' hpc hproc =>
      cases hstep
      have hfits := h.fits_of hpc
      have hcur : s.current c = .process p := by
        obtain ⟨q, hq⟩ : ∃ q, s.current c = .process q := by
          cases k with
          | idle => exact absurd rfl hne
          | exiting q => exact ⟨q, hfits⟩
          | _ => exact hfits
        rw [h.myproc hq hproc]
        exact hq
      exact h.goto hpc (.mk ⟨hcur, hfits⟩) rfl (.inr rfl)
    · cases hstep
  | sleep =>
    simp only [Scheduler.step] at hstep
    split at hstep
    · next p hproc =>
      refine h.call hstep (fun q hq => ?_) rfl rfl rfl rfl rfl
      rw [h.myproc hq hproc]
      exact hq
    · cases hstep
  | wakeup =>
    simp only [Scheduler.step] at hstep
    split at hstep
    · cases hstep
    · next k hne hpc =>
      cases hstep
      have hfits := h.fits_of hpc
      exact h.goto hpc (.mk hfits) rfl (.inr rfl)
    · cases hstep
  | kill | fork | wait => exact h.call hstep (fun p hp => ⟨p, hp⟩) rfl rfl rfl rfl rfl
  | peek =>
    simp only [Scheduler.step] at hstep
    split at hstep
    · next hpc =>
      have hfits := h.fits_of hpc
      exact h.acquire hpc hstep (.mk hfits) rfl rfl (.inl rfl)
    · cases hstep
  | forkFails =>
    simp only [Scheduler.step] at hstep
    split at hstep
    · next np hpc =>
      obtain ⟨he, hr⟩ := h.finishChild { s.proc np with state := .unused, chan := none, killed := false } hpc rfl rfl rfl
        nofun
      have hfits := h.fits_of hpc
      exact h.release hpc he.free hstep (.mk hfits) hr.free rfl rfl
    · cases hstep
  | waitSkips =>
    simp only [Scheduler.step] at hstep
    split at hstep
    · next i hpc =>
      cases hstep
      have hfits := h.fits_of hpc
      exact h.goto hpc (.mk hfits) rfl (.inl rfl)
    · cases hstep
  | waitFails =>
    simp only [Scheduler.step] at hstep
    split at hstep
    · next i hpc =>
      split at hstep
      · have hfits := h.fits_of hpc
        exact h.unlock hpc hstep (.mk hfits) rfl rfl (.inl rfl)
      · cases hstep
    · cases hstep
  | exit =>
    simp only [Scheduler.step] at hstep
    split at hstep
    · next p hproc =>
      split at hstep
      · cases hstep
      · refine h.call hstep (fun q hq => ?_) rfl rfl rfl rfl rfl
        rw [h.myproc hq hproc]
        exact hq
    · cases hstep

theorem inv_of_reachable (h : Reachable (· = State.start) Step s) : Inv s := by
  refine h.invariant (fun s hs => ?_) fun s ev t hinv hstep => ?_
  · rw [hs]
    exact .start
  unfold Step Exec exec at hstep
  obtain ⟨t', ht', ⟨⟩⟩ := Option.map_eq_some_iff.mp hstep
  exact hinv.step ht'

/-- A process whose lock is free runs if and only if exactly one CPU runs it, and no two CPUs ever run the same. -/
theorem running_iff_on_one_cpu (s : State κ χ) (h : Reachable (· = State.start) Step s) :
    (∀ p, s.lock p = none → ((s.proc p).state = .running ↔ ∃! c, s.cpuProc c = some p)) ∧
      ∀ p c c', s.cpuProc c = some p → s.cpuProc c' = some p → c = c' := by
  have hinv := inv_of_reachable h
  have hunique : ∀ p c c', s.cpuProc c = some p → s.cpuProc c' = some p → c = c' := by
    intro p c c' hc hc'
    rw [hinv.cpuProc] at hc hc'
    exact hinv.unique c c' p (claimed_of_onCpu hc) (claimed_of_onCpu hc')
  have hfree : ∀ {p c}, s.lock p = none → held (s.current c) (s.pc (s.current c)) ≠ some p := by
    intro p c hnone hheld
    rw [(hinv.lock p c).mpr hheld] at hnone
    cases hnone
  refine ⟨fun p hnone => ⟨fun hrun => ?_, fun ⟨c, hc, _⟩ => ?_⟩, hunique⟩
  · obtain ⟨c, hclaim⟩ := hinv.running p hrun
    have hc : s.cpuProc c = some p := by
      rw [hinv.cpuProc]
      exact (onCpu_of_claimed hclaim).resolve_right (hfree hnone)
    exact ⟨c, hc, fun c' hc' => hunique p c' c hc' hc⟩
  have honCpu : s.cpuProc c = some p := hc
  rw [hinv.cpuProc] at honCpu
  have hclaim := claimed_of_onCpu honCpu
  have hbusy := hinv.busy c p hclaim
  cases hout : (s.pc (s.current c)).leaving with
  | false =>
    rw [hout] at hbusy
    exact hbusy
  | true => exact absurd (held_of_leaving (hinv.fits _) hout hclaim) (hfree hnone)

end Steps

/-! ## The first process -/

/-- One of two CPUs runs the first process, up to the release of its lock in `forkret`. -/
def firstRun : List (Act (Fin 2) Unit) := List.replicate 6 (.advance 0)

theorem first_process_on_one_cpu :
    ∃ s : State (Fin 2) Unit, s.lock 0 = none ∧ (s.proc 0).state = .running ∧ ∃! c, s.cpuProc c = some 0 := by
  have hrun : (execs exec (State.start : State (Fin 2) Unit) firstRun).any (fun r =>
      r.1.lock 0 = none && (r.1.proc 0).state = .running) = true := by
    decide +kernel
  obtain ⟨⟨s, tr⟩, hexecs, hcheck⟩ := (Option.any_eq_true _ _).1 hrun
  rw [Bool.and_eq_true, decide_eq_true_eq, decide_eq_true_eq] at hcheck
  have hreach : Reachable (· = State.start) Step s := ⟨_, tr, rfl, .of_execs hexecs⟩
  exact ⟨s, hcheck.1, hcheck.2, ((running_iff_on_one_cpu s hreach).1 0 hcheck.1).mp hcheck.2⟩

end Xv6.Scheduler
