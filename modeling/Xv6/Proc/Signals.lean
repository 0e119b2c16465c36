import Xv6.Proc.Kill

/-!
# What the calls do to pids and signals

The pid of a slot and its signal fields, and every way in which a step can change them.  Only
`allocproc`, `freeproc`, the signal calls and the dispatch at the end of a trap write them.  A child
that `kfork` has allocated is an embryo until its parent makes it runnable.
-/

namespace Xv6.ProcTable

open Runs

inductive Stage where
  | free
  | embryo
  | grown
  deriving DecidableEq

def stageOf : ProcState → Stage
  | .unused => .free
  | .used => .embryo
  | .sleeping | .runnable | .running | .zombie => .grown

def Pc.forksInto : Pc → Option (Fin NPROC)
  | .forkParent np | .forkRunnable np => some np
  | .user | .syscall | .waiting | .trapReturn _ => none

/-- What of a slot `allocpid` and the signal calls are about. -/
@[ext]
structure Card where
  stage : Stage
  forks : Option (Fin NPROC)
  pid : Int
  signalHandlers : Fin NSIG → UInt64
  pendingSignals : BitVec 32
  sigmask : BitVec 32

def Proc.card (q : Proc) : Card where
  stage := stageOf q.state
  forks := q.pc.forksInto
  pid := q.pid
  signalHandlers := q.signalHandlers
  pendingSignals := q.pendingSignals
  sigmask := q.sigmask

def Card.fresh (pid : Int) : Card where
  stage := .embryo
  forks := none
  pid := pid
  signalHandlers _ := SIG_DFL
  pendingSignals := 0
  sigmask := 0

/-- A `fork` takes a pid if there is a slot for the child, also when it fails later on. -/
def takesPid (s : State) : Event → Bool
  | (.fork _ _, _) => (unusedSlot s).isSome
  | _ => false

/-- The event is none that allocates slot `i`, sends a signal, or is a `fork`, a signal call or a
dispatch of the process in slot `i`. -/
def quiet (i : Fin NPROC) : Event → Bool
  | (.fork p _, .child np) => np != i && p != i
  | (.forkRunnable p, _) => p != i
  | (.signalSend _ _ _, r) => r != .value 0
  | (.signalInit p, _) => p != i
  | (.signalHandle p _ _, _) => p != i
  | (.sigmask p _ _, _) => p != i
  | (.trapReturn p, .dispatched _) => p != i
  | _ => true

variable {i p : Fin NPROC} {s s' t : State} {ev : Event}

theorem live_iff_stage : s.live i ↔ (s.proc i).card.stage ≠ .free := by
  show (s.proc i).state ≠ .unused ↔ stageOf (s.proc i).state ≠ .free
  cases (s.proc i).state <;> decide

theorem stage_of_canRun (h : s.canRun p) : (s.proc p).card.stage = .grown := by
  show stageOf (s.proc p).state = .grown
  rcases h with hstate | hstate <;> rw [hstate] <;> rfl

/-! ## What most operations leave alone -/

def SameCards (s s' : State) : Prop := ∀ i, (s'.proc i).card = (s.proc i).card

theorem SameCards.refl (s : State) : SameCards s s := fun _ => rfl

theorem SameCards.trans (h : SameCards s t) (h' : SameCards t s') : SameCards s s' := by
  intro i
  rw [h' i, h i]

theorem SameCards.set {q : Proc} (h : q.card = (s.proc p).card) : SameCards s (s.set p q) := by
  intro i
  by_cases hi : i = p
  · subst hi
    rw [set_self, h]
  · rw [set_of_ne _ _ hi]

theorem sameCards_setPc {pc : Pc} (h : pc.forksInto = (s.proc p).card.forks) : SameCards s (s.setPc p pc) := by
  apply SameCards.set
  ext1
  case forks => exact h
  all_goals rfl

theorem card_wake (q : Proc) (chan : Fin NPROC) :
    ({ q with toThread := q.toThread.wake chan } : Proc).card = q.card := by
  unfold Thread.wake
  split
  · rename_i hsleeps
    ext1
    case stage =>
      show Stage.grown = stageOf q.state
      rw [hsleeps.1]
      rfl
    all_goals rfl
  · rfl

theorem sameCards_wakeup (s : State) (me chan : Fin NPROC) : SameCards s (s.wakeup me chan) := by
  intro i
  unfold State.wakeup
  by_cases hi : i = me
  · simp only [if_pos hi]
  · simp only [if_neg hi]
    exact card_wake _ _

theorem sameCards_reparent (s : State) (p : Fin NPROC) : SameCards s (reparent s p) := by
  have hadopt : SameCards s { s with proc := fun pp => adopt s.initproc p (s.proc pp) } := by
    intro i
    show (adopt s.initproc p (s.proc i)).card = _
    unfold adopt
    split <;> rfl
  unfold reparent
  dsimp only
  split
  · exact hadopt.trans (sameCards_wakeup _ p _)
  · exact hadopt

theorem sameCards_kexit {status : Int} (h : kexit s p status = some s') (hrun : s.canRun p) : SameCards s s' := by
  have hzombie : ∀ {s₁ : State}, SameCards s s₁ →
      SameCards s (s₁.set p { s₁.proc p with xstate := status, state := .zombie }) := by
    intro s₁ hwake
    refine hwake.trans (.set ?_)
    -- The exited process keeps its slot.
    have hstage := stage_of_canRun hrun
    rw [← hwake p] at hstage
    ext1
    case stage => exact hstage.symm
    all_goals rfl
  unfold kexit at h
  split at h
  · cases h
  dsimp only at h
  split at h
  · cases h
    exact hzombie ((sameCards_reparent s p).trans (sameCards_wakeup _ p _))
  · cases h
    exact hzombie (sameCards_reparent s p)

theorem sameCards_kkill (s : State) (pid : Int) : SameCards s (kkill s pid).1 := by
  unfold kkill
  split
  · rename_i q _
    refine .set ?_
    ext1
    case stage =>
      show stageOf (if (s.proc q).state = .sleeping then .runnable else (s.proc q).state) = _
      split
      · rename_i hsleeps
        show Stage.grown = stageOf (s.proc q).state
        rw [hsleeps]
        rfl
      · rfl
    all_goals rfl
  · exact .refl s

variable {ret : Ret} {q : Fin NPROC}

theorem usertrap_sameCards {cause : Trap} (h : usertrap s p cause = some (s', ret))
    (hat : s.isAt p .user) : SameCards s s' := by
  have hforks : (s.proc p).card.forks = none := congrArg Pc.forksInto hat.2
  cases cause with
  | syscall =>
    simp only [usertrap] at h
    split at h
    · obtain ⟨t, hexit, ⟨⟩⟩ := Option.map_eq_some_iff.mp h
      exact sameCards_kexit hexit hat.1
    · cases h
      exact sameCards_setPc hforks.symm
  | device | lazyFault =>
    cases h
    exact sameCards_setPc hforks.symm
  | unexpected =>
    cases h
    have hset : SameCards s (s.set p (setkilled (s.proc p))) := .set rfl
    refine hset.trans (sameCards_setPc ?_)
    rw [hset p]
    exact hforks.symm

/-! ## The card of one slot -/

/-- All that a step can do to the card of slot `i`. -/
inductive Signed (i : Fin NPROC) (s s' : State) : Event → Prop
  | same {ev : Event} : quiet i ev = true → (s'.proc i).card = (s.proc i).card → Signed i s s' ev
  | freed {ev : Event} : quiet i ev = true → (s.proc i).card.stage ≠ .embryo →
      (s'.proc i).card.stage = .free → (s'.proc i).pid = 0 →
      (∀ np, (s'.proc i).card.forks = some np → (s.proc i).card.forks = some np) → Signed i s s' ev
  | alloc {p : Fin NPROC} {mem : Alloc} : (s.proc i).card.stage = .free →
      (s'.proc i).card = .fresh s.nextpid → Signed i s s' (.fork p mem, .child i)
  | forking {np : Fin NPROC} {mem : Alloc} : np ≠ i → (s.proc i).card.stage = .grown →
      (s'.proc i).card = { (s.proc i).card with forks := some np } →
      Signed i s s' (.fork i mem, .child np)
  | born {p : Fin NPROC} {ret : Ret} : p ≠ i → (s.proc p).card.forks = some i →
      (s'.proc i).card = { (s.proc i).card with stage := .grown } →
      Signed i s s' (.forkRunnable p, ret)
  | forked {ret : Ret} : (s'.proc i).card = { (s.proc i).card with forks := none } →
      Signed i s s' (.forkRunnable i, ret)
  | sent {p : Fin NPROC} {signum : Int} : s.live i → 0 < signum → signum < NSIG →
      (s'.proc i).card = { (s.proc i).card with
        pendingSignals := (s.proc i).pendingSignals ||| sigbit signum } →
      Signed i s s' (.signalSend p (s.proc i).pid signum, .value 0)
  | sentOther {p j : Fin NPROC} {signum : Int} : j ≠ i → s.live j →
      (s'.proc i).card = (s.proc i).card → Signed i s s' (.signalSend p (s.proc j).pid signum, .value 0)
  | init : (s'.proc i).card = (signalInit (s.proc i)).card → Signed i s s' (.signalInit i, .value 0)
  | handle {signum : Int} {handler : UInt64} {ret : Ret} :
      (s'.proc i).card = (signalHandle (s.proc i) signum handler).1.card →
      Signed i s s' (.signalHandle i signum handler, ret)
  | mask {signum block : Int} : (s'.proc i).card = (sigmask (s.proc i) signum block).card →
      Signed i s s' (.sigmask i signum block, .value 0)
  | dispatch : (s.proc i).killed = false → (dispatchSignals (s.proc i)).called = none →
      (s'.proc i).card = { (s.proc i).card with
        pendingSignals := (dispatchSignals (s.proc i)).proc.pendingSignals } →
      Signed i s s' (.trapReturn i, .dispatched (dispatchSignals (s.proc i)).defaulted)

theorem signed_of_same (h : SameCards s s') (hev : quiet i ev = true) : Signed i s s' ev := .same hev (h i)

theorem signed_of_set {q : Proc} (hq : SameCards (s.set p q) s') (hev : i ≠ p → quiet i ev = true)
    (hself : i = p → (s'.proc i).card = q.card → Signed i s s' ev) : Signed i s s' ev := by
  have hcard := hq i
  by_cases hi : i = p
  · rw [hi, set_self, ← hi] at hcard
    exact hself hi hcard
  · rw [set_of_ne _ _ hi] at hcard
    exact .same (hev hi) hcard

theorem signed_freed {pc : Pc} (hothers : ∀ j, j ≠ p → t.proc j = s.proc j)
    (hpc : ∀ np, (t.proc p).card.forks = some np → (s.proc p).card.forks = some np) (hstage : (s.proc p).card.stage ≠ .embryo)
    (hqp : q ≠ p) (hforks : pc.forksInto = (s.proc q).card.forks) (hev : quiet i ev = true) :
    Signed i s ((freeproc t p).setPc q pc) ev := by
  have hfreed : (freeproc t p).proc q = s.proc q := by
    rw [freeproc, set_of_ne _ _ hqp, hothers q hqp]
  have hmove : SameCards (freeproc t p) ((freeproc t p).setPc q pc) := sameCards_setPc (by rw [hfreed]; exact hforks)
  by_cases hi : i = p
  · subst hi
    refine .freed hev hstage ?_ ?_ ?_
    · rw [hmove i]
      simp [freeproc, Proc.card, stageOf]
    · have hpid := congrArg Card.pid (hmove i)
      simpa [freeproc, Proc.card] using hpid
    · intro np hnp
      rw [hmove i] at hnp
      exact hpc np (by simpa [freeproc, Proc.card] using hnp)
  · refine .same hev ?_
    rw [hmove i, freeproc, set_of_ne _ _ hi, hothers i hi]

theorem allocproc_none_state {mem : Alloc} (h : allocproc s mem = (none, s')) : s' = s ∧ unusedSlot s = none ∨
      ∃ q t, s' = freeproc t q ∧ unusedSlot s = some q ∧ t.nextpid = int32 (s.nextpid + 1) ∧
        (t.proc q).card.forks = (s.proc q).card.forks ∧ ∀ j, j ≠ q → t.proc j = s.proc j := by
  unfold allocproc at h
  cases hslot : unusedSlot s with
  | none =>
    simp only [hslot] at h
    cases h
    exact .inl ⟨rfl, rfl⟩
  | some q =>
    simp only [hslot, allocpid] at h
    refine .inr ⟨q, State.set { s with nextpid := int32 (s.nextpid + 1) } q
      { s.proc q with pid := s.nextpid, state := .used }, ?_, rfl, rfl, ?_, ?_⟩
    · split at h
      · cases h
        rfl
      split at h
      · cases h
        rfl
      · cases h
    · rw [set_self]
      rfl
    · exact fun j hj => set_of_ne _ _ hj

theorem allocproc_some_state {mem : Alloc} {np : Fin NPROC} (h : allocproc s mem = (some np, s')) :
    unusedSlot s = some np ∧ s'.nextpid = int32 (s.nextpid + 1) ∧
      (s'.proc np).card = .fresh s.nextpid ∧ ∀ j, j ≠ np → s'.proc j = s.proc j := by
  unfold allocproc at h
  cases hslot : unusedSlot s with
  | none =>
    simp only [hslot] at h
    cases h
  | some =>
    simp only [hslot, allocpid] at h
    split at h
    · cases h
    split at h
    · cases h
    simp only [Prod.mk.injEq, Option.some.injEq] at h
    obtain ⟨rfl, rfl⟩ := h
    refine ⟨rfl, rfl, ?_, fun j hj => ?_⟩
    · rw [set_self, set_self]
      rfl
    · rw [set_of_ne _ _ hj, set_of_ne _ _ hj]

theorem ne_of_unusedSlot (h : unusedSlot s = some q) (hrun : s.canRun p) : p ≠ q := by
  rintro rfl
  exact canRun_live hrun (unusedSlot_state h)

theorem stage_of_unusedSlot (h : unusedSlot s = some q) : (s.proc q).card.stage = .free := by
  show stageOf (s.proc q).state = .free
  rw [unusedSlot_state h]
  rfl

theorem kfork_signed (mem : Alloc) (i : Fin NPROC) (hat : s.isAt p .syscall) :
    Signed i s (kfork s p mem).1 (.fork p mem, (kfork s p mem).2) := by
  have hforks : (s.proc p).card.forks = none := congrArg Pc.forksInto hat.2
  unfold kfork
  split
  · rename_i s₁ halloc
    rcases allocproc_none_state halloc with ⟨rfl, -⟩ | ⟨q, t, rfl, hslot, -, hpc, hothers⟩
    · exact signed_of_same (sameCards_setPc hforks.symm) rfl
    · exact signed_freed hothers (fun np hnp => hpc ▸ hnp) (by rw [stage_of_unusedSlot hslot]; decide)
        (ne_of_unusedSlot hslot hat.1) hforks.symm rfl
  rename_i np s₁ halloc
  obtain ⟨hslot, -, hfresh, hothers⟩ := allocproc_some_state halloc
  have hne := ne_of_unusedSlot hslot hat.1
  split
  · -- The child starts with a new context.
    refine signed_freed hothers ?_ (by rw [stage_of_unusedSlot hslot]; decide) hne hforks.symm rfl
    intro np' hnp'
    rw [hfresh] at hnp'
    cases hnp'
  by_cases hi : i = np
  · subst hi
    refine .alloc (stage_of_unusedSlot hslot) ?_
    rw [State.setPc, set_of_ne _ _ (Ne.symm hne), hfresh]
  by_cases hip : i = p
  · subst hip
    refine .forking (Ne.symm hi) (stage_of_canRun hat.1) ?_
    rw [State.setPc, set_self, hothers i hi]
    rfl
  · refine .same (by simp [quiet, Ne.symm hi, Ne.symm hip]) ?_
    rw [State.setPc, set_of_ne _ _ hip, hothers i hi]

theorem kwait_signed (copied : Bool) (i : Fin NPROC) (hat : s.isAt p .syscall ∨ s.isAt p .waiting) :
    Signed i s (kwait s p copied).1 (.wait p copied, (kwait s p copied).2) := by
  have hrun : s.canRun p := hat.elim And.left And.left
  have hforks : (s.proc p).card.forks = none :=
    hat.elim (fun h => congrArg Pc.forksInto h.2) fun h => congrArg Pc.forksInto h.2
  unfold kwait
  split
  · rename_i pp hchild
    have hzombie : (s.proc pp).state = .zombie := by
      have hfound := List.find?_some hchild
      simp only [decide_eq_true_eq] at hfound
      exact hfound.2
    have hne : p ≠ pp := by
      rintro rfl
      rcases hrun with hstate | hstate <;> rw [hstate] at hzombie <;> cases hzombie
    split
    · refine signed_freed (fun _ _ => rfl) (fun _ h => h) ?_ hne hforks.symm rfl
      show stageOf (s.proc pp).state ≠ .embryo
      rw [hzombie]
      decide
    · exact signed_of_same (sameCards_setPc hforks.symm) rfl
  split
  · exact signed_of_same (sameCards_setPc hforks.symm) rfl
  refine signed_of_same (.set ?_) rfl
  ext1
  case stage => exact (stage_of_canRun hrun).symm
  case forks => exact hforks.symm
  all_goals rfl

theorem signalSend_signed {signum pid : Int} (i : Fin NPROC) (hat : s.isAt p .syscall) :
    Signed i s ((signalSend s pid signum).1.setPc p (.trapReturn false))
      (.signalSend p pid signum, .value (signalSend s pid signum).2) := by
  have hforks : (s.proc p).card.forks = none := congrArg Pc.forksInto hat.2
  unfold signalSend
  split
  · exact signed_of_same (sameCards_setPc hforks.symm) rfl
  rename_i hrange
  have hlo : 0 < signum := Int.not_le.1 fun h => hrange (.inl h)
  have hhi : signum < NSIG := Int.not_le.1 fun h => hrange (.inr h)
  split
  · rename_i j hslot
    have hfound := List.find?_some hslot
    simp only [decide_eq_true_eq] at hfound
    obtain ⟨rfl, hlive⟩ := hfound
    have hmove : SameCards (s.set j { s.proc j with
          pendingSignals := (s.proc j).pendingSignals ||| sigbit signum })
        ((s.set j { s.proc j with
          pendingSignals := (s.proc j).pendingSignals ||| sigbit signum }).setPc p (.trapReturn false)) := by
      apply sameCards_setPc
      by_cases hj : p = j
      · subst hj
        rw [set_self]
        exact hforks.symm
      · rw [set_of_ne _ _ hj]
        exact hforks.symm
    by_cases hi : i = j
    · subst hi
      refine .sent hlive hlo hhi ?_
      rw [hmove, set_self]
      rfl
    · refine .sentOther (Ne.symm hi) hlive ?_
      rw [hmove, set_of_ne _ _ hi]
  · exact signed_of_same (sameCards_setPc hforks.symm) rfl

theorem card_dispatchSignals (q : Proc) : (dispatchSignals q).proc.card =
    { q.card with pendingSignals := (dispatchSignals q).proc.pendingSignals } := by
  have hstep : ∀ (d : Dispatch) (j : Fin NSIG),
      d.proc.card = { q.card with pendingSignals := d.proc.pendingSignals } →
      (dispatchSignal d j).proc.card = { q.card with pendingSignals := (dispatchSignal d j).proc.pendingSignals } := by
    intro d j hd
    rw [Card.ext_iff] at hd ⊢
    obtain ⟨hstage, hforks, hpid, hhandlers, -, hmask⟩ := hd
    unfold dispatchSignal
    split
    · exact ⟨hstage, hforks, hpid, hhandlers, rfl, hmask⟩
    split
    · exact ⟨hstage, hforks, hpid, hhandlers, rfl, hmask⟩
    dsimp only
    split
    · exact ⟨hstage, hforks, hpid, hhandlers, rfl, hmask⟩
    · split <;> exact ⟨hstage, hforks, hpid, hhandlers, rfl, hmask⟩
  have hfold : ∀ (l : List (Fin NSIG)) (d : Dispatch),
      d.proc.card = { q.card with pendingSignals := d.proc.pendingSignals } →
      (l.foldl dispatchSignal d).proc.card =
        { q.card with pendingSignals := (l.foldl dispatchSignal d).proc.pendingSignals } := by
    intro l
    induction l with
    | nil => exact fun d h => h
    | cons j l ih => exact fun d h => ih _ (hstep d j h)
  exact hfold _ _ rfl

theorem usertrapReturn_signed {timer : Bool}
    (h : usertrapReturn s p timer = some (s', ret)) (hat : s.isAt p (.trapReturn timer))
    (i : Fin NPROC) : Signed i s s' (.trapReturn p, ret) := by
  rcases usertrapReturn_some h with ⟨hexit, rfl⟩ | ⟨hkilled, hcalled, rfl, rfl⟩
  · exact signed_of_same (sameCards_kexit hexit hat.1) rfl
  refine signed_of_set (.refl _) (fun hi => by simpa [quiet] using Ne.symm hi) ?_
  rintro rfl hcard
  refine .dispatch hkilled hcalled ?_
  rw [hcard]
  obtain ⟨hstage, -, hpid, hhandlers, -, hmask⟩ := Card.ext_iff.1 (card_dispatchSignals (s.proc i))
  have hforks : (s.proc i).card.forks = none := congrArg Pc.forksInto hat.2
  split
  · -- `yield` does not give the slot up.
    ext1
    case stage => exact (stage_of_canRun hat.1).symm
    case forks => exact hforks.symm
    case pid => exact hpid
    case signalHandlers => exact hhandlers
    case pendingSignals => rfl
    case sigmask => exact hmask
  ext1
  case stage => exact hstage
  case forks => exact hforks.symm
  case pid => exact hpid
  case signalHandlers => exact hhandlers
  case pendingSignals => rfl
  case sigmask => exact hmask

theorem forkRunnable_signed {np : Fin NPROC} (hrun : s.canRun p)
    (hpc : (s.proc p).pc = .forkRunnable np) (i : Fin NPROC) :
    Signed i s ((s.set np { s.proc np with state := .runnable }).setPc p (.trapReturn false))
      (.forkRunnable p, ret) := by
  by_cases hi : i = p
  · subst hi
    refine .forked ?_
    rw [State.setPc, set_self]
    by_cases hnp : i = np
    · subst hnp
      rw [set_self]
      ext1
      case stage => exact (stage_of_canRun hrun).symm
      all_goals rfl
    · rw [set_of_ne _ _ hnp]
      rfl
  rw [State.setPc]
  by_cases hnp : i = np
  · subst hnp
    refine .born (Ne.symm hi) (congrArg Pc.forksInto hpc) ?_
    rw [set_of_ne _ _ hi, set_self]
    rfl
  · refine .same (by simpa [quiet] using Ne.symm hi) ?_
    rw [set_of_ne _ _ hi, set_of_ne _ _ hnp]

theorem sameCards_ownCall {q : Proc} (hat : s.isAt p .syscall) (hpc : q.pc = (s.proc p).pc) :
    SameCards (s.set p q) ((s.set p q).setPc p (.trapReturn false)) := by
  apply sameCards_setPc
  rw [set_self]
  show none = q.pc.forksInto
  rw [hpc, hat.2]
  rfl

theorem step_signed (h : Step s ev s') (i : Fin NPROC) : Signed i s s' ev := by
  cases h.does with
  | trap hat h => exact signed_of_same (usertrap_sameCards h hat) rfl
  | otherCall hat => exact signed_of_same (sameCards_setPc (congrArg Pc.forksInto hat.2).symm) rfl
  | fork hat => exact kfork_signed _ i hat
  | @forkParent p np hpc =>
    have hset : SameCards s (s.set np { s.proc np with parent := some p }) := .set rfl
    refine signed_of_same (hset.trans (sameCards_setPc ?_)) rfl
    rw [hset p]
    exact (congrArg Pc.forksInto hpc).symm
  | forkRunnable hpc hrun => exact forkRunnable_signed hrun hpc i
  | exit hat hexit => exact signed_of_same (sameCards_kexit hexit hat.1) rfl
  | wait hat => exact kwait_signed _ i hat
  | @kill p pid hat =>
    refine signed_of_same ((sameCards_kkill s pid).trans (sameCards_setPc ?_)) rfl
    rw [sameCards_kkill s pid p]
    exact (congrArg Pc.forksInto hat.2).symm
  | signalInit hat =>
    refine signed_of_set (sameCards_ownCall hat rfl) (fun hi => by simpa [quiet] using Ne.symm hi) ?_
    rintro rfl hcard
    exact .init hcard
  | signalSend hat => exact signalSend_signed i hat
  | @signalHandle p signum handler hat =>
    have hpc : (signalHandle (s.proc p) signum handler).1.pc = (s.proc p).pc := by
      unfold signalHandle
      split <;> rfl
    refine signed_of_set (sameCards_ownCall hat hpc) (fun hi => by simpa [quiet] using Ne.symm hi) ?_
    rintro rfl hcard
    exact .handle hcard
  | @sigmask p signum block hat =>
    have hpc : (sigmask (s.proc p) signum block).pc = (s.proc p).pc := by
      unfold sigmask
      split <;> rfl
    refine signed_of_set (sameCards_ownCall hat hpc) (fun hi => by simpa [quiet] using Ne.symm hi) ?_
    rintro rfl hcard
    exact .mask hcard
  | trapReturn hpc hrun h => exact usertrapReturn_signed h ⟨hrun, hpc⟩ i

/-! ## The counter -/

theorem nextpid_reparent (s : State) (p : Fin NPROC) : (reparent s p).nextpid = s.nextpid := by
  unfold reparent
  dsimp only
  split <;> rfl

theorem nextpid_kexit {status : Int} (h : kexit s p status = some s') : s'.nextpid = s.nextpid := by
  unfold kexit at h
  split at h
  · cases h
  dsimp only at h
  split at h
  all_goals
    cases h
    exact nextpid_reparent s p

theorem nextpid_kfork (s : State) (p : Fin NPROC) (mem : Alloc) (ret : Ret) : (kfork s p mem).1.nextpid =
      if takesPid s (.fork p mem, ret) then int32 (s.nextpid + 1) else s.nextpid := by
  show _ = if (unusedSlot s).isSome = true then int32 (s.nextpid + 1) else s.nextpid
  unfold kfork
  split
  · rename_i s₁ halloc
    rcases allocproc_none_state halloc with ⟨rfl, hnone⟩ | ⟨q, t, rfl, hslot, hnext, -⟩
    · rw [hnone]
      rfl
    · rw [hslot]
      exact hnext
  rename_i np s₁ halloc
  obtain ⟨hslot, hnext, -⟩ := allocproc_some_state halloc
  rw [hslot]
  split <;> exact hnext

theorem nextpid_usertrap {cause : Trap} (h : usertrap s p cause = some (s', ret)) : s'.nextpid = s.nextpid := by
  cases cause with
  | syscall =>
    simp only [usertrap] at h
    split at h
    · obtain ⟨t, hexit, ⟨⟩⟩ := Option.map_eq_some_iff.mp h
      exact nextpid_kexit hexit
    · cases h
      rfl
  | device | lazyFault | unexpected =>
    cases h
    rfl

theorem nextpid_usertrapReturn {timer : Bool} (h : usertrapReturn s p timer = some (s', ret)) :
    s'.nextpid = s.nextpid := by
  rcases usertrapReturn_some h with ⟨hexit, -⟩ | ⟨-, -, rfl, -⟩
  · exact nextpid_kexit hexit
  · rfl

theorem step_nextpid (h : Step s ev s') : s'.nextpid = if takesPid s ev then int32 (s.nextpid + 1) else s.nextpid := by
  cases h.does with
  | trap _ h => exact nextpid_usertrap h
  | fork => exact nextpid_kfork s _ _ _
  | exit _ hexit => exact nextpid_kexit hexit
  | @wait p copied =>
    show (kwait s p copied).1.nextpid = s.nextpid
    unfold kwait
    split <;> (split <;> rfl)
  | @kill p pid =>
    show (kkill s pid).1.nextpid = s.nextpid
    unfold kkill
    split <;> rfl
  | @signalSend p pid signum =>
    show (signalSend s pid signum).1.nextpid = s.nextpid
    unfold signalSend
    split
    · rfl
    · split <;> rfl
  | trapReturn _ _ h => exact nextpid_usertrapReturn h
  | otherCall | forkParent | forkRunnable | signalInit | signalHandle | sigmask => rfl

end Xv6.ProcTable
