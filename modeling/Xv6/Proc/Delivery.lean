import Xv6.Proc.Pids

/-!
# Delivering signals

What `dispatch_signals` makes of the pending signals.  It takes every one off the list, masked or not; for a signal
with the default action it sets `p->killed` after `usertrap` has looked at it for the last time, and the handler that
a process has registered it calls right there, in the kernel.
-/

namespace Xv6.ProcTable

open List Runs

def SIGKILL : Fin NSIG := ⟨1, by decide⟩
def SIGUSR1 : Fin NSIG := ⟨5, by decide⟩

def Proc.pending (q : Proc) (i : Fin NSIG) : Bool := q.pendingSignals.getLsbD i

def Proc.masks (q : Proc) (i : Fin NSIG) : Bool := q.sigmask.getLsbD i

theorem getLsbD_sigbit (signum : Int) (i : Fin NSIG) : (sigbit signum).getLsbD i = decide (signum % 32 = i) := by
  have hshift : ∀ (k : Fin 32) (i : Fin NSIG), (1#32 <<< k.val).getLsbD i = decide ((k.val : Int) = i) := by
    decide
  have hmod : ((signum % 32).toNat : Int) = signum % 32 := Int.toNat_of_nonneg (by omega)
  have hbit := hshift ⟨(signum % 32).toNat, by omega⟩ i
  rw [hmod] at hbit
  exact hbit

theorem getLsbD_sigbit_fin (i j : Fin NSIG) : (sigbit j).getLsbD i = decide (i = j) := by
  revert i j
  decide

theorem getLsbD_clear (x : BitVec 32) (signum : Int) (i : Fin NSIG) :
    (x &&& ~~~ sigbit signum).getLsbD i = (x.getLsbD i && !(sigbit signum).getLsbD i) := by
  have hlt : i.val < 32 := Nat.lt_trans i.isLt (by decide)
  rw [BitVec.getLsbD_and, BitVec.getLsbD_not]
  simp [hlt]

/-! ## What `dispatch_signals` does -/

/-- Signal `i` has been taken off the list, and what its handler says has been done. -/
def Acted (q : Proc) (d : Dispatch) (i : Fin NSIG) : Prop :=
  d.proc.pending i = false ∧ (q.signalHandlers i = SIG_DFL ∧ i ∈ d.defaulted ∨ q.signalHandlers i = SIG_IGN ∨
    d.called = some (i, q.signalHandlers i))

/-- How far the loop has come that started with the process `q`, after the signals `done`. -/
structure Dispatching (q : Proc) (done : List (Fin NSIG)) (d : Dispatch) : Prop where
  handlers : d.proc.signalHandlers = q.signalHandlers
  later : ∀ i, i ∉ done → d.proc.pending i = q.pending i
  kept : ∀ i, d.proc.pending i = true → q.pending i = true
  /-- The loop stops at the signal whose handler it calls. -/
  acted : ∀ i ∈ done, (∀ j handler, d.called = some (j, handler) → i ≤ j) → q.pending i = true → Acted q d i
  defaulted : ∀ i ∈ d.defaulted, i ∈ done ∧ q.pending i = true ∧ q.signalHandlers i = SIG_DFL
  called : ∀ i handler, d.called = some (i, handler) → i ∈ done ∧ q.pending i = true ∧
    q.signalHandlers i = handler ∧ handler ≠ SIG_DFL ∧ handler ≠ SIG_IGN
  killed : d.proc.killed = true ↔ q.killed = true ∨ d.defaulted ≠ []

theorem Dispatching.start (q : Proc) : Dispatching q [] { proc := q, defaulted := [], called := none } where
  handlers := rfl
  later _ _ := rfl
  kept _ h := h
  acted _ h := absurd h not_mem_nil
  defaulted _ h := absurd h not_mem_nil
  called _ _ h := by cases h
  killed := by simp

theorem pending_clear {q q' : Proc} {j : Fin NSIG} (h : q'.pendingSignals = q.pendingSignals &&& ~~~ sigbit j)
    (i : Fin NSIG) : q'.pending i = (q.pending i && !decide (i = j)) := by
  unfold Proc.pending
  rw [h, getLsbD_clear, getLsbD_sigbit_fin]

variable {q : Proc} {done : List (Fin NSIG)} {d : Dispatch}

theorem Dispatching.cleared (h : Dispatching q done d) (hnone : d.called = none) (i : Fin NSIG) (hi : i ∈ done) :
    d.proc.pending i = false := by
  by_contra hpending
  rw [Bool.not_eq_false] at hpending
  have hacted := h.acted i hi (by rw [hnone]; simp) (h.kept i hpending)
  rw [hacted.1] at hpending
  cases hpending

section Step

variable {j : Fin NSIG} (h : Dispatching q done d)

include h

/-- The loop has gone on to signal `j`. -/
theorem Dispatching.act {d' : Dispatch} (hnone : d.called = none)
    (hpending : ∀ i, d.proc.pending i = false → d'.proc.pending i = false) (hl : ∀ i ∈ d.defaulted, i ∈ d'.defaulted)
    (hlast : q.pending j = true → Acted q d' j) (i : Fin NSIG) (hi : i ∈ done ++ [j]) (hqi : q.pending i = true) :
    Acted q d' i := by
  rcases mem_append.1 hi with hdone | heq
  · obtain ⟨hclear, haction⟩ := h.acted i hdone (by rw [hnone]; simp) hqi
    refine ⟨hpending i hclear, ?_⟩
    rcases haction with hdfl | hign | hcalled
    · exact .inl ⟨hdfl.1, hl i hdfl.2⟩
    · exact .inr (.inl hign)
    · rw [hnone] at hcalled
      cases hcalled
  · rw [mem_singleton.1 heq] at hqi ⊢
    exact hlast hqi

/-- Signal `j` is pending: its bit is cleared first. -/
theorem Dispatching.clear {d' : Dispatch} (hnone : d.called = none) (hqj : q.pending j = true)
    (hclear : d'.proc.pendingSignals = d.proc.pendingSignals &&& ~~~ sigbit j)
    (hhandlers : d'.proc.signalHandlers = d.proc.signalHandlers)
    (haction : q.signalHandlers j = SIG_DFL ∧ d'.defaulted = d.defaulted ++ [j] ∧ d'.called = none ∧
        d'.proc.killed = true ∨
      d'.defaulted = d.defaulted ∧ d'.proc.killed = d.proc.killed ∧
        (q.signalHandlers j = SIG_IGN ∧ d'.called = none ∨
          d'.called = some (j, q.signalHandlers j) ∧ q.signalHandlers j ≠ SIG_DFL ∧ q.signalHandlers j ≠ SIG_IGN)) :
    Dispatching q (done ++ [j]) d' := by
  have hbit := pending_clear hclear
  have hmine : d'.proc.pending j = false := by
    rw [hbit]
    simp
  have hold : ∀ i ∈ d.defaulted, i ∈ done ++ [j] ∧ q.pending i = true ∧ q.signalHandlers i = SIG_DFL := by
    intro i hi
    obtain ⟨hdone, hrest⟩ := h.defaulted i hi
    exact ⟨mem_append_left _ hdone, hrest⟩
  have hacted : (∀ i ∈ d.defaulted, i ∈ d'.defaulted) → Acted q d' j → ∀ i ∈ done ++ [j],
      (∀ k handler, d'.called = some (k, handler) → i ≤ k) → q.pending i = true → Acted q d' i := by
    intro hl hlast i hi _
    refine h.act hnone (fun i hi => ?_) hl (fun _ => hlast) i hi
    rw [hbit, hi, Bool.false_and]
  have hlater : ∀ i, i ∉ done ++ [j] → d'.proc.pending i = q.pending i := by
    intro i hi
    rw [mem_append, mem_singleton, not_or] at hi
    rw [hbit, decide_eq_false hi.2, Bool.not_false, Bool.and_true]
    exact h.later i hi.1
  have hkept : ∀ i, d'.proc.pending i = true → q.pending i = true := by
    intro i hi
    rw [hbit] at hi
    exact h.kept i (Bool.and_eq_true_iff.1 hi).1
  have hhandlers' := hhandlers.trans h.handlers
  rcases haction with ⟨hdfl, hdefaulted, hcalled, hkilled⟩ | ⟨hdefaulted, hkilled, hrest⟩
  · refine ⟨hhandlers', hlater, hkept, hacted (fun i hi => ?_) ⟨hmine, .inl ⟨hdfl, ?_⟩⟩, fun i hi => ?_, ?_, ?_⟩
    · rw [hdefaulted]
      exact mem_append_left _ hi
    · rw [hdefaulted]
      exact mem_append_right _ (mem_singleton_self j)
    · rw [hdefaulted] at hi
      rcases mem_append.1 hi with hi | hi
      · exact hold i hi
      · rw [mem_singleton.1 hi]
        exact ⟨mem_append_right _ (mem_singleton_self j), hqj, hdfl⟩
    · rw [hcalled]
      intro i handler hcall
      cases hcall
    · rw [hdefaulted]
      exact ⟨fun _ => .inr (by simp), fun _ => hkilled⟩
  refine ⟨hhandlers', hlater, hkept, hacted (fun i hi => hdefaulted ▸ hi) ⟨hmine, ?_⟩, hdefaulted ▸ hold, ?_, ?_⟩
  · exact .inr (hrest.imp And.left And.left)
  · intro i handler hcall
    rcases hrest with ⟨-, hcalled⟩ | ⟨hcalled, hdfl, hign⟩
    · rw [hcalled] at hcall
      cases hcall
    · rw [hcalled] at hcall
      cases hcall
      exact ⟨mem_append_right _ (mem_singleton_self j), hqj, rfl, hdfl, hign⟩
  · rw [hdefaulted, hkilled]
    exact h.killed

theorem Dispatching.step (hj : ∀ i ∈ done, i < j) : Dispatching q (done ++ [j]) (dispatchSignal d j) := by
  have hnew : j ∉ done := fun hmem => Nat.lt_irrefl _ (hj j hmem)
  have hpass : (∀ i ∈ done ++ [j], (∀ k handler, d.called = some (k, handler) → i ≤ k) → q.pending i = true →
      Acted q d i) → Dispatching q (done ++ [j]) d := fun hacted =>
    ⟨h.handlers, fun i hi => h.later i fun hmem => hi (mem_append_left _ hmem), h.kept, hacted,
      fun i hi => ⟨mem_append_left _ (h.defaulted i hi).1, (h.defaulted i hi).2⟩,
      fun i handler hi => ⟨mem_append_left _ (h.called i handler hi).1, (h.called i handler hi).2⟩, h.killed⟩
  unfold dispatchSignal
  by_cases hcalled : d.called.isSome = true
  · -- The loop has been left at an earlier signal.
    rw [if_pos hcalled]
    obtain ⟨⟨k, handler⟩, hk⟩ := Option.isSome_iff_exists.1 hcalled
    refine hpass fun i hi hreached hqi => ?_
    rcases mem_append.1 hi with hdone | hlast
    · exact h.acted i hdone hreached hqi
    · rw [mem_singleton.1 hlast] at hreached
      exact absurd (hj k (h.called k handler hk).1) (Nat.not_lt_of_le (hreached k handler hk))
  rw [if_neg hcalled]
  have hnone : d.called = none := by simpa using hcalled
  have hqj : d.proc.pending j = q.pending j := h.later j hnew
  by_cases hpend : d.proc.pending j = true
  case neg =>
    rw [if_pos (by simpa [Proc.pending] using hpend)]
    refine hpass fun i hi _ => h.act hnone (fun _ hi => hi) (fun _ hi => hi) (fun hmine => ?_) i hi
    exact absurd (hqj.trans hmine) hpend
  case pos =>
    rw [if_neg (by simpa [Proc.pending] using hpend)]
    rw [hpend] at hqj
    have hhandler : d.proc.signalHandlers j = q.signalHandlers j := congrFun h.handlers j
    dsimp only
    rw [hhandler]
    by_cases hign : q.signalHandlers j = SIG_IGN
    · rw [if_pos hign]
      exact h.clear hnone hqj.symm rfl rfl (.inr ⟨rfl, rfl, .inl ⟨hign, hnone⟩⟩)
    rw [if_neg hign]
    by_cases hdfl : q.signalHandlers j = SIG_DFL
    · rw [if_pos hdfl]
      exact h.clear hnone hqj.symm rfl rfl (.inl ⟨hdfl, rfl, hnone, rfl⟩)
    · rw [if_neg hdfl]
      exact h.clear hnone hqj.symm rfl rfl (.inr ⟨rfl, rfl, .inr ⟨rfl, hdfl, hign⟩⟩)

end Step

theorem dispatching (q : Proc) : Dispatching q (List.finRange NSIG).tail (dispatchSignals q) := by
  have hfold : ∀ (l done : List (Fin NSIG)) (d : Dispatch), (done ++ l).Pairwise (· < ·) → Dispatching q done d →
      Dispatching q (done ++ l) (l.foldl dispatchSignal d) := by
    intro l
    induction l with
    | nil =>
      intro done d _ h
      rwa [append_nil]
    | cons j l ih =>
      intro done d hsorted h
      have hj : ∀ i ∈ done, i < j := fun i hi => (pairwise_append.1 hsorted).2.2 i hi j mem_cons_self
      have hrest := ih (done ++ [j]) (dispatchSignal d j) (by simpa using hsorted) (h.step hj)
      simpa using hrest
  exact hfold (finRange NSIG).tail [] _ (by decide) (.start q)

theorem mem_signals {i : Fin NSIG} : i ∈ (List.finRange NSIG).tail ↔ 0 < i.val := by
  revert i
  decide

/-! ## Signals that end the process -/

/-- A fatal signal is meant to stop the process: `usertrap` does not go back to user mode with
`p->killed` set. -/
def FatalSignalStops (s : State) (p : Fin NPROC) : Prop :=
  ∀ ret s', Step s (.trapReturn p, ret) s' → s'.isAt p .user → (s'.proc p).killed = false

def Proc.NoFatalPending (q : Proc) : Prop :=
  ∀ i : Fin NSIG, 0 < i.val → q.pending i = true → q.signalHandlers i ≠ SIG_DFL

instance (q : Proc) : Decidable q.NoFatalPending := inferInstanceAs (Decidable (∀ _, _))

def Special (handler : UInt64) : Prop := handler = SIG_DFL ∨ handler = SIG_IGN

instance (handler : UInt64) : Decidable (Special handler) := inferInstanceAs (Decidable (_ ∨ _))

/-- No pending signal has a function that the process has registered. -/
def Proc.SpecialPending (q : Proc) : Prop :=
  ∀ i : Fin NSIG, 0 < i.val → q.pending i = true → Special (q.signalHandlers i)

instance (q : Proc) : Decidable q.SpecialPending := inferInstanceAs (Decidable (∀ _, _))

theorem called_eq_none {q : Proc} (h : q.SpecialPending) : (dispatchSignals q).called = none := by
  by_contra hcalled
  obtain ⟨⟨i, handler⟩, hcall⟩ := Option.ne_none_iff_exists'.1 hcalled
  obtain ⟨hmem, hpending, rfl, hdfl, hign⟩ := (dispatching q).called i handler hcall
  rcases h i (mem_signals.1 hmem) hpending with hspecial | hspecial
  · exact hdfl hspecial
  · exact hign hspecial

theorem defaulted_eq_nil_iff {q : Proc} (h : q.SpecialPending) :
    (dispatchSignals q).defaulted = [] ↔ q.NoFatalPending := by
  rw [eq_nil_iff_forall_not_mem]
  constructor
  · intro hnil i hi hpending hdfl
    have hacted := (dispatching q).acted i (mem_signals.2 hi) (by rw [called_eq_none h]; simp) hpending
    rcases hacted.2 with hmem | hign | hcalled
    · exact hnil i hmem.2
    · exact absurd (hdfl.symm.trans hign) (by decide)
    · rw [called_eq_none h] at hcalled
      cases hcalled
  · intro hnone i hi
    obtain ⟨hmem, hpending, hdfl⟩ := (dispatching q).defaulted i hi
    exact hnone i (mem_signals.1 hmem) hpending hdfl

variable {p : Fin NPROC}

theorem kexit_zombie {s s' : State} {status : Int} (h : kexit s p status = some s') : ¬ s'.canRun p := by
  unfold kexit at h
  split at h
  · cases h
  cases h
  rintro (hstate | hstate)
  all_goals
    rw [set_self] at hstate
    cases hstate

theorem killed_of_trapReturn {s s' : State} {ret : Ret}
    (h : Step s (.trapReturn p, ret) s') (huser : s'.isAt p .user) :
    (s.proc p).killed = false ∧ (s'.proc p).killed = (dispatchSignals (s.proc p)).proc.killed := by
  cases h.does with
  | trapReturn _ _ hreturn =>
    rcases usertrapReturn_some hreturn with ⟨hexit, -⟩ | ⟨hkilled, -, rfl, -⟩
    · exact absurd huser.1 (kexit_zombie hexit)
    · refine ⟨hkilled, ?_⟩
      rw [set_self]
      split <;> rfl

/-- The process goes back to user mode. -/
theorem exists_trapReturn {s : State} {timer : Bool} (hat : s.isAt p (.trapReturn timer))
    (hkilled : (s.proc p).killed = false) (hcalled : (dispatchSignals (s.proc p)).called = none) :
    ∃ ret s', Step s (.trapReturn p, ret) s' ∧ s'.isAt p .user := by
  have hexec : exec s (.trapReturn p) = usertrapReturn s p timer := by
    simp only [exec, hat.2]
    exact if_pos hat.1
  unfold usertrapReturn at hexec
  rw [hkilled, if_neg Bool.false_ne_true] at hexec
  dsimp only at hexec
  rw [hcalled, if_neg (by simp)] at hexec
  refine ⟨_, _, hexec, ?_⟩
  have hstate := (dispatchSignals_ok (s.proc p)).state
  unfold State.isAt State.canRun
  rw [set_self]
  cases timer with
  | true => exact ⟨.inl rfl, rfl⟩
  | false =>
    refine ⟨?_, rfl⟩
    have hrun := hat.1
    unfold State.canRun at hrun
    rwa [← hstate] at hrun

/-- The call sets bit `i` in the mask of `p`; a shift takes its amount modulo 32. -/
def blocks (p : Fin NPROC) (i : Fin NSIG) : Event → Bool
  | (.sigmask q signum block, _) => q == p && signum % 32 == (i : Int) && block != 0
  | _ => false

/-- Bit `i` in the mask of `p` is set anew, or slot `p` is. -/
def remasks (p : Fin NPROC) (i : Fin NSIG) : Event → Bool
  | (.sigmask q signum _, _) => q == p && signum % 32 == (i : Int)
  | (.fork _ _, .child np) => np == p
  | _ => false

/-- The last `sigmask` of the process in slot `p` for signal `i` has blocked it. -/
def Blocked (p : Fin NPROC) (i : Fin NSIG) (tr : List Event) : Prop := Since (blocks p i) (remasks p i) tr

/-- `dispatch_signals` does not touch signal `i`. -/
def Proc.Spares (q : Proc) (i : Fin NSIG) : Prop :=
  (dispatchSignals q).proc.pending i = q.pending i ∧ i ∉ (dispatchSignals q).defaulted ∧
    ∀ handler, (dispatchSignals q).called ≠ some (i, handler)

/-- `dispatch_signals` takes signal `i` off the list and does what its handler says. -/
def Proc.Delivers (q : Proc) (i : Fin NSIG) : Prop := Acted q (dispatchSignals q) i

/-- What a mask is meant for: a blocked signal waits, any other is dispatched at the next return from a
trap.  `dom` says at which traps. -/
def MaskRespected (dom : State → Fin NPROC → Prop) : Prop :=
  ∀ tr s, Run Step boot tr s → ∀ p timer, s.isAt p (.trapReturn timer) → (s.proc p).killed = false →
    dom s p → ∀ i : Fin NSIG, 0 < i.val →
      (Blocked p i tr → (s.proc p).Spares i) ∧
      (¬ Blocked p i tr → (s.proc p).pending i = true → (s.proc p).Delivers i)

def Proc.NoMaskedPending (q : Proc) : Prop := ∀ i : Fin NSIG, 0 < i.val → q.pending i = true → q.masks i = false

instance (q : Proc) : Decidable q.NoMaskedPending := inferInstanceAs (Decidable (∀ _, _))

/-- No signal is pending behind a pending one that has a function: the loop calls the function in kernel mode. -/
def Proc.FunctionLast (q : Proc) : Prop :=
  ∀ i j : Fin NSIG, 0 < j.val → j < i → q.pending j = true → q.pending i = true → Special (q.signalHandlers j)

instance (q : Proc) : Decidable q.FunctionLast := inferInstanceAs (Decidable (∀ _, _))

theorem Proc.delivers {q : Proc} {i : Fin NSIG} (hlast : q.FunctionLast) (hi : 0 < i.val) (h : q.pending i = true) :
    q.Delivers i := by
  refine (dispatching q).acted i (mem_signals.2 hi) (fun j handler hcalled => ?_) h
  obtain ⟨hmem, hpending, rfl, hdfl, hign⟩ := (dispatching q).called j handler hcalled
  by_contra hlt
  rcases hlast i j (mem_signals.1 hmem) (Nat.lt_of_not_le hlt) hpending h with hspecial | hspecial
  · exact hdfl hspecial
  · exact hign hspecial

theorem Proc.spares {q : Proc} {i : Fin NSIG} (h : q.pending i = false) : q.Spares i := by
  refine ⟨?_, fun hmem => ?_, fun handler hcalled => ?_⟩
  · rw [h]
    apply Bool.eq_false_iff.2
    intro hafter
    rw [(dispatching q).kept i hafter] at h
    cases h
  · rw [((dispatching q).defaulted i hmem).2.1] at h
    cases h
  · rw [((dispatching q).called i handler hcalled).2.1] at h
    cases h

section Masks

variable {s s' : State} {ev : Event} {p : Fin NPROC} {i : Fin NSIG}

theorem quiet_mask (h : quiet p ev = true) : blocks p i ev = false ∧ remasks p i ev = false := by
  obtain ⟨act, ret⟩ := ev
  cases act <;> cases ret <;> simp_all [quiet, blocks, remasks]

theorem masks_sigmask (q : Proc) (signum block : Int) : (sigmask q signum block).masks i =
    if signum % 32 = i then decide (block ≠ 0) else q.masks i := by
  unfold sigmask Proc.masks
  split
  · rename_i hblock
    rw [BitVec.getLsbD_or, getLsbD_sigbit]
    by_cases hbit : signum % 32 = i <;> simp [hbit, hblock]
  · rename_i hblock
    rw [getLsbD_clear, getLsbD_sigbit]
    by_cases hbit : signum % 32 = i <;> simp [hbit, hblock]

def MasksRecorded (tr : List Event) (s : State) : Prop :=
  Embryos s ∧ ∀ p, s.live p → ∀ i, (s.proc p).masks i = true ↔ Blocked p i tr

theorem masksRecorded_step {tr : List Event} (h : MasksRecorded tr s) (hstep : Step s ev s') :
    MasksRecorded (tr ++ [ev]) s' := by
  obtain ⟨hembryos, hmasks⟩ := h
  refine ⟨hembryos.step hstep, fun p hlive i => ?_⟩
  unfold Blocked
  rw [since_snoc]
  -- Most events are not about this mask.
  have hkeep : blocks p i ev = false → remasks p i ev = false → s.live p →
      (s'.proc p).card.sigmask = (s.proc p).card.sigmask → ((s'.proc p).masks i = true ↔
        blocks p i ev = true ∨ Since (blocks p i) (remasks p i) tr ∧ remasks p i ev = false) := by
    intro hblocks hremasks hold hcard
    have hsame : (s'.proc p).masks i = (s.proc p).masks i := congrArg (BitVec.getLsbD · i) hcard
    rw [hsame, hmasks p hold i, hblocks, hremasks]
    simp [Blocked]
  have hold : (∀ p' mem, ev ≠ (.fork p' mem, .child p)) → s.live p := by
    intro hev
    rcases hembryos.live_cases hstep hlive with ⟨hold, -⟩ | ⟨-, ⟨p', mem, rfl⟩, -⟩
    · exact hold
    · exact absurd rfl (hev p' mem)
  cases step_signed hstep p with
  | same hev hcard =>
    obtain ⟨hblocks, hremasks⟩ := quiet_mask (i := i) hev
    refine hkeep hblocks hremasks (hold ?_) (by rw [hcard])
    rintro p' mem rfl
    simp [quiet] at hev
  | freed _ _ hfree => exact absurd hfree (live_iff_stage.1 hlive)
  | alloc _ hcard =>
    have hzero : (s'.proc p).masks i = false := by
      have hmask : (s'.proc p).sigmask = 0 := congrArg Card.sigmask hcard
      simp [Proc.masks, hmask]
    simp [hzero, blocks, remasks]
  | forking hne _ hcard =>
    refine hkeep rfl (by simpa [remasks] using hne) (hold ?_) (by rw [hcard])
    intro p' mem heq
    cases heq
    exact hne rfl
  | born _ hforks hcard => exact hkeep rfl rfl (hembryos.live_of_forks hforks) (by rw [hcard])
  | forked hcard | sent _ _ _ hcard | sentOther _ _ hcard | dispatch _ _ hcard =>
    exact hkeep rfl rfl (hold (by simp)) (by rw [hcard])
  | init hcard => exact hkeep rfl rfl (hold (by simp)) (by rw [hcard]; rfl)
  | handle hcard =>
    refine hkeep rfl rfl (hold (by simp)) ?_
    rw [hcard, signalHandle]
    split <;> rfl
  | @mask signum block hcard =>
    have hbit : (s'.proc p).masks i = (sigmask (s.proc p) signum block).masks i :=
      congrArg (fun c : Card => c.sigmask.getLsbD i) hcard
    rw [hbit, masks_sigmask]
    by_cases hsignum : signum % 32 = i
    · simp [hsignum, blocks, remasks]
    · rw [if_neg hsignum, hmasks p (hold (by simp)) i]
      simp [hsignum, blocks, remasks, Blocked]

end Masks

theorem masksRecorded_boot : MasksRecorded [] boot := by
  refine ⟨embryos_boot, fun p _ i => ?_⟩
  have hzero : ∀ p, (boot.proc p).sigmask = 0 := by decide
  simp [Proc.masks, hzero, Blocked, not_since_nil]

/-- Where no pending signal is masked, it makes no difference that `dispatch_signals` does not look at the
mask. -/
theorem maskRespected_of_noMaskedPending (dom : State → Fin NPROC → Prop)
    (hdom : ∀ s p, dom s p → (s.proc p).NoMaskedPending ∧ (s.proc p).FunctionLast) : MaskRespected dom := by
  intro tr s hrun p timer hat _ hs i hi
  have hrecorded : MasksRecorded tr s :=
    hrun.invariant_trace (fun _ _ _ _ h hstep => masksRecorded_step h hstep) masksRecorded_boot
  have hmask := hrecorded.2 p (canRun_live hat.1) i
  obtain ⟨hnomask, hlast⟩ := hdom s p hs
  refine ⟨fun hblocked => Proc.spares ?_, fun _ hpending => Proc.delivers hlast hi hpending⟩
  apply Bool.eq_false_iff.2
  intro hpending
  rw [← hmask, hnomask i hi hpending] at hblocked
  cases hblocked

/-- init has blocked one signal and sends itself another. -/
theorem unsent_signal_spared : ∃ tr s timer, Run Step boot tr s ∧ s.isAt 0 (.trapReturn timer) ∧
    Blocked 0 SIGUSR1 tr ∧ (s.proc 0).Spares SIGUSR1 ∧ ¬ Blocked 0 SIGKILL tr ∧ (s.proc 0).Delivers SIGKILL := by
  obtain ⟨r, hexec, hat, hkilled, hmasks, hunmasked, hpending, hdom⟩ : ∃ r, execs exec boot
      [.trap 0 .syscall, .sigmask 0 SIGUSR1 1, .trapReturn 0, .trap 0 .syscall, .signalSend 0 1 SIGKILL] = some r ∧
        r.1.isAt 0 (.trapReturn false) ∧ (r.1.proc 0).killed = false ∧ (r.1.proc 0).masks SIGUSR1 = true ∧
        (r.1.proc 0).masks SIGKILL = false ∧ (r.1.proc 0).pending SIGKILL = true ∧
        (r.1.proc 0).NoMaskedPending ∧ (r.1.proc 0).FunctionLast :=
    ⟨_, rfl, by decide, by decide, by decide, by decide, by decide, by decide, by decide⟩
  have hrun := Run.of_execs hexec
  have hrecorded : MasksRecorded r.2 r.1 :=
    hrun.invariant_trace (fun _ _ _ _ h hstep => masksRecorded_step h hstep) masksRecorded_boot
  have hblocked : Blocked 0 SIGUSR1 r.2 := (hrecorded.2 0 (canRun_live hat.1) SIGUSR1).1 hmasks
  have hfree : ¬ Blocked 0 SIGKILL r.2 := by
    rw [← hrecorded.2 0 (canRun_live hat.1) SIGKILL, hunmasked]
    exact Bool.false_ne_true
  have hclaim := maskRespected_of_noMaskedPending (fun s p => s = r.1 ∧ p = 0)
    (by rintro s p ⟨rfl, rfl⟩; exact hdom) r.2 r.1 hrun 0 false hat hkilled ⟨rfl, rfl⟩
  exact ⟨r.2, r.1, false, hrun, hat, hblocked, (hclaim SIGUSR1 (by decide)).1 hblocked, hfree,
    (hclaim SIGKILL (by decide)).2 hfree hpending⟩

/-- `dispatch_signals` delivers a masked signal all the same. -/
theorem masked_signal_delivered : ¬ MaskRespected fun _ _ => True := by
  intro hclaim
  obtain ⟨r, hexec, htr, hat, hkilled, hdefaulted⟩ : ∃ r, execs exec boot
      [.trap 0 .syscall, .sigmask 0 SIGUSR1 1, .trapReturn 0,
        .trap 0 .syscall, .signalSend 0 1 SIGUSR1] = some r ∧
        r.2 = [(.trap 0 .syscall, .none), (.sigmask 0 SIGUSR1 1, .value 0), (.trapReturn 0, .dispatched []),
          (.trap 0 .syscall, .none), (.signalSend 0 1 SIGUSR1, .value 0)] ∧
        r.1.isAt 0 (.trapReturn false) ∧ (r.1.proc 0).killed = false ∧
        SIGUSR1 ∈ (dispatchSignals (r.1.proc 0)).defaulted :=
    ⟨_, rfl, rfl, by decide, by decide, by decide⟩
  have hblocked : Blocked 0 SIGUSR1 r.2 := by
    rw [htr]
    exact ⟨[_], _, [_, _, _], rfl, by decide, by decide⟩
  have hspares := (hclaim r.2 r.1 (Run.of_execs hexec) 0 false hat hkilled trivial SIGUSR1 (by decide)).1 hblocked
  exact hspares.2.1 hdefaulted

/-! ## Handlers that the process has registered -/

/-- A handler is meant to run in user mode: `dispatch_signals` calls none. -/
def HandlersRunInUserMode (step : State → Event → State → Prop) : Prop :=
  ∀ tr s, Run step boot tr s → ∀ p timer, s.isAt p (.trapReturn timer) → (s.proc p).killed = false →
    (dispatchSignals (s.proc p)).called = none

/-- Nobody registers a function. -/
def RegistersSpecial (_ : State) : Event → Prop
  | (.signalHandle _ signum handler, _) => 0 < signum → signum < NSIG → Special handler
  | _ => True

instance (s : State) (ev : Event) : Decidable (RegistersSpecial s ev) := by
  unfold RegistersSpecial
  split <;> infer_instance

def NoAddresses (s : State) : Prop := Embryos s ∧ ∀ p, s.live p → ∀ i, Special ((s.proc p).signalHandlers i)

theorem noAddresses_step {s s' : State} {ev : Event} (h : NoAddresses s)
    (hstep : restrict RegistersSpecial Step s ev s') : NoAddresses s' := by
  obtain ⟨hspecial, hstep⟩ := hstep
  obtain ⟨hembryos, hhandlers⟩ := h
  refine ⟨hembryos.step hstep, fun p hlive i => ?_⟩
  have hkeep : s.live p → (s'.proc p).card.signalHandlers = (s.proc p).card.signalHandlers →
      Special ((s'.proc p).signalHandlers i) := by
    intro hold hcard
    have hsame : (s'.proc p).signalHandlers i = (s.proc p).signalHandlers i := congrFun hcard i
    rw [hsame]
    exact hhandlers p hold i
  have hnew : (s'.proc p).card.signalHandlers = (fun _ => SIG_DFL) →
      Special ((s'.proc p).signalHandlers i) := fun hcard => .inl (congrFun hcard i)
  have hold : (s'.proc p).card.stage = (s.proc p).card.stage → s.live p := by
    intro hstage
    rwa [live_iff_stage, ← hstage, ← live_iff_stage]
  cases step_signed hstep p with
  | same _ hcard | forking _ _ hcard | forked hcard | sent _ _ _ hcard | sentOther _ _ hcard | dispatch _ _ hcard =>
    exact hkeep (hold (by rw [hcard])) (by rw [hcard])
  | freed _ _ hfree => exact absurd hfree (live_iff_stage.1 hlive)
  | alloc _ hcard => exact hnew (by rw [hcard]; rfl)
  | born _ hforks hcard => exact hkeep (hembryos.live_of_forks hforks) (by rw [hcard])
  | init hcard => exact hnew (by rw [hcard]; rfl)
  | mask hcard =>
    rw [sigmask] at hcard
    split at hcard <;> exact hkeep (hold (by rw [hcard]; rfl)) (by rw [hcard]; rfl)
  | @handle signum handler ret hcard =>
    rw [signalHandle] at hcard
    split at hcard
    · exact hkeep (hold (by rw [hcard])) (by rw [hcard])
    rename_i hrange
    -- The one entry that is written holds what the process has passed.
    have hentry : (s'.proc p).signalHandlers i =
        if (i : Int) = signum then handler else (s.proc p).signalHandlers i :=
      congrArg (fun c : Card => c.signalHandlers i) hcard
    rw [hentry]
    split
    · exact hspecial (by omega) (by omega)
    · exact hhandlers p (hold (by rw [hcard]; rfl)) i

theorem noAddresses_boot : NoAddresses boot := by
  refine ⟨embryos_boot, fun p _ i => .inl ?_⟩
  have hzero : ∀ p i, (boot.proc p).signalHandlers i = SIG_DFL := by decide
  exact hzero p i

/-- Where no process registers a function, the kernel calls none. -/
theorem handlersRunInUserMode_of_registersSpecial (step : State → Event → State → Prop)
    (hsub : ∀ s ev t, step s ev t → restrict RegistersSpecial Step s ev t) : HandlersRunInUserMode step := by
  intro tr s hrun p timer hat _
  have hnone : NoAddresses s :=
    Run.invariant (fun _ _ _ hs hstep => noAddresses_step hs hstep) (hrun.mono hsub) noAddresses_boot
  exact called_eq_none fun i _ _ => hnone.2 p (canRun_live hat.1) i

/-- init has changed a handler to `SIG_IGN`, and the signal is pending. -/
theorem ignored_signal_not_called : ∃ tr s, Run (restrict RegistersSpecial Step) boot tr s ∧
    (s.proc 0).pending SIGUSR1 = true ∧ (dispatchSignals (s.proc 0)).called = none := by
  have hrun : ((execs (guarded RegistersSpecial exec) boot [.trap 0 .syscall, .signalHandle 0 SIGUSR1 SIG_IGN,
      .trapReturn 0, .trap 0 .syscall, .signalSend 0 1 SIGUSR1]).any fun r =>
        r.1.isAt 0 (.trapReturn false) ∧ (r.1.proc 0).killed = false ∧ (r.1.proc 0).pending SIGUSR1 = true) = true := by
    decide
  obtain ⟨s, tr, hrun, hcheck⟩ := Run.of_any_execs hrun
  obtain ⟨hat, hkilled, hpending⟩ := of_decide_eq_true hcheck
  exact ⟨tr, s, hrun, hpending,
    handlersRunInUserMode_of_registersSpecial _ (fun _ _ _ h => h) tr s hrun 0 false hat hkilled⟩

/-- The kernel calls whatever address a process has registered. -/
theorem handler_called_in_kernel : ¬ HandlersRunInUserMode Step := by
  intro hclaim
  obtain ⟨r, hexec, hat, hkilled, hcalled⟩ : ∃ r, execs exec boot
      [.trap 0 .syscall, .signalHandle 0 SIGUSR1 0x80000000, .trapReturn 0,
        .trap 0 .syscall, .signalSend 0 1 SIGUSR1] = some r ∧
        r.1.isAt 0 (.trapReturn false) ∧ (r.1.proc 0).killed = false ∧
        (dispatchSignals (r.1.proc 0)).called = some (SIGUSR1, 0x80000000) :=
    ⟨_, rfl, by decide, by decide, by decide⟩
  have hnone := hclaim r.2 r.1 (Run.of_execs hexec) 0 false hat hkilled
  rw [hcalled] at hnone
  cases hnone

/-! ## `SIGKILL` and `kill` -/

/-- `signal_send(pid, SIGKILL)` is meant to move the state of the target as `kill(pid)` does. -/
def SigkillAgrees (s : State) (pid : Int) (p : Fin NPROC) : Prop :=
  ((signalSend s pid SIGKILL).1.proc p).state = ((kkill s pid).1.proc p).state

theorem signalSend_state (s : State) (pid signum : Int) (p : Fin NPROC) :
    ((signalSend s pid signum).1.proc p).state = (s.proc p).state := by
  unfold signalSend
  split
  · rfl
  split
  · rename_i q _
    by_cases hq : p = q
    · rw [hq, set_self]
    · rw [set_of_ne _ _ hq]
  · rfl

theorem kkill_state {s : State} {pid : Int} (h : slotWithPid s pid = some p) :
    ((kkill s pid).1.proc p).state = if (s.proc p).state = .sleeping then .runnable else (s.proc p).state := by
  unfold kkill
  rw [h]
  dsimp only
  rw [set_self]
  rfl

/-- The two agree on a target exactly if it is not asleep. -/
theorem sigkillAgrees_iff {s : State} {pid : Int} {p : Fin NPROC} (htarget : slotWithPid s pid = some p) :
    SigkillAgrees s pid p ↔ (s.proc p).state ≠ .sleeping := by
  unfold SigkillAgrees
  rw [signalSend_state, kkill_state htarget]
  by_cases hsleeping : (s.proc p).state = .sleeping <;> simp [hsleeping]

/-- init has forked: its child is a target that is not asleep. -/
theorem sigkill_agrees_on_child : ∃ s, Reachable (· = boot) Step s ∧ s.live 1 ∧
    (s.proc 1).signalHandlers SIGKILL = SIG_DFL ∧ SigkillAgrees s 2 1 := by
  obtain ⟨r, hexec, hlive, hdfl, htarget, hawake⟩ : ∃ r, execs exec boot
      [.trap 0 .syscall, .fork 0 ⟨true, true, true⟩, .forkParent 0, .forkRunnable 0] = some r ∧ r.1.live 1 ∧
        (r.1.proc 1).signalHandlers SIGKILL = SIG_DFL ∧ slotWithPid r.1 2 = some 1 ∧
        (r.1.proc 1).state ≠ .sleeping :=
    ⟨_, rfl, by decide, by decide, by decide, by decide⟩
  exact ⟨r.1, ⟨boot, _, rfl, Run.of_execs hexec⟩, hlive, hdfl, (sigkillAgrees_iff htarget).2 hawake⟩

/-- init waits for its child: `kill` wakes it up, `SIGKILL` lets it sleep. -/
theorem sigkill_leaves_sleeper : ∃ s, Reachable (· = boot) Step s ∧ s.live 0 ∧
    (s.proc 0).signalHandlers SIGKILL = SIG_DFL ∧ ¬ SigkillAgrees s (s.proc 0).pid 0 := by
  have hwaits : (execs exec boot [.trap 0 .syscall, .fork 0 ⟨true, true, true⟩, .forkParent 0, .forkRunnable 0,
      .trapReturn 0, .trap 0 .syscall, .wait 0 true]).any (fun r =>
        r.1.live 0 ∧ (r.1.proc 0).signalHandlers SIGKILL = SIG_DFL ∧
        ((signalSend r.1 (r.1.proc 0).pid SIGKILL).1.proc 0).state ≠
          ((kkill r.1 (r.1.proc 0).pid).1.proc 0).state) = true := by
    decide +kernel
  obtain ⟨⟨s, tr⟩, hexec, hcheck⟩ := (Option.any_eq_true _ _).1 hwaits
  obtain ⟨hlive, hdfl, hdiffer⟩ := of_decide_eq_true hcheck
  exact ⟨s, ⟨boot, tr, rfl, Run.of_execs hexec⟩, hlive, hdfl, hdiffer⟩

end Xv6.ProcTable
