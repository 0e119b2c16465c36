import Xv6.Proc.Delivery

/-!
# Whose signals are pending

A slot of the process table is used by one process after the other, with the pending bits in it.  As long
as pids name processes, a bit says just this: the signal was sent to the process that is in the slot now,
and has not been taken off since.
-/

namespace Xv6.ProcTable

open Runs

/-! ## Counting processes -/

/-- Steps of the system next to the number of processes created so far.  A `fork` that fails for want of
memory has created one too: it has had a slot and a pid. -/
def Counted (s : Nat × State) (ev : Event) (t : Nat × State) : Prop :=
  Step s.2 ev t.2 ∧ t.1 = s.1 + (takesPid s.2 ev).toNat

theorem beforeWrap_of_count {n n' : Nat} {s s' : State} {ev : Event} (hnext : s.nextpid = int32 (n + 1))
    (hstep : Counted (n, s) ev (n', s')) (hn : n' < 2 ^ 31) : BeforeWrap s ev ∧ s'.nextpid = int32 (n' + 1) := by
  obtain ⟨hstep, hcount⟩ := hstep
  have hafter := step_nextpid hstep
  dsimp only at hstep hcount hafter
  cases htakes : takesPid s ev with
  | false =>
    rw [htakes] at hafter hcount
    refine ⟨fun h => (by rw [htakes] at h; cases h), ?_⟩
    rw [if_neg (by decide)] at hafter
    rw [hafter, hnext, hcount]
    rfl
  | true =>
    rw [htakes] at hafter hcount
    have hcount : n' = n + 1 := hcount
    subst hcount
    rw [if_pos rfl, hnext, int32_int32_succ] at hafter
    refine ⟨fun _ => ?_, hafter⟩
    rw [hnext]
    unfold int32
    omega

/-! ## What the trace says of the pending signals -/

def sends (pid : Int) (i : Fin NSIG) : Event → Bool
  | (.signalSend _ target signum, ret) => target == pid && signum == (i : Int) && ret == .value 0
  | _ => false

/-- Slot `p` is allocated, or the process in it drops its pending signals, or dispatches them. -/
def takesOff (p : Fin NPROC) : Event → Bool
  | (.fork _ _, .child np) => np == p
  | (.signalInit q, _) => q == p
  | (.trapReturn q, .dispatched _) => q == p
  | _ => false

/-- The event is a signal call or a dispatch of the process in slot `p`, or a signal for its pid. -/
def concerns (p : Fin NPROC) (pid : Int) : Event → Bool
  | (.signalSend _ target _, _) => target == pid
  | (.signalInit q, _) => q == p
  | (.signalHandle q _ _, _) => q == p
  | (.sigmask q _ _, _) => q == p
  | (.trapReturn q, _) => q == p
  | _ => false

/-- The signal fields of a process. -/
def Proc.SameSignals (q q' : Proc) : Prop :=
  q'.signalHandlers = q.signalHandlers ∧ q'.pendingSignals = q.pendingSignals ∧ q'.sigmask = q.sigmask

variable {s s' : State} {ev : Event} {p : Fin NPROC} {i : Fin NSIG} {pid : Int}

theorem quiet_pending (h : quiet p ev = true) : sends pid i ev = false ∧ takesOff p ev = false := by
  obtain ⟨act, ret⟩ := ev
  cases act <;> cases ret <;> simp_all [quiet, sends, takesOff]

theorem pending_dispatched {q : Proc} (hcalled : (dispatchSignals q).called = none) (hi : 0 < i.val) :
    (dispatchSignals q).proc.pending i = false :=
  (dispatching q).cleared hcalled i (mem_signals.2 hi)

theorem pending_step (hs : Numbered s) (hstep : Step s ev s') (hlive : s'.live p) (hi : 0 < i.val) :
    ((s'.proc p).pending i = true ↔ sends (s'.proc p).pid i ev = true ∨
      s.live p ∧ (s'.proc p).pid = (s.proc p).pid ∧ (s.proc p).pending i = true ∧ takesOff p ev = false) := by
  have hold : (∀ p' mem, ev ≠ (.fork p' mem, .child p)) → s.live p ∧ (s'.proc p).pid = (s.proc p).pid := by
    intro hev
    rcases hs.live_cases hstep hlive with hold | ⟨-, ⟨p', mem, rfl⟩, -⟩
    · exact hold
    · exact absurd rfl (hev p' mem)
  -- Most events are not about these signals.
  have hkeep : s.live p ∧ (s'.proc p).pid = (s.proc p).pid → sends (s'.proc p).pid i ev = false →
      takesOff p ev = false → (s'.proc p).card.pendingSignals = (s.proc p).card.pendingSignals →
      ((s'.proc p).pending i = true ↔ sends (s'.proc p).pid i ev = true ∨
        s.live p ∧ (s'.proc p).pid = (s.proc p).pid ∧ (s.proc p).pending i = true ∧ takesOff p ev = false) := by
    rintro ⟨hlive, hpid⟩ hsends htakes hcard
    have hsame : (s'.proc p).pending i = (s.proc p).pending i := congrArg (BitVec.getLsbD · i) hcard
    rw [hsends, hsame]
    exact ⟨fun hpending => .inr ⟨hlive, hpid, hpending, htakes⟩, fun h => by simpa [hlive, hpid, htakes] using h⟩
  have hclear : takesOff p ev = true → sends (s'.proc p).pid i ev = false → (s'.proc p).pending i = false →
      ((s'.proc p).pending i = true ↔ sends (s'.proc p).pid i ev = true ∨
        s.live p ∧ (s'.proc p).pid = (s.proc p).pid ∧ (s.proc p).pending i = true ∧ takesOff p ev = false) := by
    intro htakes hsends hclear
    simp [hsends, htakes, hclear]
  cases step_signed hstep p with
  | same hev hcard =>
    obtain ⟨hsends, htakes⟩ := quiet_pending (p := p) (i := i) hev
    refine hkeep (hold ?_) hsends htakes (by rw [hcard])
    rintro p' mem rfl
    simp [quiet] at hev
  | freed _ _ hfree => exact absurd hfree (live_iff_stage.1 hlive)
  | alloc _ hcard =>
    -- Nothing is left of the signals for the process that was in the slot before.
    have hzero : (s'.proc p).pendingSignals = 0 := congrArg Card.pendingSignals hcard
    exact hclear (by simp [takesOff]) rfl (by simp [Proc.pending, hzero])
  | forking hne _ hcard =>
    refine hkeep (hold ?_) rfl (by simpa [takesOff] using hne) (by rw [hcard])
    intro p' mem heq
    cases heq
    exact hne rfl
  | born _ hforks hcard | forked hcard => exact hkeep (hold (by simp)) rfl rfl (by rw [hcard])
  | @sent q signum _ hpos hlt hcard =>
    obtain ⟨hlive, hpid⟩ := hold (by simp)
    have hbit : (s'.proc p).pending i = ((s.proc p).pendingSignals ||| sigbit signum).getLsbD i :=
      congrArg (fun c : Card => c.pendingSignals.getLsbD i) hcard
    have hlt : signum < 7 := hlt
    have hmod : signum % 32 = signum := by omega
    rw [hbit, BitVec.getLsbD_or, getLsbD_sigbit, hmod]
    simp [sends, takesOff, hlive, hpid, Proc.pending, or_comm]
  | @sentOther q j signum hne hlivej hcard =>
    -- The receiver has another pid.
    have hother : (s.proc j).pid ≠ (s.proc p).pid := fun heq =>
      hne (hs.distinct hlivej (hold (by simp)).1 heq)
    refine hkeep (hold (by simp)) ?_ rfl (by rw [hcard])
    rw [(hold (by simp)).2]
    simp [sends, hother]
  | init hcard =>
    have hzero : (s'.proc p).pendingSignals = 0 := congrArg Card.pendingSignals hcard
    exact hclear (by simp [takesOff]) rfl (by simp [Proc.pending, hzero])
  | handle hcard =>
    refine hkeep (hold (by simp)) rfl rfl ?_
    rw [hcard, signalHandle]
    split <;> rfl
  | mask hcard =>
    refine hkeep (hold (by simp)) rfl rfl ?_
    rw [hcard, sigmask]
    split <;> rfl
  | dispatch _ hcalled hcard =>
    have hbit : (s'.proc p).pending i = (dispatchSignals (s.proc p)).proc.pending i :=
      congrArg (fun c : Card => c.pendingSignals.getLsbD i) hcard
    exact hclear (by simp [takesOff]) rfl (hbit.trans (pending_dispatched hcalled hi))

/-- Signal `i` was sent to the process in slot `p`, with this pid, and is not taken off yet. -/
def Sent (p : Fin NPROC) (pid : Int) (i : Fin NSIG) (tr : List Event) : Prop := Since (sends pid i) (takesOff p) tr

/-- As long as the pids last. -/
def PendingRecorded (tr : List Event) (c : Nat × State) : Prop :=
  c.1 < 2 ^ 31 → Numbered c.2 ∧ c.2.nextpid = int32 (c.1 + 1) ∧
    ∀ p, c.2.live p → ∀ i : Fin NSIG, 0 < i.val → ((c.2.proc p).pending i = true ↔ Sent p (c.2.proc p).pid i tr)

theorem pendingRecorded_step {tr : List Event} {c c' : Nat × State} (h : PendingRecorded tr c)
    (hstep : Counted c ev c') : PendingRecorded (tr ++ [ev]) c' := by
  intro hn
  have hle : c.1 ≤ c'.1 := by
    rw [hstep.2]
    exact Nat.le_add_right _ _
  obtain ⟨hnumbered, hnext, hpending⟩ := h (by omega)
  obtain ⟨hwrap, hnext'⟩ := beforeWrap_of_count hnext hstep hn
  refine ⟨hnumbered.step ⟨hwrap, hstep.1⟩, hnext', fun p hlive i hi => ?_⟩
  rw [pending_step hnumbered hstep.1 hlive hi, Sent, since_snoc]
  refine or_congr_right ?_
  cases htakes : takesOff p ev with
  | true => simp
  | false =>
    -- The process was in the slot before.
    have hold : c.2.live p ∧ (c'.2.proc p).pid = (c.2.proc p).pid := by
      rcases hnumbered.live_cases hstep.1 hlive with hold | ⟨-, ⟨q, mem, rfl⟩, -⟩
      · exact hold
      · simp [takesOff] at htakes
    obtain ⟨hlive, hpid⟩ := hold
    rw [hpid, hpending p hlive i hi]
    simp [Sent, hlive]

theorem pendingRecorded_boot : PendingRecorded [] (1, boot) := by
  refine fun _ => ⟨numbered_boot, rfl, fun p _ i _ => ?_⟩
  have hzero : ∀ p, (boot.proc p).pendingSignals = 0 := by decide
  simp [Proc.pending, hzero, Sent, not_since_nil]

theorem sameSignals_of_step (hstep : Step s ev s') (hlive : s.live p) (hlive' : s'.live p)
    (hev : concerns p (s.proc p).pid ev = false) : (s.proc p).SameSignals (s'.proc p) := by
  have hsame : ∀ {c : Card}, (s'.proc p).card = c → c.signalHandlers = (s.proc p).card.signalHandlers →
      c.pendingSignals = (s.proc p).card.pendingSignals → c.sigmask = (s.proc p).card.sigmask →
      (s.proc p).SameSignals (s'.proc p) := by
    rintro c rfl hhandlers hpending hmask
    exact ⟨hhandlers, hpending, hmask⟩
  cases step_signed hstep p with
  | same _ hcard => exact hsame hcard rfl rfl rfl
  | freed _ _ hfree => exact absurd hfree (live_iff_stage.1 hlive')
  | alloc hfree => exact absurd hfree (live_iff_stage.1 hlive)
  | forking _ _ hcard | born _ _ hcard | forked hcard | sentOther _ _ hcard => exact hsame hcard rfl rfl rfl
  | sent | init | handle | mask | dispatch => simp [concerns] at hev

/-- A pending bit of a live process says that the signal was sent to this process and is not taken off
yet, and nobody else's signals change. -/
theorem pending_belongs (tr : List Event) (n : Nat) (s : State) (hrun : Run Counted (1, boot) tr (n, s))
    (hn : n < 2 ^ 31) : (∀ p, s.live p → ∀ i : Fin NSIG, 0 < i.val →
      ((s.proc p).pending i = true ↔ Sent p (s.proc p).pid i tr)) ∧
    ∀ ev s', Step s ev s' → ∀ p, s.live p → s'.live p → concerns p (s.proc p).pid ev = false →
      (s.proc p).SameSignals (s'.proc p) := by
  have hrecorded : PendingRecorded tr (n, s) :=
    hrun.invariant_trace (fun _ _ _ _ h hstep => pendingRecorded_step h hstep) pendingRecorded_boot
  exact ⟨(hrecorded hn).2.2, fun ev s' hstep p hlive hlive' hev => sameSignals_of_step hstep hlive hlive' hev⟩

theorem counted_of_run {s t : State} {tr : List Event} (h : Run Step s tr t) (n : Nat) :
    ∃ m, Run Counted (n, s) tr (m, t) ∧ m ≤ n + tr.length := by
  induction h with
  | nil => exact ⟨n, .nil, Nat.le_refl _⟩
  | @snoc tr ev t u _ hstep ih =>
    obtain ⟨m, hrun, hle⟩ := ih
    have hone : (takesPid t ev).toNat ≤ 1 := Bool.toNat_le _
    refine ⟨m + (takesPid t ev).toNat, hrun.snoc ⟨hstep, rfl⟩, ?_⟩
    rw [List.length_append, List.length_singleton]
    omega

/-- A signal that init has sent to itself is pending. -/
theorem own_signal_pending : ∃ n s, n < 2 ^ 31 ∧ Run Counted (1, boot)
      [(.trap 0 .syscall, .none), (.signalSend 0 1 SIGUSR1, .value 0)] (n, s) ∧
    (s.proc 0).pending SIGUSR1 = true := by
  obtain ⟨r, hexec, htr, hlive, hpid⟩ : ∃ r, execs exec boot
      [.trap 0 .syscall, .signalSend 0 1 SIGUSR1] = some r ∧
        r.2 = [(.trap 0 .syscall, .none), (.signalSend 0 1 SIGUSR1, .value 0)] ∧
        r.1.live 0 ∧ (r.1.proc 0).pid = 1 :=
    ⟨_, rfl, rfl, by decide, by decide⟩
  have hboot := Run.of_execs hexec
  rw [htr] at hboot
  obtain ⟨n, hrun, hle⟩ := counted_of_run hboot 1
  have hn : n < 2 ^ 31 := Nat.lt_of_le_of_lt hle (by decide)
  refine ⟨n, r.1, hn, hrun, ((pending_belongs _ n r.1 hrun hn).1 0 hlive SIGUSR1 (by decide)).2 ?_⟩
  rw [hpid]
  exact ⟨[_], _, [], rfl, by decide, by simp⟩

end Xv6.ProcTable
