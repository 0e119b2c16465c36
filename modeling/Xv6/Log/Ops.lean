import Mathlib.Algebra.BigOperators.Ring.Finset
import Mathlib.Algebra.Order.BigOperators.Group.Finset
import Xv6.Log.Step

/-!
# Operations and commits

`log.outstanding` counts the processes between `begin_op` and `end_op`, and none is there while a
commit or a recovery is going on.
-/

namespace Xv6.Log

open Finset Function Runs

/-! ## Sums over the processes -/

def Op.one (o : Op) : Nat := if o.active then 1 else 0

theorem one_of_active {o : Op} (h : o.active = true) : o.one = 1 := if_pos h

theorem one_of_inactive {o : Op} (h : o.active = false) : o.one = 0 := if_neg (by simp [h])

def total (f : Op → Nat) (proc : Fin NPROC → Op) : Nat := ∑ p, f (proc p)

theorem total_update (f : Op → Nat) (proc : Fin NPROC → Op) (p : Fin NPROC) (o : Op) :
    total f (update proc p o) + f (proc p) = total f proc + f o := by
  have hrest : ∑ q ∈ univ.erase p, f (update proc p o q) =
      ∑ q ∈ univ.erase p, f (proc q) := by
    apply sum_congr rfl
    intro q hq
    rw [update_of_ne (ne_of_mem_erase hq)]
  have hnew := add_sum_erase univ (fun q => f (update proc p o q)) (mem_univ p)
  have hold := add_sum_erase univ (fun q => f (proc q)) (mem_univ p)
  rw [hrest] at hnew
  simp only [update_self] at hnew
  unfold total
  omega

theorem le_total (f : Op → Nat) (proc : Fin NPROC → Op) (p : Fin NPROC) : f (proc p) ≤ total f proc :=
  single_le_sum (f := fun q => f (proc q)) (fun _ _ => Nat.zero_le _) (mem_univ p)

theorem total_eq_zero {f : Op → Nat} {proc : Fin NPROC → Op} (h : ∀ p, f (proc p) = 0) : total f proc = 0 :=
  sum_eq_zero fun p _ => h p

/-! ## The invariant -/

structure Counted (s : State) : Prop where
  count : s.log.outstanding = total Op.one s.proc
  inactive : ∀ p, (s.proc p).active = false → (s.proc p).logged = []
  committing : s.phase ≠ .halted → s.log.committing = s.phase.committing
  quiet : s.phase ≠ .idle → s.phase ≠ .halted → ∀ p, (s.proc p).active = false
  cleared : s.phase = .commitDone → s.log.lh = []

variable {s s' : State} {ev : Event} {p : Fin NPROC}

theorem ne_halted_of_running {phase : Phase} (h : phase.running = true) : phase ≠ .halted := by
  rintro rfl
  cases h

theorem Counted.idle_of_active (h : Counted s) (hrun : s.phase.running = true)
    (hactive : (s.proc p).active = true) : s.phase = .idle := by
  by_contra hphase
  rw [h.quiet hphase (ne_halted_of_running hrun) p] at hactive
  cases hactive

theorem Counted.idle_of_not_committing (h : Counted s) (hrun : s.phase.running = true)
    (hcommit : s.log.committing = false) : s.phase = .idle := by
  have hphase := h.committing (ne_halted_of_running hrun)
  rw [hcommit] at hphase
  revert hrun hphase
  cases s.phase <;> simp [Phase.running, Phase.committing]

theorem Counted.advance (h : Counted s) (hidle : s.phase ≠ .idle) (hhalted : s.phase ≠ .halted)
    (hproc : s'.proc = s.proc) (hout : s'.log.outstanding = s.log.outstanding)
    (hcommit : s'.log.committing = s'.phase.committing)
    (hlh : s'.phase = .commitDone → s'.log.lh = []) : Counted s' where
  count := by rw [hout, hproc, h.count]
  inactive := by
    rw [hproc]
    exact h.inactive
  committing _ := hcommit
  quiet _ _ := by
    rw [hproc]
    exact h.quiet hidle hhalted
  cleared := hlh

theorem Counted.commitStep (h : Counted s) (hold : s.phase.committing = true)
    (hnew : s'.phase.committing = true) (hproc : s'.proc = s.proc) (hout : s'.log.outstanding = s.log.outstanding)
    (hflag : s'.log.committing = s.log.committing) (hlh : s'.phase = .commitDone → s'.log.lh = []) : Counted s' := by
  have hidle : s.phase ≠ .idle := by
    intro hphase
    rw [hphase] at hold
    cases hold
  have hhalted : s.phase ≠ .halted := by
    intro hphase
    rw [hphase] at hold
    cases hold
  apply h.advance hidle hhalted hproc hout _ hlh
  rw [hflag, h.committing hhalted, hold, hnew]

theorem Counted.recoveryStep (h : Counted s) (hidle : s.phase ≠ .idle)
    (hhalted : s.phase ≠ .halted) (hold : s.phase.committing = false)
    (hnew : s'.phase.committing = false) (hproc : s'.proc = s.proc) (hout : s'.log.outstanding = s.log.outstanding)
    (hflag : s'.log.committing = s.log.committing) : Counted s' := by
  apply h.advance hidle hhalted hproc hout
  · rw [hflag, h.committing hhalted, hold, hnew]
  · intro hdone
    rw [hdone] at hnew
    cases hnew

theorem Counted.halt (h : Counted s) : Counted { s with phase := .halted } where
  count := h.count
  inactive := h.inactive
  committing hne := absurd rfl hne
  quiet _ hne := absurd rfl hne
  cleared hdone := by cases hdone

theorem counted_restart (s : State) : Counted s.restart where
  count := by rw [total_eq_zero fun p => rfl]; rfl
  inactive _ _ := rfl
  committing _ := rfl
  quiet _ _ _ := rfl
  cleared h := by cases h

section

variable (h : Counted s) (hphase : s.phase = .idle)

include h hphase

theorem Counted.setOp {o : Op} {log : LogState} (hcount : log.outstanding + (s.proc p).one = s.log.outstanding + o.one)
    (ho : o.active = false → o.logged = []) (hflag : log.committing = s.log.committing) :
    Counted { s with log := log, proc := update s.proc p o } where
  count := by
    have hsum := total_update Op.one s.proc p o
    rw [← h.count] at hsum
    show log.outstanding = total Op.one (update s.proc p o)
    omega
  inactive q hq := by
    by_cases hqp : q = p
    · simp only [hqp, update_self] at hq ⊢
      exact ho hq
    · simp only [update_of_ne hqp] at hq ⊢
      exact h.inactive q hq
  committing hne := hflag.trans (h.committing hne)
  quiet hne := absurd hphase hne
  cleared hdone := by
    rw [hphase] at hdone
    cases hdone

theorem Counted.beginOp (hidle : (s.proc p).active = false) : Counted { s with
      log := { s.log with outstanding := s.log.outstanding + 1 }
      proc := update s.proc p { active := true } } := by
  refine h.setOp hphase ?_ (fun hout => by cases hout) rfl
  rw [one_of_inactive hidle, one_of_active rfl]

theorem Counted.endOp (hactive : (s.proc p).active = true) : Counted { s with
      log := { s.log with outstanding := s.log.outstanding - 1 }
      proc := update s.proc p {} } := by
  refine h.setOp hphase ?_ (fun _ => rfl) rfl
  have hpos := le_total Op.one s.proc p
  rw [← h.count, one_of_active hactive] at hpos
  rw [one_of_active hactive, one_of_inactive rfl]
  dsimp only
  omega

theorem Counted.endLastOp (hactive : (s.proc p).active = true) (hlast : s.log.outstanding - 1 = 0) : Counted { s with
      log := { s.log with outstanding := s.log.outstanding - 1, committing := true }
      proc := update s.proc p {}
      phase := if s.log.lh.length > 0 then .writeLog 0 else .commitDone } where
  count := (h.endOp hphase hactive).count
  inactive := (h.endOp hphase hactive).inactive
  committing _ := by
    show true = Phase.committing (if s.log.lh.length > 0 then .writeLog 0 else .commitDone)
    split <;> rfl
  quiet _ _ q := by
    have hle := le_total Op.one (update s.proc p {}) q
    have hzero : total Op.one (update s.proc p {}) = 0 := by
      rw [← (h.endOp hphase hactive).count]
      exact hlast
    by_contra hq
    rw [one_of_active (by simpa using hq), hzero] at hle
    omega
  cleared hdone := by
    dsimp only at hdone ⊢
    split at hdone
    · cases hdone
    · rename_i hlen
      exact List.length_eq_zero_iff.mp (by omega)

theorem Counted.logWrite (hactive : (s.proc p).active = true) (c : Bio) (lh : List Nat) (b : Nat) :
    Counted { s with log := { s.log with bio := c, lh := lh }, proc := s.logged p b } := by
  refine h.setOp hphase ?_ (fun hout => by cases hactive.symm.trans hout) rfl
  rw [one_of_active hactive, one_of_active (by exact hactive)]

end

theorem counted_step (h : Counted s) (hstep : Step s ev s') : Counted s' := by
  cases step_effect hstep with
  | beginOp p hrun hidle hcommit =>
    exact h.beginOp (h.idle_of_not_committing hrun hcommit) hidle
  | bread => exact { h with }
  | absorb p b data hrun hactive | append p b data hrun hactive =>
    exact h.logWrite (h.idle_of_active hrun hactive) hactive _ _ _
  | brelse => exact { h with }
  | endOp p hrun hactive => exact h.endOp (h.idle_of_active hrun hactive) hactive
  | endLastOp p hrun hactive hcommit hlast =>
    exact h.endLastOp (h.idle_of_active hrun hactive) hactive hlast
  | writeLogAt tail c hphase | writeLogEnd tail hphase | writeHead c hphase | installAt tail c hphase
  | installEnd tail hphase =>
    exact h.commitStep (by rw [hphase]; rfl) rfl rfl rfl rfl (by simp)
  | clearHead c hphase =>
    exact h.commitStep (by rw [hphase]; rfl) rfl rfl rfl rfl (fun _ => rfl)
  | commitDone hphase =>
    exact h.advance (by simp [hphase]) (by simp [hphase]) rfl rfl rfl (by simp)
  | readHead c lh hphase | recoverInstallAt tail c hphase | recoverInstallEnd tail hphase | recoverClear c hphase =>
    exact h.recoveryStep (by simp [hphase]) (by simp [hphase]) (by rw [hphase]; rfl) rfl rfl rfl rfl
  | noBuffers | tooBig | outsideTrans | committing => exact h.halt
  | crash => exact counted_restart s

/-- After any run, crashes included, `log.outstanding` is the number of operations in progress, and while a commit is
under way there are none. -/
def CommitsAlone (step : State → Event → State → Prop) : Prop :=
  ∀ s₀ tr s, Booted s₀ → Run step s₀ tr s →
    s.log.outstanding = (univ.filter fun p => (s.proc p).active = true).card ∧
    (s.phase.committing = true → ∀ p, (s.proc p).active = false)

theorem commitsAlone : CommitsAlone Step := by
  intro s₀ tr s hboot hrun
  have hc : Counted s := by
    refine hrun.invariant (P := Counted) (fun s ev s' hc hstep => counted_step hc hstep) ?_
    obtain ⟨dev, start, disk, -, -, rfl⟩ := hboot
    exact counted_restart (boot dev start disk)
  refine ⟨?_, fun hphase => hc.quiet ?_ ?_⟩
  · rw [hc.count, card_filter]
    rfl
  · intro hidle
    rw [hidle] at hphase
    cases hphase
  · intro hhalted
    rw [hhalted] at hphase
    cases hphase

end Xv6.Log
