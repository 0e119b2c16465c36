import Xv6.Log.Ops

/-!
# The log's reservations

`begin_op` lets an operation in only if the log can take `MAXOPBLOCKS` more blocks for every operation that is going
on.  That is enough for every block that is new to the log, but `log_write` tests for a full log before it looks
whether the block is in it already: three operations with ten blocks each fill the log, and logging one of these
blocks again panics.
-/

namespace Xv6.Log

open Function Runs

/-- Each operation logs at most `MAXOPBLOCKS` distinct blocks. -/
def WithinLimit (s : State) : Event → Prop
  | (.logWrite p b _, _) =>
    ((s.proc p).logged.insert (s.log.bio.buf b).blockno).length ≤ MAXOPBLOCKS
  | _ => True

/-- A block that is in the log is not logged again once the log is full. -/
def AbsorbsWithRoom (s : State) : Event → Prop
  | (.logWrite _ b _, _) => ¬ (s.log.lh.length = LOGBLOCKS ∧ (s.log.bio.buf b).blockno ∈ s.log.lh)
  | _ => True

/-- Neither `log_write` nor `end_op` panics for want of space. -/
def ReservationSuffices (step : State → Event → State → Prop) : Prop :=
  ∀ s₀ tr s, Booted s₀ → Run step s₀ tr s → ∀ ev ∈ tr, ev.2 ≠ some .tooBigATransaction ∧ ev.2 ≠ some .logCommitting

/-! ## The invariant -/

def Op.reserve (o : Op) : Nat := if o.active then MAXOPBLOCKS - o.logged.length else 0

theorem reserve_of_active {o : Op} (h : o.active = true) : o.reserve = MAXOPBLOCKS - o.logged.length := if_pos h

theorem reserve_of_inactive {o : Op} (h : o.active = false) : o.reserve = 0 := if_neg (by simp [h])

theorem total_reserve_le (proc : Fin NPROC → Op) : total Op.reserve proc ≤ total Op.one proc * MAXOPBLOCKS := by
  unfold total
  rw [Finset.sum_mul]
  apply Finset.sum_le_sum
  intro p _
  unfold Op.reserve Op.one
  split <;> omega

/-- Between commits: the blocks that operations have logged are in the log, which has room for
those that they may still log. -/
structure Reserved (s : State) : Prop where
  logged : s.phase = .idle → ∀ p, ∀ b ∈ (s.proc p).logged, b ∈ s.log.lh
  room : s.phase = .idle → s.log.lh.length + total Op.reserve s.proc ≤ LOGBLOCKS

variable {s s' : State} {ev : Event} {p : Fin NPROC}

theorem Reserved.of_busy (h : s.phase ≠ .idle) : Reserved s where
  logged hidle := absurd hidle h
  room hidle := absurd hidle h

theorem Reserved.of_empty (hquiet : ∀ p, (s.proc p).active = false)
    (hnone : ∀ p, (s.proc p).active = false → (s.proc p).logged = []) (hlh : s.log.lh = []) : Reserved s where
  logged _ p b hb := by
    rw [hnone p (hquiet p)] at hb
    simp at hb
  room _ := by
    rw [hlh, total_eq_zero fun p => reserve_of_inactive (hquiet p)]
    exact Nat.zero_le _

theorem Reserved.beginOp (h : Reserved s) (hc : Counted s) (hphase : s.phase = .idle)
    (hidle : (s.proc p).active = false)
    (hroom : s.log.lh.length + (s.log.outstanding + 1) * MAXOPBLOCKS ≤ LOGBLOCKS) : Reserved { s with
      log := { s.log with outstanding := s.log.outstanding + 1 }
      proc := update s.proc p { active := true } } where
  logged _ q b hb := by
    by_cases hqp : q = p
    · subst hqp
      simp at hb
    · simp only [update_of_ne hqp] at hb
      exact h.logged hphase q b hb
  room _ := by
    have hcount : s.log.outstanding + 1 =
        total Op.one (update s.proc p { active := true }) :=
      (hc.beginOp hphase hidle).count
    have hle := total_reserve_le (update s.proc p { active := true })
    rw [← hcount] at hle
    show s.log.lh.length + total Op.reserve (update s.proc p { active := true }) ≤ LOGBLOCKS
    omega

theorem Reserved.endOp (h : Reserved s) (hphase : s.phase = .idle) : Reserved { s with
      log := { s.log with outstanding := s.log.outstanding - 1 }
      proc := update s.proc p {} } where
  logged _ q b hb := by
    by_cases hqp : q = p
    · subst hqp
      simp at hb
    · simp only [update_of_ne hqp] at hb
      exact h.logged hphase q b hb
  room _ := by
    have hsum := total_update Op.reserve s.proc p {}
    have hold := h.room hphase
    rw [reserve_of_inactive (o := {}) rfl] at hsum
    show s.log.lh.length + total Op.reserve (update s.proc p {}) ≤ LOGBLOCKS
    omega

theorem Reserved.logWrite {b : Nat} {lh : List Nat} (h : Reserved s) (hphase : s.phase = .idle)
    (hactive : (s.proc p).active = true)
    (hlimit : ((s.proc p).logged.insert b).length ≤ MAXOPBLOCKS) (hsub : s.log.lh ⊆ lh) (hmem : b ∈ lh)
    (hlen : lh.length ≤ s.log.lh.length + if b ∈ s.log.lh then 0 else 1) (c : Bio) :
    Reserved { s with log := { s.log with bio := c, lh := lh }, proc := s.logged p b } where
  logged _ q x hx := by
    unfold State.logged at hx
    by_cases hqp : q = p
    · subst hqp
      simp only [update_self] at hx
      rcases List.mem_insert_iff.mp hx with rfl | hx
      · exact hmem
      · exact hsub (h.logged hphase q x hx)
    · simp only [update_of_ne hqp] at hx
      exact hsub (h.logged hphase q x hx)
  room _ := by
    show lh.length + total Op.reserve (update s.proc p
      { s.proc p with logged := (s.proc p).logged.insert b }) ≤ LOGBLOCKS
    have hold := h.room hphase
    have hsum := total_update Op.reserve s.proc p { s.proc p with logged := (s.proc p).logged.insert b }
    rw [reserve_of_active hactive, reserve_of_active (by exact hactive)] at hsum
    dsimp only at hsum ⊢
    by_cases hin : b ∈ (s.proc p).logged
    · -- logged by this operation before, so in the log already
      rw [List.insert_of_mem hin] at hsum
      rw [if_pos (h.logged hphase p b hin)] at hlen
      rw [List.insert_of_mem hin]
      omega
    · rw [List.length_insert_of_not_mem hin] at hsum hlimit
      have hone : (if b ∈ s.log.lh then 0 else 1) ≤ 1 := by split <;> omega
      omega

theorem reserved_step (h : Reserved s) (hc : Counted s) (hlimit : WithinLimit s ev)
    (hstep : Step s ev s') : Reserved s' := by
  cases step_effect hstep with
  | beginOp p hrun hidle hcommit hroom =>
    exact h.beginOp hc (hc.idle_of_not_committing hrun hcommit) hidle hroom
  | bread => exact { h with }
  | absorb p b data hrun hactive hheld hhome hroom hmem =>
    exact h.logWrite (hc.idle_of_active hrun hactive) hactive hlimit (fun _ hx => hx) hmem (Nat.le_add_right _ _) _
  | append p b data hrun hactive hheld hhome hroom hmem =>
    apply h.logWrite (hc.idle_of_active hrun hactive) hactive hlimit (List.subset_append_left _ _)
    · simp
    · rw [if_neg hmem]
      simp
  | brelse => exact { h with }
  | endOp p hrun hactive => exact h.endOp (hc.idle_of_active hrun hactive)
  | endLastOp =>
    apply Reserved.of_busy
    dsimp only
    split <;> simp
  | commitDone hphase =>
    exact .of_empty (hc.quiet (by simp [hphase]) (by simp [hphase])) hc.inactive (hc.cleared hphase)
  | recoverClear c hphase =>
    exact .of_empty (hc.quiet (by simp [hphase]) (by simp [hphase])) hc.inactive rfl
  | _ => exact .of_busy (by simp [State.restart])

theorem reserved_run {s₀ : State} {tr : List Event} (hboot : Booted s₀)
    (h : Run (restrict WithinLimit Step) s₀ tr s) : Counted s ∧ Reserved s := by
  obtain ⟨dev, start, disk, _, _, rfl⟩ := hboot
  have hbegin : Counted (boot dev start disk) ∧ Reserved (boot dev start disk) :=
    ⟨counted_restart (boot dev start disk), .of_busy (by simp [boot])⟩
  apply h.invariant _ hbegin
  intro s ev s' hs hstep
  exact ⟨counted_step hs.1 hstep.2, reserved_step hs.2 hs.1 hstep.1 hstep.2⟩

theorem Reserved.no_panic (h : Reserved s) (hc : Counted s) (hlimit : WithinLimit s ev)
    (habsorb : AbsorbsWithRoom s ev) (hstep : Step s ev s') :
    ev.2 ≠ some .tooBigATransaction ∧ ev.2 ≠ some .logCommitting := by
  cases step_effect hstep with
  | tooBig p b data hrun hactive =>
    exfalso
    have hidle := hc.idle_of_active hrun hactive
    have hroom := h.room hidle
    have hmine := le_total Op.reserve s.proc p
    rw [reserve_of_active hactive] at hmine
    have hspent : MAXOPBLOCKS ≤ (s.proc p).logged.length := by omega
    have hlimit' : ((s.proc p).logged.insert (s.log.bio.buf b).blockno).length ≤ MAXOPBLOCKS := hlimit
    have hold : (s.log.bio.buf b).blockno ∈ (s.proc p).logged := by
      by_contra hnew
      rw [List.length_insert_of_not_mem hnew] at hlimit'
      omega
    exact habsorb ⟨by omega, h.logged hidle p _ hold⟩
  | committing p hrun hactive hcommit =>
    exfalso
    have hphase := hc.committing (ne_halted_of_running hrun)
    rw [hc.idle_of_active hrun hactive, hcommit] at hphase
    cases hphase
  | _ => exact ⟨by simp, by simp⟩

theorem reservationSuffices_of_absorbsWithRoom (step : State → Event → State → Prop) (hsub : ∀ s ev t, step s ev t →
      restrict (fun s ev => WithinLimit s ev ∧ AbsorbsWithRoom s ev) Step s ev t) : ReservationSuffices step := by
  intro s₀ tr s hboot hrun
  replace hrun := hrun.mono hsub
  induction hrun with
  | nil => simp
  | snoc hrun hstep ih =>
    obtain ⟨hc, hs⟩ := reserved_run hboot (hrun.mono fun _ _ _ h => ⟨h.1.1, h.2⟩)
    intro ev hev
    rcases List.mem_append.mp hev with hold | hnew
    · exact ih ev hold
    · rw [List.mem_singleton.mp hnew]
      exact hs.no_panic hc hstep.1.1 hstep.1.2 hstep.2

/-! ## A full log -/

instance (s : State) (ev : Event) : Decidable (WithinLimit s ev) := by
  unfold WithinLimit
  split <;> infer_instance

/-- A disk with an empty log. -/
def blank : State := boot 1 2 fun _ => default

theorem booted_blank : Booted blank := by
  refine ⟨1, 2, fun _ => default, by decide, ?_, rfl⟩
  have hempty : readHeader (default : Block) = [] := by decide
  unfold HeaderOk
  rw [hempty]
  simp

def logBlock (p : Fin NPROC) (blockno : Nat) (b : Fin NBUF) : List Act :=
  [.bread p blockno, .logWrite p b default, .brelse p b]

/-- After recovery, three operations log ten blocks each. -/
def fillLog : List Act :=
  [.advance, .advance, .advance, .beginOp 0, .beginOp 1, .beginOp 2] ++
    (List.range LOGBLOCKS).flatMap fun k =>
      logBlock (Fin.ofNat NPROC (k / MAXOPBLOCKS)) (100 + k) (Fin.ofNat NBUF (k + 1))

instance (s : State) (ev : Event) : Decidable (AbsorbsWithRoom s ev) := by
  unfold AbsorbsWithRoom
  split <;> infer_instance

/-- A log with room takes the same block twice. -/
theorem absorption_with_room : ∃ s tr,
    Run (restrict (fun s ev => WithinLimit s ev ∧ AbsorbsWithRoom s ev) Step) blank tr s ∧
      s.log.lh = [100] ∧
      ∀ ev ∈ tr, ev.2 ≠ some .tooBigATransaction ∧ ev.2 ≠ some .logCommitting := by
  have hrun : ((execs (guarded (fun s ev => WithinLimit s ev ∧ AbsorbsWithRoom s ev) exec) blank
      ([.advance, .advance, .advance, .beginOp 0] ++ logBlock 0 100 1 ++ logBlock 0 100 1)).any
        fun r => r.1.log.lh = [100]) = true := by decide +kernel
  obtain ⟨s, tr, hrun, hlog⟩ := Run.of_any_execs hrun
  have hclaim := reservationSuffices_of_absorbsWithRoom _ (fun _ _ _ h => h)
  exact ⟨s, tr, hrun, of_decide_eq_true hlog, hclaim blank tr s booted_blank hrun⟩

theorem fullLog_panics_on_absorption : ¬ ReservationSuffices (restrict WithinLimit Step) := by
  intro h
  have hrun : ((execs (guarded WithinLimit exec) blank
      (fillLog ++ [.bread 0 100, .logWrite 0 1 default])).any fun r =>
        r.2.any fun ev => ev.2 = some .tooBigATransaction) = true := by decide +kernel
  obtain ⟨s, tr, hrun, hpanic⟩ := Run.of_any_execs hrun
  obtain ⟨ev, hev, hret⟩ := List.any_eq_true.mp hpanic
  exact (h blank tr s booted_blank hrun ev hev).1 (of_decide_eq_true hret)

end Xv6.Log
