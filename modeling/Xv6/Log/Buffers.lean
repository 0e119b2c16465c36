import Xv6.Log.Cache
import Xv6.Log.Reservation

/-!
# The buffers that a commit needs

A logged block stays pinned until it is installed, and `commit` needs one more buffer.  The log may hold as many
blocks as the cache has buffers, `LOGBLOCKS = NBUF`, and a commit of a full log finds no buffer.
-/

namespace Xv6.Log

open Bio Function Runs

/-- The cache is used inside of operations only, each of which logs at most `MAXOPBLOCKS` distinct
blocks and has released its buffers when it ends. -/
def OpsOnly (s : State) (ev : Event) : Prop :=
  WithinLimit s ev ∧
    match ev.1 with
    | .bread p _ => (s.proc p).active = true
    | .endOp p => ∀ i, (s.log.bio.buf i).holder ≠ some p
    | _ => True

/-- The last operation ends with fewer blocks in the log than there are buffers. -/
def SparesBuffer (s : State) (ev : Event) : Prop :=
  match ev.1 with
  | .endOp _ => s.log.outstanding = 1 → s.log.lh.length < NBUF
  | _ => True

/-- Whenever the last `end_op` has left a log to commit, `commit` runs to its end. -/
def CommitCompletes (step : State → Event → State → Prop) : Prop :=
  ∀ s₀ tr s, Booted s₀ → Run step s₀ tr s → s.phase = .writeLog 0 → ∃ t, commit s.log = .ok t

/-! ## The loops of `commit` -/

section Code

variable {l : LogState}

theorem writeLog_ok (hinv : Inv l.dev l.lh (fun _ => 0) l.bio) (hfree : l.bio.heldBufs = ∅)
    (hlen : l.lh.length < NBUF) :
    ∃ c, writeLog l = .ok { l with bio := c } ∧ Inv l.dev l.lh (fun _ => 0) c ∧ c.heldBufs = ∅ := by
  refine forTail_ok (P := fun _ c => Inv l.dev l.lh (fun _ => 0) c ∧ c.heldBufs = ∅) (fun tail c htail h => ?_) 0 l.lh.length
    (Nat.zero_add _) ⟨hinv, hfree⟩
  obtain ⟨c', hrun, hwrote⟩ := (writeLogAt_effect (s := { l with bio := c }) h.1 (getD_mem htail)).ok h.2 hlen
  exact ⟨c', hrun, hwrote.inv, hwrote.heldBufs.trans h.2⟩

theorem installTrans_ok (hinv : Inv l.dev l.lh (fun _ => 0) l.bio) (hfree : l.bio.heldBufs = ∅)
    (hnodup : l.lh.Nodup) (hhome : ∀ b ∈ l.lh, Home l.start b) (hlen : l.lh.length < NBUF) :
    ∃ c, installTrans false l = .ok { l with bio := c } ∧ Inv l.dev [] (fun _ => 0) c ∧ c.heldBufs = ∅ := by
  have hloop := forTail_ok (l := l) (f := installAt false)
    (P := fun tail c => Inv l.dev (l.lh.drop tail) (fun _ => 0) c ∧ c.heldBufs = ∅) (fun tail c htail h => ?_) 0 l.lh.length
    (Nat.zero_add _) ⟨hinv, hfree⟩
  · rwa [List.drop_length] at hloop
  have hdrop : l.lh.drop tail = l.lh.getD tail 0 :: l.lh.drop (tail + 1) := drop_eq_getD_cons htail
  have hsub := hnodup.sublist (List.drop_sublist tail l.lh)
  rw [hdrop] at hsub
  have hlog : l.start + tail + 1 ∉ l.lh.drop tail := fun hmem =>
    (hhome _ (List.mem_of_mem_drop hmem)).ne_logBlock
      (show tail < LOGBLOCKS by unfold LOGBLOCKS; unfold NBUF at hlen; omega) rfl
  have hn : (l.lh.drop tail).length < NBUF := by
    rw [List.length_drop]
    omega
  obtain ⟨c', hrun, hwrote⟩ :=
    (installAt_effect (s := { l with bio := c }) hdrop h.1 (List.nodup_cons.mp hsub).1 hlog).ok h.2 hn
  exact ⟨c', hrun, hwrote.inv, hwrote.heldBufs.trans h.2⟩

theorem commit_ok (hinv : Inv l.dev l.lh (fun _ => 0) l.bio) (hfree : l.bio.heldBufs = ∅)
    (hnodup : l.lh.Nodup) (hhome : ∀ b ∈ l.lh, Home l.start b) (hlen : l.lh.length < NBUF) :
    ∃ t, commit l = .ok t := by
  unfold commit
  split
  · have hstart : l.start ∉ l.lh := fun hmem => (hhome _ hmem).ne_start rfl
    obtain ⟨c₁, hlog, hinv₁, hfree₁⟩ := writeLog_ok hinv hfree hlen
    obtain ⟨c₂, hhead, hwrote₂⟩ := (writeHead_effect (s := { l with bio := c₁ }) hinv₁ hstart).ok hfree₁ hlen
    have hfree₂ : c₂.heldBufs = ∅ := hwrote₂.heldBufs.trans hfree₁
    obtain ⟨c₃, hinstall, hinv₃, hfree₃⟩ :=
      installTrans_ok (l := { l with bio := c₂ }) hwrote₂.inv hfree₂ hnodup hhome hlen
    obtain ⟨c₄, hclear, _⟩ := (writeHead_effect (s := { l with bio := c₃, lh := [] }) hinv₃
      List.not_mem_nil).ok hfree₃ (by decide)
    simp only [hlog, hhead, hinstall, hclear, bind, Except.bind]
    exact ⟨_, rfl⟩
  · exact ⟨l, rfl⟩

theorem commit_error (hinv : Inv l.dev l.lh (fun _ => 0) l.bio) (hnodup : l.lh.Nodup)
    (hhome : ∀ b ∈ l.lh, Home l.start b) (hlen : l.lh.length = NBUF) : commit l = .error .bgetNoBuffers := by
  have hfull := hinv.mem_pins_of_full hnodup hlen
  have hmiss : ∀ i, ¬ (l.bio.buf i).isFor l.dev (l.start + 0 + 1) := by
    intro i hi
    have hmem := (hfull i).2
    rw [hi.2] at hmem
    exact (hhome _ hmem).ne_logBlock (show 0 < LOGBLOCKS by decide) rfl
  have hread : l.bio.bread l.dev (l.start + 0 + 1) = .error .bgetNoBuffers := by
    rcases bget_of_not_cached hinv hmiss with ⟨i, hzero, _⟩ | ⟨_, hget⟩
    · exact absurd hzero (hinv.refcnt_ne_zero_of_pin ⟨(hfull i).1, rfl⟩ (hfull i).2)
    · unfold bread
      rw [hget]
      rfl
  have hpos : l.lh.length = NBUF - 1 + 1 := by rw [hlen]; decide
  have hloop : writeLog l = .error .bgetNoBuffers := by
    unfold writeLog
    rw [hpos]
    unfold forTail writeLogAt
    rw [hread]
    rfl
  unfold commit
  rw [if_pos (by rw [hlen]; decide), hloop]
  rfl

end Code

/-! ## Operations -/

variable {s s' : State} {ev : Event}

def HeldInOps (s : State) : Prop := ∀ i p, (s.log.bio.buf i).holder = some p → (s.proc p).active = true

theorem HeldInOps.of_sub (h : HeldInOps s)
    (hholder : ∀ i p, (s'.log.bio.buf i).holder = some p → (s.log.bio.buf i).holder = some p)
    (hproc : ∀ p, (s.proc p).active = true → (s'.proc p).active = true) : HeldInOps s' :=
  fun i p hi => hproc p (h i p (hholder i p hi))

theorem HeldInOps.of_holder (h : HeldInOps s) (hholder : ∀ i, (s'.log.bio.buf i).holder = (s.log.bio.buf i).holder)
    (hproc : s'.proc = s.proc) : HeldInOps s' := by
  apply h.of_sub
  · intro i p hi
    rw [← hholder]
    exact hi
  · intro p hp
    rw [hproc]
    exact hp

theorem active_logged {p : Fin NPROC} {b : Nat} {q : Fin NPROC} : (s.logged p b q).active = (s.proc q).active := by
  unfold State.logged
  by_cases hqp : q = p
  · rw [hqp, update_self]
  · rw [update_of_ne hqp]

theorem HeldInOps.endOp {p : Fin NPROC} (h : HeldInOps s) (hnone : ∀ i, (s.log.bio.buf i).holder ≠ some p)
    (hbio : s'.log.bio = s.log.bio) (hproc : s'.proc = update s.proc p {}) : HeldInOps s' := by
  intro i q hi
  rw [hbio] at hi
  have hqp : q ≠ p := by
    rintro rfl
    exact hnone i hi
  rw [hproc, update_of_ne hqp]
  exact h i q hi

theorem heldInOps_step (h : HeldInOps s) (hcache : Cached s) (hops : OpsOnly s ev)
    (hstep : Step s ev s') : HeldInOps s' := by
  cases step_effect hstep with
  | beginOp p =>
    intro i q hi
    by_cases hqp : q = p
    · rw [hqp]
      simp
    · simp only [update_of_ne hqp]
      exact h i q hi
  | bread p b i c hrun hfree hread =>
    have hspec := Bread.of_bread (hcache.cache (ne_halted_of_running hrun)) hread
    intro j q hj
    dsimp only at hj
    unfold setHolder at hj
    rw [modify_buf] at hj
    split at hj
    · cases hj
      exact hops.2
    · rw [hspec.holder] at hj
      exact h j q hj
  | absorb =>
    refine h.of_sub ?_ ?_
    · intro j q hj
      rw [← hj]
      exact holder_setData.symm
    · intro q hq
      exact active_logged.trans hq
  | append =>
    refine h.of_sub ?_ ?_
    · intro j q hj
      dsimp only at hj
      unfold bpin at hj
      rw [modify_buf] at hj
      split at hj <;> rw [← hj] <;> exact holder_setData.symm
    · intro q hq
      exact active_logged.trans hq
  | brelse =>
    refine h.of_sub ?_ fun _ hq => hq
    intro j q hj
    dsimp only at hj
    rw [holder_brelse] at hj
    unfold setHolder at hj
    rw [modify_buf] at hj
    split at hj
    · cases hj
    · exact hj
  | endOp | endLastOp => exact h.endOp hops.2 rfl rfl
  | writeLogAt tail c hphase htail hwrite =>
    exact h.of_holder (hcache.writeLogAt hphase htail hwrite).holder rfl
  | writeLogEnd => exact h
  | writeHead c hphase hwrite => exact h.of_holder (hcache.writeHead hphase hwrite).holder rfl
  | installAt tail c hphase htail hwrite =>
    exact h.of_holder (hcache.installAt hphase htail hwrite).holder rfl
  | installEnd => exact h
  | clearHead c hphase hwrite => exact h.of_holder (hcache.clear (.inl hphase) hwrite).holder rfl
  | commitDone => exact h
  | readHead c lh hphase hread =>
    exact h.of_holder (hcache.readHead hphase hread).2.2.2 rfl
  | recoverInstallAt tail c hphase htail hwrite =>
    exact h.of_holder (hcache.recoverInstallAt hphase hwrite).holder rfl
  | recoverInstallEnd => exact h
  | recoverClear c hphase hwrite =>
    exact h.of_holder (hcache.clear (.inr hphase) hwrite).holder rfl
  | noBuffers | tooBig | outsideTrans | committing => exact h
  | crash =>
    intro i p hi
    simp [State.restart, binit] at hi

variable {tr : List Event}

theorem opsOnly_run {s₀ : State} (hboot : Booted s₀)
    (h : Run (restrict OpsOnly Step) s₀ tr s) : Counted s ∧ Cached s ∧ HeldInOps s := by
  obtain ⟨dev, start, disk, hdev, _, rfl⟩ := hboot
  have hheld : HeldInOps (boot dev start disk) := by
    intro i p hi
    simp [boot, binit] at hi
  have hbegin : Counted (boot dev start disk) ∧ Cached (boot dev start disk) ∧
      HeldInOps (boot dev start disk) :=
    ⟨counted_restart (boot dev start disk), cached_restart (boot dev start disk) hdev, hheld⟩
  apply h.invariant _ hbegin
  rintro s ev s' ⟨hc, hcache, hs⟩ ⟨hops, hstep⟩
  exact ⟨counted_step hc hstep, cached_step hcache hc hstep, heldInOps_step hs hcache hops hstep⟩

theorem commit_ok_iff {s₀ : State} (hboot : Booted s₀)
    (h : Run (restrict OpsOnly Step) s₀ tr s) (hphase : s.phase = .writeLog 0) :
    (∃ t, commit s.log = .ok t) ↔ s.log.lh.length < NBUF := by
  obtain ⟨hc, hcache, hheld⟩ := opsOnly_run hboot h
  have hrun : s.phase.running = true := hphase ▸ rfl
  have hquiet := hc.quiet (by simp [hphase]) (by simp [hphase])
  have hinv := hcache.cache (by simp [hphase])
  rw [show s.pins = s.log.lh by simp [State.pins, hphase]] at hinv
  have hfree : s.log.bio.heldBufs = ∅ := by
    apply Finset.filter_eq_empty_iff.mpr
    intro i _
    rw [not_not]
    cases hholder : (s.log.bio.buf i).holder with
    | none => rfl
    | some p =>
      have hactive := hheld i p hholder
      rw [hquiet p] at hactive
      cases hactive
  constructor
  · rintro ⟨t, hok⟩
    by_contra hfull
    have hfits : s.log.lh.length ≤ NBUF := hcache.fits hrun
    rw [commit_error hinv (hcache.nodup hrun) (hcache.home hrun) (by omega)] at hok
    cases hok
  · exact commit_ok hinv hfree (hcache.nodup hrun) (hcache.home hrun)

def Spared (s : State) : Prop := s.phase = .writeLog 0 → s.log.lh.length < NBUF

theorem spared_step (h : Spared s) (hc : Counted s) (hspare : SparesBuffer s ev)
    (hstep : Step s ev s') : Spared s' := by
  intro hphase
  cases step_effect hstep with
  | endLastOp p hrun hactive =>
    have hle := le_total Op.one s.proc p
    rw [one_of_active hactive, ← hc.count] at hle
    exact hspare (by omega)
  | append p i data hrun hactive =>
    have hidle := hc.idle_of_active hrun hactive
    rw [hidle] at hphase
    cases hphase
  | beginOp | bread | absorb | brelse | endOp => exact h hphase
  | _ => cases hphase

theorem spared_run {s₀ : State} (hboot : Booted s₀)
    (h : Run (restrict (fun s ev => OpsOnly s ev ∧ SparesBuffer s ev) Step) s₀ tr s) : Counted s ∧ Spared s := by
  obtain ⟨dev, start, disk, _, _, rfl⟩ := hboot
  have hspared : Spared (boot dev start disk) := fun hphase => by cases hphase
  apply h.invariant _ ⟨counted_restart (boot dev start disk), hspared⟩
  rintro s ev s' ⟨hc, hs⟩ ⟨⟨_, hspare⟩, hstep⟩
  exact ⟨counted_step hc hstep, spared_step hs hc hspare hstep⟩

theorem commitCompletes_of_sparesBuffer (step : State → Event → State → Prop) (hsub : ∀ s ev t, step s ev t →
      restrict (fun s ev => OpsOnly s ev ∧ SparesBuffer s ev) Step s ev t) : CommitCompletes step := by
  intro s₀ tr s hboot hrun hphase
  replace hrun := hrun.mono hsub
  have hops := hrun.mono fun _ _ _ h => (⟨h.1.1, h.2⟩ : restrict OpsOnly Step _ _ _)
  have hspared := (spared_run hboot hrun).2
  exact (commit_ok_iff hboot hops hphase).mpr (hspared hphase)

instance (s : State) (ev : Event) : Decidable (OpsOnly s ev) := by
  unfold OpsOnly
  refine @instDecidableAnd _ _ inferInstance ?_
  split <;> infer_instance

instance (s : State) (ev : Event) : Decidable (SparesBuffer s ev) := by
  unfold SparesBuffer
  split <;> infer_instance

/-- One operation that logs one block. -/
theorem oneBlock_commit_completes : ∃ s tr,
    Run (restrict (fun s ev => OpsOnly s ev ∧ SparesBuffer s ev) Step) blank tr s ∧
      s.log.lh = [100] ∧ ∃ t, commit s.log = .ok t := by
  have hrun : ((execs (guarded (fun s ev => OpsOnly s ev ∧ SparesBuffer s ev) exec) blank
      ([.advance, .advance, .advance, .beginOp 0] ++ logBlock 0 100 1 ++ [.endOp 0])).any
        fun r => r.1.log.lh = [100] ∧ r.1.phase = .writeLog 0) = true := by decide +kernel
  obtain ⟨s, tr, hrun, hcheck⟩ := Run.of_any_execs hrun
  obtain ⟨hlog, hphase⟩ := of_decide_eq_true hcheck
  have hclaim := commitCompletes_of_sparesBuffer _ (fun _ _ _ h => h)
  exact ⟨s, tr, hrun, hlog, hclaim blank tr s booted_blank hrun hphase⟩

/-- Three operations with ten blocks each fill the log, and the cache with it. -/
theorem fullLog_commit_finds_no_buffer : ¬ CommitCompletes (restrict OpsOnly Step) := by
  intro h
  have hrun : ((execs (guarded OpsOnly exec) blank
      (fillLog ++ [.endOp 0, .endOp 1, .endOp 2])).any fun r =>
        r.1.phase = .writeLog 0 ∧ (commit r.1.log).isOk = false) = true := by decide +kernel
  obtain ⟨s, tr, hrun, hcheck⟩ := Run.of_any_execs hrun
  obtain ⟨hphase, hfails⟩ := of_decide_eq_true hcheck
  obtain ⟨t, hok⟩ := h blank tr s booted_blank hrun hphase
  dsimp only at hfails
  rw [hok] at hfails
  cases hfails

end Xv6.Log
