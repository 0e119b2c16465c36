import Xv6.Log.Effect

/-!
# The steps of the log machine

Everything a step can do, guards included.  All invariants of the machine are proved from this list.
-/

namespace Xv6.Log

open Function Runs

/-- What one step does, by the code that runs. -/
inductive Effect (s : State) : Event → State → Prop
  | beginOp (p : Fin NPROC) (hrun : s.phase.running = true) (hidle : (s.proc p).active = false)
      (hcommit : s.log.committing = false)
      (hroom : s.log.lh.length + (s.log.outstanding + 1) * MAXOPBLOCKS ≤ LOGBLOCKS) :
      Effect s (.beginOp p, none) { s with
        log := { s.log with outstanding := s.log.outstanding + 1 }
        proc := update s.proc p { active := true } }
  | bread (p : Fin NPROC) (b : Nat) (i : Fin NBUF) (c : Bio) (hrun : s.phase.running = true)
      (hfree : ¬ s.log.locked b) (hread : s.log.bio.bread s.log.dev b = .ok (i, c)) :
      Effect s (.bread p b, none) { s with log := { s.log with bio := c.setHolder i (some p) } }
  | absorb (p : Fin NPROC) (b : Fin NBUF) (data : Block) (hrun : s.phase.running = true)
      (hactive : (s.proc p).active = true) (hheld : (s.log.bio.buf b).holder = some p)
      (hhome : Home s.log.start (s.log.bio.buf b).blockno) (hroom : s.log.lh.length < LOGBLOCKS)
      (hmem : (s.log.bio.buf b).blockno ∈ s.log.lh) :
      Effect s (.logWrite p b data, none) { s with
        log := { s.log with bio := s.log.bio.setData b data }
        proc := s.logged p (s.log.bio.buf b).blockno }
  | append (p : Fin NPROC) (b : Fin NBUF) (data : Block) (hrun : s.phase.running = true)
      (hactive : (s.proc p).active = true) (hheld : (s.log.bio.buf b).holder = some p)
      (hhome : Home s.log.start (s.log.bio.buf b).blockno) (hroom : s.log.lh.length < LOGBLOCKS)
      (hmem : (s.log.bio.buf b).blockno ∉ s.log.lh) :
      Effect s (.logWrite p b data, none) { s with
        log := { s.log with
          bio := (s.log.bio.setData b data).bpin b
          lh := s.log.lh ++ [(s.log.bio.buf b).blockno] }
        proc := s.logged p (s.log.bio.buf b).blockno }
  | brelse (p : Fin NPROC) (b : Fin NBUF) (hrun : s.phase.running = true)
      (hheld : (s.log.bio.buf b).holder = some p) :
      Effect s (.brelse p b, none) { s with log := { s.log with bio := (s.log.bio.setHolder b none).brelse b } }
  | endOp (p : Fin NPROC) (hrun : s.phase.running = true) (hactive : (s.proc p).active = true)
      (hcommit : s.log.committing = false) (hmore : s.log.outstanding - 1 ≠ 0) :
      Effect s (.endOp p, none) { s with
        log := { s.log with outstanding := s.log.outstanding - 1 }
        proc := update s.proc p {} }
  | endLastOp (p : Fin NPROC) (hrun : s.phase.running = true) (hactive : (s.proc p).active = true)
      (hcommit : s.log.committing = false) (hlast : s.log.outstanding - 1 = 0) :
      Effect s (.endOp p, none) { s with
        log := { s.log with outstanding := s.log.outstanding - 1, committing := true }
        proc := update s.proc p {}
        phase := if s.log.lh.length > 0 then .writeLog 0 else .commitDone }
  | writeLogAt (tail : Nat) (c : Bio) (hphase : s.phase = .writeLog tail)
      (htail : tail < s.log.lh.length)
      (hwrite : Log.writeLogAt s.log tail = .ok { s.log with bio := c }) :
      Effect s (.advance, none) { s with log := { s.log with bio := c }, phase := .writeLog (tail + 1) }
  | writeLogEnd (tail : Nat) (hphase : s.phase = .writeLog tail) (htail : s.log.lh.length ≤ tail) :
      Effect s (.advance, none) { s with phase := .writeHead }
  | writeHead (c : Bio) (hphase : s.phase = .writeHead)
      (hwrite : Log.writeHead s.log = .ok { s.log with bio := c }) :
      Effect s (.advance, none) { s with
        log := { s.log with bio := c }, phase := .install 0
        committed := s.log.bio.content s.log.dev }
  | installAt (tail : Nat) (c : Bio) (hphase : s.phase = .install tail)
      (htail : tail < s.log.lh.length)
      (hwrite : Log.installAt false s.log tail = .ok { s.log with bio := c }) :
      Effect s (.advance, none) { s with log := { s.log with bio := c }, phase := .install (tail + 1) }
  | installEnd (tail : Nat) (hphase : s.phase = .install tail) (htail : s.log.lh.length ≤ tail) :
      Effect s (.advance, none) { s with phase := .clearHead }
  | clearHead (c : Bio) (hphase : s.phase = .clearHead)
      (hwrite : Log.writeHead { s.log with lh := [] } = .ok { s.log with bio := c, lh := [] }) :
      Effect s (.advance, none) { s with log := { s.log with bio := c, lh := [] }, phase := .commitDone }
  | commitDone (hphase : s.phase = .commitDone) :
      Effect s (.advance, none) { s with log := { s.log with committing := false }, phase := .idle }
  | readHead (c : Bio) (lh : List Nat) (hphase : s.phase = .readHead)
      (hread : Log.readHead s.log = .ok { s.log with bio := c, lh := lh }) :
      Effect s (.advance, none) { s with log := { s.log with bio := c, lh := lh }, phase := .recoverInstall 0 }
  | recoverInstallAt (tail : Nat) (c : Bio) (hphase : s.phase = .recoverInstall tail)
      (htail : tail < s.log.lh.length)
      (hwrite : Log.installAt true s.log tail = .ok { s.log with bio := c }) :
      Effect s (.advance, none) { s with log := { s.log with bio := c }, phase := .recoverInstall (tail + 1) }
  | recoverInstallEnd (tail : Nat) (hphase : s.phase = .recoverInstall tail)
      (htail : s.log.lh.length ≤ tail) :
      Effect s (.advance, none) { s with phase := .recoverClear }
  | recoverClear (c : Bio) (hphase : s.phase = .recoverClear)
      (hwrite : Log.writeHead { s.log with lh := [] } = .ok { s.log with bio := c, lh := [] }) :
      Effect s (.advance, none) { s with log := { s.log with bio := c, lh := [] }, phase := .idle }
  | noBuffers (a : Act) : Effect s (a, some .bgetNoBuffers) { s with phase := .halted }
  | tooBig (p : Fin NPROC) (b : Fin NBUF) (data : Block) (hrun : s.phase.running = true)
      (hactive : (s.proc p).active = true) (hfull : LOGBLOCKS ≤ s.log.lh.length) :
      Effect s (.logWrite p b data, some .tooBigATransaction) { s with phase := .halted }
  | outsideTrans (p : Fin NPROC) (b : Fin NBUF) (data : Block)
      (hactive : (s.proc p).active = true) (hnone : s.log.outstanding < 1) :
      Effect s (.logWrite p b data, some .logWriteOutsideOfTrans) { s with phase := .halted }
  | committing (p : Fin NPROC) (hrun : s.phase.running = true) (hactive : (s.proc p).active = true)
      (hcommit : s.log.committing = true) :
      Effect s (.endOp p, some .logCommitting) { s with phase := .halted }
  | crash : Effect s (.crash, none) s.restart

/-! ## The results of the reading and writing code -/

section Panics

variable {c : Bio} {l : LogState} {dev b tail : Nat} {m : Panic}

theorem bread_error (h : c.bread dev b = .error m) : m = .bgetNoBuffers := by
  unfold Bio.bread at h
  cases hget : c.bget dev b with
  | ok =>
    rw [hget] at h
    cases h
  | error =>
    rw [hget] at h
    cases h
    unfold Bio.bget at hget
    split at hget
    · cases hget
    split at hget
    · cases hget
    · cases hget
      rfl

theorem bread_bind_error {f : Fin NBUF × Bio → Except Panic LogState} (h : (c.bread dev b >>= f) = .error m)
    (hf : ∀ i c', f (i, c') = .error m → m = .bgetNoBuffers) : m = .bgetNoBuffers := by
  cases hread : c.bread dev b with
  | ok pair =>
    rw [hread] at h
    exact hf pair.1 pair.2 h
  | error =>
    rw [hread] at h
    cases h
    exact bread_error hread

theorem writeHead_error (h : writeHead l = .error m) : m = .bgetNoBuffers :=
  bread_bind_error h fun _ _ hrest => by cases hrest

theorem readHead_error (h : readHead l = .error m) : m = .bgetNoBuffers :=
  bread_bind_error h fun _ _ hrest => by cases hrest

theorem writeLogAt_error (h : writeLogAt l tail = .error m) : m = .bgetNoBuffers :=
  bread_bind_error h fun _ _ hsecond => bread_bind_error hsecond fun _ _ hrest => by cases hrest

theorem installAt_error {recovering : Bool} (h : installAt recovering l tail = .error m) : m = .bgetNoBuffers :=
  bread_bind_error h fun _ _ hsecond => bread_bind_error hsecond fun _ _ hrest => by cases hrest

variable {l' : LogState}

theorem bread_bind_ok {f : Fin NBUF × Bio → Except Panic LogState}
    (h : (c.bread dev b >>= f) = .ok l') : ∃ i c', f (i, c') = .ok l' := by
  cases hread : c.bread dev b with
  | ok pair =>
    rw [hread] at h
    exact ⟨pair.1, pair.2, h⟩
  | error =>
    rw [hread] at h
    cases h

theorem writeHead_onlyBio (h : writeHead l = .ok l') : ∃ c, l' = { l with bio := c } := by
  obtain ⟨_, _, hrest⟩ := bread_bind_ok h
  exact ⟨_, (Except.ok.inj hrest).symm⟩

theorem writeLogAt_onlyBio (h : writeLogAt l tail = .ok l') : ∃ c, l' = { l with bio := c } := by
  obtain ⟨_, _, hsecond⟩ := bread_bind_ok h
  obtain ⟨_, _, hrest⟩ := bread_bind_ok hsecond
  exact ⟨_, (Except.ok.inj hrest).symm⟩

theorem installAt_onlyBio {recovering : Bool}
    (h : installAt recovering l tail = .ok l') : ∃ c, l' = { l with bio := c } := by
  obtain ⟨_, _, hsecond⟩ := bread_bind_ok h
  obtain ⟨_, _, hrest⟩ := bread_bind_ok hsecond
  exact ⟨_, (Except.ok.inj hrest).symm⟩

theorem readHead_onlyHeader (h : readHead l = .ok l') : ∃ c lh, l' = { l with bio := c, lh := lh } := by
  obtain ⟨_, _, hrest⟩ := bread_bind_ok h
  exact ⟨_, _, (Except.ok.inj hrest).symm⟩

end Panics

/-! ## Inversion -/

variable {s s' : State} {r : Option Panic}
variable {p : Fin NPROC}

theorem beginOp_effect (h : exec s (.beginOp p) = some (s', r)) : Effect s (.beginOp p, r) s' := by
  simp only [exec, Log.beginOp] at h
  split at h
  · rename_i hguard
    split at h
    · cases h
    rename_i hcommit
    split at h
    · cases h
    · rename_i hroom
      cases h
      exact .beginOp p hguard.1 (by simpa using hguard.2) (by simpa using hcommit) (by omega)
  · cases h

theorem bread_effect {b : Nat} (h : exec s (.bread p b) = some (s', r)) : Effect s (.bread p b, r) s' := by
  obtain ⟨hguard, h⟩ := Option.ite_none_right_eq_some.mp h
  cases hread : s.log.bio.bread s.log.dev b with
  | ok pair =>
    rw [hread] at h
    cases h
    exact .bread p b pair.1 pair.2 hguard.1 hguard.2 hread
  | error =>
    rw [hread] at h
    cases h
    rw [bread_error hread]
    exact .noBuffers _

theorem logWrite_effect {b : Fin NBUF} {data : Block}
    (h : exec s (.logWrite p b data) = some (s', r)) : Effect s (.logWrite p b data, r) s' := by
  have hblockno : ((s.log.bio.setData b data).buf b).blockno = (s.log.bio.buf b).blockno := by
    unfold Bio.setData
    rw [Bio.modify_buf_self]
  obtain ⟨hguard, h⟩ := Option.ite_none_right_eq_some.mp h
  obtain ⟨hrun, hactive, hheld, hhome⟩ := hguard
  unfold Log.logWrite at h
  dsimp only at h
  rw [hblockno] at h
  split at h
  · rename_i hfull
    cases h
    exact .tooBig p b data hrun hactive hfull
  rename_i hroom
  split at h
  · rename_i hnone
    cases h
    exact .outsideTrans p b data hactive hnone
  split at h
  · rename_i hmem
    cases h
    exact .absorb p b data hrun hactive hheld hhome (by omega) hmem
  · rename_i hmem
    cases h
    exact .append p b data hrun hactive hheld hhome (by omega) hmem

theorem brelse_effect {b : Fin NBUF} (h : exec s (.brelse p b) = some (s', r)) : Effect s (.brelse p b, r) s' := by
  obtain ⟨hguard, ⟨⟩⟩ := Option.ite_none_right_eq_some.mp h
  exact .brelse p b hguard.1 hguard.2

theorem endOp_effect (h : exec s (.endOp p) = some (s', r)) : Effect s (.endOp p, r) s' := by
  simp only [exec, Log.endOp] at h
  obtain ⟨hguard, h⟩ := Option.ite_none_right_eq_some.mp h
  obtain ⟨hrun, hactive⟩ := hguard
  cases hcommit : s.log.committing with
  | true =>
    rw [hcommit, if_pos rfl] at h
    cases h
    exact .committing p hrun hactive hcommit
  | false =>
    rw [hcommit, if_neg (by decide)] at h
    by_cases hlast : s.log.outstanding - 1 = 0
    · rw [if_pos hlast] at h
      cases h
      exact .endLastOp p hrun hactive hcommit hlast
    rw [if_neg hlast] at h
    have hend := Effect.endOp p hrun hactive hcommit hlast
    simp only [hcommit] at hend
    cases h
    exact hend

theorem settle_effect {next : LogState → State} {x : Except Panic LogState}
    (h : some (s.settle next x) = some (s', r)) (herror : ∀ m, x = .error m → m = .bgetNoBuffers)
    (hok : ∀ log, x = .ok log → Effect s (.advance, none) (next log)) : Effect s (.advance, r) s' := by
  cases x with
  | ok log =>
    cases h
    exact hok log rfl
  | error m =>
    cases h
    rw [herror m rfl]
    exact .noBuffers .advance

theorem advance_effect (h : advance s = some (s', r)) : Effect s (.advance, r) s' := by
  unfold advance at h
  split at h
  · cases h
  · cases h
  · rename_i tail hphase
    split at h
    · rename_i htail
      split at h
      · cases h
      · exact settle_effect h (fun _ => writeLogAt_error) fun log hwrite => by
          obtain ⟨c, rfl⟩ := writeLogAt_onlyBio hwrite
          exact .writeLogAt tail c hphase htail hwrite
    · rename_i htail
      cases h
      exact .writeLogEnd tail hphase (by omega)
  · rename_i hphase
    split at h
    · cases h
    · exact settle_effect h (fun _ => writeHead_error) fun log hwrite => by
        obtain ⟨c, rfl⟩ := writeHead_onlyBio hwrite
        exact .writeHead c hphase hwrite
  · rename_i tail hphase
    split at h
    · rename_i htail
      split at h
      · cases h
      · exact settle_effect h (fun _ => installAt_error) fun log hwrite => by
          obtain ⟨c, rfl⟩ := installAt_onlyBio hwrite
          exact .installAt tail c hphase htail hwrite
    · rename_i htail
      cases h
      exact .installEnd tail hphase (by omega)
  · rename_i hphase
    split at h
    · cases h
    · exact settle_effect h (fun _ => writeHead_error) fun log hwrite => by
        obtain ⟨c, rfl⟩ := writeHead_onlyBio hwrite
        exact .clearHead c hphase hwrite
  · rename_i hphase
    cases h
    exact .commitDone hphase
  · rename_i hphase
    exact settle_effect h (fun _ => readHead_error) fun log hread => by
      obtain ⟨c, lh, rfl⟩ := readHead_onlyHeader hread
      exact .readHead c lh hphase hread
  · rename_i tail hphase
    split at h
    · rename_i htail
      exact settle_effect h (fun _ => installAt_error) fun log hwrite => by
        obtain ⟨c, rfl⟩ := installAt_onlyBio hwrite
        exact .recoverInstallAt tail c hphase htail hwrite
    · rename_i htail
      cases h
      exact .recoverInstallEnd tail hphase (by omega)
  rename_i hphase
  exact settle_effect h (fun _ => writeHead_error) fun log hwrite => by
    obtain ⟨c, rfl⟩ := writeHead_onlyBio hwrite
    exact .recoverClear c hphase hwrite

theorem step_effect {ev : Event} (h : Step s ev s') : Effect s ev s' := by
  obtain ⟨a, r⟩ := ev
  have hexec : exec s a = some (s', r) := h
  cases a with
  | beginOp => exact beginOp_effect hexec
  | bread => exact bread_effect hexec
  | logWrite => exact logWrite_effect hexec
  | brelse => exact brelse_effect hexec
  | endOp => exact endOp_effect hexec
  | advance => exact advance_effect hexec
  | crash =>
    cases hexec
    exact .crash

end Xv6.Log
