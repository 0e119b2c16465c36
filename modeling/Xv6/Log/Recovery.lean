import Xv6.Log.Cache

/-!
# Crash atomicity

Whenever the machine crashes, recovery brings the home blocks to what they were at the last commit:
the last time the header of a non-empty log was written, with no operation going on.
-/

namespace Xv6.Log

open Bio Function List Runs Writes

/-- `recover_from_log`, run after a crash in this state, restores the committed contents. -/
def Recovers (s : State) : Prop :=
  ∃ t, recoverFromLog s.restart.log = .ok t ∧ ∀ b, Home s.log.start b → t.bio.disk b = s.committed b

/-- The committed contents change only when `write_head` puts the header of a non-empty log on the
disk, with no operation going on, and are then what the processes saw. -/
def CommitPoint (s s' : State) : Prop :=
  s'.committed = s.committed ∨
    (s.phase = .writeHead ∧ s.log.lh ≠ [] ∧ (∀ p, (s.proc p).active = false) ∧
      readHeader (s'.log.bio.disk s'.log.start) = s.log.lh ∧
      s'.committed = s.log.bio.content s.log.dev)

def loggedData (s : State) (b : Nat) : Event → Option Block
  | (.logWrite _ i data, _) => if (s.log.bio.buf i).blockno = b then some data else none
  | _ => none

/-- Between crashes, what the processes see is made of the updates they log; after a crash they see
the committed contents. -/
def SeesUpdates (s : State) (ev : Event) (s' : State) : Prop :=
  ∀ b, Home s.log.start b →
    (s.phase.running = true → s'.phase.running = true → s'.log.bio.content s'.log.dev b =
      (loggedData s b ev).getD (s.log.bio.content s.log.dev b)) ∧
    (s.phase.running = false → s'.phase.running = true → s'.log.bio.content s'.log.dev b = s'.committed b)

def CrashAtomic (step : State → Event → State → Prop) : Prop :=
  ∀ s₀ tr s, Booted s₀ → Run step s₀ tr s → Recovers s ∧ ∀ ev s', step s ev s' → CommitPoint s s' ∧ SeesUpdates s ev s'

/-! ## The log on the disk -/

section Disk

variable {start b tail : Nat} {disk : Nat → Block} {data : Block}

theorem map_fst_loggedWrites : (loggedWrites start disk).map Prod.fst = readHeader (disk start) := by
  unfold loggedWrites
  rw [map_map]
  exact zipIdx_map_fst 0 (readHeader (disk start))

theorem length_loggedWrites : (loggedWrites start disk).length = (readHeader (disk start)).length := by
  unfold loggedWrites
  rw [length_map, length_zipIdx]

theorem getElem_loggedWrites (h : tail < (loggedWrites start disk).length) : (loggedWrites start disk)[tail] =
      ((readHeader (disk start)).getD tail 0, disk (start + tail + 1)) := by
  have hlen := h
  rw [length_loggedWrites] at hlen
  simp only [loggedWrites, getElem_map, getElem_zipIdx, Nat.zero_add]
  rw [getD_eq_getElem _ _ hlen]

theorem drop_loggedWrites (h : tail < (readHeader (disk start)).length) : (loggedWrites start disk).drop tail =
      ((readHeader (disk start)).getD tail 0, disk (start + tail + 1)) ::
        (loggedWrites start disk).drop (tail + 1) := by
  have hlen : tail < (loggedWrites start disk).length := by
    rw [length_loggedWrites]
    exact h
  rw [drop_eq_getElem_cons hlen, getElem_loggedWrites]

theorem loggedWrites_update (hhome : Home start b) (hok : HeaderOk start disk) :
    loggedWrites start (update disk b data) = loggedWrites start disk := by
  have hstart : update disk b data start = disk start := update_of_ne hhome.ne_start.symm _ _
  apply ext_getElem
  · rw [length_loggedWrites, length_loggedWrites, hstart]
  intro j hj hj'
  have hlt : j < LOGBLOCKS := by
    have hfit := hok.1
    rw [length_loggedWrites] at hj'
    omega
  have hlog : update disk b data (start + j + 1) = disk (start + j + 1) := update_of_ne (hhome.ne_logBlock hlt).symm _ _
  rw [getElem_loggedWrites, getElem_loggedWrites, hstart, hlog]

theorem headerOk_update (hhome : Home start b) (hok : HeaderOk start disk) : HeaderOk start (update disk b data) := by
  have hstart : update disk b data start = disk start := update_of_ne hhome.ne_start.symm _ _
  unfold HeaderOk
  rw [hstart]
  exact hok

theorem recovered_of_empty (h : readHeader (disk start) = []) : recovered start disk = disk := by
  unfold recovered loggedWrites
  rw [h]
  rfl

theorem replay_install (hok : HeaderOk start disk) (htail : tail < (readHeader (disk start)).length) :
    let disk' := update disk ((readHeader (disk start)).getD tail 0) (disk (start + tail + 1))
    replay ((loggedWrites start disk').drop (tail + 1)) disk' = replay ((loggedWrites start disk).drop tail) disk := by
  have hhome := hok.2 _ (getD_mem htail)
  intro disk'
  rw [loggedWrites_update hhome hok, drop_loggedWrites htail, replay_cons]

theorem recovered_install (hok : HeaderOk start disk)
    (htail : tail < (readHeader (disk start)).length) (data : Block) :
    recovered start (update disk ((readHeader (disk start)).getD tail 0) data) = recovered start disk := by
  unfold recovered
  rw [loggedWrites_update (hok.2 _ (getD_mem htail)) hok]
  apply replay_update_of_mem
  rw [map_fst_loggedWrites]
  exact getD_mem htail

end Disk

/-! ## The code of the recovery -/

variable {c : Bio}

section Code

variable {l : LogState}

theorem installTrans_recovering (hinv : Inv l.dev [] (fun _ => 0) l.bio) (hfree : l.bio.heldBufs = ∅)
    (hok : HeaderOk l.start l.bio.disk) (hlh : readHeader (l.bio.disk l.start) = l.lh) :
    ∃ c, installTrans true l = .ok { l with bio := c } ∧ Inv l.dev [] (fun _ => 0) c ∧ c.heldBufs = ∅ ∧
      c.disk = recovered l.start l.bio.disk := by
  have hrounds := forTail_ok (l := l) (f := installAt true)
    (P := fun tail c => Inv l.dev [] (fun _ => 0) c ∧ c.heldBufs = ∅ ∧ HeaderOk l.start c.disk ∧
      readHeader (c.disk l.start) = l.lh ∧
      replay ((loggedWrites l.start c.disk).drop tail) c.disk = recovered l.start l.bio.disk)
    (fun tail c htail h => ?_) 0 l.lh.length (Nat.zero_add _) ⟨hinv, hfree, hok, hlh, rfl⟩
  · obtain ⟨c, hloop, hinv', hfree', -, hlh', hdisk⟩ := hrounds
    rw [drop_eq_nil_of_le (by rw [length_loggedWrites, hlh']), replay_nil] at hdisk
    exact ⟨c, hloop, hinv', hfree', hdisk⟩
  obtain ⟨hinv, hfree, hok, hlh, hdisk⟩ := h
  obtain ⟨c', hrun, hwrote⟩ := (installAt_recovering (s := { l with bio := c }) hinv tail).ok hfree (by decide)
  have hdisk' := hwrote.disk
  rw [← hlh] at htail hdisk'
  have hhome := hok.2 _ (getD_mem htail)
  have hstart : c'.disk l.start = c.disk l.start := by
    rw [hdisk']
    exact update_of_ne hhome.ne_start.symm _ _
  refine ⟨c', hrun, hwrote.inv, hwrote.heldBufs.trans hfree, ?_, by rw [hstart, hlh], ?_⟩
  · rw [hdisk']
    exact headerOk_update hhome hok
  · rw [hdisk', ← hdisk]
    exact replay_install hok htail

theorem recoverFromLog_spec (hinv : Inv l.dev [] (fun _ => 0) l.bio) (hfree : l.bio.heldBufs = ∅)
    (hok : HeaderOk l.start l.bio.disk) : ∃ t, recoverFromLog l = .ok t ∧
      ∀ b, Home l.start b → t.bio.disk b = recovered l.start l.bio.disk b := by
  rcases readHead_effect hinv with ⟨c, hread, hinv₁, hdisk₁, hholder₁⟩ | ⟨_, hfull⟩
  · have hfree₁ : c.heldBufs = ∅ := by
      unfold heldBufs
      simp only [hholder₁]
      exact hfree
    rw [← hdisk₁] at hok
    obtain ⟨c₂, hloop, hinv₂, hfree₂, hdisk₂⟩ := installTrans_recovering
      (l := { l with bio := c, lh := readHeader (l.bio.disk l.start) }) hinv₁ hfree₁ hok (by rw [hdisk₁])
    obtain ⟨c₃, hwrite, hwrote⟩ := (writeHead_effect (s := { l with bio := c₂, lh := [] }) hinv₂ not_mem_nil).ok
      hfree₂ (by decide)
    refine ⟨{ l with bio := c₃, lh := [] }, ?_, ?_⟩
    · unfold recoverFromLog
      simp only [hread, hloop, hwrite, bind, Except.bind]
    intro b hhome
    rw [hwrote.disk, update_of_ne hhome.ne_start]
    dsimp only
    rw [hdisk₂]
    dsimp only
    rw [hdisk₁]
  · rw [hfree, Finset.card_empty] at hfull
    exact absurd hfull (by decide)

end Code

/-! ## The invariant -/

/-- The first `n` blocks of the log are written, under a header that says nothing is to recover. -/
structure LogWritten (l : LogState) (n : Nat) : Prop where
  header : readHeader (l.bio.disk l.start) = []
  nonempty : l.lh ≠ []
  blocks : ∀ j < n, j < l.lh.length → l.bio.disk (l.start + j + 1) = l.bio.content l.dev (l.lh.getD j 0)

/-- The writes of the log from `tail` on lead to the committed contents. -/
structure Installing (l : LogState) (committed : Nat → Block) (tail : Nat) : Prop where
  header : readHeader (l.bio.disk l.start) = l.lh
  rest : ∀ b, Home l.start b → replay ((loggedWrites l.start l.bio.disk).drop tail) l.bio.disk b = committed b

/-- What is on the disk, by how far the commit or the recovery has come. -/
def OnDisk (l : LogState) (committed : Nat → Block) : Phase → Prop
  | .idle | .commitDone => readHeader (l.bio.disk l.start) = []
  | .writeLog tail => LogWritten l tail
  | .writeHead => LogWritten l l.lh.length
  | .install tail | .recoverInstall tail => Installing l committed tail
  | .clearHead | .recoverClear => ∀ b, Home l.start b → l.bio.disk b = committed b
  | .readHead | .halted => True

structure Durable (s : State) : Prop where
  header : HeaderOk s.log.start s.log.bio.disk
  recovers : ∀ b, Home s.log.start b → recovered s.log.start s.log.bio.disk b = s.committed b
  onDisk : OnDisk s.log s.committed s.phase

variable {s s' : State} {ev : Event}

theorem Durable.of_disk (h : Durable s) (hdisk : s'.log.bio.disk = s.log.bio.disk)
    (hstart : s'.log.start = s.log.start) (hcommitted : s'.committed = s.committed)
    (hon : OnDisk s'.log s'.committed s'.phase) : Durable s' where
  header := by rw [hdisk, hstart]; exact h.header
  recovers := by rw [hdisk, hstart, hcommitted]; exact h.recovers
  onDisk := hon

theorem Durable.of_idle (h : Durable s) (hphase : s.phase = .idle) (hphase' : s'.phase = .idle)
    (hdisk : s'.log.bio.disk = s.log.bio.disk) (hstart : s'.log.start = s.log.start)
    (hcommitted : s'.committed = s.committed) : Durable s' := by
  apply h.of_disk hdisk hstart hcommitted
  have hon := h.onDisk
  rw [hphase] at hon
  rw [hphase']
  unfold OnDisk at hon ⊢
  rw [hdisk, hstart]
  exact hon

theorem Durable.of_content (h : Durable s) (hdisk : c.disk = s.log.bio.disk)
    (hcontent : c.content s.log.dev = s.log.bio.content s.log.dev) :
    Durable { s with log := { s.log with bio := c } } := by
  refine h.of_disk hdisk rfl rfl ?_
  have hon := h.onDisk
  dsimp only
  revert hon
  cases s.phase with
  | writeLog | writeHead =>
    rintro ⟨hheader, hne, hblocks⟩
    exact ⟨by rw [hdisk]; exact hheader, hne, by rw [hdisk, hcontent]; exact hblocks⟩
  | install | recoverInstall =>
    rintro ⟨hheader, hrest⟩
    exact ⟨by rw [hdisk]; exact hheader, by rw [hdisk]; exact hrest⟩
  | _ =>
    intro hon
    unfold OnDisk at hon ⊢
    first
      | exact hon
      | (rw [hdisk]; exact hon)

theorem Durable.writeLogAt {tail : Nat} (h : Durable s) (hcache : Cached s)
    (hphase : s.phase = .writeLog tail) (htail : tail < s.log.lh.length)
    (hwrite : Log.writeLogAt s.log tail = .ok { s.log with bio := c }) :
    Durable { s with log := { s.log with bio := c }, phase := .writeLog (tail + 1) } := by
  have hrun : s.phase.running = true := hphase ▸ rfl
  have hwrote := hcache.writeLogAt hphase htail hwrite
  have hfits := hcache.fits hrun
  have hon := h.onDisk
  rw [hphase] at hon
  obtain ⟨hempty, hne, hsofar⟩ : LogWritten s.log tail := hon
  have hstart : c.disk s.log.start = s.log.bio.disk s.log.start := by
    rw [hwrote.disk]
    exact update_of_ne (by omega) _ _
  have hempty' : readHeader (c.disk s.log.start) = [] := by
    rw [hstart]
    exact hempty
  constructor
  case header =>
    unfold HeaderOk
    dsimp only
    rw [hstart]
    exact h.header
  case recovers =>
    intro b hhome
    have hold := h.recovers b hhome
    have hb : b ≠ s.log.start + tail + 1 := hhome.ne_logBlock (by omega)
    rw [recovered_of_empty hempty] at hold
    dsimp only
    rw [recovered_of_empty hempty', hwrote.disk, update_of_ne hb, hold]
  case onDisk =>
    refine ⟨hempty', hne, ?_⟩
    intro j hj hlen
    have hhome := hcache.home hrun _ (getD_mem hlen)
    have hcontent : c.content s.log.dev (s.log.lh.getD j 0) =
        s.log.bio.content s.log.dev (s.log.lh.getD j 0) := by
      rw [hwrote.content, update_of_ne (hhome.ne_logBlock (by omega))]
    dsimp only
    rw [hcontent, hwrote.disk]
    by_cases hjt : j = tail
    · rw [hjt, update_self]
    · rw [update_of_ne (by omega)]
      exact hsofar j (by omega) hlen

theorem loggedWrites_writeHead (hcache : Cached s) (hphase : s.phase = .writeHead)
    (hwritten : LogWritten s.log s.log.lh.length) (hwrite : Log.writeHead s.log = .ok { s.log with bio := c }) :
    readHeader (c.disk s.log.start) = s.log.lh ∧ loggedWrites s.log.start c.disk =
      s.log.lh.map fun b => (b, s.log.bio.content s.log.dev b) := by
  have hrun : s.phase.running = true := hphase ▸ rfl
  have hdisk := (hcache.writeHead hphase hwrite).disk
  have hheader : readHeader (c.disk s.log.start) = s.log.lh := by
    rw [hdisk, update_self]
    exact readHeader_writeHeader _ (hcache.fits hrun) fun b hb => (hcache.home hrun b hb).1
  refine ⟨hheader, ?_⟩
  apply ext_getElem
  · rw [length_loggedWrites, hheader, length_map]
  intro j hj _
  have hlen : j < s.log.lh.length := by
    rw [length_loggedWrites, hheader] at hj
    exact hj
  rw [getElem_loggedWrites, hheader, getElem_map, hdisk,
    update_of_ne (by omega : s.log.start + j + 1 ≠ s.log.start),
    hwritten.blocks j hlen hlen, getD_eq_getElem _ _ hlen]

theorem recovered_writeHead (hcache : Cached s) (hphase : s.phase = .writeHead)
    (hwritten : LogWritten s.log s.log.lh.length)
    (hwrite : Log.writeHead s.log = .ok { s.log with bio := c }) {b : Nat}
    (hhome : Home s.log.start b) :
    recovered s.log.start c.disk b = s.log.bio.content s.log.dev b := by
  have hrun : s.phase.running = true := hphase ▸ rfl
  obtain ⟨_, hwrites⟩ := loggedWrites_writeHead hcache hphase hwritten hwrite
  have hfst : (loggedWrites s.log.start c.disk).map Prod.fst = s.log.lh := by
    rw [hwrites, map_map]
    exact map_id _
  unfold recovered
  by_cases hb : b ∈ s.log.lh
  · have hmem : (b, s.log.bio.content s.log.dev b) ∈ loggedWrites s.log.start c.disk := by
      rw [hwrites]
      exact mem_map_of_mem hb
    exact replay_of_nodup (by rw [hfst]; exact hcache.nodup hrun) hmem
  -- a block that is not logged is the same in the cache and on the disk
  have hinv := hcache.cache (by simp [hphase])
  rw [show s.pins = s.log.lh by simp [State.pins, hphase]] at hinv
  rw [replay_of_not_mem (by rw [hfst]; exact hb), (hcache.writeHead hphase hwrite).disk,
    update_of_ne hhome.ne_start, content_of_not_mem hinv hb]

theorem Durable.writeHead (h : Durable s) (hcache : Cached s) (hphase : s.phase = .writeHead)
    (hwrite : Log.writeHead s.log = .ok { s.log with bio := c }) :
    Durable { s with
      log := { s.log with bio := c }, phase := .install 0
      committed := s.log.bio.content s.log.dev } := by
  have hrun : s.phase.running = true := hphase ▸ rfl
  have hon := h.onDisk
  rw [hphase] at hon
  have hwritten : LogWritten s.log s.log.lh.length := hon
  obtain ⟨hheader, _⟩ := loggedWrites_writeHead hcache hphase hwritten hwrite
  have hrecovers : ∀ b, Home s.log.start b →
      recovered s.log.start c.disk b = s.log.bio.content s.log.dev b :=
    fun b hhome => recovered_writeHead hcache hphase hwritten hwrite hhome
  constructor
  case header =>
    unfold HeaderOk
    dsimp only
    rw [hheader]
    exact ⟨hcache.fits hrun, hcache.home hrun⟩
  case recovers => exact hrecovers
  case onDisk => exact ⟨hheader, hrecovers⟩

theorem Durable.install {tail : Nat} {pins : List Nat} {phase : Phase} (h : Durable s)
    (hon : Installing s.log s.committed tail) (htail : tail < s.log.lh.length)
    (hwrote : Wrote s.log.dev pins s.log.bio (s.log.lh.getD tail 0)
      (s.log.bio.disk (s.log.start + tail + 1)) c) (hphase : OnDisk { s.log with bio := c } s.committed phase =
      Installing { s.log with bio := c } s.committed (tail + 1)) :
    Durable { s with log := { s.log with bio := c }, phase := phase } := by
  obtain ⟨hheader, hrest⟩ := hon
  have hdisk := hwrote.disk
  rw [← hheader] at htail hdisk
  have hhome := h.header.2 _ (getD_mem htail)
  constructor
  case header =>
    dsimp only
    rw [hdisk]
    exact headerOk_update hhome h.header
  case recovers =>
    intro b hb
    dsimp only
    rw [hdisk, recovered_install h.header htail]
    exact h.recovers b hb
  case onDisk =>
    dsimp only
    rw [hphase]
    constructor
    case header =>
      dsimp only
      rw [hdisk, update_of_ne hhome.ne_start.symm]
      exact hheader
    case rest =>
      intro b hb
      dsimp only
      rw [hdisk, replay_install h.header htail]
      exact hrest b hb

theorem Installing.done {l : LogState} {committed : Nat → Block} {tail b : Nat}
    (h : Installing l committed tail) (htail : l.lh.length ≤ tail) (hb : Home l.start b) :
    l.bio.disk b = committed b := by
  have hrest := h.rest b hb
  rw [drop_eq_nil_of_le (by rw [length_loggedWrites, h.header]; exact htail)] at hrest
  exact hrest

theorem durable_clear {phase : Phase} (hinstalled : ∀ b, Home s.log.start b → s.log.bio.disk b = s.committed b)
    (hwrote : Wrote s.log.dev [] s.log.bio s.log.start
      (writeHeader (s.log.bio.disk s.log.start) []) c) (hphase : phase = .idle ∨ phase = .commitDone) :
    Durable { s with log := { s.log with bio := c, lh := [] }, phase := phase } := by
  have hempty : readHeader (c.disk s.log.start) = [] := by
    rw [hwrote.disk, update_self]
    exact readHeader_writeHeader _ (by simp) (by simp)
  constructor
  case header =>
    unfold HeaderOk
    dsimp only
    rw [hempty]
    exact ⟨by simp, by simp⟩
  case recovers =>
    intro b hb
    dsimp only
    rw [recovered_of_empty hempty, hwrote.disk, update_of_ne hb.ne_start]
    exact hinstalled b hb
  case onDisk =>
    dsimp only
    rcases hphase with rfl | rfl <;> exact hempty

theorem content_setHolder {i : Fin NBUF} {dev : Nat} {p : Option (Fin NPROC)} :
    (c.setHolder i p).content dev = c.content dev := by
  have hdisk : (c.setHolder i p).disk = c.disk := rfl
  apply content_congr hdisk
  intro j
  unfold setHolder
  rw [modify_buf]
  split <;> exact ⟨rfl, rfl, rfl⟩

theorem durable_step (h : Durable s) (hcache : Cached s) (hc : Counted s) (hstep : Step s ev s') : Durable s' := by
  have hon := h.onDisk
  cases step_effect hstep with
  | beginOp p hrun hidle hcommit =>
    have hphase := hc.idle_of_not_committing hrun hcommit
    exact h.of_idle hphase hphase rfl rfl rfl
  | bread p b i c hrun hfree hread =>
    have hspec := Bread.of_bread (hcache.cache (ne_halted_of_running hrun)) hread
    have hcontent := funext (hspec.content (hcache.cache (ne_halted_of_running hrun)))
    exact h.of_content hspec.disk (content_setHolder.trans hcontent)
  | absorb p b data hrun hactive | append p b data hrun hactive | endOp p hrun hactive =>
    have hphase := hc.idle_of_active hrun hactive
    exact h.of_idle hphase hphase rfl rfl rfl
  | brelse =>
    exact h.of_content brelse_disk (content_brelse.trans content_setHolder)
  | endLastOp p hrun hactive =>
    rw [hc.idle_of_active hrun hactive] at hon
    refine h.of_disk rfl rfl rfl ?_
    dsimp only
    split
    · rename_i hlen
      refine ⟨hon, ?_, fun j hj => absurd hj (Nat.not_lt_zero j)⟩
      exact length_pos_iff.mp hlen
    · exact hon
  | writeLogAt tail c hphase htail hwrite => exact h.writeLogAt hcache hphase htail hwrite
  | writeLogEnd tail hphase htail =>
    rw [hphase] at hon
    obtain ⟨hempty, hne, hblocks⟩ : LogWritten s.log tail := hon
    refine h.of_disk rfl rfl rfl ?_
    exact ⟨hempty, hne, fun j hj hlen => hblocks j (Nat.lt_of_lt_of_le hj htail) hlen⟩
  | writeHead c hphase hwrite => exact h.writeHead hcache hphase hwrite
  | installAt tail c hphase htail hwrite =>
    rw [hphase] at hon
    exact h.install hon htail (hcache.installAt hphase htail hwrite) rfl
  | installEnd tail hphase htail | recoverInstallEnd tail hphase htail =>
    rw [hphase] at hon
    exact h.of_disk rfl rfl rfl fun b hb => Installing.done hon htail hb
  | clearHead c hphase hwrite =>
    rw [hphase] at hon
    exact durable_clear hon (hcache.clear (.inl hphase) hwrite) (.inr rfl)
  | commitDone hphase =>
    rw [hphase] at hon
    exact h.of_disk rfl rfl rfl hon
  | readHead c lh hphase hread =>
    obtain ⟨_, hdisk, hlh, _⟩ := hcache.readHead hphase hread
    refine h.of_disk hdisk rfl rfl ⟨?_, ?_⟩
    · dsimp only
      rw [hdisk, hlh]
    intro b hb
    dsimp only
    rw [hdisk]
    exact h.recovers b hb
  | recoverInstallAt tail c hphase htail hwrite =>
    rw [hphase] at hon
    exact h.install hon htail (hcache.recoverInstallAt hphase hwrite) rfl
  | recoverClear c hphase hwrite =>
    rw [hphase] at hon
    exact durable_clear hon (hcache.clear (.inr hphase) hwrite) (.inl rfl)
  | noBuffers | tooBig | outsideTrans | committing | crash => exact h.of_disk rfl rfl rfl trivial

theorem durable_run {s₀ : State} {tr : List Event} (hboot : Booted s₀) (h : Run Step s₀ tr s) :
    Counted s ∧ Cached s ∧ Durable s := by
  obtain ⟨dev, start, disk, hdev, hok, rfl⟩ := hboot
  have hbegin : Counted (boot dev start disk) ∧ Cached (boot dev start disk) ∧
      Durable (boot dev start disk) :=
    ⟨counted_restart (boot dev start disk), cached_restart (boot dev start disk) hdev, hok, fun _ _ => rfl, trivial⟩
  apply h.invariant _ hbegin
  rintro s ev s' ⟨hc, hcache, hs⟩ hstep
  exact ⟨counted_step hc hstep, cached_step hcache hc hstep, durable_step hs hcache hc hstep⟩

theorem commitPoint_step (hc : Counted s) (hcache : Cached s) (h : Durable s)
    (hstep : Step s ev s') : CommitPoint s s' := by
  cases step_effect hstep with
  | writeHead c hphase hwrite =>
    right
    have hon := h.onDisk
    rw [hphase] at hon
    have hwritten : LogWritten s.log s.log.lh.length := hon
    exact ⟨hphase, hwritten.nonempty, hc.quiet (by simp [hphase]) (by simp [hphase]),
      (loggedWrites_writeHead hcache hphase hwritten hwrite).1, rfl⟩
  | _ => exact .inl rfl

/-! ## What the processes see -/

/-- From the commit point to the end of the commit nothing changes for the processes. -/
def Seen (s : State) : Prop :=
  ∀ tail, s.phase = .install tail → ∀ b, Home s.log.start b → s.log.bio.content s.log.dev b = s.committed b

theorem logBlock_committed {tail : Nat} (hcache : Cached s) (h : Durable s)
    (hphase : s.phase = .install tail) (htail : tail < s.log.lh.length) :
    s.log.bio.disk (s.log.start + tail + 1) = s.committed (s.log.lh.getD tail 0) := by
  have hrun : s.phase.running = true := hphase ▸ rfl
  have hon := h.onDisk
  rw [hphase] at hon
  have hheader : readHeader (s.log.bio.disk s.log.start) = s.log.lh := Installing.header hon
  have hlen : tail < (loggedWrites s.log.start s.log.bio.disk).length := by
    rw [length_loggedWrites, hheader]
    exact htail
  have hmem := getElem_mem hlen
  rw [getElem_loggedWrites, hheader] at hmem
  have hfst : (loggedWrites s.log.start s.log.bio.disk).map Prod.fst = s.log.lh := by
    rw [map_fst_loggedWrites, hheader]
  rw [← h.recovers _ (hcache.home hrun _ (getD_mem htail))]
  exact (replay_of_nodup (by rw [hfst]; exact hcache.nodup hrun) hmem).symm

theorem content_log {pins : List Nat} {b x : Nat} {data : Block}
    (h : Wrote s.log.dev pins s.log.bio x data c) (hne : b ≠ x) :
    c.content s.log.dev b = s.log.bio.content s.log.dev b := by
  rw [h.content, update_of_ne hne]

theorem content_logged {i : Fin NBUF} {data : Block} {pins pins' : List Nat}
    (h : Inv s.log.dev pins (fun _ => 0) s.log.bio) (h' : Inv s.log.dev pins' (fun _ => 0) c)
    (hi : (s.log.bio.buf i).isFor s.log.dev (s.log.bio.buf i).blockno) (hdisk : c.disk = s.log.bio.disk)
    (hself : c.buf i = { s.log.bio.buf i with data := data, refcnt := (c.buf i).refcnt })
    (hother : ∀ j, j ≠ i → c.buf j = s.log.bio.buf j)
    (hpins : ∀ x, x ≠ (s.log.bio.buf i).blockno → (x ∈ pins' ↔ x ∈ pins)) (p : Fin NPROC)
    (r : Option Panic) (b : Nat) :
    c.content s.log.dev b = (loggedData s b (.logWrite p i data, r)).getD (s.log.bio.content s.log.dev b) := by
  have hcontent : c.content s.log.dev =
      update (s.log.bio.content s.log.dev) (s.log.bio.buf i).blockno data := by
    apply content_setData h h' hi
    · rw [hself]
      exact ⟨hi, rfl⟩
    · intro j hj
      rw [hother j hj]
      exact ⟨rfl, rfl, rfl⟩
    · intro x _
      rw [hdisk]
    · exact hpins
  show c.content s.log.dev b =
    (if (s.log.bio.buf i).blockno = b then some data else none).getD (s.log.bio.content s.log.dev b)
  rw [hcontent]
  by_cases hb : (s.log.bio.buf i).blockno = b
  · rw [if_pos hb, ← hb, update_self]
    rfl
  · rw [if_neg hb, update_of_ne (Ne.symm hb)]
    rfl

theorem SeesUpdates.of_running (hrun : s.phase.running = true)
    (h : ∀ b, Home s.log.start b → s'.log.bio.content s'.log.dev b =
      (loggedData s b ev).getD (s.log.bio.content s.log.dev b)) : SeesUpdates s ev s' :=
  fun b hb => ⟨fun _ _ => h b hb, fun hnot => by rw [hrun] at hnot; cases hnot⟩

theorem SeesUpdates.of_stopped (h : s'.phase.running = false) : SeesUpdates s ev s' := by
  intro b _
  refine ⟨fun _ hrun => ?_, fun _ hrun => ?_⟩
  all_goals
    rw [h] at hrun
    cases hrun

theorem sees_step (hc : Counted s) (hcache : Cached s) (h : Durable s) (hseen : Seen s)
    (hstep : Step s ev s') : SeesUpdates s ev s' := by
  cases step_effect hstep with
  | beginOp p hrun | endOp p hrun | endLastOp p hrun => exact .of_running hrun fun _ _ => rfl
  | bread p b i c hrun hfree hread =>
    have hspec := Bread.of_bread (hcache.cache (ne_halted_of_running hrun)) hread
    apply SeesUpdates.of_running hrun
    intro b' _
    dsimp only
    rw [content_setHolder]
    exact hspec.content (hcache.cache (ne_halted_of_running hrun)) b'
  | absorb p i data hrun hactive hheld hhome hroom hmem =>
    have hinv := hcache.idle (hc.idle_of_active hrun hactive)
    have hi := hcache.isFor_of_held (ne_halted_of_running hrun) hheld
    apply SeesUpdates.of_running hrun
    intro b _
    apply content_logged hinv (hinv.absorb hi hmem data) hi rfl
    · unfold setData
      rw [modify_buf_self]
    · intro j hj
      exact modify_buf_of_ne hj
    · exact fun _ _ => Iff.rfl
  | append p i data hrun hactive hheld hhome hroom hmem =>
    have hinv := hcache.idle (hc.idle_of_active hrun hactive)
    have hi := hcache.isFor_of_held (ne_halted_of_running hrun) hheld
    apply SeesUpdates.of_running hrun
    intro b _
    apply content_logged hinv (hinv.pin hi hmem data) hi rfl
    · unfold bpin setData
      rw [modify_buf_self, modify_buf_self]
    · intro j hj
      unfold bpin setData
      rw [modify_buf_of_ne hj, modify_buf_of_ne hj]
    · intro x hx
      simp [hx]
  | brelse p b hrun =>
    apply SeesUpdates.of_running hrun
    intro b' _
    dsimp only
    rw [content_brelse, content_setHolder]
    rfl
  | writeLogAt tail c hphase htail hwrite =>
    have hrun : s.phase.running = true := hphase ▸ rfl
    have hfits := hcache.fits hrun
    apply SeesUpdates.of_running hrun
    intro b hb
    exact content_log (hcache.writeLogAt hphase htail hwrite) (hb.ne_logBlock (by omega))
  | writeLogEnd tail hphase | installEnd tail hphase | commitDone hphase =>
    exact .of_running (by rw [hphase]; rfl) fun _ _ => rfl
  | writeHead c hphase hwrite =>
    apply SeesUpdates.of_running (by rw [hphase]; rfl)
    intro b hb
    exact content_log (hcache.writeHead hphase hwrite) hb.ne_start
  | installAt tail c hphase htail hwrite =>
    have hwrote := hcache.installAt hphase htail hwrite
    apply SeesUpdates.of_running (by rw [hphase]; rfl)
    intro b hb
    by_cases hbt : b = s.log.lh.getD tail 0
    · -- the block gets its own contents back
      dsimp only
      rw [hwrote.content, hbt, update_self, logBlock_committed hcache h hphase htail, ← hseen tail hphase _ (hbt ▸ hb)]
      rfl
    · exact content_log hwrote hbt
  | clearHead c hphase hwrite =>
    apply SeesUpdates.of_running (by rw [hphase]; rfl)
    intro b hb
    exact content_log (hcache.clear (.inl hphase) hwrite) hb.ne_start
  | readHead | recoverInstallAt | recoverInstallEnd => exact .of_stopped rfl
  | recoverClear c hphase hwrite =>
    have hwrote := hcache.clear (.inr hphase) hwrite
    have hon := h.onDisk
    rw [hphase] at hon
    intro b hb
    refine ⟨fun hrun => ?_, fun _ _ => ?_⟩
    · rw [hphase] at hrun
      cases hrun
    -- nothing is pinned after recovery, so the cache shows the disk
    have hcontent := content_of_not_mem hwrote.inv (b := b) not_mem_nil
    rw [hwrote.disk, update_of_ne hb.ne_start] at hcontent
    exact hcontent.trans (hon b hb)
  | noBuffers | tooBig | outsideTrans | committing | crash => exact .of_stopped rfl

theorem seen_step (hc : Counted s) (hseen : Seen s) (hsees : SeesUpdates s ev s') (hstep : Step s ev s') : Seen s' := by
  intro tail' hphase' b hb
  cases step_effect hstep with
  | bread p b' i c hrun | brelse p i hrun =>
    exact ((hsees b hb).1 hrun hrun).trans (hseen tail' hphase' b hb)
  | writeHead c hphase => exact (hsees b hb).1 (by rw [hphase]; rfl) rfl
  | installAt tail c hphase =>
    exact ((hsees b hb).1 (by rw [hphase]; rfl) rfl).trans (hseen tail hphase b hb)
  | beginOp => exact hseen tail' hphase' b hb
  | absorb p i data hrun hactive | append p i data hrun hactive =>
    have hidle := hc.idle_of_active hrun hactive
    rw [hidle] at hphase'
    cases hphase'
  | endOp => exact hseen tail' hphase' b hb
  | endLastOp =>
    dsimp only at hphase'
    split at hphase' <;> cases hphase'
  | _ => cases hphase'

theorem seen_run {s₀ : State} {tr : List Event} (hboot : Booted s₀) (h : Run Step s₀ tr s) : Seen s := by
  induction h with
  | nil =>
    obtain ⟨dev, start, disk, _, _, rfl⟩ := hboot
    intro tail hphase
    cases hphase
  | snoc hrun hstep ih =>
    obtain ⟨hc, hcache, hs⟩ := durable_run hboot hrun
    exact seen_step hc ih (sees_step hc hcache hs ih hstep) hstep

theorem recovers_of_durable (hcache : Cached s) (h : Durable s) : Recovers s := by
  have hinv : Inv s.log.dev [] (fun _ => 0) (binit s.log.bio.disk) := inv_binit _ hcache.dev
  have hfree : (binit s.log.bio.disk).heldBufs = ∅ := by
    unfold heldBufs binit
    simp
  obtain ⟨t, hrecover, hdisk⟩ := recoverFromLog_spec (l := s.restart.log) hinv hfree h.header
  refine ⟨t, hrecover, ?_⟩
  intro b hb
  rw [hdisk b hb]
  exact h.recovers b hb

theorem crashAtomic : CrashAtomic Step := by
  intro s₀ tr s hboot hrun
  obtain ⟨hc, hcache, hs⟩ := durable_run hboot hrun
  have hseen := seen_run hboot hrun
  refine ⟨recovers_of_durable hcache hs, fun ev s' hstep => ⟨?_, ?_⟩⟩
  · exact commitPoint_step hc hcache hs hstep
  · exact sees_step hc hcache hs hseen hstep

end Xv6.Log
