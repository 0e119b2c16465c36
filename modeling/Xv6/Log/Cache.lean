import Mathlib.Data.List.GetD
import Xv6.Log.Ops

/-!
# The cache under the log

The logged blocks are pinned from `log_write` until `install_trans` has written them home; all other
buffers agree with the disk.
-/

namespace Xv6.Log

open Bio List Runs

def State.pins (s : State) : List Nat :=
  match s.phase with
  | .idle | .writeLog _ | .writeHead => s.log.lh
  | .install tail => s.log.lh.drop tail
  | _ => []

structure Cached (s : State) : Prop where
  dev : s.log.dev ≠ 0
  cache : s.phase ≠ .halted → Inv s.log.dev s.pins (fun _ => 0) s.log.bio
  nodup : s.phase.running = true → s.log.lh.Nodup
  home : s.phase.running = true → ∀ b ∈ s.log.lh, Home s.log.start b
  fits : s.phase.running = true → s.log.lh.length ≤ LOGBLOCKS

variable {s s' : State} {ev : Event} {p : Fin NPROC}

theorem Home.ne_start {start b : Nat} (h : Home start b) : b ≠ start := by
  unfold Home at h
  omega

theorem Home.ne_logBlock {start b tail : Nat} (h : Home start b) (htail : tail < LOGBLOCKS) : b ≠ start + tail + 1 := by
  unfold Home at h
  omega

variable {c : Bio} {tail : Nat} {lh : List Nat}

theorem WritesOrFails.wrote {l : LogState} {pins : List Nat} {b n : Nat} {data : Block}
    {r : Except Panic LogState} (h : WritesOrFails l pins b data n r)
    (hok : r = .ok { l with bio := c }) : Wrote l.dev pins l.bio b data c := by
  rcases h with ⟨c', hr, hwrote⟩ | ⟨hr, _⟩
  · rw [hr] at hok
    cases hok
    exact hwrote
  · rw [hr] at hok
    cases hok

theorem getD_mem (h : tail < lh.length) : lh.getD tail 0 ∈ lh := by
  rw [getD_eq_getElem _ _ h]
  exact getElem_mem h

theorem drop_eq_getD_cons (h : tail < lh.length) : lh.drop tail = lh.getD tail 0 :: lh.drop (tail + 1) := by
  rw [getD_eq_getElem _ _ h]
  exact drop_eq_getElem_cons h

theorem holder_of_bread {b : Nat} {i : Fin NBUF}
    (h : Inv s.log.dev s.pins (fun _ => 0) s.log.bio) (hfree : ¬ s.log.locked b)
    (hread : Bread s.log.dev b s.pins (fun _ => 0) s.log.bio i c) : (c.buf i).holder = none := by
  rw [hread.holder]
  by_contra hheld
  have href : (s.log.bio.buf i).refcnt ≠ 0 := by
    have hcount := h.refcnt i
    rw [if_neg hheld] at hcount
    omega
  have hisFor := hread.isFor
  rw [hread.keep i href] at hisFor
  exact hfree ⟨i, hisFor, hheld⟩

/-! ## The steps that write -/

theorem Cached.writeLogAt (h : Cached s) (hphase : s.phase = .writeLog tail)
    (htail : tail < s.log.lh.length) (hwrite : Log.writeLogAt s.log tail = .ok { s.log with bio := c }) :
    Wrote s.log.dev s.log.lh s.log.bio (s.log.start + tail + 1)
      (s.log.bio.content s.log.dev (s.log.lh.getD tail 0)) c := by
  have hinv := h.cache (by simp [hphase])
  rw [show s.pins = s.log.lh by simp [State.pins, hphase]] at hinv
  exact (writeLogAt_effect hinv (getD_mem htail)).wrote hwrite

theorem Cached.writeHead (h : Cached s) (hphase : s.phase = .writeHead)
    (hwrite : Log.writeHead s.log = .ok { s.log with bio := c }) :
    Wrote s.log.dev s.log.lh s.log.bio s.log.start (writeHeader (s.log.bio.disk s.log.start) s.log.lh) c := by
  have hinv := h.cache (by simp [hphase])
  rw [show s.pins = s.log.lh by simp [State.pins, hphase]] at hinv
  have hstart : s.log.start ∉ s.log.lh := fun hmem =>
    (h.home (by rw [hphase]; rfl) _ hmem).ne_start rfl
  exact (writeHead_effect hinv hstart).wrote hwrite

theorem Cached.installAt (h : Cached s) (hphase : s.phase = .install tail)
    (htail : tail < s.log.lh.length) (hwrite : Log.installAt false s.log tail = .ok { s.log with bio := c }) :
    Wrote s.log.dev (s.log.lh.drop (tail + 1)) s.log.bio (s.log.lh.getD tail 0)
      (s.log.bio.disk (s.log.start + tail + 1)) c := by
  have hrun : s.phase.running = true := hphase ▸ rfl
  have hinv := h.cache (by simp [hphase])
  have hpins : s.pins = s.log.lh.getD tail 0 :: s.log.lh.drop (tail + 1) := by
    rw [← drop_eq_getD_cons htail]
    simp [State.pins, hphase]
  have hnodup : s.pins.Nodup := by
    rw [hpins, ← drop_eq_getD_cons htail]
    exact (h.nodup hrun).sublist (drop_sublist _ _)
  have hlog : s.log.start + tail + 1 ∉ s.pins := by
    intro hmem
    rw [hpins, ← drop_eq_getD_cons htail] at hmem
    have hfits := h.fits hrun
    exact (h.home hrun _ (mem_of_mem_drop hmem)).ne_logBlock (by omega) rfl
  rw [hpins] at hnodup
  exact (installAt_effect hpins hinv (nodup_cons.mp hnodup).1 hlog).wrote hwrite

theorem Cached.clear (h : Cached s) (hphase : s.phase = .clearHead ∨ s.phase = .recoverClear)
    (hwrite : Log.writeHead { s.log with lh := [] } = .ok { s.log with bio := c, lh := [] }) :
    Wrote s.log.dev [] s.log.bio s.log.start (writeHeader (s.log.bio.disk s.log.start) []) c := by
  have hne : s.phase ≠ .halted := by
    rcases hphase with hphase | hphase <;> simp [hphase]
  have hpins : s.pins = [] := by
    rcases hphase with hphase | hphase <;> simp [State.pins, hphase]
  have hinv := h.cache hne
  rw [hpins] at hinv
  exact (writeHead_effect (s := { s.log with lh := [] }) hinv not_mem_nil).wrote hwrite

theorem Cached.recoverInstallAt (h : Cached s) (hphase : s.phase = .recoverInstall tail)
    (hwrite : Log.installAt true s.log tail = .ok { s.log with bio := c }) :
    Wrote s.log.dev [] s.log.bio (s.log.lh.getD tail 0) (s.log.bio.disk (s.log.start + tail + 1)) c := by
  have hinv := h.cache (by simp [hphase])
  rw [show s.pins = [] by simp [State.pins, hphase]] at hinv
  exact (installAt_recovering hinv tail).wrote hwrite

theorem Cached.readHead (h : Cached s) (hphase : s.phase = .readHead)
    (hread : Log.readHead s.log = .ok { s.log with bio := c, lh := lh }) :
    Inv s.log.dev [] (fun _ => 0) c ∧ c.disk = s.log.bio.disk ∧
      lh = readHeader (s.log.bio.disk s.log.start) ∧
      ∀ k, (c.buf k).holder = (s.log.bio.buf k).holder := by
  have hinv := h.cache (by simp [hphase])
  rw [show s.pins = [] by simp [State.pins, hphase]] at hinv
  rcases readHead_effect hinv with ⟨c', hok, hc', hdisk, hholder⟩ | ⟨herr, _⟩
  · rw [hread] at hok
    cases hok
    exact ⟨hc', hdisk, rfl, hholder⟩
  · rw [hread] at herr
    cases herr

/-! ## The invariant -/

theorem cached_restart (s : State) (hdev : s.log.dev ≠ 0) : Cached s.restart where
  dev := hdev
  cache _ := inv_binit _ hdev
  nodup h := by cases h
  home h := by cases h
  fits h := by cases h

theorem Cached.halt (h : Cached s) : Cached { s with phase := .halted } where
  dev := h.dev
  cache hne := absurd rfl hne
  nodup hrun := by cases hrun
  home hrun := by cases hrun
  fits hrun := by cases hrun

theorem Cached.of_lh (h : Cached s) (hdev : s'.log.dev = s.log.dev) (hstart : s'.log.start = s.log.start)
    (hlh : s'.log.lh = s.log.lh) (hrun : s'.phase.running = true → s.phase.running = true)
    (hcache : s'.phase ≠ .halted → Inv s.log.dev s'.pins (fun _ => 0) s'.log.bio) : Cached s' where
  dev := by rw [hdev]; exact h.dev
  cache := by rw [hdev]; exact hcache
  nodup hr := by rw [hlh]; exact h.nodup (hrun hr)
  home hr := by rw [hlh, hstart]; exact h.home (hrun hr)
  fits hr := by rw [hlh]; exact h.fits (hrun hr)

theorem Cached.of_empty (h : Cached s) (hdev : s'.log.dev = s.log.dev) (hlh : s'.log.lh = [])
    (hcache : s'.phase ≠ .halted → Inv s.log.dev s'.pins (fun _ => 0) s'.log.bio) : Cached s' where
  dev := by rw [hdev]; exact h.dev
  cache := by rw [hdev]; exact hcache
  nodup _ := by simp [hlh]
  home _ := by simp [hlh]
  fits _ := by simp [hlh]

theorem Cached.pins_of_idle (hphase : s.phase = .idle) : s.pins = s.log.lh := by
  simp [State.pins, hphase]

theorem Cached.idle (h : Cached s) (hphase : s.phase = .idle) : Inv s.log.dev s.log.lh (fun _ => 0) s.log.bio := by
  rw [← pins_of_idle hphase]
  exact h.cache (by rw [hphase]; nofun)

theorem Cached.isFor_of_held (h : Cached s) (hne : s.phase ≠ .halted) {b : Fin NBUF}
    (hheld : (s.log.bio.buf b).holder = some p) : (s.log.bio.buf b).isFor s.log.dev (s.log.bio.buf b).blockno :=
  ⟨(h.cache hne).held b (by simp [hheld]), rfl⟩

theorem Cached.append {b : Fin NBUF} {data : Block} (h : Cached s) (hphase : s.phase = .idle)
    (hheld : (s.log.bio.buf b).holder = some p)
    (hhome : Home s.log.start (s.log.bio.buf b).blockno) (hroom : s.log.lh.length < LOGBLOCKS)
    (hmem : (s.log.bio.buf b).blockno ∉ s.log.lh) : Cached { s with
      log := { s.log with
        bio := (s.log.bio.setData b data).bpin b
        lh := s.log.lh ++ [(s.log.bio.buf b).blockno] }
      proc := s.logged p (s.log.bio.buf b).blockno } := by
  have hrun : s.phase.running = true := hphase ▸ rfl
  have hne := ne_halted_of_running hrun
  constructor
  case dev => exact h.dev
  case cache =>
    intro _
    rw [Cached.pins_of_idle (by exact hphase)]
    exact (h.idle hphase).pin (h.isFor_of_held hne hheld) hmem data
  case nodup =>
    intro _
    exact nodup_append.mpr ⟨h.nodup hrun, nodup_singleton _, by
      intro x hx y hy hxy
      rw [mem_singleton.mp hy] at hxy
      exact hmem (hxy ▸ hx)⟩
  case home =>
    intro _ x hx
    rcases mem_append.mp hx with hx | hx
    · exact h.home hrun x hx
    · rw [mem_singleton.mp hx]
      exact hhome
  case fits =>
    intro _
    dsimp only
    rw [length_append, length_singleton]
    omega

theorem cached_step (h : Cached s) (hc : Counted s) (hstep : Step s ev s') : Cached s' := by
  cases step_effect hstep with
  | beginOp => exact { h with }
  | bread p b i c hrun hfree hread =>
    have hinv := h.cache (ne_halted_of_running hrun)
    have hspec := Bread.of_bread hinv hread
    refine h.of_lh rfl rfl rfl (fun hr => hr) ?_
    intro _
    exact hspec.inv.lock hspec.isFor.1 (holder_of_bread hinv hfree hspec) p
  | absorb p b data hrun hactive hheld hhome hroom hmem =>
    have hidle := hc.idle_of_active hrun hactive
    refine h.of_lh rfl rfl rfl (fun hr => hr) ?_
    intro hne
    have hin : (s.log.bio.buf b).blockno ∈ s.pins := by
      rw [Cached.pins_of_idle hidle]
      exact hmem
    exact (h.cache hne).absorb (h.isFor_of_held hne hheld) hin data
  | append p b data hrun hactive hheld hhome hroom hmem =>
    exact h.append (hc.idle_of_active hrun hactive) hheld hhome hroom hmem
  | brelse p b hrun hheld =>
    refine h.of_lh rfl rfl rfl (fun hr => hr) ?_
    intro hne
    exact ((h.cache hne).unlock (by simp [hheld])).brelse
  | endOp => exact { h with }
  | endLastOp p hrun hactive =>
    refine h.of_lh rfl rfl rfl (fun _ => hrun) ?_
    intro _
    have hinv := h.idle (hc.idle_of_active hrun hactive)
    by_cases hlen : s.log.lh.length > 0
    · simpa [State.pins, hlen] using hinv
    · have hnil : s.log.lh = [] := length_eq_zero_iff.mp (by omega)
      simpa [State.pins, hnil] using hinv
  | writeLogAt tail c hphase htail hwrite =>
    exact h.of_lh rfl rfl rfl (fun _ => by rw [hphase]; rfl) fun _ => (h.writeLogAt hphase htail hwrite).inv
  | writeLogEnd tail hphase =>
    refine h.of_lh rfl rfl rfl (fun _ => by rw [hphase]; rfl) ?_
    intro _
    have hinv := h.cache (by simp [hphase])
    simpa [State.pins, hphase] using hinv
  | writeHead c hphase hwrite =>
    exact h.of_lh rfl rfl rfl (fun _ => by rw [hphase]; rfl) fun _ => (h.writeHead hphase hwrite).inv
  | installAt tail c hphase htail hwrite =>
    exact h.of_lh rfl rfl rfl (fun _ => by rw [hphase]; rfl) fun _ => (h.installAt hphase htail hwrite).inv
  | installEnd tail hphase htail =>
    refine h.of_lh rfl rfl rfl (fun _ => by rw [hphase]; rfl) ?_
    intro _
    have hinv := h.cache (by simp [hphase])
    simpa [State.pins, hphase, drop_eq_nil_of_le htail] using hinv
  | clearHead c hphase hwrite =>
    exact h.of_empty rfl rfl fun _ => (h.clear (.inl hphase) hwrite).inv
  | commitDone hphase =>
    have hnil := hc.cleared hphase
    refine h.of_empty rfl hnil ?_
    intro _
    have hinv := h.cache (by simp [hphase])
    simpa [State.pins, hphase, hnil] using hinv
  | readHead c lh hphase hread =>
    exact {
      dev := h.dev
      cache := fun _ => (h.readHead hphase hread).1
      nodup := fun hrun => by cases hrun
      home := fun hrun => by cases hrun
      fits := fun hrun => by cases hrun }
  | recoverInstallAt tail c hphase htail hwrite =>
    exact h.of_lh rfl rfl rfl (fun hrun => by cases hrun) fun _ => (h.recoverInstallAt hphase hwrite).inv
  | recoverInstallEnd tail hphase =>
    refine h.of_lh rfl rfl rfl (fun hrun => by cases hrun) ?_
    intro _
    have hinv := h.cache (by simp [hphase])
    simpa [State.pins, hphase] using hinv
  | recoverClear c hphase hwrite =>
    exact h.of_empty rfl rfl fun _ => (h.clear (.inr hphase) hwrite).inv
  | noBuffers | tooBig | outsideTrans | committing => exact h.halt
  | crash => exact cached_restart s h.dev

end Xv6.Log
