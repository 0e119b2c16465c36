import Mathlib.Data.Fintype.Card
import Mathlib.Data.Fintype.BigOperators
import Xv6.Disk.Bcache

/-!
# The buffer cache keeps one coherent copy of a block

The list holds every buffer once; an entry of the cache is found before any other buffer with the same block
number, also while buffers that have never been used all carry block 0 of device 0.
-/

namespace Xv6.Bcache

open Finset Function List Runs

variable {ι : Type}

/-! ## Steps -/

section Steps

/-- The acts of a call test what the call has done so far. -/
theorem of_call {o : Option Call} {P : Call → Prop} [DecidablePred P] {f : Call → State ι × Ret} {r : State ι × Ret}
    (h : (match o with | some c => if P c then some (f c) else none | none => none) = some r) :
    ∃ c, o = some c ∧ P c ∧ f c = r := by
  split at h
  · split_ifs at h with hguard
    exact ⟨_, rfl, hguard, Option.some.inj h⟩
  · cases h

variable [DecidableEq ι] {s t : State ι} {h : ι} {i : Fin NBUF} {ret : Ret}

theorem step_bget {pid : Nat} {dev blockno : UInt32} (hstep : Step ι s (.bget h pid dev blockno, ret) t) :
    s.calls h = none ∧ ret = .ref (dev, blockno) ∧ ∃ i buf, bget s.buf s.links dev blockno = some (i, buf) ∧
      t = { s with buf := buf, assigned := update s.assigned i true }.setCall h
        (some { buf := i, pid := pid, dev := dev, blockno := blockno, stage := .waiting }) := by
  simp only [Step, Exec, exec] at hstep
  split at hstep
  · rename_i hcall hget
    cases hstep
    exact ⟨hcall, rfl, _, _, hget, rfl⟩
  · cases hstep

theorem step_bpin (hstep : Step ι s (.bpin i, ret) t) : s.assigned i = true ∧ ret = .ref (s.buf i).key ∧
      t = { s.setBuf i { s.buf i with refcnt := (s.buf i).refcnt + 1 } with
        pins := update s.pins i (s.pins i + 1) } := by
  simp only [Step, Exec, exec] at hstep
  split_ifs at hstep with hguard
  cases hstep
  exact ⟨hguard, rfl, rfl⟩

theorem step_bunpin (hstep : Step ι s (.bunpin i, ret) t) : 0 < s.pins i ∧ ret = .unref (s.buf i).key ∧
      t = { s.setBuf i { s.buf i with refcnt := (s.buf i).refcnt - 1 } with
        pins := update s.pins i (s.pins i - 1) } := by
  simp only [Step, Exec, exec] at hstep
  split_ifs at hstep with hguard
  cases hstep
  exact ⟨hguard, rfl, rfl⟩

end Steps

section

variable (b : Buf) (disk : Key → Block)

theorem fill_key : (fill b disk).key = b.key := by
  unfold fill
  split <;> rfl

theorem fill_contents : (fill b disk).contents = some (fill b disk).data := by
  unfold fill
  split
  · exact if_pos ‹_›
  · rfl

theorem fill_valid : (fill b disk).valid = true := by
  unfold fill
  split
  · assumption
  · rfl

theorem fill_refcnt : (fill b disk).refcnt = b.refcnt := by
  unfold fill
  split <;> rfl

theorem fill_holdingsleep (pid : Nat) : (fill b disk).holdingsleep pid = b.holdingsleep pid := by
  unfold fill
  split <;> rfl

end

variable {lru : List (Fin NBUF)}

theorem bget_cases {buf buf' : Fin NBUF → Buf} {links : Links (Fin NBUF)}
    {dev blockno : UInt32} {i : Fin NBUF} (hcycle : links.Cycle lru)
    (h : bget buf links dev blockno = some (i, buf')) :
    (lru.find? (fun j => decide ((buf j).key = (dev, blockno))) = some i ∧
      buf' = update buf i { buf i with refcnt := (buf i).refcnt + 1 }) ∨
    (lru.find? (fun j => decide ((buf j).key = (dev, blockno))) = none ∧
      lru.reverse.find? (fun j => decide ((buf j).refcnt = 0)) = some i ∧ (buf i).refcnt = 0 ∧
      buf' = update buf i { buf i with dev := dev, blockno := blockno, valid := false, refcnt := 1 }) := by
  have hlen : lru.length ≤ NBUF := by
    have hcard := hcycle.nodup.length_le_card
    rwa [Fintype.card_fin] at hcard
  unfold bget at h
  rw [hcycle.forward.scan_eq _ hlen, hcycle.backward.scan_eq _ (by rwa [length_reverse])] at h
  split at h
  · rename_i hfound
    cases h
    exact .inl ⟨hfound, rfl⟩
  rename_i hmiss
  split at h
  · rename_i hfree
    cases h
    have hp := find?_some hfree
    exact .inr ⟨hmiss, hfree, of_decide_eq_true hp, rfl⟩
  · cases h

/-! ## The list -/

section Listed

theorem field_update {α : Type} (f : Buf → α) (buf : Fin NBUF → Buf) (i : Fin NBUF) (b : Buf) :
    (fun j => f (update buf i b j)) = update (fun j => f (buf j)) i (f b) := comp_update f buf i b

theorem field_update_same {α : Type} {f : Buf → α} {buf : Fin NBUF → Buf} {i : Fin NBUF} {b : Buf}
    (hb : f b = f (buf i)) : (fun j => f (update buf i b j)) = fun j => f (buf j) := by
  rw [field_update, hb]
  exact update_eq_self i fun j => f (buf j)

/-- Every buffer is on the list, an assigned buffer before any other one of its block, and calls have assigned
buffers. -/
structure Listed (lru : List (Fin NBUF)) (links : Links (Fin NBUF)) (buf : Fin NBUF → Buf)
    (assigned : Fin NBUF → Bool) (calls : ι → Option Call) : Prop where
  cycle : links.Cycle lru
  all : ∀ i, i ∈ lru
  finds : Cache.Finds lru (fun i => (buf i).key) assigned
  calls : ∀ h c, calls h = some c → assigned c.buf = true

theorem calls_update [DecidableEq ι] {calls : ι → Option Call} {h h' : ι} {o : Option Call} {c : Call}
    (hc : update calls h o h' = some c) : h' = h ∧ o = some c ∨ h' ≠ h ∧ calls h' = some c := by
  by_cases hh : h' = h
  · rw [hh, update_self] at hc
    exact .inl ⟨hh, hc⟩
  · rw [update_of_ne hh] at hc
    exact .inr ⟨hh, hc⟩

section

variable {links : Links (Fin NBUF)} {buf : Fin NBUF → Buf} {assigned : Fin NBUF → Bool} {calls : ι → Option Call}
  {i : Fin NBUF} {b : Buf} (hl : Listed lru links buf assigned calls)

include hl

theorem Listed.setBuf (hkey : b.key = (buf i).key) : Listed lru links (update buf i b) assigned calls := by
  refine ⟨hl.cycle, hl.all, ?_, hl.calls⟩
  rw [field_update_same hkey]
  exact hl.finds

theorem Listed.assign (buf' : Fin NBUF → Buf)
    (hfinds : Cache.Finds lru (fun j => (buf' j).key) (update assigned i true)) :
    Listed lru links buf' (update assigned i true) calls := by
  refine ⟨hl.cycle, hl.all, hfinds, fun h c hc => ?_⟩
  by_cases hi : c.buf = i
  · rw [hi, update_self]
  · rw [update_of_ne hi, hl.calls h c hc]

theorem Listed.moveFront (hi : assigned i = true) :
    Listed (i :: lru.erase i) ((links.unlink i).pushFront i) buf assigned calls := by
  exact ⟨hl.cycle.moveFront (hl.all i), fun j => (perm_cons_erase (hl.all i)).mem_iff.mp (hl.all j),
    hl.finds.moveFront hi, hl.calls⟩

theorem Listed.setCall [DecidableEq ι] {h : ι} {c : Option Call} (hc : ∀ c', c = some c' → assigned c'.buf = true) :
    Listed lru links buf assigned (update calls h c) := by
  refine ⟨hl.cycle, hl.all, hl.finds, fun h' c' hc' => ?_⟩
  rcases calls_update hc' with ⟨-, hnew⟩ | ⟨-, hold⟩
  · exact hc c' hnew
  · exact hl.calls h' c' hold

end

theorem listed_boot (disk : Key → Block) :
    Listed (finRange NBUF).reverse binit (boot disk : State ι).buf (boot disk : State ι).assigned
      (boot disk : State ι).calls := by
  refine ⟨?_, fun i => mem_reverse.mpr (mem_finRange i), nofun, nofun⟩
  have hnodup : ((finRange NBUF).reverse ++ []).Nodup := by
    rw [append_nil, nodup_reverse]
    exact nodup_finRange _
  have hfold := Links.cycle_alone.foldl_pushFront hnodup
  rwa [append_nil] at hfold

theorem Ordered.mono {step step' : State ι → Event ι → State ι → Prop} (h : Ordered step)
    (hsub : ∀ s ev t, step' s ev t → step s ev t) : Ordered step' := by
  intro disk tr s hrun
  obtain ⟨hlist, honce, hkeep⟩ := h disk tr s (hrun.mono hsub)
  exact ⟨hlist, honce, fun i ev t hstep => hkeep i ev t (hsub s ev t hstep)⟩

variable [DecidableEq ι] {s t : State ι}

theorem Listed.step {ev : Event ι} (hl : Listed lru s.links s.buf s.assigned s.calls) (hstep : Step ι s ev t) :
    (∃ lru, Listed lru t.links t.buf t.assigned t.calls) ∧
      ∀ i, (s.buf i).refcnt ≠ 0 → (t.buf i).key = (s.buf i).key := by
  have hkeep : ∀ {i b}, b.key = (s.buf i).key →
      ∀ j, (s.buf j).refcnt ≠ 0 → (update s.buf i b j).key = (s.buf j).key :=
    fun hkey j _ => congrFun (field_update_same hkey) j
  have hstage : ∀ {h c b} (stage : Stage), s.calls h = some c → b.key = (s.buf c.buf).key →
      Listed lru s.links (update s.buf c.buf b) s.assigned (update s.calls h (some { c with stage := stage })) := by
    intro h c b stage hc hkey
    refine (hl.setBuf hkey).setCall fun c' hc' => ?_
    cases hc'
    exact hl.calls h c hc
  obtain ⟨a, ret⟩ := ev
  cases a with
  | bget =>
    obtain ⟨-, -, i, buf, hget, rfl⟩ := step_bget hstep
    rcases bget_cases hl.cycle hget with ⟨hfind, rfl⟩ | ⟨hmiss, -, hzero, rfl⟩
    · refine ⟨⟨lru, ((hl.assign s.buf (hl.finds.hit hfind)).setBuf (by exact rfl)).setCall ?_⟩, hkeep rfl⟩
      rintro c' ⟨⟩
      exact update_self i true s.assigned
    · refine ⟨⟨lru, (hl.assign (update s.buf i _) ?_).setCall ?_⟩, fun j hj => ?_⟩
      · rw [field_update Buf.key]
        exact hl.finds.recycle hmiss hl.all
      · rintro c' ⟨⟩
        exact update_self i true s.assigned
      · have hji : j ≠ i := fun heq => hj (by rw [heq, hzero])
        show (update s.buf i _ j).key = _
        rw [update_of_ne hji]
  | acquiresleep =>
    obtain ⟨c, hc, -, ⟨⟩⟩ := of_call hstep
    exact ⟨⟨lru, hstage _ hc rfl⟩, hkeep rfl⟩
  | fill =>
    obtain ⟨c, hc, -, ⟨⟩⟩ := of_call hstep
    exact ⟨⟨lru, hstage _ hc (fill_key _ _)⟩, hkeep (fill_key _ _)⟩
  | modify =>
    obtain ⟨c, -, -, ⟨⟩⟩ := of_call hstep
    exact ⟨⟨lru, hl.setBuf rfl⟩, hkeep rfl⟩
  | bwrite =>
    obtain ⟨c, -, -, ⟨⟩⟩ := of_call hstep
    exact ⟨⟨lru, hl⟩, fun _ _ => rfl⟩
  | releasesleep =>
    obtain ⟨c, hc, -, ⟨⟩⟩ := of_call hstep
    exact ⟨⟨lru, hstage _ hc rfl⟩, hkeep rfl⟩
  | drop h =>
    obtain ⟨c, hc, -, ⟨⟩⟩ := of_call hstep
    have hbuf : Listed lru s.links (drop s.buf s.links c.buf).1 s.assigned (update s.calls h none) :=
      Listed.setCall (hl.setBuf (by exact rfl)) nofun
    refine ⟨?_, hkeep rfl⟩
    show ∃ lru, Listed lru (ite _ _ _) _ _ _
    split
    · exact ⟨_, hbuf.moveFront (hl.calls h c hc)⟩
    · exact ⟨lru, hbuf⟩
  | bpin =>
    obtain ⟨-, -, rfl⟩ := step_bpin hstep
    exact ⟨⟨lru, hl.setBuf rfl⟩, hkeep rfl⟩
  | bunpin =>
    obtain ⟨-, -, rfl⟩ := step_bunpin hstep
    exact ⟨⟨lru, hl.setBuf rfl⟩, hkeep rfl⟩

theorem ordered_step (ι : Type) [DecidableEq ι] : Ordered (Step ι) := by
  intro disk tr s hrun
  have hlisted : ∃ lru, Listed lru s.links s.buf s.assigned s.calls :=
    hrun.invariant (P := fun s => ∃ lru, Listed lru s.links s.buf s.assigned s.calls)
      (fun _ _ _ ⟨_, hl⟩ hstep => (hl.step hstep).1) ⟨_, listed_boot disk⟩
  obtain ⟨lru, hl⟩ := hlisted
  refine ⟨⟨lru, ?_, hl.cycle.forward, hl.cycle.backward⟩, fun _ _ => hl.finds.eq_of_key, ?_⟩
  · apply (perm_ext_iff_of_nodup hl.cycle.nodup (nodup_finRange NBUF)).mpr
    exact fun i => ⟨fun _ => mem_finRange i, fun _ => hl.all i⟩
  · exact fun i _ _ hstep => (hl.step hstep).2 i

end Listed

/-! ## References -/

section Refs

def Call.on (i : Fin NBUF) : Option Call → Nat
  | some c => if c.buf = i then 1 else 0
  | none => 0

variable [Fintype ι]

def State.refs (s : State ι) (i : Fin NBUF) : Nat := ∑ h, Call.on i (s.calls h) + s.pins i

variable {s : State ι} {h : ι} {c : Call}

theorem refs_pos (hc : s.calls h = some c) : 0 < s.refs c.buf := by
  have hle := Sums.term_le_sum (s := univ) (f := fun h' => Call.on c.buf (s.calls h')) (mem_univ h)
  have hone : Call.on c.buf (s.calls h) = 1 := by
    rw [hc]
    exact if_pos rfl
  simp only [hone] at hle
  exact Nat.lt_of_lt_of_le hle (Nat.le_add_right _ _)

theorem refs_setPins (s : State ι) (i : Fin NBUF) (n : Nat) : ({ s with pins := update s.pins i n } : State ι).refs =
      update s.refs i (s.refs i + n - s.pins i) := by
  funext j
  show ∑ h, Call.on j (s.calls h) + update s.pins i n j = _
  by_cases hj : j = i
  · rw [hj, update_self, update_self, State.refs]
    omega
  · rw [update_of_ne hj, update_of_ne hj]
    rfl

theorem refs_pin (s : State ι) (i : Fin NBUF) : ({ s with pins := update s.pins i (s.pins i + 1) } : State ι).refs =
      update s.refs i (s.refs i + 1) := by
  rw [refs_setPins, show s.refs i + (s.pins i + 1) - s.pins i = s.refs i + 1 by omega]

theorem refs_unpin {s : State ι} {i : Fin NBUF} (hpos : 0 < s.pins i) :
    ({ s with pins := update s.pins i (s.pins i - 1) } : State ι).refs = update s.refs i (s.refs i - 1) := by
  rw [refs_setPins, show s.refs i + (s.pins i - 1) - s.pins i = s.refs i - 1 by omega]

variable [DecidableEq ι]

theorem refs_setCall (s : State ι) (h : ι) (c : Option Call) (i : Fin NBUF) :
    (s.setCall h c).refs i + Call.on i (s.calls h) = s.refs i + Call.on i c := by
  have hsum := Sums.sum_change (mem_univ h) (s := univ) (f := fun h' => Call.on i ((s.setCall h c).calls h'))
    (g := fun h' => Call.on i (s.calls h')) fun h' _ hne => by
      show Call.on i (update s.calls h c h') = _
      rw [update_of_ne hne]
  have hself : (s.setCall h c).calls h = c := by
    show update s.calls h c h = c
    rw [update_self]
  simp only [hself] at hsum
  show ∑ h', Call.on i ((s.setCall h c).calls h') + s.pins i + _ = ∑ h', Call.on i (s.calls h') + s.pins i + _
  omega

theorem refs_setStage (hc : s.calls h = some c) (stage : Stage) :
    (s.setCall h (some { c with stage := stage })).refs = s.refs := by
  funext i
  have hset := refs_setCall s h (some { c with stage := stage }) i
  rw [hc] at hset
  exact Nat.add_right_cancel hset

theorem refs_setCall_open (hc : s.calls h = none) :
    (s.setCall h (some c)).refs = update s.refs c.buf (s.refs c.buf + 1) := by
  funext i
  have hset := refs_setCall s h (some c) i
  rw [hc, Call.on, Call.on] at hset
  by_cases hi : i = c.buf
  · rw [hi, update_self]
    rw [hi, if_pos rfl] at hset
    exact hset
  · rw [update_of_ne hi]
    rw [if_neg (Ne.symm hi)] at hset
    exact hset

theorem refs_setCall_close (hc : s.calls h = some c) :
    (s.setCall h none).refs = update s.refs c.buf (s.refs c.buf - 1) := by
  funext i
  have hset := refs_setCall s h none i
  rw [hc, Call.on, Call.on] at hset
  by_cases hi : i = c.buf
  · rw [hi, update_self]
    rw [hi, if_pos rfl] at hset
    omega
  · rw [update_of_ne hi]
    rw [if_neg (Ne.symm hi)] at hset
    exact hset

end Refs

/-! ## The calls -/

section Calls

structure CallOk (buf : Fin NBUF → Buf) (c : Call) : Prop where
  key : (buf c.buf).key = c.key
  holding : c.stage.owns = true → (buf c.buf).holdingsleep c.pid = true
  valid : c.stage = .held → (buf c.buf).valid = true

structure Calls (buf : Fin NBUF → Buf) (calls : ι → Option Call) : Prop where
  ok : ∀ h c, calls h = some c → CallOk buf c
  /-- One call at a time owns a sleep-lock. -/
  owner : ∀ h h' c c', calls h = some c → calls h' = some c' → c.stage.owns = true → c'.stage.owns = true →
    c.buf = c'.buf → h = h'

variable {buf : Fin NBUF → Buf} {calls : ι → Option Call} {i : Fin NBUF} {b : Buf} {c : Call} {h : ι}

theorem CallOk.setBuf_of_ne (hok : CallOk buf c) (hne : c.buf ≠ i) : CallOk (update buf i b) c := by
  refine ⟨?_, ?_, ?_⟩
  all_goals rw [update_of_ne hne]
  · exact hok.key
  · exact hok.holding
  · exact hok.valid

theorem Calls.setBuf (hcalls : Calls buf calls) (hkey : b.key = (buf i).key)
    (hlock : ∀ pid, b.holdingsleep pid = (buf i).holdingsleep pid) (hvalid : (buf i).valid = true → b.valid = true) :
    Calls (update buf i b) calls := by
  refine ⟨fun h c hc => ?_, hcalls.owner⟩
  have hok := hcalls.ok h c hc
  by_cases hi : c.buf = i
  · rw [← hi] at hkey hlock hvalid ⊢
    refine ⟨?_, ?_, ?_⟩
    all_goals rw [update_self]
    · exact hkey.trans hok.key
    · exact fun howns => (hlock c.pid).trans (hok.holding howns)
    · exact fun hheld => hvalid (hok.valid hheld)
  · exact hok.setBuf_of_ne hi

theorem Calls.setBuf_unowned (hcalls : Calls buf calls) (hkey : b.key = (buf i).key)
    (hno : ∀ h c, calls h = some c → c.stage.owns = true → c.buf ≠ i) : Calls (update buf i b) calls := by
  refine ⟨fun h c hc => ?_, hcalls.owner⟩
  have hok := hcalls.ok h c hc
  by_cases hi : c.buf = i
  · have hfree : ¬ c.stage.owns = true := fun howns => hno h c hc howns hi
    refine ⟨?_, fun howns => absurd howns hfree, fun hheld => ?_⟩
    · rw [hi, update_self, hkey, ← hi, hok.key]
    · rw [hheld] at hfree
      exact absurd rfl hfree
  · exact hok.setBuf_of_ne hi

theorem Calls.setBuf_unused (hcalls : Calls buf calls) (hno : ∀ h c, calls h = some c → c.buf ≠ i) :
    Calls (update buf i b) calls :=
  ⟨fun h c hc => (hcalls.ok h c hc).setBuf_of_ne (hno h c hc), hcalls.owner⟩

variable [DecidableEq ι]

theorem Calls.set (hcalls : Calls buf calls) (hok : CallOk buf c)
    (howner : c.stage.owns = true → ∀ h' c', h' ≠ h → calls h' = some c' → c'.stage.owns = true → c'.buf ≠ c.buf) :
    Calls buf (update calls h (some c)) := by
  refine ⟨fun h' c' hc' => ?_, fun h1 h2 c1 c2 hc1 hc2 ho1 ho2 heq => ?_⟩
  · rcases calls_update hc' with ⟨-, ⟨⟩⟩ | ⟨-, hold⟩
    · exact hok
    · exact hcalls.ok h' c' hold
  rcases calls_update hc1 with ⟨rfl, ⟨⟩⟩ | ⟨hn1, hold1⟩
  · rcases calls_update hc2 with ⟨rfl, ⟨⟩⟩ | ⟨hn2, hold2⟩
    · rfl
    · exact absurd heq.symm (howner ho1 h2 c2 hn2 hold2 ho2)
  · rcases calls_update hc2 with ⟨rfl, ⟨⟩⟩ | ⟨hn2, hold2⟩
    · exact absurd heq (howner ho2 h1 c1 hn1 hold1 ho1)
    · exact hcalls.owner h1 h2 c1 c2 hold1 hold2 ho1 ho2 heq

theorem Calls.clear (hcalls : Calls buf calls) : Calls buf (update calls h none) := by
  have hold : ∀ h' c', update calls h none h' = some c' → calls h' = some c' := by
    intro h' c' hc'
    rcases calls_update hc' with ⟨-, ⟨⟩⟩ | ⟨-, hold⟩
    exact hold
  refine ⟨fun h' c' hc' => hcalls.ok h' c' (hold h' c' hc'), fun h1 h2 c1 c2 hc1 hc2 => ?_⟩
  exact hcalls.owner h1 h2 c1 c2 (hold h1 c1 hc1) (hold h2 c2 hc2)

end Calls

/-! ## The invariant -/

section Invariant

theorem ofNat_succ (n : Nat) : UInt32.ofNat n + 1 = UInt32.ofNat (n + 1) := (UInt32.ofNat_add n 1).symm

theorem ofNat_pred {n : Nat} (hn : 0 < n) : UInt32.ofNat n - 1 = UInt32.ofNat (n - 1) := by
  obtain ⟨m, rfl⟩ := Nat.exists_eq_succ_of_ne_zero (Nat.pos_iff_ne_zero.mp hn)
  rw [Nat.succ_eq_add_one, ← ofNat_succ, UInt32.add_sub_cancel, Nat.add_sub_cancel]

theorem ofNat_eq_zero {n : Nat} (hn : n < 2 ^ 32) (h : UInt32.ofNat n = 0) : n = 0 := by
  have htoNat := congrArg UInt32.toNat h
  rwa [UInt32.toNat_ofNat_of_lt' hn] at htoNat

theorem used_snoc (tr : List (Event ι)) (ev : Event ι) : used (tr ++ [ev]) = ev.2.use (used tr) := by
  rw [used, foldl_append]
  rfl

variable [Fintype ι]

structure Agrees (u : Cache.Use Key Block) (buf : Fin NBUF → Buf) (assigned : Fin NBUF → Bool)
    (refs : Fin NBUF → Nat) : Prop where
  table : Cache.Table u (fun i => (buf i).key) (fun i => (buf i).contents) assigned refs
  refcnt : ∀ i, (buf i).refcnt = UInt32.ofNat (refs i)

structure Inv (tr : List (Event ι)) (s : State ι) : Prop where
  list : ∃ lru, Listed lru s.links s.buf s.assigned s.calls
  agrees : Agrees (used tr) s.buf s.assigned s.refs
  calls : Calls s.buf s.calls

def Few (s : State ι) (_ : Event ι) : Prop := ∀ i, s.refs i < 2 ^ 32 - 1

end Invariant

/-! ## What becomes of the buffers -/

section Turn

variable [Fintype ι]

/-- A buffer loses its last reference or pin only with the data that are on the disk. -/
def WrittenBack (s : State ι) (ev : Event ι) : Prop :=
  match ev.1 with
  | .drop h => ∀ c, s.calls h = some c → s.refs c.buf = 1 →
      ∀ d, (s.buf c.buf).contents = some d → s.disk (s.buf c.buf).key = d
  | .bunpin i => s.refs i = 1 → ∀ d, (s.buf i).contents = some d → s.disk (s.buf i).key = d
  | _ => True

/-- Data that no user vouches for are those on the disk. -/
def Clean (u : Cache.Use Key Block) (disk : Key → Block) (buf : Fin NBUF → Buf) (assigned : Fin NBUF → Bool) : Prop :=
  Cache.Clean u disk (fun i => (buf i).key) (fun i => (buf i).contents) assigned

/-- What a step makes of buffer `i`, of its references, of the disk, and of what the users know. -/
inductive Change (u : Cache.Use Key Block) (lru : List (Fin NBUF)) (s : State ι) (ev : Event ι) (i : Fin NBUF)
    (b : Buf) : (Fin NBUF → Bool) → Nat → (Key → Block) → Cache.Use Key Block → Prop
  | keep (hkey : b.key = (s.buf i).key) (hcont : b.contents = (s.buf i).contents) :
    Change u lru s ev i b s.assigned (s.refs i) s.disk u
  | write (hi : s.assigned i = true) (hcont : (s.buf i).contents = some (s.buf i).data) (hb : b = s.buf i) :
    Change u lru s ev i b s.assigned (s.refs i) (update s.disk (s.buf i).key (s.buf i).data) u
  | store {d : Block} (hi : s.assigned i = true) (hpos : 0 < s.refs i) (hkey : b.key = (s.buf i).key)
    (hcont : b.contents = some d) : Change u lru s ev i b s.assigned (s.refs i) s.disk (u.store (s.buf i).key d)
  | hit {k : Key} (hfind : lru.find? (fun j => decide ((s.buf j).key = k)) = some i) (hkey : b.key = (s.buf i).key)
    (hcont : b.contents = (s.buf i).contents) :
    Change u lru s ev i b (update s.assigned i true) (s.refs i + 1) s.disk (u.ref k)
  | recycle (hmiss : lru.find? (fun j => decide ((s.buf j).key = b.key)) = none) (hfree : s.refs i = 0)
    (hcont : b.contents = none) : Change u lru s ev i b (update s.assigned i true) 1 s.disk (u.ref b.key)
  | unref (hi : s.assigned i = true) (hpos : 0 < s.refs i) (hkey : b.key = (s.buf i).key)
    (hcont : b.contents = (s.buf i).contents)
    (hback : WrittenBack s ev → s.refs i = 1 → ∀ d, (s.buf i).contents = some d → s.disk (s.buf i).key = d) :
    Change u lru s ev i b s.assigned (s.refs i - 1) s.disk (u.unref (s.buf i).key)

/-- A step changes one buffer. -/
structure Turn (u : Cache.Use Key Block) (lru : List (Fin NBUF)) (s : State ι) (ev : Event ι) (t : State ι)
    (i : Fin NBUF) (b : Buf) (n : Nat) : Prop where
  buf : t.buf = update s.buf i b
  change : Change u lru s ev i b t.assigned n t.disk (ev.2.use u)
  refs : t.refs = update s.refs i n
  refcnt : b.refcnt = UInt32.ofNat n

variable {u : Cache.Use Key Block} {lru : List (Fin NBUF)} {s t : State ι} {ev : Event ι} {i : Fin NBUF} {b : Buf}
  {n : Nat} (h : Agrees u s.buf s.assigned s.refs) (hl : Listed lru s.links s.buf s.assigned s.calls)
  (hturn : Turn u lru s ev t i b n)

include h

theorem Agrees.assigned_of_pos (hpos : 0 < s.refs i) : s.assigned i = true := by
  by_contra hnot
  rw [(h.table.blank i (Bool.eq_false_iff.mpr hnot)).1] at hpos
  exact Nat.lt_irrefl 0 hpos

include hl hturn

theorem Agrees.turn : Agrees (ev.2.use u) t.buf t.assigned t.refs := by
  obtain ⟨hbuf, hchange, hrefs, hrefcnt⟩ := hturn
  rw [hbuf, hrefs]
  generalize t.assigned = assigned, t.disk = disk, ev.2.use u = u' at hchange ⊢
  constructor
  · cases hchange with
    | keep hkey hcont =>
      rw [field_update_same hkey, field_update_same hcont, update_eq_self]
      exact h.table
    | write _ _ hb =>
      rw [hb, update_eq_self, update_eq_self]
      exact h.table
    | store hi hpos hkey hcont =>
      rw [field_update_same hkey, field_update Buf.contents, hcont, update_eq_self]
      exact h.table.store hl.finds hi hpos _
    | hit hfind hkey hcont =>
      rw [field_update_same hkey, field_update_same hcont]
      exact h.table.hit hl.finds hfind
    | recycle hmiss hfree hcont =>
      rw [field_update Buf.key, field_update Buf.contents, hcont]
      exact h.table.recycle (Cache.ne_of_miss (fun j => (s.buf j).key) hmiss hl.all) hfree
    | unref hi hpos hkey hcont =>
      rw [field_update_same hkey, field_update_same hcont]
      exact h.table.unref hl.finds hi hpos
  intro j
  by_cases hj : j = i
  · rw [hj, update_self, update_self, hrefcnt]
  · rw [update_of_ne hj, update_of_ne hj, h.refcnt j]

theorem Clean.turn (hclean : Clean u s.disk s.buf s.assigned) (hback : WrittenBack s ev) :
    Clean (ev.2.use u) t.disk t.buf t.assigned := by
  obtain ⟨hbuf, hchange, -, -⟩ := hturn
  rw [hbuf, Clean]
  generalize t.assigned = assigned, t.disk = disk, ev.2.use u = u' at hchange ⊢
  cases hchange with
  | keep hkey hcont =>
    rw [field_update_same hkey, field_update_same hcont]
    exact hclean
  | write hi hcont hb =>
    rw [hb, update_eq_self]
    exact Cache.Clean.write hclean hl.finds hi hcont
  | store _ _ hkey hcont =>
    rw [field_update_same hkey, field_update Buf.contents, hcont]
    exact Cache.Clean.store hclean
  | hit _ hkey hcont =>
    rw [field_update_same hkey, field_update_same hcont]
    exact Cache.Clean.hit hclean h.table
  | recycle _ _ hcont =>
    rw [field_update Buf.key, field_update Buf.contents, hcont]
    exact Cache.Clean.recycle hclean
  | unref hi _ hkey hcont hlast =>
    rw [field_update_same hkey, field_update_same hcont]
    exact Cache.Clean.unref hclean h.table hl.finds hi (hlast hback)

end Turn

/-! ## Every step keeps the invariant -/

section Preservation

variable [Fintype ι]

theorem inv_boot (disk : Key → Block) : Inv [] (boot disk : State ι) := by
  have hrefs : (boot disk : State ι).refs = fun _ => 0 := by
    funext i
    exact Finset.sum_const_zero
  refine ⟨⟨_, listed_boot disk⟩, ?_, nofun, nofun⟩
  rw [hrefs]
  exact ⟨Cache.Table.start (fun _ => rfl) fun _ => ⟨rfl, rfl⟩, fun _ => rfl⟩

variable [DecidableEq ι] {tr : List (Event ι)} {s t : State ι} {ev : Event ι}

theorem Inv.turn (hinv : Inv tr s) (hl : Listed lru s.links s.buf s.assigned s.calls)
    (hstep : restrict Few (Step ι) s ev t) : ∃ i b n, Turn (used tr) lru s ev t i b n := by
  obtain ⟨hfew, hstep⟩ := hstep
  have hrefcnt := hinv.agrees.refcnt
  have hsame : ∀ (i : Fin NBUF) {refs : Fin NBUF → Nat}, refs = s.refs → refs = update s.refs i (s.refs i) :=
    fun i _ hrefs => hrefs.trans (update_eq_self i s.refs).symm
  obtain ⟨a, ret⟩ := ev
  cases a with
  | bget =>
    obtain ⟨hcall, rfl, i, buf, hget, rfl⟩ := step_bget hstep
    rcases bget_cases hl.cycle hget with ⟨hfind, rfl⟩ | ⟨hmiss, -, hzero, rfl⟩
    · refine ⟨i, _, _, rfl, .hit hfind rfl rfl, refs_setCall_open (by exact hcall), ?_⟩
      rw [← ofNat_succ, ← hrefcnt i]
    have hfree : s.refs i = 0 := by
      rw [hrefcnt] at hzero
      exact ofNat_eq_zero (Nat.lt_of_lt_of_le (hfew i) (Nat.sub_le _ _)) hzero
    refine ⟨i, _, _, rfl, .recycle hmiss hfree rfl, ?_, rfl⟩
    rw [refs_setCall_open (by exact hcall)]
    show update s.refs i (s.refs i + 1) = _
    rw [hfree]
  | acquiresleep =>
    obtain ⟨c, hc, -, ⟨⟩⟩ := of_call hstep
    exact ⟨c.buf, _, _, rfl, .keep rfl rfl, hsame c.buf (refs_setStage (by exact hc) _), hrefcnt c.buf⟩
  | fill h =>
    obtain ⟨c, hc, -, ⟨⟩⟩ := of_call hstep
    have hok := hinv.calls.ok h c hc
    refine ⟨c.buf, _, _, rfl, ?_, hsame c.buf (refs_setStage (by exact hc) _), ?_⟩
    · show Change _ _ _ _ _ _ s.assigned _ s.disk ((used tr).store c.key _)
      rw [← hok.key]
      exact .store (hl.calls h c hc) (refs_pos hc) (fill_key _ _) (fill_contents _ _)
    · rw [fill_refcnt, hrefcnt c.buf]
  | modify h d =>
    obtain ⟨c, hc, hheld, ⟨⟩⟩ := of_call hstep
    have hok := hinv.calls.ok h c hc
    refine ⟨c.buf, _, _, rfl, ?_, hsame c.buf rfl, hrefcnt c.buf⟩
    show Change _ _ _ _ _ _ s.assigned _ s.disk ((used tr).store c.key d)
    rw [← hok.key]
    exact .store (hl.calls h c hc) (refs_pos hc) rfl (if_pos (hok.valid hheld))
  | bwrite h =>
    obtain ⟨c, hc, ⟨hheld, -⟩, ⟨⟩⟩ := of_call hstep
    have hok := hinv.calls.ok h c hc
    exact ⟨c.buf, _, _, (update_eq_self c.buf s.buf).symm, .write (hl.calls h c hc) (if_pos (hok.valid hheld)) rfl,
      hsame c.buf rfl, hrefcnt c.buf⟩
  | releasesleep =>
    obtain ⟨c, hc, -, ⟨⟩⟩ := of_call hstep
    exact ⟨c.buf, _, _, rfl, .keep rfl rfl, hsame c.buf (refs_setStage (by exact hc) _), hrefcnt c.buf⟩
  | drop h =>
    obtain ⟨c, hc, -, ⟨⟩⟩ := of_call hstep
    have hok := hinv.calls.ok h c hc
    refine ⟨c.buf, _, s.refs c.buf - 1, rfl, ?_, refs_setCall_close (by exact hc), ?_⟩
    · show Change _ _ _ _ _ _ s.assigned _ s.disk ((used tr).unref c.key)
      rw [← hok.key]
      exact .unref (hl.calls h c hc) (refs_pos hc) rfl rfl fun hback => hback c hc
    · rw [← ofNat_pred (refs_pos hc), ← hrefcnt c.buf]
  | bpin i =>
    obtain ⟨hi, rfl, rfl⟩ := step_bpin hstep
    have hhit : Change (used tr) lru s (.bpin i, .ref (s.buf i).key) i { s.buf i with refcnt := (s.buf i).refcnt + 1 }
        _ _ _ _ := .hit (hl.finds i hi) rfl rfl
    rw [← hi, update_eq_self] at hhit
    refine ⟨i, _, _, rfl, hhit, refs_pin s i, ?_⟩
    rw [← ofNat_succ, ← hrefcnt i]
  | bunpin i =>
    obtain ⟨hpins, rfl, rfl⟩ := step_bunpin hstep
    have hpos : 0 < s.refs i := Nat.lt_of_lt_of_le hpins (Nat.le_add_left _ _)
    refine ⟨i, _, _, rfl, .unref (hinv.agrees.assigned_of_pos hpos) hpos rfl rfl fun hback => hback, refs_unpin hpins, ?_⟩
    rw [← ofNat_pred hpos, ← hrefcnt i]

theorem Calls.step (hcalls : Calls s.buf s.calls) (hcycle : s.links.Cycle lru)
    (hagrees : Agrees (used tr) s.buf s.assigned s.refs) (hstep : restrict Few (Step ι) s ev t) :
    Calls t.buf t.calls := by
  obtain ⟨hfew, hstep⟩ := hstep
  obtain ⟨a, ret⟩ := ev
  cases a with
  | bget h pid dev blockno =>
    obtain ⟨-, -, i, buf, hget, rfl⟩ := step_bget hstep
    have hset : ∀ {b : Buf}, Calls (update s.buf i b) s.calls → b.key = (dev, blockno) →
        Calls (update s.buf i b) (update s.calls h (some ⟨i, pid, dev, blockno, .waiting⟩)) := by
      intro b hbuf hkey
      refine hbuf.set ⟨?_, nofun, nofun⟩ nofun
      show (update s.buf i b i).key = _
      rw [update_self, hkey]
      rfl
    rcases bget_cases hcycle hget with ⟨hfind, rfl⟩ | ⟨-, -, hzero, rfl⟩
    · exact hset (hcalls.setBuf rfl (fun _ => rfl) id) (Cache.key_of_find (fun j => (s.buf j).key) hfind)
    refine hset (hcalls.setBuf_unused fun h' c' hc' heq => ?_) rfl
    have hpos := refs_pos hc'
    rw [hagrees.refcnt, ← heq] at hzero
    rw [ofNat_eq_zero (Nat.lt_of_lt_of_le (hfew c'.buf) (Nat.sub_le _ _)) hzero] at hpos
    exact Nat.lt_irrefl 0 hpos
  | acquiresleep h =>
    obtain ⟨c, hc, ⟨-, hfree⟩, ⟨⟩⟩ := of_call hstep
    have hno : ∀ h' c', s.calls h' = some c' → c'.stage.owns = true → c'.buf ≠ c.buf := by
      intro h' c' hc' howns heq
      have hlocked := (hcalls.ok h' c' hc').holding howns
      rw [heq, Buf.holdingsleep, hfree] at hlocked
      exact Bool.false_ne_true hlocked
    have hbuf : Calls (update s.buf c.buf { s.buf c.buf with locked := true, pid := c.pid }) s.calls := hcalls.setBuf_unowned rfl hno
    have hok := hbuf.ok h c hc
    refine hbuf.set ⟨hok.key, fun _ => ?_, nofun⟩ fun _ h' c' _ hc' => hno h' c' hc'
    show (update s.buf c.buf _ c.buf).holdingsleep c.pid = true
    rw [update_self]
    exact beq_self_eq_true c.pid
  | fill h =>
    obtain ⟨c, hc, hlocked, ⟨⟩⟩ := of_call hstep
    have hbuf := hcalls.setBuf (fill_key (s.buf c.buf) s.disk) (fill_holdingsleep _ _) fun _ => fill_valid _ _
    have hok := hbuf.ok h c hc
    refine hbuf.set ⟨hok.key, fun _ => hok.holding (by rw [hlocked]; rfl), fun _ => ?_⟩ ?_
    · show (update s.buf c.buf _ c.buf).valid = true
      rw [update_self, fill_valid]
    · intro _ h' c' hne hc' howns heq
      exact hne (hcalls.owner h' h c' c hc' hc howns (by rw [hlocked]; rfl) heq)
  | modify =>
    obtain ⟨c, -, -, ⟨⟩⟩ := of_call hstep
    exact hcalls.setBuf rfl (fun _ => rfl) id
  | bwrite =>
    obtain ⟨c, -, -, ⟨⟩⟩ := of_call hstep
    exact hcalls
  | releasesleep h =>
    obtain ⟨c, hc, ⟨hheld, -⟩, ⟨⟩⟩ := of_call hstep
    have hok := hcalls.ok h c hc
    -- the call gives up the lock, and no other call owned it
    have hset : Calls s.buf (update s.calls h (some { c with stage := .leaving })) :=
      hcalls.set ⟨hok.key, nofun, nofun⟩ nofun
    refine hset.setBuf_unowned (b := { s.buf c.buf with locked := false, pid := 0 }) rfl ?_
    intro h' c' hc' howns heq
    rcases calls_update hc' with ⟨-, ⟨⟩⟩ | ⟨hh, hc'⟩
    · exact Bool.false_ne_true howns
    · exact hh (hcalls.owner h' h c' c hc' hc howns (by rw [hheld]; rfl) heq)
  | drop =>
    obtain ⟨c, -, -, ⟨⟩⟩ := of_call hstep
    have hbuf : Calls (update s.buf c.buf { s.buf c.buf with refcnt := (s.buf c.buf).refcnt - 1 }) s.calls :=
      hcalls.setBuf rfl (fun _ => rfl) id
    exact hbuf.clear
  | bpin =>
    obtain ⟨-, -, rfl⟩ := step_bpin hstep
    exact hcalls.setBuf rfl (fun _ => rfl) id
  | bunpin =>
    obtain ⟨-, -, rfl⟩ := step_bunpin hstep
    exact hcalls.setBuf rfl (fun _ => rfl) id

theorem Inv.step (hinv : Inv tr s) (hstep : restrict Few (Step ι) s ev t) : Inv (tr ++ [ev]) t := by
  obtain ⟨lru, hl⟩ := hinv.list
  obtain ⟨i, b, n, hturn⟩ := hinv.turn hl hstep
  refine ⟨(hl.step hstep.2).1, ?_, hinv.calls.step hl.cycle hinv.agrees hstep⟩
  rw [used_snoc]
  exact hinv.agrees.turn hl hturn

theorem Inv.of_run {disk : Key → Block} (hrun : Run (restrict Few (Step ι)) (boot disk) tr s) : Inv tr s :=
  hrun.invariant_trace (P := Inv) (fun _ _ _ _ hinv hstep => hinv.step hstep) (inv_boot disk)

end Preservation

/-! ## Coherence -/

section Coherence

theorem fill_data {b : Buf} {disk : Key → Block} {d : Block} :
    (b.contents = some d → (fill b disk).data = d) ∧ (b.contents = none → (fill b disk).data = disk b.key) := by
  unfold Buf.contents fill
  cases b.valid with
  | true => exact ⟨Option.some.inj, nofun⟩
  | false => exact ⟨nofun, fun _ => rfl⟩

theorem coherent_of [DecidableEq ι] [Fintype ι] {step : State ι → Event ι → State ι → Prop}
    {fresh : Cache.Use Key Block → (Key → Block) → Key → Block → Prop}
    (hsub : ∀ s ev t, step s ev t → restrict Few (Step ι) s ev t) (hdisk : ∀ u disk k, fresh u disk k (disk k))
    (hcached : ∀ disk tr s, Run step (boot disk) tr s → ∀ i d, s.assigned i = true → (s.buf i).contents = some d →
      (used tr).mem (s.buf i).key = none → fresh (used tr) s.disk (s.buf i).key d) : Coherent step fresh := by
  refine ⟨(ordered_step ι).mono fun s ev t hstep => (hsub s ev t hstep).2, fun disk tr s hrun => ?_⟩
  have hinv := Inv.of_run (hrun.mono hsub)
  obtain ⟨lru, hl⟩ := hinv.list
  intro h c ret t hc hstep
  obtain ⟨c', hc', -, ⟨⟩⟩ := of_call (hsub s _ t hstep).2
  obtain rfl : c = c' := Option.some.inj (hc.symm.trans hc')
  have hok := hinv.calls.ok h c hc
  have hi := hl.calls h c hc
  have hbuf : ((s.setBuf c.buf (fill (s.buf c.buf) s.disk)).setCall h (some { c with stage := .held })).buf c.buf =
      fill (s.buf c.buf) s.disk := update_self c.buf _ s.buf
  rw [hbuf, fill_key, ← hok.key]
  refine ⟨rfl, ?_⟩
  cases hmem : (used tr).mem (s.buf c.buf).key with
  | some => exact fill_data.1 (hinv.agrees.table.cont_eq (i := c.buf) hl.finds hi hmem)
  | none =>
    cases hcont : (s.buf c.buf).contents with
    | none =>
      show fresh _ _ _ _
      rw [(fill_data (d := default)).2 hcont]
      exact hdisk _ _ _
    | some d =>
      show fresh _ _ _ _
      rw [fill_data.1 hcont]
      exact hcached disk tr s hrun c.buf d hi hcont hmem

/-- The list of buffers is one cycle with every buffer on it, a block has at most one buffer, and a buffer with
references keeps its block.  While `refcnt` does not wrap, `bread` returns what is in memory.  To the first user it
returns the disk's data or what the last users have left behind; where these leave only what they have written, it is
the disk's. -/
theorem coherent_of_few (ι : Type) [DecidableEq ι] [Fintype ι] : Ordered (Step ι) ∧
      Coherent (restrict Few (Step ι)) OnDiskOrLeft ∧
      Coherent (restrict WrittenBack (restrict Few (Step ι))) OnDisk := by
  refine ⟨ordered_step ι, ?_, ?_⟩
  · refine coherent_of (fun _ _ _ hstep => hstep) (fun _ _ _ => .inl rfl) ?_
    intro disk tr s hrun i d hi hcont _
    exact .inr ((Inv.of_run hrun).agrees.table.last i d hi hcont)
  refine coherent_of (fun _ _ _ hstep => hstep.2) (fun _ _ _ => rfl) ?_
  intro disk tr s hrun
  have hclean : Inv tr s ∧ Clean (used tr) s.disk s.buf s.assigned := by
    refine hrun.invariant_trace (P := fun tr s => Inv tr s ∧ Clean (used tr) s.disk s.buf s.assigned) ?_
      ⟨inv_boot disk, nofun⟩
    intro tr s ev t hboth hstep
    obtain ⟨lru, hl⟩ := hboth.1.list
    obtain ⟨i, b, n, hturn⟩ := hboth.1.turn hl hstep.2
    rw [used_snoc]
    exact ⟨hboth.1.step hstep.2, Clean.turn hboth.1.agrees hl hturn hboth.2 hstep.1⟩
  exact fun i d hi hcont hmem => (hclean.2 i d hi hcont hmem).symm

/-- A block is read, changed and released, and not written.  The next user finds the change, and not what is on
the disk. -/
theorem not_coherent : ¬ Coherent (Step Unit) OnDisk := by
  intro hcoh
  let acts : List (Act Unit) :=
    [.bget () 1 1 5, .acquiresleep (), .fill (), .modify () (fun _ => 7), .releasesleep (), .drop (),
      .bget () 1 1 5, .acquiresleep ()]
  have hcheck : (execs (guarded (fun _ _ => True) exec) (boot default) acts).any (fun r =>
      (exec r.1 (.fill ())).any fun q => ((used r.2).mem (1, 5)).isNone &&
        ((r.1.calls ()).any fun c => c.key == (1, 5) && (q.1.buf c.buf).data.byte 0 != (r.1.disk (1, 5)).byte 0)) = true := by
    decide +kernel
  obtain ⟨s, tr, hrun, hlast⟩ := Run.of_any_execs hcheck
  obtain ⟨t, ret, hstep, hbad⟩ := Exec.of_any hlast
  rw [Bool.and_eq_true, Option.isNone_iff_eq_none, Option.any_eq_true] at hbad
  obtain ⟨hmem, c, hc, hne⟩ := hbad
  rw [Bool.and_eq_true, beq_iff_eq, bne_iff_ne] at hne
  have hread := (hcoh.2 _ tr s (hrun.mono fun _ _ _ hstep => hstep.2) () c ret t hc hstep).2
  rw [hne.1, hmem] at hread
  exact hne.2 (congrArg (fun d => d.byte 0) hread)

end Coherence

/-- At most one call at a time has locked a buffer of a block, and the buffer stays with the block until that call
releases it, so that the check of `holdingsleep` in `bwrite` and `brelse` never fails. -/
def HeldOnce (step : State ι → Event ι → State ι → Prop) : Prop :=
  ∀ disk tr s, Run step (boot disk) tr s → ∀ h c, s.calls h = some c → c.stage.owns = true →
    (s.buf c.buf).holdingsleep c.pid = true ∧ (s.buf c.buf).key = c.key ∧
    ∀ h' c', s.calls h' = some c' → c'.stage.owns = true → c'.key = c.key → h' = h

theorem heldOnce_of_few (ι : Type) [DecidableEq ι] [Fintype ι] : HeldOnce (restrict Few (Step ι)) := by
  intro disk tr s hrun h c hc howns
  have hinv := Inv.of_run hrun
  obtain ⟨lru, hl⟩ := hinv.list
  have hok := hinv.calls.ok h c hc
  refine ⟨hok.holding howns, hok.key, fun h' c' hc' howns' hkey => ?_⟩
  have hok' := hinv.calls.ok h' c' hc'
  have hbuf : c'.buf = c.buf :=
    hl.finds.eq_of_key (hl.calls h' c' hc') (hl.calls h c hc) (hok'.key.trans (hkey.trans hok.key.symm))
  exact hinv.calls.owner h' h c' c hc' hc howns' howns hbuf

end Xv6.Bcache
