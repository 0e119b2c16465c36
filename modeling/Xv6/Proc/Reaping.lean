import Xv6.Proc.Family

/-!
# Every exit status has one taker

A process that has been forked has a parent that is there to wait for it: `kexit` hands the children over
to init before the process becomes a `ZOMBIE`, and both happen under one hold of `wait_lock`.  A slot goes
through its life in order, from `fork` to `exit` to the `wait` that frees it, whatever the others do.
-/

namespace Xv6.Family

open Runs

/-! ## The life of a slot, as the trace tells it -/

inductive Life where
  | free
  | alive (pid : Int)
  | exited (pid status : Int)
  deriving DecidableEq, Repr

/-- What an event makes of the process in slot `i`; `none` if it does not fit. -/
def Life.next (i : Fin NPROC) (l : Life) (e : Event) : Option Life :=
  match e.2 with
  | .forked np pid => if np = i then (if l = .free then some (.alive pid) else none) else some l
  | .exited status =>
    if e.1.proc = i then
      match l with
      | .alive pid => some (.exited pid status)
      | _ => none
    else some l
  | .reaped pp pid status =>
    if pp = i then (if l = .exited pid status then some .free else none) else some l
  | _ => some l

def life (i : Fin NPROC) (tr : List Event) : Option Life :=
  tr.foldlM (Life.next i) (if i = boot.initproc then .alive 1 else .free)

def State.forking (s : State) (i : Fin NPROC) : Prop :=
  ∃ q, (s.proc q).pc = .forkParent i ∨ (s.proc q).pc = .forkRunnable i

def Proc.live (q : Proc) : Prop := q.state ≠ .unused ∧ q.state ≠ .zombie

/-- What `fork`, `exit` and `wait` are meant to guarantee, in runs of `step` from boot. -/
def StatusDeliveredOnce (step : State → Event → State → Prop) : Prop :=
  ∀ tr s, Run step boot tr s →
    -- Whoever has been forked has a parent.
    (∀ i, i ≠ s.initproc → (s.proc i).state ≠ .unused → ¬ s.forking i →
      ∃ q, (s.proc i).parent = some q ∧ (s.proc q).live) ∧
    -- Fork, exit and wait take turns at every slot, and wait returns what exit has left.
    (∀ i, (life i tr).isSome = true) ∧
    -- It is the parent that waits.
    (∀ a pp pid status s', step s (a, .reaped pp pid status) s' → (s.proc pp).parent = some a.proc) ∧
    -- A wait that is not killed and can copy the status fails only for want of children.
    (∀ p addr i havekids copied s', (s.proc p).pc = .waitScan addr i havekids →
      step s (.advance p copied, .value (-1)) s' → (s.proc p).killed = false →
      (addr = true → copied = true) → ∀ pp, (s.proc pp).parent ≠ some p)

/-! ## The invariant -/

/-- What process `q` at this place knows about the family. -/
def Knows (s : State) (q : Fin NPROC) : Pc → Prop
  | .forkParent np | .forkRunnable np => (s.proc np).state = .used
  | .reparent _ i => q ≠ s.initproc ∧ ∀ j : Fin NPROC, j < i → (s.proc j).parent ≠ some q
  | .reparentWake _ i _ => q ≠ s.initproc ∧ ∀ j : Fin NPROC, j ≤ i → (s.proc j).parent ≠ some q
  | .exitWake _ _ | .exitMark _ => q ≠ s.initproc ∧ ∀ j, (s.proc j).parent ≠ some q
  | .exited => (s.proc q).state = .zombie
  | .waitScan _ i havekids =>
    havekids = false → ∀ j : Fin NPROC, j < i → (s.proc j).parent ≠ some q
  | .user | .dead | .waitSleep _ => True

def Pc.busy : Pc → Bool
  | .user | .exited | .dead => false
  | _ => true

def Pc.forksInto : Pc → Option (Fin NPROC)
  | .forkParent np | .forkRunnable np => some np
  | _ => none

structure Inv (s : State) : Prop where
  lock : ∀ q, (s.proc q).pc.holdsWait = true ↔ s.waitLock = some q
  knows : ∀ q, Knows s q (s.proc q).pc
  busy : ∀ q, (s.proc q).pc.busy = true → (s.proc q).live ∧ (s.proc q).state ≠ .used
  forks : ∀ q q' np, (s.proc q).pc.forksInto = some np → (s.proc q').pc.forksInto = some np → q = q'
  free : ∀ i, (s.proc i).state = .unused → (s.proc i).parent = none
  parents : ∀ i q, (s.proc i).parent = some q → (s.proc q).live
  rooted : ∀ i, i ≠ s.initproc → (s.proc i).state ≠ .unused →
    (s.proc i).parent ≠ none ∨ ∃ q, (s.proc q).pc = .forkParent i
  init : (s.proc s.initproc).live

variable {s s' : State} {p q i : Fin NPROC} {pc pc' : Pc} {r : Ret}

structure Kin (s s' : State) : Prop where
  init : s'.initproc = s.initproc
  parent : ∀ i, (s'.proc i).parent = (s.proc i).parent
  unused : ∀ i, (s'.proc i).state = .unused ↔ (s.proc i).state = .unused
  used : ∀ i, (s'.proc i).state = .used ↔ (s.proc i).state = .used
  zombie : ∀ i, (s'.proc i).state = .zombie ↔ (s.proc i).state = .zombie

theorem Turn.kin (h : Turn s p s') : Kin s s' :=
  ⟨h.init, fun i => (h.same i).parent, fun i => (h.same i).unused, fun i => (h.same i).used, fun i => (h.same i).zombie⟩

theorem Kin.live (h : Kin s s') : (s'.proc i).live ↔ (s.proc i).live := by
  unfold Proc.live
  rw [Ne, Ne, Ne, Ne, h.unused, h.zombie]

theorem Kin.knows (h : Kin s s') : Knows s' q pc ↔ Knows s q pc := by
  cases pc <;> simp only [Knows, h.used, h.zombie, h.init, h.parent]

theorem Edge.forksInto (h : Edge s p pc pc') : pc'.forksInto = pc.forksInto := by
  cases h <;> rfl

theorem Edge.forkParent (h : Edge s p pc pc') (hpc : pc = .forkParent i) : pc' = .forkParent i := by
  cases h with
  | stay => exact hpc
  | exit | reparentSkip | reparentEnd | reparentWake | reparentNext | exitWake | exitWakeEnd | park
  | wait | scanSkip | scanKid | waitReturn | waitSleep | waitAgain => cases hpc

theorem Edge.knows (h : Edge s p pc pc') (hk : Knows s p pc) : Knows s p pc' := by
  cases h with
  | stay => exact hk
  | exit status hinit =>
    refine ⟨hinit, fun j hj => ?_⟩
    exact absurd hj (Nat.not_lt_zero _)
  | reparentSkip status i hother =>
    refine ⟨hk.1, fun j hj => ?_⟩
    by_cases hji : j = i
    · rw [hji]
      exact hother
    · refine hk.2 j ?_
      have hval : j.val ≠ i.val := fun heq => hji (Fin.ext heq)
      omega
  | reparentEnd => exact ⟨hk.1, fun j => hk.2 j (by omega)⟩
  | reparentWake => exact hk
  | reparentNext => exact ⟨hk.1, fun j' hj => hk.2 j' (by omega)⟩
  | exitWake | exitWakeEnd => exact hk
  | park => trivial
  | wait | waitAgain => exact fun _ j hj => absurd hj (Nat.not_lt_zero _)
  | scanSkip addr i havekids hother =>
    intro hnone j hj
    by_cases hji : j = i
    · rw [hji]
      exact hother
    · refine hk hnone j ?_
      have hval : j.val ≠ i.val := fun heq => hji (Fin.ext heq)
      omega
  | scanKid => exact fun hnone => nomatch hnone
  | waitReturn | waitSleep => trivial

theorem canRun.live (h : s.canRun p) : (s.proc p).live ∧ (s.proc p).state ≠ .used := by
  unfold Proc.live
  rcases h with h | h <;> simp [h]

theorem Inv.of_kin (h : Inv s) (hk : Kin s s') (hlock : ∀ q, (s'.proc q).pc.holdsWait = true ↔ s'.waitLock = some q)
    (hknows : ∀ q, Knows s q (s'.proc q).pc)
    (hbusy : ∀ q, (s'.proc q).pc.busy = true → (s.proc q).live ∧ (s.proc q).state ≠ .used)
    (hforks : ∀ q, (s'.proc q).pc.forksInto = (s.proc q).pc.forksInto)
    (hforkParent : ∀ q i, (s.proc q).pc = .forkParent i → (s'.proc q).pc = .forkParent i) : Inv s' where
  lock := hlock
  knows q := hk.knows.mpr (hknows q)
  busy q hq := by
    obtain ⟨hlive, hused⟩ := hbusy q hq
    exact ⟨hk.live.mpr hlive, fun hu => hused ((hk.used q).mp hu)⟩
  forks q q' np hq hq' := h.forks q q' np (hforks q ▸ hq) (hforks q' ▸ hq')
  free i hi := by
    rw [hk.parent]
    exact h.free i ((hk.unused i).mp hi)
  parents i q hi := by
    rw [hk.parent] at hi
    exact hk.live.mpr (h.parents i q hi)
  rooted i hi hstate := by
    rw [hk.init] at hi
    rw [hk.parent]
    rcases h.rooted i hi (fun hu => hstate ((hk.unused i).mpr hu)) with hparent | ⟨q, hq⟩
    · exact .inl hparent
    · exact .inr ⟨q, hforkParent q i hq⟩
  init := by
    rw [hk.init]
    exact hk.live.mpr h.init

theorem Turn.lock (ht : Turn s p s') (h : ∀ q, (s.proc q).pc.holdsWait = true ↔ s.waitLock = some q) :
    ∀ q, (s'.proc q).pc.holdsWait = true ↔ s'.waitLock = some q := by
  intro q
  cases hold : (s.proc p).pc.holdsWait <;> cases hnew : (s'.proc p).pc.holdsWait
  · rw [ht.keep (by rw [hold, hnew])]
    by_cases hq : q = p
    · rw [hq, hnew, ← h p, hold]
    · rw [ht.others q hq]
      exact h q
  · obtain ⟨hfree, hlock⟩ := ht.take hold hnew
    rw [hlock]
    by_cases hq : q = p
    · rw [hq, hnew]
      simp
    · rw [ht.others q hq, h q, hfree]
      simp [Ne.symm hq]
  · have hp := (h p).mp hold
    rw [ht.free hold hnew]
    by_cases hq : q = p
    · rw [hq, hnew]
      simp
    · rw [ht.others q hq, h q, hp]
      simp [Ne.symm hq]
  rw [ht.keep (by rw [hold, hnew])]
  by_cases hq : q = p
  · rw [hq, hnew, ← h p, hold]
  · rw [ht.others q hq]
    exact h q

theorem Inv.turn (h : Inv s) (ht : Turn s p s') : Inv s' := by
  apply h.of_kin ht.kin (ht.lock h.lock)
  · intro q
    by_cases hq : q = p
    · rw [hq]
      exact ht.edge.knows (h.knows p)
    · rw [ht.others q hq]
      exact h.knows q
  · intro q hbusy
    by_cases hq : q = p
    · rw [hq] at hbusy ⊢
      by_cases hpc : (s'.proc p).pc = (s.proc p).pc
      · rw [hpc] at hbusy
        exact h.busy p hbusy
      by_cases hexited : (s.proc p).pc = .exited
      · have hedge := ht.edge
        rw [hexited] at hedge hpc
        cases hedge' : (s'.proc p).pc <;> rw [hedge'] at hedge hbusy hpc <;> cases hedge
        · exact absurd rfl hpc
        · cases hbusy
      · exact canRun.live (ht.runs hpc hexited)
    · rw [ht.others q hq] at hbusy
      exact h.busy q hbusy
  · intro q
    by_cases hq : q = p
    · rw [hq]
      exact ht.edge.forksInto
    · rw [ht.others q hq]
  intro q i hpc
  by_cases hq : q = p
  · rw [hq] at hpc ⊢
    exact ht.edge.forkParent hpc
  · rw [ht.others q hq]
    exact hpc

/-! ## Births and deaths -/

theorem Pc.busy_of_holdsWait (h : pc.holdsWait = true) : pc.busy = true := by
  cases pc <;> first | rfl | cases h

theorem Inv.not_busy (h : Inv s) (hi : ¬ (s.proc i).live ∨ (s.proc i).state = .used) : (s.proc i).pc.busy = false := by
  rw [← Bool.not_eq_true]
  intro hbusy
  obtain ⟨hlive, hused⟩ := h.busy i hbusy
  rcases hi with hdead | hnew
  · exact hdead hlive
  · exact hused hnew

variable {np : Fin NPROC}

theorem Inv.forkFails (h : Inv s) (hunused : (s.proc np).state = .unused) :
    Inv ({ s with nextpid := int32 (s.nextpid + 1) }.set np (freeproc (s.proc np))) := by
  have hpc : ∀ q, (({ s with nextpid := int32 (s.nextpid + 1) }.set np
      (freeproc (s.proc np))).proc q).pc = (s.proc q).pc := by
    intro q
    by_cases hq : q = np
    · rw [hq, set_self]
      rfl
    · rw [set_of_ne hq]
  apply h.of_kin
  · refine ⟨rfl, fun i => ?_, fun i => ?_, fun i => ?_, fun i => ?_⟩
    all_goals
      by_cases hi : i = np
      · rw [hi, set_self]
        simp [freeproc, hunused, h.free np hunused]
      · rw [set_of_ne hi]
  · intro q
    rw [hpc]
    exact h.lock q
  · intro q
    rw [hpc]
    exact h.knows q
  · intro q hq
    rw [hpc] at hq
    exact h.busy q hq
  · intro q
    rw [hpc]
  · intro q i hq
    rw [hpc]
    exact hq

theorem Inv.used_of_forksInto (h : Inv s) (hq : (s.proc q).pc.forksInto = some np) : (s.proc np).state = .used := by
  have hknows := h.knows q
  cases hpc : (s.proc q).pc <;> rw [hpc] at hq hknows <;> cases hq <;> exact hknows

/-- What others do does not touch what a process knows: its child stays `USED`, and the parents do not
change while it has `wait_lock`. -/
theorem Knows.frame (h : Knows s q pc) (hinit : s'.initproc = s.initproc)
    (hused : ∀ np, pc.forksInto = some np → (s'.proc np).state = .used)
    (hzombie : pc = .exited → (s'.proc q).state = .zombie)
    (hparent : pc.holdsWait = true → ∀ j, (s'.proc j).parent = some q → (s.proc j).parent = some q) :
    Knows s' q pc := by
  cases pc with
  | forkParent np | forkRunnable np => exact hused np rfl
  | reparent | reparentWake =>
    exact ⟨hinit ▸ h.1, fun j hj hq => h.2 j hj (hparent rfl j hq)⟩
  | exitWake | exitMark => exact ⟨hinit ▸ h.1, fun j hq => h.2 j (hparent rfl j hq)⟩
  | exited => exact hzombie rfl
  | waitScan => exact fun hnone j hj hq => h hnone j hj (hparent rfl j hq)
  | user | dead | waitSleep => trivial

/-- A state in which slot `k` has got another parent or state, and process `p` is at another place.  A slot
that is given out starts in user mode. -/
structure Changed (s s' : State) (p k : Fin NPROC) (parent : Option (Fin NPROC)) (state : ProcState)
    (pc : Pc) : Prop where
  init : s'.initproc = s.initproc
  parent : ∀ j, (s'.proc j).parent = if j = k then parent else (s.proc j).parent
  state : ∀ j, (s'.proc j).state = if j = k then state else (s.proc j).state
  pc : (s'.proc p).pc = pc
  others : ∀ j ≠ p, (s'.proc j).pc = (s.proc j).pc ∨ (s'.proc j).pc = .user ∧ (s.proc j).pc.busy = false

/-- What such a change has to respect. -/
structure Fair (s s' : State) (p k : Fin NPROC) (parent : Option (Fin NPROC)) (state : ProcState)
    (pc : Pc) : Prop where
  lock : s'.waitLock = s.waitLock ∧ pc.holdsWait = (s.proc p).pc.holdsWait ∨
    s'.waitLock = none ∧ s.waitLock = some p ∧ pc.holdsWait = false
  knows : Knows s' p pc
  live : (s.proc p).live ∧ (s.proc p).state ≠ .used
  busy : (s'.proc k).pc.busy = true → state = (s.proc k).state
  into : ∀ np, pc.forksInto = some np → (s.proc p).pc.forksInto = some np ∨ (s.proc np).state ≠ .used
  used : ∀ q ≠ p, (s.proc q).pc.forksInto = some k → state = .used
  exited : k ≠ p → (s.proc k).pc = .exited → (s'.proc k).pc = .exited → state = .zombie
  parents : ∀ q, parent = some q → (s.proc q).live ∧
    (q ≠ p → (s.proc q).pc.holdsWait = true → (s.proc k).parent = some q)
  free : state = .unused → parent = none
  dies : ((s.proc k).live → state ≠ .unused ∧ state ≠ .zombie) ∨ k ≠ s.initproc ∧ ∀ j, (s'.proc j).parent ≠ some k
  rooted : k ≠ s.initproc → state ≠ .unused → parent ≠ none ∨ pc = .forkParent k
  forking : ∀ i ≠ k, (s.proc p).pc ≠ .forkParent i

section Change

variable {k : Fin NPROC} {parent : Option (Fin NPROC)} {state : ProcState}

theorem Changed.set {x : State} {u : Proc} (hproc : x.proc = s.proc) (hinit : x.initproc = s.initproc)
    (hu : u.pc = (s.proc k).pc ∨ u.pc = .user ∧ (s.proc k).pc.busy = false) :
    Changed s ((x.set k u).goto p pc) p k u.parent u.state pc := by
  refine ⟨hinit, fun j => ?_, fun j => ?_, ?_, fun j hj => ?_⟩
  · rw [goto_parent, set_parent, hproc]
  · rw [goto_state, set_state, hproc]
  · rw [goto_pc, if_pos rfl]
  rw [goto_pc, if_neg hj, set_pc, hproc]
  split
  · next hjk =>
    rw [hjk]
    exact hu
  · exact .inl rfl

variable (hc : Changed s s' p k parent state pc)

include hc

theorem Changed.state_self : (s'.proc k).state = state := by rw [hc.state, if_pos rfl]

theorem Changed.state_other (hq : q ≠ k) : (s'.proc q).state = (s.proc q).state := by rw [hc.state, if_neg hq]

theorem Changed.busy (hq : q ≠ p) (hbusy : (s'.proc q).pc.busy = true) : (s'.proc q).pc = (s.proc q).pc := by
  rcases hc.others q hq with hsame | ⟨huser, -⟩
  · exact hsame
  · rw [huser] at hbusy
    cases hbusy

theorem Changed.holdsWait (hq : q ≠ p) : (s'.proc q).pc.holdsWait = (s.proc q).pc.holdsWait := by
  rcases hc.others q hq with hsame | ⟨huser, hidle⟩
  · rw [hsame]
  · rw [huser]
    exact (Bool.eq_false_iff.mpr fun hold => by rw [Pc.busy_of_holdsWait hold] at hidle; cases hidle).symm

theorem Changed.forkParent (hq : q ≠ p) (hpc : (s.proc q).pc = .forkParent i) : (s'.proc q).pc = .forkParent i := by
  rcases hc.others q hq with hsame | ⟨-, hidle⟩
  · rw [hsame, hpc]
  · rw [hpc] at hidle
    cases hidle

/-- Who was alive is alive, but for a process that exits. -/
theorem Changed.live (hq : (s.proc q).live) (hother : q ≠ k ∨ ((s.proc k).live → state ≠ .unused ∧ state ≠ .zombie)) :
    (s'.proc q).live := by
  unfold Proc.live
  by_cases hqk : q = k
  · rw [hqk] at hq hother ⊢
    rw [hc.state_self]
    exact hother.resolve_left (fun hne => hne rfl) hq
  · rw [hc.state_other hqk]
    exact hq

variable (hf : Fair s s' p k parent state pc)

include hf

theorem Changed.lock (h : Inv s) (q : Fin NPROC) : (s'.proc q).pc.holdsWait = true ↔ s'.waitLock = some q := by
  by_cases hq : q = p
  · rw [hq, hc.pc]
    rcases hf.lock with ⟨hwait, hsame⟩ | ⟨hwait, -, hout⟩
    · rw [hwait, hsame]
      exact h.lock p
    · rw [hwait, hout]
      exact iff_of_false nofun nofun
  rw [hc.holdsWait hq, h.lock q]
  rcases hf.lock with ⟨hwait, -⟩ | ⟨hwait, hmine, -⟩
  · rw [hwait]
  · rw [hwait, hmine]
    exact iff_of_false (fun heq => hq (Option.some.inj heq).symm) nofun

theorem Changed.knows (h : Inv s) (q : Fin NPROC) : Knows s' q (s'.proc q).pc := by
  by_cases hq : q = p
  · rw [hq, hc.pc]
    exact hf.knows
  rcases hc.others q hq with hsame | ⟨huser, -⟩
  swap
  · rw [huser]
    trivial
  rw [hsame]
  apply (h.knows q).frame hc.init
  · intro np hnp
    by_cases hnk : np = k
    · rw [hnk] at hnp ⊢
      rw [hc.state_self]
      exact hf.used q hq hnp
    · rw [hc.state_other hnk]
      exact h.used_of_forksInto hnp
  · intro hexited
    by_cases hqk : q = k
    · rw [hqk] at hq hexited hsame ⊢
      rw [hc.state_self]
      exact hf.exited hq hexited (hsame.trans hexited)
    · have hknows := h.knows q
      rw [hexited] at hknows
      rw [hc.state_other hqk]
      exact hknows
  · intro hholds j hj
    rw [hc.parent] at hj
    split at hj
    · next hjk =>
      rw [hjk]
      exact (hf.parents q hj).2 hq hholds
    · exact hj

theorem Changed.forksInto (hq : (s'.proc q).pc.forksInto = some np) :
    (s.proc q).pc.forksInto = some np ∨ q = p ∧ (s.proc np).state ≠ .used := by
  by_cases hqp : q = p
  · rw [hqp] at hq ⊢
    rw [hc.pc] at hq
    exact (hf.into np hq).imp_right fun hunused => ⟨rfl, hunused⟩
  rcases hc.others q hqp with hsame | ⟨huser, -⟩
  · rw [hsame] at hq
    exact .inl hq
  · rw [huser] at hq
    cases hq

theorem Inv.changed (h : Inv s) : Inv s' where
  lock := hc.lock hf h
  knows := hc.knows hf h
  busy q hbusy := by
    have hold : (s.proc q).live ∧ (s.proc q).state ≠ .used := by
      by_cases hq : q = p
      · rw [hq]
        exact hf.live
      · rw [hc.busy hq hbusy] at hbusy
        exact h.busy q hbusy
    have hstate : (s'.proc q).state = (s.proc q).state := by
      by_cases hq : q = k
      · rw [hq] at hbusy ⊢
        rw [hc.state_self, hf.busy hbusy]
      · exact hc.state_other hq
    unfold Proc.live at hold ⊢
    rw [hstate]
    exact hold
  forks q q' np hq hq' := by
    rcases hc.forksInto hf hq with hold | ⟨hqp, hnew⟩ <;> rcases hc.forksInto hf hq' with hold' | ⟨hqp', hnew'⟩
    · exact h.forks q q' np hold hold'
    · exact absurd (h.used_of_forksInto hold) hnew'
    · exact absurd (h.used_of_forksInto hold') hnew
    · rw [hqp, hqp']
  free j hj := by
    rw [hc.parent]
    rw [hc.state] at hj
    split
    · next hjk =>
      rw [if_pos hjk] at hj
      exact hf.free hj
    · next hjk =>
      rw [if_neg hjk] at hj
      exact h.free j hj
  parents j q hj := by
    refine hc.live ?_ (hf.dies.symm.imp_left fun hnone heq => hnone.2 j (heq ▸ hj))
    rw [hc.parent] at hj
    split at hj
    · exact (hf.parents q hj).1
    · exact h.parents j q hj
  rooted j hj hs := by
    rw [hc.init] at hj
    rw [hc.parent]
    by_cases hjk : j = k
    · rw [hjk] at hj hs ⊢
      rw [hc.state_self] at hs
      rw [if_pos rfl]
      exact (hf.rooted hj hs).imp_right fun hpc => ⟨p, hc.pc.trans hpc⟩
    rw [if_neg hjk]
    rw [hc.state_other hjk] at hs
    refine (h.rooted j hj hs).imp_right fun ⟨q, hq⟩ => ⟨q, hc.forkParent (fun heq => ?_) hq⟩
    rw [heq] at hq
    exact hf.forking j hjk hq
  init := by
    rw [hc.init]
    exact hc.live h.init (hf.dies.symm.imp_left fun hnone => hnone.1.symm)

end Change

theorem Inv.forked (h : Inv s) (hunused : (s.proc np).state = .unused)
    (huser : (s.proc p).pc = .user) (hruns : s.canRun p) (hwait : s'.waitLock = s.waitLock)
    (hc : Changed s s' p np (s.proc np).parent .used (.forkParent np)) (hnew : (s'.proc np).pc = .user) : Inv s' := by
  refine h.changed hc
    { lock := .inl ⟨hwait, by rw [huser]; rfl⟩
      knows := hc.state_self
      live := canRun.live hruns
      busy := fun hbusy => by rw [hnew] at hbusy; cases hbusy
      into := fun _ hnp => .inr fun hused => by cases hnp; rw [hunused] at hused; cases hused
      used := fun _ _ _ => rfl
      exited := fun _ _ hpc => by rw [hnew] at hpc; cases hpc
      parents := fun q hq => ⟨h.parents np q hq, fun _ _ => hq⟩
      free := nofun
      dies := .inl fun _ => ⟨nofun, nofun⟩
      rooted := fun _ _ => .inr rfl
      forking := fun _ _ hpc => by rw [huser] at hpc; cases hpc }

/-- A process gets a parent, from its own or from the one that leaves it. -/
theorem Inv.reparented {o : Fin NPROC} (h : Inv s) (hbusy : (s.proc p).pc.busy = true) (hwait : s'.waitLock = s.waitLock)
    (hc : Changed s s' p i (some o) (s.proc i).state pc) (hpc : pc.holdsWait = (s.proc p).pc.holdsWait)
    (hknows : Knows s' p pc) (hinto : pc.forksInto = (s.proc p).pc.forksInto) (ho : (s.proc o).live)
    (hholds : o ≠ p → s.waitLock = some p) (hused : (s.proc i).state ≠ .unused)
    (hforking : ∀ j ≠ i, (s.proc p).pc ≠ .forkParent j) : Inv s' := by
  refine h.changed hc
    { lock := .inl ⟨hwait, hpc⟩
      knows := hknows
      live := h.busy p hbusy
      busy := fun _ => rfl
      into := fun np hnp => .inl (hinto ▸ hnp)
      used := fun q _ hq => h.used_of_forksInto hq
      exited := fun _ hexited _ => ?_
      parents := fun q hq => ⟨Option.some.inj hq ▸ ho, fun hne hq' => ?_⟩
      free := fun hstate => absurd hstate hused
      dies := .inl id
      rooted := fun _ _ => .inl nofun
      forking := hforking }
  · have hk := h.knows i
    rw [hexited] at hk
    exact hk
  · have hlock := hholds (Option.some.inj hq ▸ hne)
    rw [h.lock q, hlock] at hq'
    exact absurd (Option.some.inj hq').symm hne

theorem Inv.forkParent (h : Inv s) (hfork : (s.proc p).pc = .forkParent np) (hwait : s'.waitLock = s.waitLock)
    (hc : Changed s s' p np (some p) (s.proc np).state (.forkRunnable np)) : Inv s' := by
  have hbusy : (s.proc p).pc.busy = true := by rw [hfork]; rfl
  have hused : (s.proc np).state = .used := h.used_of_forksInto (q := p) (by rw [hfork]; rfl)
  refine h.reparented hbusy hwait hc (by rw [hfork]; rfl) (hc.state_self.trans hused) (by rw [hfork]; rfl)
    (h.busy p hbusy).1 (fun hne => absurd rfl hne) (by rw [hused]; nofun) fun j hj hpc => ?_
  rw [hfork] at hpc
  exact hj (Pc.forkParent.inj hpc).symm

theorem Inv.adopt {status : Int} (h : Inv s) (hexit : (s.proc p).pc = .reparent status i)
    (hwait : s'.waitLock = s.waitLock)
    (hc : Changed s s' p i (some s.initproc) (s.proc i).state (.reparentWake status i 0))
    (hchild : (s.proc i).parent = some p) : Inv s' := by
  have hknows := h.knows p
  rw [hexit] at hknows
  refine h.reparented (by rw [hexit]; rfl) hwait hc (by rw [hexit]; rfl) ⟨hc.init ▸ hknows.1, fun j hj => ?_⟩
    (by rw [hexit]; rfl) h.init (fun _ => (h.lock p).mp (by rw [hexit]; rfl)) (fun hunused => ?_) fun j _ hpc => ?_
  · rw [hc.parent]
    split
    · exact fun heq => hknows.1 (Option.some.inj heq).symm
    · next hji =>
      have hval : j.val ≠ i.val := fun heq => hji (Fin.ext heq)
      exact hknows.2 j (by omega)
  · rw [h.free i hunused] at hchild
    cases hchild
  · rw [hexit] at hpc
    cases hpc

theorem Inv.forkRunnable (h : Inv s) (hfork : (s.proc p).pc = .forkRunnable np)
    (hwait : s'.waitLock = s.waitLock) (hc : Changed s s' p np (s.proc np).parent .runnable .user) : Inv s' := by
  have hinto : (s.proc p).pc.forksInto = some np := by rw [hfork]; rfl
  have hlive := h.busy p (by rw [hfork]; rfl)
  have hused := h.used_of_forksInto hinto
  have hne : np ≠ p := by
    rintro rfl
    exact hlive.2 hused
  refine h.changed hc
    { lock := .inl ⟨hwait, by rw [hfork]; rfl⟩
      knows := trivial
      live := hlive
      busy := fun hbusy => ?_
      into := nofun
      used := fun q hq hinto' => absurd (h.forks q p np hinto' hinto) hq
      exited := fun _ hexited _ => ?_
      parents := fun q hq => ⟨h.parents np q hq, fun _ _ => hq⟩
      free := nofun
      dies := .inl fun _ => ⟨nofun, nofun⟩
      rooted := fun hinit _ => ?_
      forking := fun _ _ hpc => by rw [hfork] at hpc; cases hpc }
  · rw [hc.busy hne hbusy, h.not_busy (.inr hused)] at hbusy
    cases hbusy
  · have hk := h.knows np
    rw [hexited] at hk
    exact absurd (hused.symm.trans hk) nofun
  rcases h.rooted np hinit (by rw [hused]; nofun) with hparent | ⟨q, hq⟩
  · exact .inl hparent
  · -- the one that forks it is past that place
    rw [h.forks q p np (by rw [hq]; rfl) hinto, hfork] at hq
    cases hq

theorem Inv.exitMark {status : Int} (h : Inv s) (hexit : (s.proc p).pc = .exitMark status)
    (hwait : s'.waitLock = none) (hc : Changed s s' p p (s.proc p).parent .zombie .exited) : Inv s' := by
  have hknows := h.knows p
  rw [hexit] at hknows
  have hlive := h.busy p (by rw [hexit]; rfl)
  refine h.changed hc
    { lock := .inr ⟨hwait, (h.lock p).mp (by rw [hexit]; rfl), rfl⟩
      knows := hc.state_self
      live := hlive
      busy := fun hbusy => by rw [hc.pc] at hbusy; cases hbusy
      into := nofun
      used := fun q _ hinto => absurd (h.used_of_forksInto hinto) hlive.2
      exited := fun hne => absurd rfl hne
      parents := fun q hq => ⟨h.parents p q hq, fun _ _ => hq⟩
      free := nofun
      dies := .inr ⟨hknows.1, fun j => ?_⟩
      rooted := fun hinit _ => ?_
      forking := fun _ _ hpc => by rw [hexit] at hpc; cases hpc }
  · rw [hc.parent]
    split
    · exact hknows.2 p
    · exact hknows.2 j
  rcases h.rooted p hinit hlive.1.1 with hparent | ⟨q, hq⟩
  · exact .inl hparent
  · exact absurd (h.used_of_forksInto (q := q) (by rw [hq]; rfl)) hlive.2

theorem Inv.reaped {addr havekids : Bool} (h : Inv s)
    (hscan : (s.proc p).pc = .waitScan addr i havekids) (hunlocked : (s.proc i).pc ≠ .exited)
    (hzombie : (s.proc i).state = .zombie) (hwait : s'.waitLock = none)
    (hc : Changed s s' p i none .unused .user) : Inv s' := by
  have hlive := h.busy p (by rw [hscan]; rfl)
  have hne : i ≠ p := by
    rintro rfl
    exact hlive.1.2 hzombie
  have hdead : ¬ (s.proc i).live := fun hl => hl.2 hzombie
  refine h.changed hc
    { lock := .inr ⟨hwait, (h.lock p).mp (by rw [hscan]; rfl), rfl⟩
      knows := trivial
      live := hlive
      busy := fun hbusy => ?_
      into := nofun
      used := fun q _ hinto => absurd (hzombie.symm.trans (h.used_of_forksInto hinto)) nofun
      exited := fun _ hexited => absurd hexited hunlocked
      parents := nofun
      free := fun _ => rfl
      dies := .inl fun hl => absurd hl hdead
      rooted := fun _ hs => absurd rfl hs
      forking := fun _ _ hpc => by rw [hscan] at hpc; cases hpc }
  rw [hc.busy hne hbusy, h.not_busy (.inl hdead)] at hbusy
  cases hbusy

theorem boot_inv : Inv boot := by
  have hpc : ∀ q, (boot.proc q).pc = .user := by
    intro q
    by_cases hq : q = 0 <;> simp [boot, hq]
  have hparent : ∀ q, (boot.proc q).parent = none := by
    intro q
    by_cases hq : q = 0 <;> simp [boot, hq]
  constructor
  · intro q
    rw [hpc]
    simp [Pc.holdsWait, boot]
  · intro q
    rw [hpc]
    trivial
  · intro q hq
    rw [hpc] at hq
    cases hq
  · intro q q' np hq
    rw [hpc] at hq
    cases hq
  · exact fun i _ => hparent i
  · intro i q hi
    rw [hparent] at hi
    cases hi
  · intro i hi hs
    exact absurd (by simp [boot, show i ≠ 0 from hi]) hs
  · simp [Proc.live, boot]

theorem Inv.moved (h : Inv s) (hm : Moved s p r s') : Inv s' := by
  cases hm with
  | turn r s' ht => exact h.turn ht
  | forkFails np hunused => exact h.forkFails hunused
  | forked np hunused huser hruns =>
    have hne : np ≠ p := by
      rintro rfl
      exact (canRun.live hruns).1.1 hunused
    refine h.forked hunused huser hruns rfl (.set rfl rfl (.inr ⟨rfl, h.not_busy (.inl fun hl => hl.1 hunused)⟩)) ?_
    rw [goto_pc, if_neg hne, set_pc, if_pos rfl]
  | forkParent np hpc => exact h.forkParent hpc rfl (.set rfl rfl (.inl rfl))
  | forkRunnable np hpc => exact h.forkRunnable hpc rfl (.set rfl rfl (.inl rfl))
  | adopt status i hpc hchild => exact h.adopt hpc rfl (.set rfl rfl (.inl rfl)) hchild
  | exitMark status hpc =>
    refine h.exitMark hpc rfl ⟨rfl, fun j => set_parent _, fun j => set_state _, ?_, fun j hj => .inl ?_⟩
    · rw [Family.exitMark, setWaitLock_proc, set_pc, if_pos rfl]
    · rw [Family.exitMark, setWaitLock_proc, set_pc, if_neg hj]
  | reaped addr i havekids hpc hchild hunlocked hzombie =>
    exact h.reaped hpc hunlocked hzombie rfl (Changed.set (x := s.setWaitLock none) rfl rfl (.inl rfl))

/-! ## The claim of the trace -/

def Proc.life (q : Proc) : Life :=
  if q.state = .unused then .free
  else if q.state = .zombie then .exited q.pid q.xstate
  else .alive q.pid

theorem SameProc.life {q q' : Proc} (h : SameProc q q') : q'.life = q.life := by
  unfold Proc.life
  simp only [h.unused, h.zombie, h.pid, h.xstate]

theorem SameProc.life_goto (s : State) (p i : Fin NPROC) (pc : Pc) : ((s.goto p pc).proc i).life = (s.proc i).life :=
  (SameProc.goto s p i pc).life

theorem Life.next_of_plain {l : Life} {a : Act} (h : r = .none ∨ ∃ v, r = .value v) :
    Life.next i l (a, r) = some l := by
  rcases h with rfl | ⟨v, rfl⟩ <;> rfl

theorem Inv.life_next {a : Act} (h : Inv s) (hm : Moved s a.proc r s') (i : Fin NPROC) :
    Life.next i (s.proc i).life (a, r) = some (s'.proc i).life := by
  generalize hp : a.proc = p at hm
  cases hm with
  | turn r s' ht hret =>
    rw [Life.next_of_plain hret, (ht.same i).life]
  | forkFails np hunused =>
    rw [Life.next_of_plain (.inr ⟨_, rfl⟩)]
    by_cases hi : i = np
    · simp [hi, Proc.life, freeproc, hunused]
    · simp [hi]
  | forked np hunused =>
    rw [SameProc.life_goto]
    by_cases hi : i = np
    · simp [hi, Life.next, Proc.life, hunused]
    · simp [hi, Ne.symm hi, Life.next]
  | forkParent np =>
    rw [Life.next_of_plain (.inl rfl), SameProc.life_goto]
    by_cases hi : i = np
    · simp [hi, Proc.life]
    · simp [hi]
  | forkRunnable np hpc =>
    have hused : (s.proc np).state = .used := h.used_of_forksInto (q := p) (by rw [hpc]; rfl)
    rw [Life.next_of_plain (.inr ⟨_, rfl⟩), SameProc.life_goto]
    by_cases hi : i = np
    · simp [hi, Proc.life, hused]
    · simp [hi]
  | adopt status k =>
    rw [Life.next_of_plain (.inl rfl), SameProc.life_goto]
    by_cases hi : i = k
    · simp [hi, Proc.life]
    · simp [hi]
  | exitMark status hpc =>
    have hlive := h.busy p (by rw [hpc]; rfl)
    by_cases hi : i = p
    · simp [hi, Life.next, hp, Proc.life, Family.exitMark, hlive.1.1, hlive.1.2]
    · simp [hi, Ne.symm hi, Life.next, hp, Family.exitMark]
  | reaped addr k havekids hpc hchild hunlocked hzombie =>
    unfold leaveWait
    rw [SameProc.life_goto]
    by_cases hi : i = k
    · simp [hi, Life.next, Proc.life, freeproc, hzombie]
    · simp [hi, Ne.symm hi, Life.next]

theorem Moved.parent_of_reaped {pp : Fin NPROC} {pid status : Int}
    (hm : Moved s p (.reaped pp pid status) s') : (s.proc pp).parent = some p := by
  generalize hr : Ret.reaped pp pid status = r at hm
  cases hm with
  | turn r s' ht hret =>
    rcases hret with rfl | ⟨v, rfl⟩ <;> cases hr
  | reaped addr i havekids hpc hchild =>
    cases hr
    exact hchild
  | forkFails | forked | forkParent | forkRunnable | adopt | exitMark => cases hr

theorem Inv.childless_of_fail {addr havekids copied : Bool} {k : Nat} (h : Inv s)
    (hpc : (s.proc p).pc = .waitScan addr k havekids)
    (hstep : Step s (.advance p copied, .value (-1)) s') (hlive : (s.proc p).killed = false)
    (hcopied : addr = true → copied = true) (pp : Fin NPROC) : (s.proc pp).parent ≠ some p := by
  simp only [Step, Exec, exec, advance, hpc] at hstep
  split at hstep
  · split at hstep
    · unfold scanEntry at hstep
      grind
    rename_i hend
    unfold scanEnd at hstep
    have hknows := h.knows p
    rw [hpc] at hknows
    have hnone : havekids = false := by grind
    exact hknows hnone pp (by omega)
  · cases hstep

theorem statusDeliveredOnce : StatusDeliveredOnce Step := by
  intro tr s hrun
  have hall : Inv s ∧ ∀ i, life i tr = some (s.proc i).life := by
    refine Run.invariant_trace (P := fun tr s => Inv s ∧ ∀ i, life i tr = some (s.proc i).life)
      ?_ hrun ⟨boot_inv, fun i => ?_⟩
    · rintro tr s ⟨a, r⟩ s' ⟨h, hlife⟩ hstep
      have hm := step_moved hstep
      refine ⟨h.moved hm, fun i => ?_⟩
      unfold life at hlife ⊢
      rw [List.foldlM_append, hlife i]
      simpa using h.life_next hm i
    by_cases hi : i = 0
    · subst hi
      rfl
    · simp [life, boot, hi, Proc.life]
  obtain ⟨h, hlife⟩ := hall
  refine ⟨fun i hi hstate hfork => ?_, fun i => ?_, ?_, ?_⟩
  · rcases h.rooted i hi hstate with hparent | ⟨q, hq⟩
    · obtain ⟨q, hq⟩ := Option.ne_none_iff_exists'.mp hparent
      exact ⟨q, hq, h.parents i q hq⟩
    · exact absurd ⟨q, .inl hq⟩ hfork
  · rw [hlife i]
    rfl
  · intro a pp pid status s' hstep
    exact (step_moved hstep).parent_of_reaped
  · intro p addr k havekids copied s' hpc hstep hkilled hcopied
    exact h.childless_of_fail hpc hstep hkilled hcopied

end Xv6.Family
