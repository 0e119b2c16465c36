import Xv6.Proc.Table

/-!
# Whom `kill` reaches

`kkill` compares `p->pid` without looking at `p->state`, an `UNUSED` slot has pid 0, and `allocproc` does not clear
`killed`.  So `kill(0)` marks the first free slot and reports success, and the next process that is put into this
slot starts out killed.  Nothing else can go wrong.
-/

namespace Xv6.ProcTable

open Runs

def allocates (i : Fin NPROC) : Event → Bool
  | (.fork _ _, .child np) => np == i
  | _ => false

/-- The event is a reason for the process in slot `i`, with this pid, to be killed. -/
def condemns (i : Fin NPROC) (pid : Int) : Event → Bool
  | (.kill _ target, _) => target == pid
  | (.trap p .unexpected, _) => p == i
  | (.trapReturn p, .dispatched defaulted) => p == i && !defaulted.isEmpty
  | _ => false

/-- A reason for the process in slot `i` to be killed has come up since the slot was allocated. -/
def Condemned (i : Fin NPROC) (pid : Int) (tr : List Event) : Prop :=
  ∃ tr₁ ev tr₂, tr = tr₁ ++ ev :: tr₂ ∧ condemns i pid ev = true ∧ ∀ e ∈ tr₂, allocates i e = false

/-- What `kill` is meant to guarantee, in runs of `step` from boot. -/
def KillReachesTarget (step : State → Event → State → Prop) : Prop :=
  ∀ tr s, Run step boot tr s →
    (∀ i, s.live i → (s.proc i).killed = true → Condemned i (s.proc i).pid tr) ∧
    (∀ mem i s', allocproc s mem = (some i, s') → (s'.proc i).killed = false) ∧
    (∀ p pid r s', step s (.kill p pid, .value r) s' → (∀ i, s.live i → (s.proc i).pid ≠ pid) → r = -1)

/-- `kill(0)` is not called while the first slot with pid 0 is a free one. -/
def SparesFree (s : State) : Event → Prop
  | (.kill _ pid, _) => pid = 0 → ∀ i, slotWithPid s 0 = some i → s.live i
  | _ => True

instance (s : State) : (ev : Event) → Decidable (SparesFree s ev)
  | (.kill _ _, _) => inferInstanceAs (Decidable (_ → _))
  | (.trap _ _, _) | (.otherCall _, _) | (.fork _ _, _) | (.forkParent _, _)
  | (.forkRunnable _, _) | (.exit _ _, _) | (.wait _ _, _) | (.signalInit _, _)
  | (.signalSend _ _ _, _) | (.signalHandle _ _ _, _) | (.sigmask _ _ _, _)
  | (.trapReturn _, _) => isTrue trivial

/-! ## What the operations leave alone -/

/-- Slot `i` keeps its `killed` flag and its pid, and is not freed. -/
structure Keeps (i : Fin NPROC) (s s' : State) : Prop where
  killed : (s'.proc i).killed = (s.proc i).killed
  pid : (s'.proc i).pid = (s.proc i).pid
  live : s.live i → s'.live i

section Keeps

variable {i p : Fin NPROC} {s s' s'' : State}

@[simp] theorem set_self (s : State) (p : Fin NPROC) (q : Proc) : (s.set p q).proc p = q := by
  simp [State.set]

theorem set_of_ne (s : State) (q : Proc) (h : i ≠ p) : (s.set p q).proc i = s.proc i := by
  simp [State.set, h]

theorem Keeps.refl (i : Fin NPROC) (s : State) : Keeps i s s := ⟨rfl, rfl, id⟩

theorem Keeps.trans (h : Keeps i s s') (h' : Keeps i s' s'') : Keeps i s s'' :=
  ⟨h'.killed.trans h.killed, h'.pid.trans h.pid, fun hl => h'.live (h.live hl)⟩

theorem Keeps.set {q : Proc} (hkilled : q.killed = (s.proc p).killed)
    (hpid : q.pid = (s.proc p).pid) (hlive : s.live p → q.state ≠ .unused) : Keeps i s (s.set p q) := by
  by_cases h : i = p
  · subst h
    exact ⟨by simpa using hkilled, by simpa using hpid, fun hl => by simpa [State.live] using hlive hl⟩
  · have hsame := set_of_ne s q h
    exact ⟨by rw [hsame], by rw [hsame], fun hl => by rwa [State.live, hsame]⟩

theorem Keeps.setPc (s : State) (i p : Fin NPROC) (pc : Pc) : Keeps i s (s.setPc p pc) := Keeps.set rfl rfl id

theorem Keeps.wakeup (s : State) (i me chan : Fin NPROC) : Keeps i s (s.wakeup me chan) := by
  unfold State.wakeup
  by_cases h : i = me
  · exact ⟨by simp [h], by simp [h], by simp [State.live, h]⟩
  refine ⟨by simp [h], by simp [h], ?_⟩
  simp only [State.live, h, if_false]
  intro hl
  unfold Thread.wake
  split
  · simp
  · exact hl

theorem Keeps.reparent (s : State) (i p : Fin NPROC) : Keeps i s (reparent s p) := by
  have hadopt : Keeps i s { s with proc := fun pp => adopt s.initproc p (s.proc pp) } := by
    refine ⟨?_, ?_, ?_⟩ <;> dsimp only [State.live, adopt] <;> split <;> simp
  unfold ProcTable.reparent
  dsimp only
  split
  · exact hadopt.trans (Keeps.wakeup _ i p _)
  · exact hadopt

theorem Keeps.kexit {status : Int} (h : kexit s p status = some s') : Keeps i s s' := by
  unfold ProcTable.kexit at h
  split at h
  · cases h
  simp only [Option.some.injEq] at h
  subst h
  refine (Keeps.reparent s i p).trans (Keeps.trans ?_ (Keeps.set rfl rfl fun _ => by simp))
  split
  · exact Keeps.wakeup _ i p _
  · exact Keeps.refl i _

end Keeps

/-! ## What a step does to one slot -/

inductive Touch (i : Fin NPROC) (s : State) (ev : Event) (s' : State) : Prop
  | keep : allocates i ev = false → Keeps i s s' → Touch i s ev s'
  | freed : (s'.proc i).state = .unused → (s'.proc i).killed = false → (s'.proc i).pid = 0 →
      Touch i s ev s'
  | alloc : (s.proc i).state = .unused → s'.live i → (s'.proc i).killed = (s.proc i).killed →
      Touch i s ev s'
  | killed : condemns i (s.proc i).pid ev = true → allocates i ev = false →
      (s'.proc i).pid = (s.proc i).pid → (s.live i → s'.live i) →
      (SparesFree s ev → ((s.proc i).state = .unused → (s.proc i).pid = 0) → s.live i) →
      Touch i s ev s'

section Touch

variable {i p : Fin NPROC} {s s' : State} {ev : Event}

theorem unusedSlot_state {j : Fin NPROC} (h : unusedSlot s = some j) : (s.proc j).state = .unused := by
  simpa using List.find?_some h

theorem allocproc_some {mem : Alloc} (h : allocproc s mem = (some p, s')) :
    (s.proc p).state = .unused ∧ s'.live p ∧ (s'.proc p).killed = (s.proc p).killed ∧
      ∀ j, j ≠ p → s'.proc j = s.proc j := by
  unfold allocproc at h
  split at h
  · cases h
  rename_i q hslot
  dsimp only [allocpid] at h
  split at h
  · cases h
  split at h
  · cases h
  simp only [Prod.mk.injEq, Option.some.injEq] at h
  obtain ⟨rfl, rfl⟩ := h
  refine ⟨unusedSlot_state hslot, by simp [State.live], by simp, fun j hj => ?_⟩
  rw [set_of_ne _ _ hj, set_of_ne _ _ hj]

theorem allocproc_none {mem : Alloc} (h : allocproc s mem = (none, s')) (ev : Event) :
    Touch i s ev s' ∨ s'.proc i = s.proc i := by
  unfold allocproc at h
  split at h
  · cases h
    exact .inr rfl
  rename_i q hslot
  dsimp only [allocpid] at h
  have hfreed (t : State) (ht : ∀ j, j ≠ q → t.proc j = s.proc j) :
      Touch i s ev (freeproc t q) ∨ (freeproc t q).proc i = s.proc i := by
    by_cases hi : i = q
    · subst hi
      exact .inl (.freed (by simp [freeproc]) (by simp [freeproc]) (by simp [freeproc]))
    · exact .inr (by rw [freeproc, set_of_ne _ _ hi, ht i hi])
  split at h
  · cases h
    exact hfreed _ fun j hj => by rw [set_of_ne _ _ hj]
  split at h
  · cases h
    exact hfreed _ fun j hj => by rw [set_of_ne _ _ hj]
  · cases h

theorem Touch.setPc {q : Fin NPROC} {pc : Pc} (h : Touch i s ev s') : Touch i s ev (s'.setPc q pc) := by
  have hk := Keeps.setPc s' i q pc
  have hstate : ((s'.setPc q pc).proc i).state = (s'.proc i).state := by
    unfold State.setPc
    by_cases hq : i = q
    · subst hq
      simp
    · rw [set_of_ne _ _ hq]
  cases h with
  | keep hev hkeep => exact .keep hev (hkeep.trans hk)
  | freed hu hkilled hpid =>
    exact .freed (hstate.trans hu) (hk.killed.trans hkilled) (hk.pid.trans hpid)
  | alloc hu hlive hkilled => exact .alloc hu (hk.live hlive) (hk.killed.trans hkilled)
  | killed hev hall hpid hlive hspares =>
    exact .killed hev hall (hk.pid.trans hpid) (fun hl => hk.live (hlive hl)) hspares

theorem keeps_of_eq (h : s'.proc i = s.proc i) : Keeps i s s' :=
  ⟨by rw [h], by rw [h], fun hl => by rwa [State.live, h]⟩

theorem kfork_touch (mem : Alloc) : Touch i s (.fork p mem, (kfork s p mem).2) (kfork s p mem).1 := by
  unfold kfork
  split
  · rename_i s₁ halloc
    rcases allocproc_none (i := i) halloc (.fork p mem, .value (-1)) with htouch | hsame
    · exact htouch.setPc
    · exact .keep rfl ((keeps_of_eq hsame).trans (Keeps.setPc _ i p _))
  rename_i np s₁ halloc
  obtain ⟨hunused, hlive, hkilled, hothers⟩ := allocproc_some halloc
  split
  · by_cases hi : i = np
    · subst hi
      exact Touch.setPc (.freed (by simp [freeproc]) (by simp [freeproc]) (by simp [freeproc]))
    · have hsame : (freeproc s₁ np).proc i = s.proc i := by
        rw [freeproc, set_of_ne _ _ hi, hothers i hi]
      exact .keep rfl ((keeps_of_eq hsame).trans (Keeps.setPc _ i p _))
  by_cases hi : i = np
  · subst hi
    exact Touch.setPc (.alloc hunused hlive hkilled)
  · exact .keep (by simpa [allocates] using Ne.symm hi) ((keeps_of_eq (hothers i hi)).trans (Keeps.setPc _ i p _))

theorem kwait_touch (copied : Bool) : Touch i s (.wait p copied, (kwait s p copied).2) (kwait s p copied).1 := by
  unfold kwait
  split
  · rename_i pp hchild
    split
    · by_cases hi : i = pp
      · subst hi
        exact Touch.setPc (.freed (by simp [freeproc]) (by simp [freeproc]) (by simp [freeproc]))
      · have hsame : (freeproc s pp).proc i = s.proc i := by rw [freeproc, set_of_ne _ _ hi]
        exact .keep rfl ((keeps_of_eq hsame).trans (Keeps.setPc _ i p _))
    · exact .keep rfl (Keeps.setPc s i p _)
  · split
    · exact .keep rfl (Keeps.setPc s i p _)
    · exact .keep rfl (Keeps.set rfl rfl fun _ => by simp [Thread.sleep])

theorem kkill_touch (pid r : Int) (hr : (kkill s pid).2 = r) : Touch i s (.kill p pid, .value r) (kkill s pid).1 := by
  subst hr
  unfold kkill
  split
  · rename_i q hslot
    have hpid : (s.proc q).pid = pid := by simpa using List.find?_some hslot
    by_cases hi : i = q
    · subst hi
      refine .killed (by simp [condemns, hpid]) rfl (by simp) ?_ ?_
      · simp only [State.live, set_self, Thread.kill]
        intro hl
        split
        · simp
        · exact hl
      intro hspares hzero
      by_contra hfree
      have hpid0 : pid = 0 := by
        rw [← hpid]
        exact hzero (not_not.mp hfree)
      subst hpid0
      exact hfree (hspares rfl i hslot)
    · exact .keep rfl (keeps_of_eq (set_of_ne s _ hi))
  · exact .keep rfl (Keeps.refl i s)

/-! `dispatch_signals` sets `killed` exactly when it takes a default action. -/

/-- What `dispatch_signals` has done so far to the process `q` it was called for. -/
structure DispatchOk (q : Proc) (d : Dispatch) : Prop where
  pid : d.proc.pid = q.pid
  state : d.proc.state = q.state
  killed : d.proc.killed = true → q.killed = true ∨ d.defaulted ≠ []
  kept : q.killed = true → d.proc.killed = true

theorem DispatchOk.step {q : Proc} {d : Dispatch} (h : DispatchOk q d) (j : Fin NSIG) :
    DispatchOk q (dispatchSignal d j) := by
  unfold dispatchSignal
  split
  · exact h
  split
  · exact h
  dsimp only
  split
  · exact ⟨h.pid, h.state, h.killed, h.kept⟩
  · split
    · exact ⟨h.pid, h.state, fun _ => .inr (by simp), fun _ => rfl⟩
    · exact ⟨h.pid, h.state, h.killed, h.kept⟩

theorem dispatchSignals_ok (q : Proc) : DispatchOk q (dispatchSignals q) := by
  have hfold : ∀ (l : List (Fin NSIG)) (d : Dispatch), DispatchOk q d →
      DispatchOk q (l.foldl dispatchSignal d) := by
    intro l
    induction l with
    | nil => exact fun d h => h
    | cons j l ih => exact fun d h => ih _ (h.step j)
  exact hfold _ _ ⟨rfl, rfl, .inl, id⟩

theorem usertrap_touch {cause : Trap} {ret : Ret} (h : usertrap s p cause = some (s', ret))
    (hlive : s.live p) : Touch i s (.trap p cause, ret) s' := by
  cases cause with
  | syscall =>
    simp only [usertrap] at h
    split at h
    · obtain ⟨t, hexit, ⟨⟩⟩ := Option.map_eq_some_iff.mp h
      exact .keep rfl (Keeps.kexit hexit)
    · cases h
      exact .keep rfl (Keeps.setPc s i p _)
  | device | lazyFault =>
    cases h
    exact .keep rfl (Keeps.setPc s i p _)
  | unexpected =>
    cases h
    apply Touch.setPc
    by_cases hi : i = p
    · subst hi
      exact .killed (by simp [condemns]) rfl (by simp [setkilled])
        (fun hl => by simpa [State.live, setkilled] using hl) (fun _ _ => hlive)
    · exact .keep rfl (keeps_of_eq (set_of_ne s _ hi))

theorem canRun_live (h : s.canRun p) : s.live p := by
  rcases h with hstate | hstate <;> simp [State.live, hstate]

theorem usertrapReturn_touch {timer : Bool} {ret : Ret}
    (h : usertrapReturn s p timer = some (s', ret)) (hrun : s.canRun p) : Touch i s (.trapReturn p, ret) s' := by
  rcases usertrapReturn_some h with ⟨hexit, rfl⟩ | ⟨-, -, rfl, rfl⟩
  · exact .keep rfl (Keeps.kexit hexit)
  by_cases hi : i = p
  case neg => exact .keep rfl (keeps_of_eq (set_of_ne s _ hi))
  subst hi
  have hd := dispatchSignals_ok (s.proc i)
  generalize dispatchSignals (s.proc i) = d at hd ⊢
  have hlive : s.live i := canRun_live hrun
  have hpid : ((if timer = true then
      { d.proc with pc := .user, state := .runnable } else { d.proc with pc := .user } : Proc).pid)
      = (s.proc i).pid := by
    split <;> exact hd.pid
  have hlive' : ((if timer = true then
      { d.proc with pc := .user, state := .runnable } else { d.proc with pc := .user } : Proc).state)
      ≠ .unused := by
    split
    · simp
    · simpa [State.live, hd.state] using hlive
  by_cases hdef : d.defaulted = []
  · -- no default action was taken, so `killed` is as before
    have hkilled : d.proc.killed = (s.proc i).killed := by
      rw [Bool.eq_iff_iff]
      exact ⟨fun hk => (hd.killed hk).resolve_right (not_not.mpr hdef), hd.kept⟩
    refine .keep rfl (Keeps.set ?_ hpid fun _ => hlive')
    split <;> exact hkilled
  · refine .killed (by simp [condemns, hdef]) rfl (by simpa using hpid) (fun _ => ?_) (fun _ _ => hlive)
    simpa [State.live] using hlive'

theorem step_touch (h : Step s ev s') (i : Fin NPROC) : Touch i s ev s' := by
  cases h.does with
  | trap hat h => exact usertrap_touch h (canRun_live hat.1)
  | otherCall => exact Touch.setPc (.keep rfl (Keeps.refl i s))
  | fork => exact kfork_touch _
  | @forkParent p np =>
    have hparent : Keeps i s (s.set np { s.proc np with parent := some p }) := Keeps.set rfl rfl id
    exact .keep rfl (hparent.trans (Keeps.setPc _ i p _))
  | forkRunnable => exact Touch.setPc (.keep rfl (Keeps.set rfl rfl fun _ => by simp))
  | exit _ hexit => exact .keep rfl (Keeps.kexit hexit)
  | wait => exact kwait_touch _
  | kill => exact Touch.setPc (kkill_touch _ _ rfl)
  | signalInit => exact Touch.setPc (.keep rfl (Keeps.set rfl rfl id))
  | signalSend =>
    refine Touch.setPc (.keep rfl ?_)
    unfold signalSend
    split
    · exact Keeps.refl i s
    · split
      · exact Keeps.set rfl rfl id
      · exact Keeps.refl i s
  | signalHandle =>
    refine Touch.setPc (.keep rfl ?_)
    unfold signalHandle
    split <;> exact Keeps.set rfl rfl id
  | sigmask =>
    refine Touch.setPc (.keep rfl ?_)
    unfold sigmask
    split <;> exact Keeps.set rfl rfl id
  | trapReturn _ hrun h => exact usertrapReturn_touch h hrun

end Touch

/-! ## The invariant -/

/-- A free slot is clean, and a killed process has been condemned. -/
structure Clean (tr : List Event) (s : State) : Prop where
  free : ∀ i, (s.proc i).state = .unused → (s.proc i).killed = false ∧ (s.proc i).pid = 0
  killed : ∀ i, s.live i → (s.proc i).killed = true → Condemned i (s.proc i).pid tr

variable {tr : List Event}

theorem Condemned.snoc {i : Fin NPROC} {pid : Int} {ev : Event}
    (h : Condemned i pid tr) (hev : allocates i ev = false) : Condemned i pid (tr ++ [ev]) := by
  obtain ⟨tr₁, e, tr₂, rfl, hcond, hnone⟩ := h
  refine ⟨tr₁, e, tr₂ ++ [ev], by simp, hcond, fun e' he' => ?_⟩
  rcases List.mem_append.mp he' with hmem | hmem
  · exact hnone e' hmem
  · rw [List.mem_singleton.mp hmem]
    exact hev

theorem condemned_last {i : Fin NPROC} {pid : Int} {ev : Event}
    (h : condemns i pid ev = true) : Condemned i pid (tr ++ [ev]) :=
  ⟨tr, ev, [], rfl, h, by simp⟩

theorem clean_boot : Clean [] boot := by
  refine ⟨fun i hi => ?_, fun i _ hk => ?_⟩ <;> by_cases h : i = 0
  · subst h
    simp [boot] at hi
  · simp [boot, h, Proc.zero]
  · subst h
    simp [boot, Proc.zero] at hk
  · simp [boot, h, Proc.zero] at hk

theorem clean_step {s s' : State} {ev : Event} (h : Clean tr s)
    (hstep : restrict SparesFree Step s ev s') : Clean (tr ++ [ev]) s' := by
  obtain ⟨hspares, hstep⟩ := hstep
  refine ⟨fun i hfree => ?_, fun i hlive hk => ?_⟩
  · cases step_touch hstep i with
    | keep _ hkeep =>
      have hbefore : (s.proc i).state = .unused := by
        by_contra hl
        exact hkeep.live hl hfree
      have hclean := h.free i hbefore
      exact ⟨hkeep.killed.trans hclean.1, hkeep.pid.trans hclean.2⟩
    | freed _ hkilled hpid => exact ⟨hkilled, hpid⟩
    | alloc _ hlive => exact absurd hfree hlive
    | killed _ _ _ hlive hspared =>
      exact absurd hfree (hlive (hspared hspares fun hu => (h.free i hu).2))
  cases step_touch hstep i with
  | keep hev hkeep =>
    rw [hkeep.killed] at hk
    have hbefore : s.live i := by
      intro hu
      rw [(h.free i hu).1] at hk
      cases hk
    rw [hkeep.pid]
    exact (h.killed i hbefore hk).snoc hev
  | freed hu => exact absurd hu hlive
  | alloc hu _ hkilled =>
    rw [hkilled, (h.free i hu).1] at hk
    cases hk
  | killed hcond _ hpid =>
    rw [hpid]
    exact condemned_last hcond

theorem clean_run {s : State} (h : Run (restrict SparesFree Step) boot tr s) : Clean tr s :=
  Run.invariant_trace (fun _ _ _ _ hs hstep => clean_step hs hstep) h clean_boot

/-- In runs where `kill(0)` does not meet a free slot, `kill` reaches only its target. -/
theorem killReachesTarget_of_sparesFree (step : State → Event → State → Prop)
    (hsub : ∀ s ev t, step s ev t → restrict SparesFree Step s ev t) : KillReachesTarget step := by
  intro tr s hrun
  have hclean := clean_run (hrun.mono hsub)
  refine ⟨hclean.killed, fun mem i s' halloc => ?_, fun p pid r s' hstep hnone => ?_⟩
  · obtain ⟨hunused, _, hkilled, _⟩ := allocproc_some halloc
    rw [hkilled, (hclean.free i hunused).1]
  obtain ⟨hspares, hstep⟩ := hsub _ _ _ hstep
  cases hstep.does
  unfold kkill
  split
  · -- the slot found would be a free one with pid 0
    rename_i i hslot
    have hpid : (s.proc i).pid = pid := by simpa using List.find?_some hslot
    have hfree : ¬ s.live i := fun hl => hnone i hl hpid
    have hpid0 : pid = 0 := by
      rw [← hpid]
      exact (hclean.free i (not_not.mp hfree)).2
    subst hpid0
    exact absurd (hspares rfl i hslot) hfree
  · rfl

/-- init kills itself. -/
theorem killed_init_condemned : ∃ s tr, Run (restrict SparesFree Step) boot tr s ∧
    (s.proc 0).killed = true ∧ Condemned 0 (s.proc 0).pid tr := by
  have hrun : ((execs (guarded SparesFree exec) boot [.trap 0 .syscall, .kill 0 1]).any fun r =>
      r.1.live 0 ∧ (r.1.proc 0).killed = true) = true := by decide
  obtain ⟨s, tr, hrun, hcheck⟩ := Run.of_any_execs hrun
  obtain ⟨hlive, hkilled⟩ := of_decide_eq_true hcheck
  have hclaim := killReachesTarget_of_sparesFree _ (fun _ _ _ h => h) tr s hrun
  exact ⟨s, tr, hrun, hkilled, hclaim.1 0 hlive hkilled⟩

/-- init calls `kill(0)` and then `fork`: the child is killed although nobody has named its pid. -/
theorem killZero_condemns_next_child : ¬ KillReachesTarget Step := by
  intro hclaim
  obtain ⟨r, hexec, hlive, hkilled, hpid⟩ : ∃ r, execs exec boot
      [.trap 0 .syscall, .kill 0 0, .trapReturn 0, .trap 0 .syscall, .fork 0 ⟨true, true, true⟩]
        = some r ∧ r.1.live 1 ∧ (r.1.proc 1).killed = true ∧ (r.1.proc 1).pid = 2 :=
    ⟨_, rfl, by decide, by decide, by decide⟩
  have htr : r.2 = [(.trap 0 .syscall, .none), (.kill 0 0, .value 0),
      (.trapReturn 0, .dispatched []), (.trap 0 .syscall, .none),
      (.fork 0 ⟨true, true, true⟩, .child 1)] := by
    have hr := Option.some.inj hexec
    rw [← hr]
    rfl
  obtain ⟨tr₁, ev, tr₂, hsplit, hcond, _⟩ := (hclaim r.2 r.1 (Run.of_execs hexec)).1 1 hlive hkilled
  have hmem : ev ∈ r.2 := by
    rw [hsplit]
    simp
  rw [htr] at hmem
  rw [hpid] at hcond
  simp only [List.mem_cons, List.not_mem_nil, or_false] at hmem
  rcases hmem with rfl | rfl | rfl | rfl | rfl <;> simp [condemns] at hcond

end Xv6.ProcTable
