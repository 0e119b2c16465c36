import Mathlib.Data.Fintype.Sum
import Xv6.Lib.Runs
import Xv6.Lib.Sums

/-!
# Nested locks and interrupts

`acquire` and `release` of `kernel/spinlock.c` with `push_off` and `pop_off`, on any number of CPUs, and the switches
between processes and schedulers in `sched` and `scheduler` of `kernel/proc.c`.  A CPU counts its locks in `noff`, and
remembers in `intena` what the first of them found.  `sched` carries `intena` to the CPU where the process goes on.
-/

namespace Xv6.Intr

open Function (update update_apply update_self update_of_ne)
open Runs

inductive Panic where
  | acquire
  | release
  | popOffInterruptible
  | popOff
  | schedLock
  | schedLocks
  | schedInterruptible
  deriving DecidableEq

/-- `struct cpu`, and whether the CPU takes interrupts. -/
structure Cpu where
  noff : Nat
  intena : Bool
  sie : Bool

def pushOff (u : Cpu) : Cpu := ⟨u.noff + 1, if u.noff = 0 then u.sie else u.intena, false⟩

def popOff (u : Cpu) : Except Panic Cpu :=
  if u.sie then .error .popOffInterruptible
  else if u.noff < 1 then .error .popOff
  else .ok ⟨u.noff - 1, u.intena, if u.noff - 1 = 0 ∧ u.intena then true else u.sie⟩

/-- `κ` are the CPUs, `π` the processes, and `ℓ` the locks besides those of the processes. -/
structure State (κ π ℓ : Type) where
  cpu : κ → Cpu
  /-- The CPU of a lock that is locked. -/
  lock : π ⊕ ℓ → Option κ
  /-- The lock that `acquire` waits for. -/
  spinning : κ → Option (π ⊕ ℓ)
  /-- The process that a CPU runs, or its scheduler. -/
  current : κ → Option π
  /-- What a process that does not run has in the local variable `intena` of `sched`; a new process is not in
  `sched`. -/
  context : π → Option (Option Bool)

inductive Event (κ π ℓ : Type) where
  /-- `acquire`, up to its loop. -/
  | acquire (c : κ) (l : π ⊕ ℓ)
  /-- The loop ends. -/
  | take (c : κ)
  | release (c : κ) (l : π ⊕ ℓ)
  | sched (c : κ)
  /-- The scheduler switches to a process. -/
  | dispatch (c : κ) (p : π)
  /-- `intr_on` and `intr_off` outside of critical sections. -/
  | intr (c : κ) (on : Bool)
  /-- `allocproc` gives the slot to a new process. -/
  | alloc (p : π)

variable {κ π ℓ : Type} [DecidableEq κ]

def State.setCpu (s : State κ π ℓ) (c : κ) (u : Cpu) : State κ π ℓ := { s with cpu := update s.cpu c u }

/-- What an event does, where it is possible, and whether the kernel panics. -/
def exec [DecidableEq π] [DecidableEq ℓ] (s : State κ π ℓ) : Event κ π ℓ → Option (State κ π ℓ × Option Panic)
  | .acquire c l =>
    if s.spinning c ≠ none then none
    else if s.lock l = some c then some (s.setCpu c (pushOff (s.cpu c)), some .acquire)
    else some ({ s with spinning := update s.spinning c (some l) }.setCpu c (pushOff (s.cpu c)), none)
  | .take c =>
    match s.spinning c with
    | none => none
    | some l =>
      if s.lock l = none then some ({ s with
        lock := update s.lock l (some c), spinning := update s.spinning c none }, none)
      else none
  | .release c l =>
    if s.spinning c ≠ none then none
    else if s.lock l ≠ some c then some (s, some .release)
    else
      match popOff (s.cpu c) with
      | .error e => some (s, some e)
      | .ok u => some ({ s with lock := update s.lock l none }.setCpu c u, none)
  | .sched c =>
    match s.current c with
    | none => none
    | some p =>
      if s.spinning c ≠ none then none
      else if s.lock (.inl p) ≠ some c then some (s, some .schedLock)
      else if (s.cpu c).noff ≠ 1 then some (s, some .schedLocks)
      else if (s.cpu c).sie then some (s, some .schedInterruptible)
      else some ({ s with
        current := update s.current c none
        context := update s.context p (some (some (s.cpu c).intena)) }, none)
  | .dispatch c p =>
    match s.context p with
    | none => none
    | some saved =>
      if s.current c = none ∧ s.spinning c = none ∧ s.lock (.inl p) = some c then
        some ({ s with
          current := update s.current c (some p)
          context := update s.context p none }.setCpu c { s.cpu c with intena := saved.getD (s.cpu c).intena }, none)
      else none
  | .intr c on =>
    if s.spinning c = none ∧ (s.cpu c).noff = 0 then some (s.setCpu c { s.cpu c with sie := on }, none) else none
  | .alloc p =>
    if (s.context p).isSome then some ({ s with context := update s.context p (some none) }, none) else none

def Step [DecidableEq π] [DecidableEq ℓ] : State κ π ℓ → Event κ π ℓ × Option Panic → State κ π ℓ → Prop := Exec exec

/-- No lock is held, and only schedulers run. -/
structure Boot (s : State κ π ℓ) : Prop where
  noff : ∀ c, (s.cpu c).noff = 0
  lock : ∀ l, s.lock l = none
  spinning : ∀ c, s.spinning c = none
  current : ∀ c, s.current c = none

/-! ## The invariant -/

variable {s t : State κ π ℓ} {c : κ} {p : π}

/-- Whether the thread that runs wants interrupts when it holds no lock. -/
def Cpu.enabled (u : Cpu) : Bool := if u.noff = 0 then u.sie else u.intena

/-- The process wants interrupts, or it does not, wherever it is. -/
def Wants (s : State κ π ℓ) (p : π) (b : Bool) : Prop :=
  (∃ c, s.current c = some p ∧ (s.cpu c).enabled = b) ∨ s.context p = some (some b)

/-- The events in which a process changes its mind, or the slot its process. -/
def Event.resets [DecidableEq π] (s : State κ π ℓ) (p : π) : Event κ π ℓ → Bool
  | .intr c _ => s.current c = some p
  | .alloc q => q = p
  | _ => false

theorem setCpu_self (s : State κ π ℓ) (c : κ) (u : Cpu) : (s.setCpu c u).cpu c = u := update_self ..

theorem setCpu_of_ne {d : κ} (hd : d ≠ c) (s : State κ π ℓ) (u : Cpu) : (s.setCpu c u).cpu d = s.cpu d :=
  update_of_ne hd ..

theorem Wants.setCpu {b : Bool} {u : Cpu} (h : Wants s p b) (hu : s.current c = some p → u.enabled = (s.cpu c).enabled) :
    Wants (s.setCpu c u) p b := by
  rcases h with ⟨d, hd, hb⟩ | hctx
  · refine .inl ⟨d, hd, ?_⟩
    by_cases hdc : d = c
    · rw [hdc, setCpu_self, hu (hdc ▸ hd), ← hdc, hb]
    · rw [setCpu_of_ne hdc]
      exact hb
  · exact .inr hctx

section Held

variable {β : Type} [DecidableEq β] [Fintype β] {lock : β → Option κ} {l : β} {c : κ}

/-- How many locks a CPU holds. -/
def held (lock : β → Option κ) (c : κ) : Nat := ∑ l, if lock l = some c then 1 else 0

theorem held_set (lock : β → Option κ) (l : β) (o : Option κ) (c : κ) :
    held (update lock l o) c + (if lock l = some c then 1 else 0) = held lock c + if o = some c then 1 else 0 := by
  have hsum := Sums.sum_change (f := fun l' => if update lock l o l' = some c then 1 else 0)
    (g := fun l' => if lock l' = some c then 1 else 0) (Finset.mem_univ l)
    fun l' _ hne => by rw [update_of_ne hne]
  rw [update_self] at hsum
  exact hsum

omit [DecidableEq β] in
theorem held_pos (h : lock l = some c) : 0 < held lock c := by
  have hterm := Sums.term_le_sum (f := fun l' => if lock l' = some c then 1 else 0) (Finset.mem_univ l)
  rw [if_pos h] at hterm
  exact hterm

end Held

variable [Fintype π] [Fintype ℓ]

structure Inv (s : State κ π ℓ) : Prop where
  noff : ∀ c, (s.cpu c).noff = held s.lock c + (s.spinning c).isSome.toNat
  off : ∀ c, (s.cpu c).noff ≠ 0 → (s.cpu c).sie = false
  alone : ∀ {c d p}, s.current c = some p → s.current d = some p → c = d
  away : ∀ {c p}, s.current c = some p → s.context p = none

theorem Boot.inv (h : Boot s) : Inv s := by
  refine ⟨fun c => ?_, fun c hne => absurd (h.noff c) hne, fun {c d p} hc => ?_, fun {c p} hc => ?_⟩
  · have hzero : held s.lock c = 0 := Finset.sum_eq_zero fun l _ => by rw [h.lock l]; rfl
    rw [h.noff, hzero, h.spinning]
    rfl
  · rw [h.current] at hc
    cases hc
  · rw [h.current] at hc
    cases hc

-- The lock that is held is one of those that `noff` counts.
theorem Inv.popOff (h : Inv s) {l : π ⊕ ℓ} (hl : s.lock l = some c) :
    popOff (s.cpu c) = .ok ⟨(s.cpu c).noff - 1, (s.cpu c).intena, decide ((s.cpu c).noff = 1) && (s.cpu c).intena⟩ := by
  have hpos := held_pos hl
  have hcount := h.noff c
  have hoff := h.off c (by omega)
  unfold Intr.popOff
  rw [hoff, if_neg Bool.false_ne_true, if_neg (by omega)]
  congr 2
  by_cases hone : (s.cpu c).noff = 1
  · rw [hone]
    cases (s.cpu c).intena <;> rfl
  · rw [if_neg (by omega), decide_eq_false hone, Bool.false_and]

-- Only CPU `c` has done something.
theorem Inv.turn (h : Inv s) (c : κ) (hcpu : ∀ d ≠ c, t.cpu d = s.cpu d) (hspin : ∀ d ≠ c, t.spinning d = s.spinning d)
    (hheld : ∀ d ≠ c, held t.lock d = held s.lock d)
    (hnoff : (t.cpu c).noff = held t.lock c + (t.spinning c).isSome.toNat)
    (hoff : (t.cpu c).noff ≠ 0 → (t.cpu c).sie = false)
    (halone : ∀ {c d p}, t.current c = some p → t.current d = some p → c = d)
    (haway : ∀ {c p}, t.current c = some p → t.context p = none) : Inv t := by
  refine ⟨fun d => ?_, fun d => ?_, halone, haway⟩ <;> by_cases hd : d = c
  · rw [hd]
    exact hnoff
  · rw [hcpu d hd, hspin d hd, hheld d hd]
    exact h.noff d
  · rw [hd]
    exact hoff
  · rw [hcpu d hd]
    exact h.off d

/-- Process `p` runs on CPU `c`, and neither holds a lock nor waits for one. -/
structure Outside (s : State κ π ℓ) (p : π) (c : κ) : Prop where
  current : s.current c = some p
  lock : ∀ l, s.lock l ≠ some c
  spinning : s.spinning c = none

theorem Outside.enabled (ho : Outside s p c) (h : Inv s) : (s.cpu c).enabled = (s.cpu c).sie := by
  have hzero : held s.lock c = 0 := Finset.sum_eq_zero fun l _ => if_neg (ho.lock l)
  have hcount := h.noff c
  rw [hzero, ho.spinning] at hcount
  exact if_pos hcount

variable [DecidableEq π] [DecidableEq ℓ]

theorem Inv.step {ev : Event κ π ℓ × Option Panic} (h : Inv s) (hstep : Step s ev t) (hcalm : ev.2 = none) :
    Inv t ∧ ∀ {p b}, ev.1.resets s p = false → Wants s p b → Wants t p b := by
  obtain ⟨ev, r⟩ := ev
  cases hcalm
  have hstep : exec s ev = some (t, none) := hstep
  cases ev with
  | acquire c l =>
    simp only [exec] at hstep
    split_ifs at hstep with hspin hheld
    · cases hstep
    cases hstep
    have hcount := h.noff c
    rw [not_not.mp hspin] at hcount
    refine ⟨h.turn c (fun _ hd => setCpu_of_ne hd ..) (fun _ hd => update_of_ne hd ..) (fun _ _ => rfl) ?_ ?_
      h.alone h.away, fun _ hw => Wants.setCpu hw fun _ => rfl⟩
    · rw [setCpu_self]
      show _ + 1 = _ + (update s.spinning c (some l) c).isSome.toNat
      rw [update_self, hcount]
      rfl
    · rw [setCpu_self]
      exact fun _ => rfl
  | take c =>
    simp only [exec] at hstep
    split at hstep
    · cases hstep
    next l hspin =>
    split_ifs at hstep with hfree
    cases hstep
    have hcount := h.noff c
    have hset := held_set s.lock l (some c)
    rw [hfree] at hset
    rw [hspin] at hcount
    refine ⟨h.turn c (fun _ _ => rfl) (fun _ hd => update_of_ne hd ..) (fun d hd => ?_) ?_ (h.off c) h.alone
      h.away, fun _ hw => hw⟩
    · have hd' := hset d
      rw [if_neg nofun, if_neg fun heq => hd (Option.some.inj heq).symm] at hd'
      exact hd'
    have hc := hset c
    rw [if_neg nofun, if_pos rfl] at hc
    show _ = held (update s.lock l (some c)) c + (update s.spinning c none c).isSome.toNat
    rw [update_self, hcount]
    exact hc.symm
  | release c l =>
    simp only [exec] at hstep
    split_ifs at hstep with hspin hheld
    · cases hstep
    have hl : s.lock l = some c := not_not.mp hheld
    rw [h.popOff hl] at hstep
    cases hstep
    have hcount := h.noff c
    have hpos := held_pos hl
    have hoff := h.off c
    have hset := held_set s.lock l none
    rw [hl] at hset
    refine ⟨h.turn c (fun _ hd => setCpu_of_ne hd ..) (fun _ _ => rfl) (fun d hd => ?_) ?_ ?_ h.alone h.away,
      fun _ hw => Wants.setCpu hw fun _ => ?_⟩
    · have hd' := hset d
      rw [if_neg fun heq => hd (Option.some.inj heq).symm, if_neg nofun] at hd'
      exact hd'
    · have hc := hset c
      rw [if_pos rfl, if_neg nofun] at hc
      rw [setCpu_self]
      show (s.cpu c).noff - 1 = held (update s.lock l none) c + (s.spinning c).isSome.toNat
      omega
    · rw [setCpu_self]
      show (s.cpu c).noff - 1 ≠ 0 → (decide ((s.cpu c).noff = 1) && (s.cpu c).intena) = false
      intro hne
      rw [decide_eq_false (by omega), Bool.false_and]
    have hin : (s.cpu c).enabled = (s.cpu c).intena := if_neg (by omega)
    rw [hin]
    show (if (s.cpu c).noff - 1 = 0 then decide ((s.cpu c).noff = 1) && (s.cpu c).intena else (s.cpu c).intena) = _
    by_cases hone : (s.cpu c).noff = 1
    · rw [if_pos (by omega), decide_eq_true hone, Bool.true_and]
    · rw [if_neg (by omega)]
  | sched =>
    simp only [exec] at hstep
    split at hstep
    · cases hstep
    next p hp =>
    split_ifs at hstep with hspin hlock hone hsie
    all_goals cases hstep
    have halone := @h.alone
    have haway := @h.away
    refine ⟨⟨h.noff, h.off, ?_, ?_⟩, ?_⟩
    · grind [update_apply]
    · grind [update_apply]
    · intro q b _ hw
      grind [Wants, Cpu.enabled, update_apply]
  | dispatch c p =>
    simp only [exec] at hstep
    split at hstep
    · cases hstep
    next saved hsaved =>
    split_ifs at hstep with hready
    cases hstep
    have hpos := held_pos hready.2.2
    have hcount := h.noff c
    have hoff := h.off c
    have halone := @h.alone
    have haway := @h.away
    refine ⟨h.turn c (fun _ hd => setCpu_of_ne hd ..) (fun _ _ => rfl) (fun _ _ => rfl) ?_ ?_ ?_ ?_, ?_⟩
    · rw [setCpu_self]
      exact hcount
    · rw [setCpu_self]
      exact hoff
    · show ∀ {d d' q}, update s.current c (some p) d = some q →
        update s.current c (some p) d' = some q → d = d'
      grind [update_apply]
    · show ∀ {d q}, update s.current c (some p) d = some q → update s.context p none q = none
      grind [update_apply]
    intro q b _ hw
    rcases hw with ⟨d, hd, hb⟩ | hctx
    · have hdc : d ≠ c := by
        rintro rfl
        rw [hready.1] at hd
        cases hd
      refine .inl ⟨d, ?_, ?_⟩
      · rw [← hd]
        exact update_of_ne hdc ..
      · rw [setCpu_of_ne hdc]
        exact hb
    by_cases hq : q = p
    · -- The process restores its own `intena`, with its lock held.
      rw [hq, hsaved] at hctx
      cases hctx
      refine .inl ⟨c, ?_, ?_⟩
      · rw [hq]
        exact update_self ..
      · rw [setCpu_self]
        exact if_neg (by dsimp only; omega)
    · right
      rw [← hctx]
      exact update_of_ne hq ..
  | intr c =>
    simp only [exec] at hstep
    split_ifs at hstep with hout
    cases hstep
    refine ⟨h.turn c (fun _ hd => setCpu_of_ne hd ..) (fun _ _ => rfl) (fun _ _ => rfl) ?_ ?_ h.alone h.away,
      fun hres hw => hw.setCpu fun hc => absurd hc (of_decide_eq_false hres)⟩
    · rw [setCpu_self]
      exact h.noff c
    · rw [setCpu_self]
      exact fun hne => absurd hout.2 hne
  | alloc =>
    simp only [exec] at hstep
    split_ifs at hstep with hctx
    cases hstep
    refine ⟨⟨h.noff, h.off, h.alone, ?_⟩, ?_⟩
    · have haway := @h.away
      grind [update_apply]
    · intro q b hres hw
      grind [Wants, Event.resets, update_apply]

/-! ## Whole runs -/

/-- `push_off` and `pop_off` nest: what holds in every state that the kernel reaches. -/
structure Nested (s : State κ π ℓ) : Prop where
  counted : ∀ c, (s.cpu c).noff = held s.lock c + (s.spinning c).isSome.toNat
  disabled : ∀ c l, s.lock l = some c → (s.cpu c).sie = false
  calm : ∀ ev t e, exec s ev = some (t, some e) → e ≠ .popOffInterruptible ∧ e ≠ .popOff

theorem Inv.nested (h : Inv s) : Nested s := by
  refine ⟨h.noff, fun c l hl => h.off c ?_, fun ev t e hrun => ?_⟩
  · have hpos := held_pos hl
    have hcount := h.noff c
    omega
  cases ev with
  | release =>
    simp only [exec] at hrun
    split_ifs at hrun with hspin hheld
    · cases hrun
      exact ⟨nofun, nofun⟩
    · rw [h.popOff (not_not.mp hheld)] at hrun
      cases hrun
  | _ => grind [exec]

/-- Interrupts are off while a lock is held, `noff` counts, `pop_off` does not panic, and a process that has released
its last lock, on whatever CPU, finds the interrupts as they were before it took the first. -/
theorem interrupts_nest (s₀ s t : State κ π ℓ) (tr tr' : List (Event κ π ℓ × Option Panic)) (p : π) (hboot : Boot s₀)
    (hrun : Run (restrict (fun _ ev => ev.2 = none) Step) s₀ tr s)
    (hrun' : Run (restrict (fun s ev => ev.2 = none ∧ ev.1.resets s p = false) Step) s tr' t) :
    Nested s ∧ ∀ c d, Outside s p c → Outside t p d → (t.cpu d).sie = (s.cpu c).sie := by
  have hs : Inv s := hrun.invariant (P := Inv) (fun _ _ _ h hstep => (h.step hstep.2 hstep.1).1) hboot.inv
  refine ⟨hs.nested, fun c d hc hd => ?_⟩
  have hboth := hrun'.invariant (P := fun t => Inv t ∧ Wants t p (s.cpu c).sie)
    (fun _ _ _ h hstep => (h.1.step hstep.2 hstep.1.1).imp_right fun hw => hw hstep.1.2 h.2)
    ⟨hs, .inl ⟨c, hc.current, hc.enabled hs⟩⟩
  obtain ⟨ht, hwants⟩ := hboth
  rcases hwants with ⟨d', hd', hb⟩ | hctx
  · rw [← hd.enabled ht, ht.alone hd.current hd', hb]
  · rw [ht.away hd.current] at hctx
    cases hctx

/-- Two CPUs, one process and one other lock. -/
def booted : State Bool Unit Unit where
  cpu _ := ⟨0, false, false⟩
  lock _ := none
  spinning _ := none
  current _ := none
  context _ := some none

instance (s : State Bool Unit Unit) (c : Bool) : Decidable (Outside s () c) :=
  decidable_of_iff (s.current c = some () ∧ (∀ l, s.lock l ≠ some c) ∧ s.spinning c = none)
    ⟨fun h => ⟨h.1, h.2.1, h.2.2⟩, fun h => ⟨h.1, h.2, h.3⟩⟩

/-- The process yields with interrupts on, and goes on on the other CPU. -/
theorem interrupts_nest_migration : ∃ s t tr tr', Boot booted ∧
    Run (restrict (fun _ ev => ev.2 = none) Step) booted tr s ∧
    Run (restrict (fun s ev => ev.2 = none ∧ ev.1.resets s () = false) Step) s tr' t ∧
    Outside s () false ∧ Outside t () true ∧ (s.cpu false).sie = true ∧ Nested s ∧
      (t.cpu true).sie = (s.cpu false).sie := by
  have hexec : ((execs (guarded (fun _ ev => ev.2 = none) exec) booted [.acquire false (.inl ()), .take false,
      .dispatch false (), .release false (.inl ()), .intr false true]).any fun r => Outside r.1 () false &&
    (r.1.cpu false).sie && (execs (guarded (fun s ev => ev.2 = none ∧ ev.1.resets s () = false) exec) r.1
      [.acquire false (.inl ()), .take false, .sched false, .release false (.inl ()), .acquire true (.inl ()),
        .take true, .dispatch true (), .release true (.inl ())]).any fun r => Outside r.1 () true) = true := by
    decide +kernel
  obtain ⟨s, tr, hrun, hcheck⟩ := Run.of_any_execs hexec
  simp only [Bool.and_eq_true, decide_eq_true_eq] at hcheck
  obtain ⟨t, tr', hrun', hout⟩ := Run.of_any_execs hcheck.2
  have hboot : Boot booted := ⟨fun _ => rfl, fun _ => rfl, fun _ => rfl, fun _ => rfl⟩
  have hnest := interrupts_nest booted s t tr tr' () hboot hrun hrun'
  exact ⟨s, t, tr, tr', hboot, hrun, hrun', hcheck.1.1, of_decide_eq_true hout, hcheck.1.2, hnest.1,
    hnest.2 false true hcheck.1.1 (of_decide_eq_true hout)⟩

end Xv6.Intr
