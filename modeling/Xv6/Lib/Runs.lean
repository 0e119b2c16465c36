import Mathlib.Data.List.Induction
import Mathlib.Tactic.Common

/-!
# Runs of labelled transition systems

`Run step s tr t` is a finite run of a step relation with its trace.  The rules below are the only inductions over
runs: an invariant of single steps is an invariant of runs, also when it mentions the trace, and a run can be split
and joined at any point of its trace.
-/

namespace Runs

open List

variable {σ α β : Type}

/-- `Run step s tr t`: the actions `tr`, in order, lead from `s` to `t`. -/
inductive Run (step : σ → α → σ → Prop) (s : σ) : List α → σ → Prop
  | nil : Run step s [] s
  | snoc {tr : List α} {a : α} {t u : σ} :
      Run step s tr t → step t a u → Run step s (tr ++ [a]) u

/-- The steps of `step` that are taken where `good` allows them. -/
def restrict (good : σ → α → Prop) (step : σ → α → σ → Prop) : σ → α → σ → Prop := fun s a t => good s a ∧ step s a t

def recorded (step : σ → α → σ → Prop) : List α × σ → α → List α × σ → Prop :=
  fun s a t => t.1 = s.1 ++ [a] ∧ step s.2 a t.2

def Reachable (init : σ → Prop) (step : σ → α → σ → Prop) (t : σ) : Prop := ∃ s tr, init s ∧ Run step s tr t

section Rules

variable {step step' : σ → α → σ → Prop} {s t u : σ} {tr tr' : List α} {a : α}

theorem Run.single (h : step s a t) : Run step s [a] t := by
  exact Run.nil.snoc h

theorem Run.trans (h : Run step s tr t) (h' : Run step t tr' u) : Run step s (tr ++ tr') u := by
  induction h' with
  | nil => simpa using h
  | snoc _ hstep ih =>
    rw [← append_assoc]
    exact ih.snoc hstep

theorem Run.nil_inv (h : Run step s [] t) : t = s := by
  generalize htr : ([] : List α) = full at h
  cases h with
  | nil => rfl
  | snoc => simp at htr

theorem Run.snoc_inv (h : Run step s (tr ++ [a]) u) : ∃ t, Run step s tr t ∧ step t a u := by
  generalize htr : tr ++ [a] = full at h
  cases h with
  | nil => simp at htr
  | snoc hrun hstep =>
    obtain ⟨hinit, ⟨⟩⟩ := append_inj' htr rfl
    subst hinit
    exact ⟨_, hrun, hstep⟩

theorem Run.split (h : Run step s (tr ++ tr') u) : ∃ t, Run step s tr t ∧ Run step t tr' u := by
  induction tr' using reverseRecOn generalizing u with
  | nil => exact ⟨u, by simpa using h, .nil⟩
  | append_singleton tr' a ih =>
    rw [← append_assoc] at h
    obtain ⟨m, hrun, hstep⟩ := h.snoc_inv
    obtain ⟨t, hleft, hright⟩ := ih hrun
    exact ⟨t, hleft, hright.snoc hstep⟩

theorem Run.of_cons (h : Run step s (a :: tr) u) : ∃ t, step s a t ∧ Run step t tr u := by
  have hjoined : Run step s ([a] ++ tr) u := h
  obtain ⟨t, hone, hrest⟩ := hjoined.split
  have hsnoc : Run step s ([] ++ [a]) t := hone
  obtain ⟨m, hnil, hstep⟩ := hsnoc.snoc_inv
  rw [hnil.nil_inv] at hstep
  exact ⟨t, hstep, hrest⟩

theorem Run.mono (hsub : ∀ s a t, step s a t → step' s a t) (h : Run step s tr t) : Run step' s tr t := by
  induction h with
  | nil => exact .nil
  | snoc _ hstep ih => exact ih.snoc (hsub _ _ _ hstep)

theorem Run.recorded (h : Run step s tr t) (past : List α) : Run (recorded step) (past, s) tr (past ++ tr, t) := by
  induction h with
  | nil =>
    rw [append_nil]
    exact .nil
  | snoc _ hstep ih =>
    rw [← append_assoc]
    exact ih.snoc ⟨rfl, hstep⟩

theorem Run.invariant {P : σ → Prop} (hstep : ∀ s a t, P s → step s a t → P t)
    (h : Run step s tr t) (hs : P s) : P t := by
  induction h with
  | nil => exact hs
  | snoc _ hlast ih => exact hstep _ _ _ ih hlast

theorem Run.invariant_trace {P : List α → σ → Prop} (hstep : ∀ tr s a t, P tr s → step s a t → P (tr ++ [a]) t)
    (h : Run step s tr t) (hs : P [] s) : P tr t := by
  induction h with
  | nil => exact hs
  | snoc _ hlast ih => exact hstep _ _ _ _ ih hlast

theorem Run.simulate {σ' : Type} {step' : σ' → α → σ' → Prop} {R : σ → σ' → Prop} {x : σ'}
    (hstep : ∀ s x a t, R s x → step s a t → ∃ y, step' x a y ∧ R t y) (h : Run step s tr t)
    (hs : R s x) : ∃ y, Run step' x tr y ∧ R t y := by
  induction h with
  | nil => exact ⟨x, .nil, hs⟩
  | snoc _ hlast ih =>
    obtain ⟨y, hrun, hy⟩ := ih
    obtain ⟨z, hnext, hz⟩ := hstep _ _ _ _ hy hlast
    exact ⟨z, hrun.snoc hnext, hz⟩

variable {init : σ → Prop}

theorem Reachable.of_init (h : init s) : Reachable init step s := ⟨s, [], h, .nil⟩

theorem Reachable.run (h : Reachable init step s) (hrun : Run step s tr t) : Reachable init step t := by
  obtain ⟨s₀, tr₀, hinit, h₀⟩ := h
  exact ⟨s₀, tr₀ ++ tr, hinit, h₀.trans hrun⟩

theorem Reachable.invariant {P : σ → Prop} (hinit : ∀ s, init s → P s)
    (hstep : ∀ s a t, P s → step s a t → P t) (h : Reachable init step t) : P t := by
  obtain ⟨s, tr, hs, hrun⟩ := h
  exact hrun.invariant hstep (hinit s hs)

end Rules

section Since

variable {sets resets : α → Bool} {tr : List α} {a : α}

/-- An action of the trace that `sets` has not been followed by one that `resets`. -/
def Since (sets resets : α → Bool) (tr : List α) : Prop :=
  ∃ tr₁ a tr₂, tr = tr₁ ++ a :: tr₂ ∧ sets a = true ∧ ∀ b ∈ tr₂, resets b = false

theorem not_since_nil : ¬ Since sets resets [] := by
  rintro ⟨tr₁, a, tr₂, htr, -⟩
  simp at htr

theorem since_snoc : Since sets resets (tr ++ [a]) ↔ sets a = true ∨ Since sets resets tr ∧ resets a = false := by
  constructor
  · rintro ⟨tr₁, b, tr₂, htr, hsets, hafter⟩
    rcases eq_nil_or_concat tr₂ with rfl | ⟨init, c, rfl⟩
    · obtain ⟨-, ⟨⟩⟩ := append_inj' htr rfl
      exact .inl hsets
    have hsplit : tr ++ [a] = (tr₁ ++ b :: init) ++ [c] := by simpa using htr
    obtain ⟨hinit, ⟨⟩⟩ := append_inj' hsplit rfl
    exact .inr ⟨⟨tr₁, b, init, hinit, hsets, fun d hd => hafter d (by simp [hd])⟩, hafter a (by simp)⟩
  rintro (hsets | ⟨⟨tr₁, b, tr₂, htr, hsets, hafter⟩, hreset⟩)
  · exact ⟨tr, a, [], rfl, hsets, by simp⟩
  refine ⟨tr₁, b, tr₂ ++ [a], by simp [htr], hsets, fun c hc => ?_⟩
  rcases mem_append.1 hc with hold | hlast
  · exact hafter c hold
  · rw [mem_singleton.1 hlast]
    exact hreset

end Since

section Executable

variable {exec : σ → α → Option (σ × β)}

/-- The step relation of an executable transition function: a label is the action with the value
it returned, and `none` says that the action is not possible in this state. -/
def Exec (exec : σ → α → Option (σ × β)) (s : σ) (ev : α × β) (t : σ) : Prop := exec s ev.1 = some (t, ev.2)

theorem Exec.of_any {s : σ} {a : α} {check : σ × β → Bool} (h : (exec s a).any check = true) :
    ∃ t r, Exec exec s (a, r) t ∧ check (t, r) = true := by
  cases hexec : exec s a with
  | none =>
    rw [hexec] at h
    cases h
  | some tr =>
    rw [hexec] at h
    exact ⟨tr.1, tr.2, hexec, h⟩

def execs (exec : σ → α → Option (σ × β)) : σ → List α → Option (σ × List (α × β))
  | s, [] => some (s, [])
  | s, a :: as => do
      let (t, r) ← exec s a
      let (u, tr) ← execs exec t as
      some (u, (a, r) :: tr)

variable {tr : List (α × β)} {as : List α}

theorem Run.of_execs {s t : σ} (h : execs exec s as = some (t, tr)) : Run (Exec exec) s tr t := by
  induction as generalizing s tr with
  | nil =>
    simp only [execs, Option.some.injEq, Prod.mk.injEq] at h
    obtain ⟨rfl, rfl⟩ := h
    exact .nil
  | cons a as ih =>
    simp only [execs, Option.bind_eq_bind, Option.bind_eq_some_iff, Prod.exists, Option.some.injEq, Prod.mk.injEq] at h
    obtain ⟨m, r, hfirst, u, rest, hrest, rfl, rfl⟩ := h
    have hone : Exec exec s (a, r) m := hfirst
    exact (Run.single hone).trans (ih hrest)

theorem map_fst_of_execs {s t : σ} (h : execs exec s as = some (t, tr)) : tr.map Prod.fst = as := by
  induction as generalizing s tr with
  | nil =>
    simp only [execs, Option.some.injEq, Prod.mk.injEq] at h
    rw [← h.2]
    rfl
  | cons a as ih =>
    simp only [execs, Option.bind_eq_bind, Option.bind_eq_some_iff, Prod.exists, Option.some.injEq, Prod.mk.injEq] at h
    obtain ⟨m, r, -, u, rest, hrest, rfl, rfl⟩ := h
    rw [map_cons, ih hrest]

/-- The transition function cut down to the steps that `good` allows. -/
def guarded (good : σ → α × β → Prop) [∀ s ev, Decidable (good s ev)]
    (exec : σ → α → Option (σ × β)) (s : σ) (a : α) : Option (σ × β) :=
  (exec s a).filter fun r => good s (a, r.2)

theorem Run.of_guarded_execs {good : σ → α × β → Prop} [∀ s ev, Decidable (good s ev)] {s t : σ}
    (h : execs (guarded good exec) s as = some (t, tr)) : Run (restrict good (Exec exec)) s tr t := by
  refine (Run.of_execs h).mono fun s ev t hstep => ?_
  unfold Exec guarded at hstep
  rw [Option.filter_eq_some_iff, decide_eq_true_eq] at hstep
  exact ⟨hstep.2, hstep.1⟩

theorem Run.of_any_execs {good : σ → α × β → Prop} [∀ s ev, Decidable (good s ev)] {s : σ}
    {check : σ × List (α × β) → Bool} (h : (execs (guarded good exec) s as).any check = true) :
    ∃ t tr, Run (restrict good (Exec exec)) s tr t ∧ check (t, tr) = true := by
  cases hexec : execs (guarded good exec) s as with
  | none =>
    rw [hexec] at h
    cases h
  | some r =>
    rw [hexec] at h
    exact ⟨r.1, r.2, Run.of_guarded_execs hexec, h⟩

end Executable

end Runs
