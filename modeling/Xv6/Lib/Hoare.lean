import Mathlib.Tactic.Common

/-!
# Rules for programs that keep a state and may fail

`Prog ε σ α` reads and writes a state `σ` and ends with a value or with an error.  A triple speaks
about both ends: what holds after a normal return, and which errors are possible.
-/

namespace Hoare

variable {ε σ α β : Type}

abbrev Prog (ε σ α : Type) := StateT σ (Except ε) α

/-- Started where `P` holds, `m` returns with `Q`, or fails with an error that `E` allows. -/
structure Triple (P : σ → Prop) (m : Prog ε σ α) (Q : α → σ → Prop) (E : ε → Prop) : Prop where
  ok : ∀ {s a s'}, P s → m s = .ok (a, s') → Q a s'
  error : ∀ {s e}, P s → m s = .error e → E e

variable {P P' : σ → Prop} {Q Q' : α → σ → Prop} {R : β → σ → Prop} {E : ε → Prop}
  {m : Prog ε σ α} {f : α → Prog ε σ β} {s s' : σ} {a : α}

theorem bind_ok {b : β} (h : (m >>= f) s = .ok (b, s')) : ∃ a t, m s = .ok (a, t) ∧ f a t = .ok (b, s') := by
  have hrun : (m s >>= fun r => f r.1 r.2) = .ok (b, s') := h
  cases hm : m s with
  | error =>
    rw [hm] at hrun
    cases hrun
  | ok r =>
    rw [hm] at hrun
    exact ⟨r.1, r.2, rfl, hrun⟩

theorem bind_of_ok (h : m s = .ok (a, s')) : (m >>= f) s = f a s' := by
  show (m s >>= fun r => f r.1 r.2) = _
  rw [h]
  rfl

theorem bind_of_error {e : ε} (h : m s = .error e) : (m >>= f) s = .error e := by
  show (m s >>= fun r => f r.1 r.2) = _
  rw [h]
  rfl

theorem bind_error {e : ε} (h : (m >>= f) s = .error e) :
    m s = .error e ∨ ∃ a t, m s = .ok (a, t) ∧ f a t = .error e := by
  have hrun : (m s >>= fun r => f r.1 r.2) = .error e := h
  cases hm : m s with
  | error =>
    rw [hm] at hrun
    cases hrun
    exact .inl rfl
  | ok r =>
    rw [hm] at hrun
    exact .inr ⟨r.1, r.2, rfl, hrun⟩

@[simp] theorem get_bind (f : σ → Prog ε σ β) (s : σ) : (MonadState.get >>= f) s = f s s := rfl

@[simp] theorem modify_bind (g : σ → σ) (f : PUnit → Prog ε σ β) (s : σ) : (modify g >>= f) s = f ⟨⟩ (g s) := rfl

@[simp] theorem set_bind (t : σ) (f : PUnit → Prog ε σ β) (s : σ) : (set t >>= f) s = f ⟨⟩ t := rfl

theorem pure_ok {b : α} (h : (Pure.pure a : Prog ε σ α) s = .ok (b, s')) : b = a ∧ s' = s := by
  cases h
  exact ⟨rfl, rfl⟩

theorem Triple.pure (h : ∀ s, P s → Q a s) : Triple P (Pure.pure a : Prog ε σ α) Q E where
  ok hs hrun := by
    cases hrun
    exact h _ hs
  error _ hrun := by cases hrun

theorem Triple.throw {e : ε} (h : ∀ s, P s → E e) : Triple P (MonadExcept.throw e : Prog ε σ α) Q E where
  ok _ hrun := by cases hrun
  error hs hrun := by
    cases hrun
    exact h _ hs

theorem Triple.get {Q : σ → σ → Prop} (h : ∀ s, P s → Q s s) : Triple P (MonadState.get : Prog ε σ σ) Q E where
  ok hs hrun := by
    cases hrun
    exact h _ hs
  error _ hrun := by cases hrun

theorem Triple.bind (hm : Triple P m Q E) (hf : ∀ a, Triple (Q a) (f a) R E) : Triple P (m >>= f) R E where
  ok hs hrun := by
    obtain ⟨a, t, hfirst, hsecond⟩ := bind_ok hrun
    exact (hf a).ok (hm.ok hs hfirst) hsecond
  error hs hrun := by
    rcases bind_error hrun with hfirst | ⟨a, t, hfirst, hsecond⟩
    · exact hm.error hs hfirst
    · exact (hf a).error (hm.ok hs hfirst) hsecond

theorem Triple.conseq (h : Triple P m Q E) (hpre : ∀ s, P' s → P s)
    (hpost : ∀ a s, Q a s → Q' a s) : Triple P' m Q' E where
  ok hs hrun := hpost _ _ (h.ok (hpre _ hs) hrun)
  error hs hrun := h.error (hpre _ hs) hrun

theorem Triple.of_ok (herr : ∀ e, E e) (h : ∀ s a s', P s → m s = .ok (a, s') → Q a s') : Triple P m Q E where
  ok hs hrun := h _ _ _ hs hrun
  error _ _ := herr _

theorem Triple.ite {c : Prop} [Decidable c] {m' : Prog ε σ α} (h : c → Triple P m Q E)
    (h' : ¬ c → Triple P m' Q E) : Triple P (if c then m else m') Q E := by
  by_cases hc : c
  · rw [if_pos hc]
    exact h hc
  · rw [if_neg hc]
    exact h' hc

theorem Triple.known {φ : Prop} (hφ : ∀ s, P s → φ) (h : φ → Triple P m Q E) : Triple P m Q E where
  ok hs hrun := (h (hφ _ hs)).ok hs hrun
  error hs hrun := (h (hφ _ hs)).error hs hrun

theorem Triple.assume {φ : Prop} (h : φ → Triple P m Q E) : Triple (fun s => φ ∧ P s) m Q E :=
  .known (fun _ hs => hs.1) fun hφ => (h hφ).conseq (fun _ hs => hs.2) fun _ _ hq => hq

theorem Triple.or (h : Triple P m Q E) (h' : Triple P' m Q E) : Triple (fun s => P s ∨ P' s) m Q E where
  ok hs hrun := hs.elim (fun hp => h.ok hp hrun) (fun hp => h'.ok hp hrun)
  error hs hrun := hs.elim (fun hp => h.error hp hrun) (fun hp => h'.error hp hrun)

theorem Triple.pre (h : Triple P m Q E) (hpre : ∀ s, P' s → P s) : Triple P' m Q E := h.conseq hpre fun _ _ hq => hq

theorem Triple.post (h : Triple P m Q E) (hpost : ∀ a s, Q a s → Q' a s) : Triple P m Q' E :=
  h.conseq (fun _ hp => hp) hpost

theorem Triple.allow {E' : ε → Prop} (h : Triple P m Q E) (herr : ∀ e, E e → E' e) : Triple P m Q E' where
  ok hs hrun := h.ok hs hrun
  error hs hrun := herr _ (h.error hs hrun)

theorem Triple.modify {g : σ → σ} {Q : PUnit → σ → Prop} (h : ∀ s, P s → Q ⟨⟩ (g s)) :
    Triple P (modify g : Prog ε σ PUnit) Q E where
  ok hs hrun := by
    cases hrun
    exact h _ hs
  error _ hrun := by cases hrun

theorem Triple.of_returns (h : ∀ s, P s → ∃ a t, m s = .ok (a, t) ∧ Q a t) : Triple P m Q E where
  ok hs hrun := by
    obtain ⟨a, t, hrun', hq⟩ := h _ hs
    rw [hrun'] at hrun
    cases hrun
    exact hq
  error hs hrun := by
    obtain ⟨a, t, hrun', -⟩ := h _ hs
    rw [hrun'] at hrun
    cases hrun

theorem Triple.returns (h : Triple P m Q fun _ => False) (hs : P s) : ∃ a t, m s = .ok (a, t) ∧ Q a t := by
  cases hrun : m s with
  | error => exact (h.error hs hrun).elim
  | ok r => exact ⟨r.1, r.2, rfl, h.ok hs hrun⟩

/-! ## From a known state -/

theorem pure_at (h : Q a s) : Triple (fun t => t = s) (pure a : Prog ε σ α) Q E := .pure fun _ ht => ht ▸ h

theorem step_at {m' : Prog ε σ α} (heq : m s = m' s') (h : Triple (fun t => t = s') m' Q E) :
    Triple (fun t => t = s) m Q E where
  ok hs hrun := by
    rw [hs, heq] at hrun
    exact h.ok rfl hrun
  error hs hrun := by
    rw [hs, heq] at hrun
    exact h.error rfl hrun

theorem get_at {f : σ → Prog ε σ β} (h : Triple (fun t => t = s) (f s) R E) :
    Triple (fun t => t = s) (get >>= f) R E := step_at (get_bind f s) h

theorem modify_at {g : σ → σ} {f : PUnit → Prog ε σ β} (h : Triple (fun t => t = g s) (f ⟨⟩) R E) :
    Triple (fun t => t = s) (modify g >>= f) R E := step_at (modify_bind g f s) h

theorem Triple.forM_range {body : Nat → Prog ε σ PUnit} {n : Nat} {I : Nat → σ → Prop}
    (h : ∀ i < n, Triple (I i) (body i) (fun _ => I (i + 1)) E) :
    Triple (I 0) ((List.range n).forM body) (fun _ => I n) E := by
  induction n with
  | zero => exact .pure fun _ hs => hs
  | succ n ih =>
    rw [List.range_succ, List.forM_eq_forM, List.forM_append]
    refine (ih fun i hi => h i (Nat.lt_succ_of_lt hi)).bind fun _ => ?_
    exact (h n (Nat.lt_succ_self n)).bind fun _ => .pure fun _ hs => hs

end Hoare
