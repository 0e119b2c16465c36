import Mathlib.Tactic.Common

/-!
# Resources with one owner each

`own t b` says that the slot `t` holds the resource `b`.  `Owners own taken` says that the resources
that are taken are those that some slot holds, and that no two slots hold the same one.
-/

namespace Ownership

variable {τ ρ : Type} {own own' : τ → ρ → Prop} {taken taken' : ρ → Prop} {t u : τ} {b c : ρ}

structure Owners (own : τ → ρ → Prop) (taken : ρ → Prop) : Prop where
  apart : ∀ {t u b}, own t b → own u b → t = u
  taken_iff : ∀ b, taken b ↔ ∃ t, own t b

theorem Owners.congr (h : Owners own taken) (hown : ∀ t b, own' t b ↔ own t b)
    (htaken : ∀ b, taken' b ↔ taken b) : Owners own' taken' where
  apart ht hu := h.apart ((hown _ _).1 ht) ((hown _ _).1 hu)
  taken_iff b := by simp only [htaken, hown, h.taken_iff]

theorem Owners.take (h : Owners own taken) (hfree : ¬ taken b) (hown : ∀ u c, own' u c ↔ own u c ∨ u = t ∧ c = b)
    (htaken : ∀ c, taken' c ↔ taken c ∨ c = b) : Owners own' taken' where
  apart {u v c} hu hv := by
    have hnobody : ∀ w, ¬ own w b := fun w hw => hfree ((h.taken_iff b).2 ⟨w, hw⟩)
    rcases (hown u c).1 hu with hu | ⟨rfl, rfl⟩
    · rcases (hown v c).1 hv with hv | ⟨-, rfl⟩
      · exact h.apart hu hv
      · exact absurd hu (hnobody u)
    · rcases (hown v c).1 hv with hv | ⟨rfl, -⟩
      · exact absurd hv (hnobody v)
      · rfl
  taken_iff c := by
    rw [htaken, h.taken_iff]
    constructor
    · rintro (⟨u, hu⟩ | hc)
      · exact ⟨u, (hown u c).2 (.inl hu)⟩
      · exact ⟨t, (hown t c).2 (.inr ⟨rfl, hc⟩)⟩
    · rintro ⟨u, hu⟩
      exact ((hown u c).1 hu).imp (fun h => ⟨u, h⟩) (fun h => h.2)

end Ownership
