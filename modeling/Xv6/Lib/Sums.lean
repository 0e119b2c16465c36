import Mathlib.Algebra.BigOperators.Group.Finset.Basic
import Mathlib.Algebra.BigOperators.Group.Finset.Piecewise
import Mathlib.Algebra.Order.BigOperators.Group.Finset
import Mathlib.Tactic.Common

/-!
# Sums that differ in one term
-/

namespace Sums

open Finset

variable {ι : Type} [DecidableEq ι] {s : Finset ι} {f g : ι → ℕ} {i j : ι}

theorem sum_change (hi : i ∈ s) (h : ∀ j ∈ s, j ≠ i → f j = g j) : ∑ j ∈ s, f j + g i = ∑ j ∈ s, g j + f i := by
  have hf := add_sum_erase s f hi
  have hg := add_sum_erase s g hi
  have hrest : ∑ j ∈ s.erase i, f j = ∑ j ∈ s.erase i, g j := by
    apply sum_congr rfl
    intro j hj
    exact h j (mem_of_mem_erase hj) (ne_of_mem_erase hj)
  omega

omit [DecidableEq ι] in
theorem term_le_sum (hi : i ∈ s) : f i ≤ ∑ j ∈ s, f j := single_le_sum (fun _ _ => Nat.zero_le _) hi

theorem two_terms_le_sum (hi : i ∈ s) (hj : j ∈ s) (hne : i ≠ j) : f i + f j ≤ ∑ k ∈ s, f k := by
  have hsplit := add_sum_erase s f hi
  have hrest : f j ≤ ∑ k ∈ s.erase i, f k := term_le_sum (mem_erase.mpr ⟨hne.symm, hj⟩)
  omega

end Sums
