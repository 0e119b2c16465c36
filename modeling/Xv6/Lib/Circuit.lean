import Mathlib.Data.Finset.Max
import Mathlib.Logic.Function.Iterate
import Mathlib.Tactic.Common

/-!
# Circular lists in order

The nodes of a list are a finite set of numbers.  From each of them a pointer leads to the next larger one, and from the
largest to the smallest.
-/

namespace Circuit

open Finset Function

/-- `b` comes after `a`: with nothing in between, or around the end. -/
def Next (N : Finset Nat) (a b : Nat) : Prop := b ∈ N ∧ ∀ c ∈ N, (a < b → c ≤ a ∨ b ≤ c) ∧ (b ≤ a → b ≤ c ∧ c ≤ a)

def Round (f : Nat → Nat) (N : Finset Nat) : Prop := ∀ a ∈ N, Next N a (f a)

variable {f : Nat → Nat} {N : Finset Nat} {a b p x : Nat}

theorem Round.iterate_mem (h : Round f N) (ha : a ∈ N) (k : Nat) : f^[k] a ∈ N := by
  induction k generalizing a with
  | zero => exact ha
  | succ k ih => exact ih (h a ha).1

theorem Round.insert (h : Round f N) (hp : p ∈ N) (hpx : p < x) (hnext : ∀ c ∈ N, c ≤ p ∨ x < c) :
    Round (update (update f x (f p)) p x) (insert x N) := by
  intro a ha
  by_cases hap : a = p
  · rw [hap, update_self]
    refine ⟨mem_insert_self x N, fun c hc => ?_⟩
    obtain rfl | hc := mem_insert.mp hc
    · omega
    · have := hnext c hc
      omega
  rw [update_of_ne hap]
  by_cases hax : a = x
  · -- The new node takes over the successor of `p`.
    rw [hax, update_self]
    refine ⟨mem_insert_of_mem (h p hp).1, fun c hc => ?_⟩
    have hfp := hnext _ (h p hp).1
    have hself := (h p hp).2 p hp
    obtain rfl | hc := mem_insert.mp hc
    · omega
    · have := (h p hp).2 c hc
      have := hnext c hc
      omega
  rw [update_of_ne hax]
  have haN := (mem_insert.mp ha).resolve_left hax
  refine ⟨mem_insert_of_mem (h a haN).1, fun c hc => ?_⟩
  obtain rfl | hc := mem_insert.mp hc
  · have := (h a haN).2 p hp
    have := hnext a haN
    have := hnext _ (h a haN).1
    omega
  · exact (h a haN).2 c hc

theorem Round.erase (h : Round f N) (hp : p ∈ N) : Round (update f p (f (f p))) (N.erase (f p)) := by
  have hx := (h p hp).1
  have hback := (h p hp).2 p hp
  have hxp := (h _ hx).2 p hp
  have hpxx := (h p hp).2 _ (h _ hx).1
  intro a ha
  obtain ⟨hax, haN⟩ := mem_erase.mp ha
  by_cases hap : a = p
  · rw [hap, update_self]
    refine ⟨mem_erase.mpr ⟨by omega, (h _ hx).1⟩, fun c hc => ?_⟩
    obtain ⟨hcx, hc⟩ := mem_erase.mp hc
    have := (h p hp).2 c hc
    have := (h _ hx).2 c hc
    omega
  rw [update_of_ne hap]
  refine ⟨mem_erase.mpr ⟨?_, (h a haN).1⟩, fun c hc => (h a haN).2 c (mem_of_mem_erase hc)⟩
  have := (h p hp).2 a haN
  have := (h a haN).2 p hp
  have := (h a haN).2 _ hx
  omega

theorem Round.ascend (h : Round f N) (ha : a ∈ N) (hb : b ∈ N) (hab : a ≤ b) : ∃ k, f^[k] a = b := by
  induction hn : b - a using Nat.strong_induction_on generalizing a with
  | _ n ih =>
    by_cases heq : a = b
    · exact ⟨0, heq⟩
    have hstep := (h a ha).2 b hb
    obtain ⟨k, hk⟩ := ih (b - f a) (by omega) (h a ha).1 (by omega) rfl
    exact ⟨k + 1, hk⟩

theorem Round.reach (h : Round f N) (ha : a ∈ N) (hb : b ∈ N) : ∃ k, f^[k] a = b := by
  have hmax := N.max'_mem ⟨a, ha⟩
  obtain ⟨k, hk⟩ := h.ascend ha hmax (N.le_max' a ha)
  have htop := N.le_max' _ (h _ hmax).1
  have hstep := (h _ hmax).2 b hb
  obtain ⟨j, hj⟩ := h.ascend (h _ hmax).1 hb (by omega)
  refine ⟨j + (k + 1), ?_⟩
  rw [iterate_add_apply, iterate_succ_apply', hk, hj]

end Circuit
