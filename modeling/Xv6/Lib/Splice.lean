import Mathlib.Data.List.Basic
import Mathlib.Tactic.Common

/-!
# Arrays written in the middle

`overwrite l off l'` is the list `l` with `l'` written over it from position `off` on; it gets longer if `l'`
reaches past its end.
-/

namespace Splice

open List

variable {α : Type} {l l' : List α} {off i : Nat}

def overwrite (l : List α) (off : Nat) (l' : List α) : List α := l.take off ++ l' ++ l.drop (off + l'.length)

theorem length_overwrite (h : off ≤ l.length) : (overwrite l off l').length = max l.length (off + l'.length) := by
  simp only [overwrite, length_append, length_take, length_drop]
  omega

theorem getElem?_overwrite (h : off ≤ l.length) :
    (overwrite l off l')[i]? = if off ≤ i ∧ i < off + l'.length then l'[i - off]? else l[i]? := by
  have hleft : (l.take off ++ l').length = off + l'.length := by
    rw [length_append, length_take, Nat.min_eq_left h]
  unfold overwrite
  by_cases hlow : i < off
  · rw [if_neg (by omega), getElem?_append_left (by omega), getElem?_append_left (by
      rw [length_take, Nat.min_eq_left h]
      exact hlow), getElem?_take_of_lt hlow]
  by_cases hin : i < off + l'.length
  · rw [if_pos ⟨Nat.le_of_not_lt hlow, hin⟩, getElem?_append_left (by omega), getElem?_append_right (by
      rw [length_take, Nat.min_eq_left h]
      exact Nat.le_of_not_lt hlow), length_take, Nat.min_eq_left h]
  · rw [if_neg (by omega), getElem?_append_right (by omega), hleft, getElem?_drop]
    congr 1
    omega

end Splice
