import Mathlib.Data.List.Basic
import Mathlib.Logic.Function.Basic
import Mathlib.Tactic.Common

/-!
# Replaying a list of writes

A redo log is a list of writes, an address with the value it gets, that is applied to a store from
front to back.  Replaying is idempotent in a strong sense: a store in which any of the addresses of
the list have been overwritten meanwhile replays to the same result.
-/

namespace Writes

open Function

variable {α β : Type} [DecidableEq α]

def replay : List (α × β) → (α → β) → α → β
  | [], d => d
  | w :: ws, d => replay ws (update d w.1 w.2)

variable {ws : List (α × β)} {d d' : α → β} {a : α}

theorem replay_nil (d : α → β) : replay [] d = d := rfl

theorem replay_cons (w : α × β) (ws : List (α × β)) (d : α → β) :
    replay (w :: ws) d = replay ws (update d w.1 w.2) := rfl

theorem replay_of_not_mem (h : a ∉ ws.map Prod.fst) : replay ws d a = d a := by
  induction ws generalizing d with
  | nil => rfl
  | cons w ws ih =>
    rw [List.map_cons, List.mem_cons, not_or] at h
    rw [replay_cons, ih h.2, update_of_ne h.1]

theorem replay_congr (h : d' a = d a) : replay ws d' a = replay ws d a := by
  induction ws generalizing d d' with
  | nil => exact h
  | cons w ws ih =>
    rw [replay_cons, replay_cons]
    apply ih
    by_cases haw : a = w.1
    · rw [haw, update_self, update_self]
    · rw [update_of_ne haw, update_of_ne haw, h]

theorem replay_of_mem (h : a ∈ ws.map Prod.fst) (d d' : α → β) : replay ws d' a = replay ws d a := by
  induction ws generalizing d d' with
  | nil => simp at h
  | cons w ws ih =>
    rw [replay_cons, replay_cons]
    by_cases hws : a ∈ ws.map Prod.fst
    · exact ih hws _ _
    have haw : a = w.1 := by
      rw [List.map_cons, List.mem_cons] at h
      exact h.resolve_right hws
    apply replay_congr
    rw [haw, update_self, update_self]

theorem replay_update_of_mem {x : α} (h : x ∈ ws.map Prod.fst) (v : β) : replay ws (update d x v) = replay ws d := by
  funext a
  by_cases hax : a = x
  · subst hax
    exact replay_of_mem h _ _
  · exact replay_congr (update_of_ne hax _ _)

theorem replay_of_nodup {w : α × β} (hnodup : (ws.map Prod.fst).Nodup) (hw : w ∈ ws) : replay ws d w.1 = w.2 := by
  induction ws generalizing d with
  | nil => simp at hw
  | cons x ws ih =>
    rw [List.map_cons, List.nodup_cons] at hnodup
    rw [replay_cons]
    rcases List.mem_cons.mp hw with rfl | hmem
    · rw [replay_of_not_mem hnodup.1, update_self]
    · exact ih hnodup.2 hmem

end Writes
