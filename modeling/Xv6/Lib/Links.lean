import Mathlib.Data.List.Basic
import Mathlib.Data.List.Nodup
import Mathlib.Tactic.Common

/-!
# Circular doubly linked lists

The nodes of a list are the elements of a type and one more, the head, which carries no element.  As an
`Option`, `none` is the head.
-/

structure Links (α : Type) where
  next : Option α → Option α
  prev : Option α → Option α

namespace Links

open Function List

variable {α : Type}

/-! ## Following one kind of pointer -/

/-- From `a` the pointers `f` lead through `xs` and then to `b`. -/
def Follows (f : Option α → Option α) : Option α → List α → Option α → Prop
  | a, [], b => f a = b
  | a, x :: xs, b => f a = some x ∧ Follows f (some x) xs b

section Follows

variable {f g : Option α → Option α} {a a' b c : Option α} {xs ys : List α} {x : α}

theorem Follows.first (h : Follows f a xs none) : f a = xs.head? := by
  cases xs with
  | nil => exact h
  | cons => exact h.1

theorem follows_append : Follows f a (xs ++ x :: ys) b ↔ Follows f a xs (some x) ∧ Follows f (some x) ys b := by
  induction xs generalizing a with
  | nil => exact Iff.rfl
  | cons y xs ih =>
    simp only [cons_append, Follows, ih, and_assoc]

theorem Follows.congr (h : Follows f a xs b) (hstart : g a' = f a) (hrest : ∀ x ∈ xs, g (some x) = f (some x)) :
    Follows g a' xs b := by
  induction xs generalizing a a' with
  | nil => exact hstart.trans h
  | cons x xs ih =>
    refine ⟨hstart.trans h.1, ih h.2 (hrest x mem_cons_self) fun y hy => ?_⟩
    exact hrest y (mem_cons_of_mem _ hy)

variable [DecidableEq α]

theorem Follows.redirect (h : Follows f none xs b) (hnd : xs.Nodup) : Follows (update f xs.getLast? c) none xs c := by
  rcases eq_nil_or_concat xs with rfl | ⟨ys, y, rfl⟩
  · exact update_self _ _ _
  rw [concat_eq_append] at h hnd ⊢
  rw [getLast?_concat, follows_append]
  have hfresh : y ∉ ys := by
    rw [nodup_append] at hnd
    exact fun hmem => hnd.2.2 y hmem y (mem_singleton_self y) rfl
  refine ⟨(follows_append.mp h).1.congr ?_ ?_, update_self _ _ _⟩
  · exact update_of_ne (Option.some_ne_none y).symm _ _
  intro z hz
  apply update_of_ne
  intro heq
  rw [Option.some.inj heq] at hz
  exact hfresh hz

theorem Follows.skip (h : Follows f none (xs ++ x :: ys) none) (hnd : (xs ++ x :: ys).Nodup) :
    Follows (update f xs.getLast? (f (some x))) none (xs ++ ys) none := by
  obtain ⟨hl, hr⟩ := follows_append.mp h
  have hparts := nodup_append.mp hnd
  have hkeep : ∀ y ∈ ys, update f xs.getLast? (f (some x)) (some y) = f (some y) := by
    intro y hy
    apply update_of_ne
    intro heq
    exact hparts.2.2 y (mem_of_getLast? heq.symm) y (mem_cons_of_mem _ hy) rfl
  cases ys with
  | nil =>
    rw [append_nil]
    rw [show f (some x) = none from hr]
    exact hl.redirect hparts.1
  | cons y =>
    rw [follows_append]
    rw [hr.1] at hkeep ⊢
    refine ⟨hl.redirect hparts.1, hr.2.congr (hkeep y mem_cons_self) fun z hz => ?_⟩
    exact hkeep z (mem_cons_of_mem _ hz)

end Follows

/-- Follow `f` from a node until an element satisfies `p`, for at most `n` nodes and not beyond the head. -/
def scan (f : Option α → Option α) (p : α → Bool) : Nat → Option α → Option α
  | 0, _ => none
  | _ + 1, none => none
  | n + 1, some x => if p x then some x else scan f p n (f (some x))

theorem Follows.scan_eq {f : Option α → Option α} {a : Option α} {xs : List α} {n : Nat} (p : α → Bool)
    (h : Follows f a xs none) (hn : xs.length ≤ n) : scan f p n (f a) = xs.find? p := by
  induction xs generalizing a n with
  | nil =>
    rw [show f a = none from h]
    cases n <;> rfl
  | cons x xs ih =>
    cases n with
    | zero => exact absurd hn (Nat.not_succ_le_zero _)
    | succ =>
      rw [h.1, scan, find?_cons]
      cases p x with
      | true => rfl
      | false => exact ih h.2 (Nat.le_of_succ_le_succ hn)

/-! ## The list -/

/-- One cycle through the head: forwards it meets `xs`, and backwards the same elements in reverse. -/
structure Cycle (l : Links α) (xs : List α) : Prop where
  nodup : xs.Nodup
  forward : Follows l.next none xs none
  backward : Follows l.prev none xs.reverse none

def alone : Links α where
  next _ := none
  prev _ := none

theorem cycle_alone : Cycle (alone : Links α) [] where
  nodup := nodup_nil
  forward := rfl
  backward := rfl

variable [DecidableEq α]

def setNext (l : Links α) (a b : Option α) : Links α := { l with next := update l.next a b }

def setPrev (l : Links α) (a b : Option α) : Links α := { l with prev := update l.prev a b }

def unlink (l : Links α) (x : α) : Links α :=
  let l := l.setPrev (l.next (some x)) (l.prev (some x))
  l.setNext (l.prev (some x)) (l.next (some x))

def pushFront (l : Links α) (x : α) : Links α :=
  let l := l.setNext (some x) (l.next none)
  let l := l.setPrev (some x) none
  let l := l.setPrev (l.next none) (some x)
  l.setNext none (some x)

section Cycle

variable {l : Links α} {xs ys : List α} {x : α}

theorem Cycle.unlink (h : Cycle l (xs ++ x :: ys)) : Cycle (l.unlink x) (xs ++ ys) := by
  have hnd := h.nodup
  have hback := h.backward
  rw [reverse_append, reverse_cons, append_assoc, singleton_append] at hback
  have hndr : (ys.reverse ++ x :: xs.reverse).Nodup := by
    have hrev := nodup_reverse.mpr hnd
    rwa [reverse_append, reverse_cons, append_assoc, singleton_append] at hrev
  have hnext : l.next (some x) = ys.reverse.getLast? := by
    rw [getLast?_reverse]
    exact (follows_append.mp h.forward).2.first
  have hprev : l.prev (some x) = xs.getLast? := by
    rw [← head?_reverse]
    exact (follows_append.mp hback).2.first
  -- a node is not its own neighbour
  have hne : some x ≠ l.next (some x) := by
    rw [hnext]
    intro heq
    have hmem := mem_of_getLast? heq.symm
    exact (nodup_append.mp hndr).2.2 x hmem x mem_cons_self rfl
  have hstill : update l.prev (l.next (some x)) (l.prev (some x)) (some x) = l.prev (some x) := update_of_ne hne _ _
  refine ⟨?_, ?_, ?_⟩
  · exact (nodup_middle.mp hnd).of_cons
  · show Follows (update l.next (update l.prev _ _ (some x)) (l.next (some x))) none _ none
    rw [hstill, hprev]
    exact h.forward.skip hnd
  · show Follows (update l.prev (l.next (some x)) (l.prev (some x))) none _ none
    rw [reverse_append, hnext]
    exact hback.skip hndr

theorem Cycle.pushFront (h : Cycle l xs) (hx : x ∉ xs) : Cycle (l.pushFront x) (x :: xs) := by
  have hfirst : l.next none = xs.head? := h.forward.first
  have hnone : update l.next (some x) (l.next none) none = l.next none := update_of_ne (Option.some_ne_none x).symm _ _
  have hne : some x ≠ xs.head? := fun heq => hx (mem_of_mem_head? heq.symm)
  have hother : ∀ y ∈ xs, some y ≠ some x := by
    intro y hy heq
    rw [Option.some.inj heq] at hy
    exact hx hy
  refine ⟨nodup_cons.mpr ⟨hx, h.nodup⟩, ?_, ?_⟩
  · show Follows (update (update l.next (some x) (l.next none)) none (some x)) none (x :: xs) none
    refine ⟨update_self none _ _, h.forward.congr ?_ fun y hy => ?_⟩
    · rw [update_of_ne (Option.some_ne_none x), update_self]
    · rw [update_of_ne (Option.some_ne_none y), update_of_ne (hother y hy)]
  show Follows (update (update l.prev (some x) none) ((update l.next (some x) (l.next none)) none) (some x)) none _ none
  rw [hnone, hfirst, ← getLast?_reverse, reverse_cons, follows_append]
  have hclean : Follows (update l.prev (some x) none) none xs.reverse none := by
    refine h.backward.congr (update_of_ne (Option.some_ne_none x).symm _ _) fun y hy => ?_
    exact update_of_ne (hother y (mem_reverse.mp hy)) _ _
  refine ⟨hclean.redirect (nodup_reverse.mpr h.nodup), ?_⟩
  show update (update l.prev (some x) none) xs.reverse.getLast? (some x) (some x) = none
  rw [getLast?_reverse, update_of_ne hne, update_self]

theorem Cycle.moveFront (h : Cycle l xs) (hx : x ∈ xs) : Cycle ((l.unlink x).pushFront x) (x :: xs.erase x) := by
  obtain ⟨ps, qs, rfl⟩ := append_of_mem hx
  have hps : x ∉ ps := by
    intro hmem
    exact (nodup_append.mp h.nodup).2.2 x hmem x mem_cons_self rfl
  have herase : (ps ++ x :: qs).erase x = ps ++ qs := by
    rw [erase_append_right _ hps, erase_cons_head]
  have hfresh : x ∉ (ps ++ x :: qs).erase x := fun hmem => (h.nodup.mem_erase_iff.mp hmem).1 rfl
  rw [herase] at hfresh ⊢
  exact h.unlink.pushFront hfresh

theorem Cycle.foldl_pushFront (h : Cycle l xs) (hnd : (ys.reverse ++ xs).Nodup) :
    Cycle (ys.foldl Links.pushFront l) (ys.reverse ++ xs) := by
  induction ys generalizing l xs with
  | nil => exact h
  | cons y ys ih =>
    rw [reverse_cons, append_assoc, singleton_append] at hnd ⊢
    apply ih (h.pushFront ?_) hnd
    exact (nodup_cons.mp (nodup_append.mp hnd).2.1).1

end Cycle

end Links
