import Xv6.Lib.Hoare

/-!
# Programs that keep a record

A program may note what it does in a list beside its state.  Erasing the list gives the program without the
notes, so that what is proved about the notes is about that program too.
-/

namespace Traced

open Hoare

variable {ε σ ω α β : Type}

def lift (m : Prog ε σ α) : Prog ε (σ × List ω) α := fun s => (m s.1).map fun r => (r.1, r.2, s.2)

def record (w : ω) : Prog ε (σ × List ω) Unit := modify fun s => (s.1, w :: s.2)

/-- Without its notes, `m` is `m'`. -/
def Erases (m : Prog ε (σ × List ω) α) (m' : Prog ε σ α) : Prop := ∀ s, (m s).map (fun r => (r.1, r.2.1)) = m' s.1

variable {m : Prog ε (σ × List ω) α} {m' : Prog ε σ α} {f : α → Prog ε (σ × List ω) β} {f' : α → Prog ε σ β}
  {s s' : σ} {a : α} {l : List ω}

theorem lift_of_ok (h : m' s = .ok (a, s')) : lift m' (s, l) = .ok (a, s', l) := by
  show (m' s).map _ = _
  rw [h]
  rfl

theorem Erases.pure (a : α) : Erases (Pure.pure a : Prog ε (σ × List ω) α) (Pure.pure a) := fun _ => rfl

theorem Erases.lift (m : Prog ε σ α) : Erases (lift m : Prog ε (σ × List ω) α) m := by
  intro s
  show ((m s.1).map _).map _ = m s.1
  cases m s.1 <;> rfl

theorem Erases.bind (h : Erases m m') (hf : ∀ a, Erases (f a) (f' a)) : Erases (m >>= f) (m' >>= f') := by
  intro s
  have hs := h s
  cases hm : m s with
  | error =>
    rw [hm] at hs
    rw [bind_of_error hm, bind_of_error hs.symm]
    rfl
  | ok r =>
    rw [hm] at hs
    rw [bind_of_ok hm, bind_of_ok hs.symm]
    exact hf r.1 r.2

theorem Erases.record_bind {k : Prog ε (σ × List ω) α} (w : ω) (h : Erases k m') :
    Erases (record w >>= fun _ => k) m' :=
  fun s => h (s.1, w :: s.2)

theorem Erases.record_last (w : ω) {k : Prog ε (σ × List ω) Unit} {k' : Prog ε σ Unit} (h : Erases k k') :
    Erases (k >>= fun _ => record w) k' := by
  intro s
  have hs := h s
  cases hk : k s with
  | error =>
    rw [hk] at hs
    rw [bind_of_error hk]
    exact hs
  | ok =>
    rw [hk] at hs
    rw [bind_of_ok hk]
    exact hs

theorem Erases.ite {c : Prop} [Decidable c] {k : Prog ε (σ × List ω) α} {k' : Prog ε σ α} (h : Erases m m')
    (h' : Erases k k') : Erases (if c then m else k) (if c then m' else k') := by
  by_cases hc : c
  · rw [if_pos hc, if_pos hc]
    exact h
  · rw [if_neg hc, if_neg hc]
    exact h'

end Traced
