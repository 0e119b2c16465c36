import Mathlib.Data.Set.Basic
import Mathlib.Logic.Function.Basic

/-!
# Keyed stores

A store has slots `ι`, each vacant or under a key `κ`, and places `π` at which slots are attached.
A slot is found or created by its key; it lives until its last attachment goes.
-/

namespace KeyedStore

open Function

@[ext]
structure Store (ι κ π : Type) where
  key : ι → Option κ
  attached : π → Option ι

variable {ι κ π : Type}

/-- The places where slot `i` is attached. -/
def Store.attachments (σ : Store ι κ π) (i : ι) : Set π := {x | σ.attached x = some i}

section Steps

variable [DecidableEq ι] [DecidableEq π]

def Store.create (σ : Store ι κ π) (i : ι) (k : κ) : Store ι κ π := { σ with key := update σ.key i (some k) }

def Store.attach (σ : Store ι κ π) (x : π) (i : ι) : Store ι κ π := { σ with attached := update σ.attached x (some i) }

def Store.detach (σ : Store ι κ π) (x : π) : Store ι κ π := { σ with attached := update σ.attached x none }

def Store.destroy (σ : Store ι κ π) (i : ι) : Store ι κ π := { σ with key := update σ.key i none }

/-- What a call asks for, and what came of it. -/
inductive Event (ι κ π : Type) where
  | refused
  | found (k : κ) (i : ι)
  | created (k : κ) (i : ι)
  | attached (i : ι) (x : π)
  | detached (x : π)

inductive Step (σ : Store ι κ π) : Event ι κ π → Store ι κ π → Prop
  | refused : Step σ .refused σ
  | found {k : κ} {i : ι} (live : σ.key i = some k) : Step σ (.found k i) σ
  | created {k : κ} {i : ι} (new : ∀ j, σ.key j ≠ some k) (vacant : σ.key i = none) :
      Step σ (.created k i) (σ.create i k)
  | attached {i : ι} {x : π} (live : σ.key i ≠ none) (empty : σ.attached x = none) :
      Step σ (.attached i x) (σ.attach x i)
  | detached {i : ι} {x y : π} (hit : σ.attached x = some i) (other : σ.attached y = some i)
      (ne : y ≠ x) : Step σ (.detached x) (σ.detach x)
  | destroyed {i : ι} {x : π} (hit : σ.attached x = some i)
      (last : ∀ y, σ.attached y = some i → y = x) : Step σ (.detached x) ((σ.detach x).destroy i)

end Steps

/-- No key has two slots. -/
def Store.Distinct (σ : Store ι κ π) : Prop := ∀ i j k, σ.key i = some k → σ.key j = some k → i = j

variable {σ τ : Store ι κ π} {e : Event ι κ π} {i : ι} {k : κ} [DecidableEq ι]

theorem Store.Distinct.create (h : σ.Distinct) (hnew : ∀ j, σ.key j ≠ some k) : (σ.create i k).Distinct := by
  intro a b l ha hb
  -- A slot other than the new one has a key other than the new one.
  simp only [Store.create, update_apply] at ha hb
  split at ha
  · next hai =>
    split at hb
    · next hbi => exact hai.trans hbi.symm
    · exact absurd (hb.trans ha.symm) (hnew b)
  · split at hb
    · exact absurd (ha.trans hb.symm) (hnew a)
    · exact h a b l ha hb

theorem Store.Distinct.destroy (h : σ.Distinct) : (σ.destroy i).Distinct := by
  intro a b l ha hb
  simp only [Store.destroy, update_apply] at ha hb
  split at ha
  · cases ha
  · split at hb
    · cases hb
    · exact h a b l ha hb

theorem Step.distinct [DecidableEq π] (h : σ.Distinct) (hstep : Step σ e τ) : τ.Distinct := by
  cases hstep with
  | refused | found => exact h
  | created hnew => exact h.create hnew
  | attached | detached => exact h
  | destroyed => exact Store.Distinct.destroy h

end KeyedStore
