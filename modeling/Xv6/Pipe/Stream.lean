import Xv6.Pipe.Held

/-!
# A pipe is a stream of bytes

What the readers get is what the writers have stored, in this order and without a gap, over any number
of rounds of the buffer and of the 32-bit counters: the pipe is a `Ring` whose history is the trace.
-/

namespace Xv6.Pipes

open Runs

def storedBytes (tr : List Event) : List UInt8 :=
  tr.filterMap fun e => match e.2 with
    | .stored ch => some ch
    | _ => none

def deliveredBytes (tr : List Event) : List UInt8 :=
  tr.filterMap fun e => match e.2 with
    | .delivered ch => some ch
    | _ => none

def Pc.reading : Pc → Option Int
  | .readTest n | .readMark n | .readSleep n | .readCopy n _ => some n
  | _ => none

/-- The bytes from `nread` up to `nwrite`. -/
def Pipe.buffered (pi : Pipe) : List UInt8 := Ring.window pi.data pi.nread (pi.nwrite - pi.nread).toNat

/-- What a pipe is meant to be, in runs of `step` from a new one: what the writers have stored is what the readers have
got, and after that what is in the buffer. -/
def LosslessFifo (step : State → Event → State → Prop) : Prop :=
  ∀ s₀ tr s, Fresh s₀ → Run step s₀ tr s →
    storedBytes tr = deliveredBytes tr ++ s.pipe.buffered ∧
    (s.pipe.nwrite - s.pipe.nread).toNat ≤ PIPESIZE ∧
    ∀ a s' n, step s (a, .value 0) s' → (s.proc a.proc).pc.reading = some n → 0 < n →
      s.pipe.isEmpty ∧ s.pipe.writeopen = false

theorem pipesize_dvd : PIPESIZE ∣ 2 ^ 32 := by decide

theorem pipesize_lt : PIPESIZE < 2 ^ 32 := by decide

/-- The run so far as the history of a ring buffer. -/
structure History (tr : List Event) (s : State) : Prop extends Held s where
  ring : Ring.Represents s.pipe.data s.pipe.nread s.pipe.nwrite (storedBytes tr) (deliveredBytes tr).length
  delivered : deliveredBytes tr = (storedBytes tr).take (deliveredBytes tr).length

variable {tr : List Event} {s s' : State} {p : Fin NPROC} {a : Act} {r : Ret}

theorem Fresh.history (h : Fresh s) : History [] s where
  toHeld := h.held
  ring := by
    rw [h.nread, h.nwrite]
    exact Ring.Represents.empty _
  delivered := rfl

section Bytes

variable {ch : UInt8}

@[simp] theorem storedBytes_append_stored : storedBytes (tr ++ [(a, .stored ch)]) = storedBytes tr ++ [ch] := by
  simp [storedBytes]

@[simp] theorem deliveredBytes_append_stored : deliveredBytes (tr ++ [(a, .stored ch)]) = deliveredBytes tr := by
  simp [deliveredBytes]

@[simp] theorem storedBytes_append_delivered : storedBytes (tr ++ [(a, .delivered ch)]) = storedBytes tr := by
  simp [storedBytes]

@[simp] theorem deliveredBytes_append_delivered :
    deliveredBytes (tr ++ [(a, .delivered ch)]) = deliveredBytes tr ++ [ch] := by
  simp [deliveredBytes]

end Bytes

theorem History.quiet (h : History tr s) (hheld : Held s')
    (hpipe : s'.pipe.data = s.pipe.data ∧ s'.pipe.nread = s.pipe.nread ∧
      s'.pipe.nwrite = s.pipe.nwrite) (hret : r = .none ∨ ∃ v, r = .value v) : History (tr ++ [(a, r)]) s' := by
  have hstored : storedBytes (tr ++ [(a, r)]) = storedBytes tr := by
    rcases hret with rfl | ⟨v, rfl⟩ <;> simp [storedBytes]
  have hdelivered : deliveredBytes (tr ++ [(a, r)]) = deliveredBytes tr := by
    rcases hret with rfl | ⟨v, rfl⟩ <;> simp [deliveredBytes]
  refine ⟨hheld, ?_, ?_⟩
  · rw [hstored, hdelivered, hpipe.1, hpipe.2.1, hpipe.2.2]
    exact h.ring
  · rw [hstored, hdelivered]
    exact h.delivered

theorem History.store {ch : UInt8} {n : Int} {i : Nat} {fresh : Bool} (h : History tr s)
    (hpc : (s.proc p).pc = .writeByte n i fresh) (hheld : Held s')
    (hpipe : s'.pipe = s.pipe.store ch) : History (tr ++ [(a, .stored ch)]) s' := by
  have hroom := (h.knows_of_pc hpc).1
  refine ⟨hheld, ?_, ?_⟩
  · rw [hpipe, storedBytes_append_stored, deliveredBytes_append_stored]
    exact h.ring.put pipesize_dvd pipesize_lt hroom ch
  · rw [storedBytes_append_stored, deliveredBytes_append_stored, List.take_append_of_le_length h.ring.taken_le]
    exact h.delivered

theorem History.deliver (h : History tr s) (hmore : ¬ s.pipe.isEmpty) (hheld : Held s')
    (hpipe : s'.pipe = { s.pipe with nread := s.pipe.nread + 1 }) :
    History (tr ++ [(a, .delivered s.pipe.next)]) s' := by
  obtain ⟨hnext, hring⟩ := h.ring.take pipesize_dvd pipesize_lt hmore
  refine ⟨hheld, ?_, ?_⟩
  · rw [hpipe, storedBytes_append_delivered, deliveredBytes_append_delivered, List.length_append]
    exact hring
  · rw [storedBytes_append_delivered, deliveredBytes_append_delivered, List.length_append,
      List.length_singleton, List.take_add_one, hnext, ← h.delivered]
    rfl

theorem History.moved (h : History tr s) (hm : Moved s a p r s') : History (tr ++ [(a, r)]) s' := by
  have hheld := h.toHeld.moved hm
  cases hm with
  | store n i fresh ch hpc => exact h.store hpc hheld rfl
  | deliver n i hpc hmore => exact h.deliver hmore hheld rfl
  | pipeclose writable =>
    cases writable with
    | true | false => exact h.quiet hheld ⟨rfl, rfl, rfl⟩ (.inl rfl)
  | writeGiveUp | writeDone | readGiveUp | readDone =>
    exact h.quiet hheld ⟨rfl, rfl, rfl⟩ (.inr ⟨_, rfl⟩)
  | acquire | writeFull | writeRoom | writeSleep | readEmpty | readReady | readSleep | kill =>
    exact h.quiet hheld ⟨rfl, rfl, rfl⟩ (.inl rfl)

theorem History.stored_eq (h : History tr s) : storedBytes tr = deliveredBytes tr ++ s.pipe.buffered := by
  have hle := h.ring.taken_le
  have hwindow := h.ring.window_eq pipesize_dvd (Nat.le_refl _) (Nat.le_of_eq (Nat.add_sub_cancel' hle))
  rw [← h.ring.taken_eq, ← h.ring.toNat_sub pipesize_lt] at hwindow
  have hall : ((storedBytes tr).drop (deliveredBytes tr).length).length ≤ (s.pipe.nwrite - s.pipe.nread).toNat := by
    rw [h.ring.toNat_sub pipesize_lt, List.length_drop]
  calc storedBytes tr
    _ = (storedBytes tr).take (deliveredBytes tr).length ++ (storedBytes tr).drop (deliveredBytes tr).length :=
      (List.take_append_drop _ _).symm
    _ = deliveredBytes tr ++ s.pipe.buffered := by
      rw [← h.delivered, Pipe.buffered, hwindow, List.take_of_length_le hall]

/-- The first loop of `piperead` ends with a byte in the pipe or with the write end closed, and in the
second loop a failed copy of the first byte gives -1. -/
theorem Held.empty_of_zero {n : Int} (h : Held s) (hm : Moved s a p (.value 0) s')
    (hreading : (s.proc p).pc.reading = some n) (hn : 0 < n) : s.pipe.isEmpty ∧ s.pipe.writeopen = false := by
  generalize hzero : Ret.value 0 = ret at hm
  cases hm with
  | readDone m i r hpc hwhy =>
    rw [hpc] at hreading
    cases hreading
    cases hzero
    rcases hwhy with ⟨hi, hmore⟩ | hfailed
    · have hempty : s.pipe.isEmpty := by
        by_contra hne
        exact hmore ⟨by omega, hne⟩
      exact ⟨hempty, h.knows_of_pc hpc (by omega) hempty⟩
    · split at hfailed
      · cases hfailed
      · omega
  | writeDone m i fresh hpc =>
    rcases hpc with hpc | hpc
    all_goals
      rw [hpc] at hreading
      cases hreading
  | writeGiveUp | readGiveUp => cases hzero
  | store | deliver | pipeclose | acquire | writeFull | writeRoom | writeSleep | readEmpty | readReady
  | readSleep | kill => cases hzero

theorem losslessFifo : LosslessFifo Step := by
  intro s₀ tr s hfresh hrun
  have hist : History tr s := by
    refine Run.invariant_trace ?_ hrun hfresh.history
    rintro tr s ⟨a, r⟩ s' h hstep
    exact h.moved (step_moved hstep)
  refine ⟨hist.stored_eq, ?_, ?_⟩
  · have hroom := hist.ring.put_le
    rw [hist.ring.toNat_sub pipesize_lt]
    omega
  · intro a s' n hstep hreading hn
    exact hist.toHeld.empty_of_zero (step_moved hstep) hreading hn

end Xv6.Pipes
