import Mathlib.Data.List.Basic
import Mathlib.Data.Nat.ModEq
import Mathlib.Logic.Function.Basic

/-!
# Ring buffers with wrapping counters

A buffer of `N` cells with two counters of `w` bits.  One counts the elements that were ever put in,
the other those that were ever taken out, and both wrap.  Element number `j` lies in cell `j % N`;
since `N` divides `2 ^ w`, the wrapped counter points at the same cell as the true count.
-/

namespace Ring

open BitVec Function List

variable {α : Type} {N w : Nat} [NeZero N]

def cell (N : Nat) [NeZero N] (c : BitVec w) : Fin N := Fin.ofNat N c.toNat

/-- `xs` are the elements that were ever put in, and the first `k` of them have been taken out. -/
structure Represents (data : Fin N → α) (rd wr : BitVec w) (xs : List α) (k : Nat) : Prop where
  taken_eq : rd = BitVec.ofNat w k
  put_eq : wr = BitVec.ofNat w xs.length
  taken_le : k ≤ xs.length
  put_le : xs.length ≤ k + N
  data_eq : ∀ j (hj : j < xs.length), k ≤ j → data (Fin.ofNat N j) = xs[j]

theorem Represents.empty (data : Fin N → α) : Represents data (0 : BitVec w) 0 [] 0 where
  taken_eq := rfl
  put_eq := rfl
  taken_le := Nat.le_refl 0
  put_le := Nat.zero_le _
  data_eq _ hj := absurd hj (Nat.not_lt_zero _)

theorem cell_ofNat (hdvd : N ∣ 2 ^ w) (j : Nat) : cell N (BitVec.ofNat w j) = Fin.ofNat N j := by
  apply Fin.ext
  simp only [cell, Fin.val_ofNat, toNat_ofNat]
  exact Nat.mod_mod_of_dvd j hdvd

theorem ofNat_inj_of_le {i j : Nat} (hij : i ≤ j) (hlt : j < i + 2 ^ w) :
    BitVec.ofNat w i = BitVec.ofNat w j ↔ i = j := by
  constructor
  · intro h
    have hmod : i % 2 ^ w = j % 2 ^ w := by
      simpa only [toNat_ofNat] using congrArg BitVec.toNat h
    have hdvd : 2 ^ w ∣ j - i := (Nat.modEq_iff_dvd' hij).mp hmod
    have hzero : j - i = 0 := Nat.eq_zero_of_dvd_of_lt hdvd (by omega)
    omega
  · rintro rfl
    rfl

theorem toNat_ofNat_sub {i j : Nat} (hij : i ≤ j) (hlt : j < i + 2 ^ w) :
    (BitVec.ofNat w j - BitVec.ofNat w i).toNat = j - i := by
  have hsum : BitVec.ofNat w j = BitVec.ofNat w (j - i) + BitVec.ofNat w i := by
    rw [← ofNat_add, Nat.sub_add_cancel hij]
  rw [hsum, add_sub_cancel, toNat_ofNat]
  exact Nat.mod_eq_of_lt (by omega)

section Rules

variable {data : Fin N → α} {rd wr : BitVec w} {xs : List α} {k : Nat}

section

variable (h : Represents data rd wr xs k)

include h

theorem Represents.isEmpty_iff (hlt : N < 2 ^ w) : rd = wr ↔ k = xs.length := by
  have hle := h.taken_le
  have hroom := h.put_le
  rw [h.taken_eq, h.put_eq]
  exact ofNat_inj_of_le hle (by omega)

theorem Represents.isFull_iff (hlt : N < 2 ^ w) : wr = rd + BitVec.ofNat w N ↔ xs.length = k + N := by
  have hle := h.taken_le
  have hroom := h.put_le
  rw [h.taken_eq, h.put_eq, ← ofNat_add]
  exact ofNat_inj_of_le hroom (by omega)

theorem Represents.toNat_sub (hlt : N < 2 ^ w) : (wr - rd).toNat = xs.length - k := by
  have hle := h.taken_le
  have hroom := h.put_le
  rw [h.taken_eq, h.put_eq]
  exact toNat_ofNat_sub hle (by omega)

theorem Represents.put (hdvd : N ∣ 2 ^ w) (hlt : N < 2 ^ w) (hfull : wr ≠ rd + BitVec.ofNat w N) (x : α) :
    Represents (update data (cell N wr) x) rd (wr + 1) (xs ++ [x]) k := by
  have hle := h.taken_le
  have hroom : xs.length < k + N := by
    have hne := mt (h.isFull_iff hlt).mpr hfull
    have hput := h.put_le
    omega
  refine ⟨h.taken_eq, ?_, ?_, ?_, ?_⟩
  · rw [h.put_eq, length_append, length_singleton, ofNat_add]
    rfl
  · rw [length_append]
    omega
  · rw [length_append, length_singleton]
    omega
  intro j hj hkj
  rw [h.put_eq, cell_ofNat hdvd]
  rw [length_append, length_singleton] at hj
  by_cases hlast : j = xs.length
  · subst hlast
    simp
  have hjlt : j < xs.length := by omega
  -- The other elements are less than a round away, so that their cells are different.
  have hcell : Fin.ofNat N j ≠ Fin.ofNat N xs.length := by
    intro heq
    have hmod : j % N = xs.length % N := congrArg Fin.val heq
    have hzero := Nat.eq_zero_of_dvd_of_lt ((Nat.modEq_iff_dvd' (Nat.le_of_lt hjlt)).mp hmod) (by omega)
    omega
  rw [update_of_ne hcell, h.data_eq j hjlt hkj, getElem_append_left hjlt]

theorem Represents.take (hdvd : N ∣ 2 ^ w) (hlt : N < 2 ^ w) (hempty : rd ≠ wr) :
    xs[k]? = some (data (cell N rd)) ∧ Represents data (rd + 1) wr xs (k + 1) := by
  have hklt : k < xs.length := by
    have hne := mt (h.isEmpty_iff hlt).mpr hempty
    have hle := h.taken_le
    omega
  constructor
  · rw [h.taken_eq, cell_ofNat hdvd, h.data_eq k hklt (Nat.le_refl k)]
    exact getElem?_eq_getElem hklt
  refine ⟨?_, h.put_eq, hklt, ?_, ?_⟩
  · rw [h.taken_eq, ofNat_add]
    rfl
  · have hput := h.put_le
    omega
  · intro j hj hkj
    exact h.data_eq j hj (by omega)

end

theorem Represents.unput {x : α} (h : Represents data rd wr (xs ++ [x]) k) (hle : k ≤ xs.length) :
    Represents data rd (wr - 1) xs k := by
  have hput := h.put_eq
  have hroom := h.put_le
  rw [length_append, length_singleton] at hput hroom
  refine ⟨h.taken_eq, ?_, hle, by omega, ?_⟩
  · rw [hput, ofNat_add]
    exact add_sub_cancel _ _
  · intro j hj hkj
    rw [h.data_eq j (by rw [length_append]; omega) hkj, getElem_append_left hj]

theorem Represents.last {x : α} (h : Represents data rd wr (xs ++ [x]) k) (hdvd : N ∣ 2 ^ w) (hle : k ≤ xs.length) :
    data (cell N (wr - 1)) = x := by
  rw [(h.unput hle).put_eq, cell_ofNat hdvd, h.data_eq xs.length (by simp) hle]
  simp

def window (data : Fin N → α) (i : BitVec w) (n : Nat) : List α :=
  (range n).map fun t => data (cell N (i + BitVec.ofNat w t))

theorem Represents.window_eq (h : Represents data rd wr xs k) (hdvd : N ∣ 2 ^ w) {i n : Nat} (hi : k ≤ i)
    (hn : i + n ≤ xs.length) : window data (BitVec.ofNat w i) n = (xs.drop i).take n := by
  apply ext_getElem
  · rw [window, length_map, length_range, length_take, length_drop]
    omega
  intro t ht _
  rw [window, length_map, length_range] at ht
  simp only [window, getElem_map, getElem_range, getElem_take, getElem_drop]
  rw [← ofNat_add, cell_ofNat hdvd]
  exact h.data_eq (i + t) (by omega) (by omega)

end Rules

/-! ## Queues

The same buffer for a user who does not need the history: the ring holds the queue `q`.  An element can be written
into its cell before the counter is moved.
-/

/-- `q` are the elements in the buffer. -/
def Queue (data : Fin N → α) (rd wr : BitVec w) (q : List α) : Prop :=
  ∃ xs k, Represents data rd wr xs k ∧ q = xs.drop k

theorem Queue.empty (data : Fin N → α) : Queue data (0 : BitVec w) 0 [] := ⟨[], 0, Represents.empty data, rfl⟩

section Queue

variable {data : Fin N → α} {rd wr : BitVec w} {q : List α} {x : α}

section

variable (h : Queue data rd wr q) (hdvd : N ∣ 2 ^ w) (hlt : N < 2 ^ w)

include h hdvd hlt

theorem Queue.stage (hroom : q.length < N) (x : α) : Queue (update data (cell N wr) x) rd wr q := by
  obtain ⟨xs, k, hrep, rfl⟩ := h
  rw [length_drop] at hroom
  have hle := hrep.taken_le
  refine ⟨xs, k, ⟨hrep.taken_eq, hrep.put_eq, hle, hrep.put_le, ?_⟩, rfl⟩
  intro j hj hkj
  have hopen : wr ≠ rd + BitVec.ofNat w N := by
    rw [Ne, hrep.isFull_iff hlt]
    omega
  have hput := (hrep.put hdvd hlt hopen x).data_eq j (by rw [length_append]; omega) hkj
  rw [hput, getElem_append_left hj]

theorem Queue.advance (hroom : q.length < N) (hx : data (cell N wr) = x) : Queue data rd (wr + 1) (q ++ [x]) := by
  obtain ⟨xs, k, hrep, rfl⟩ := h
  rw [length_drop] at hroom
  have hle := hrep.taken_le
  have hopen : wr ≠ rd + BitVec.ofNat w N := by
    rw [Ne, hrep.isFull_iff hlt]
    omega
  have hput := hrep.put hdvd hlt hopen x
  rw [← hx, update_eq_self, hx] at hput
  exact ⟨xs ++ [x], k, hput, by rw [drop_append_of_le_length hle]⟩

theorem Queue.put (hroom : q.length < N) (x : α) : Queue (update data (cell N wr) x) rd (wr + 1) (q ++ [x]) :=
  (h.stage hdvd hlt hroom x).advance hdvd hlt hroom (update_self ..)

theorem Queue.take (hne : rd ≠ wr) : ∃ rest, q = data (cell N rd) :: rest ∧ Queue data (rd + 1) wr rest := by
  obtain ⟨xs, k, hrep, rfl⟩ := h
  obtain ⟨hfirst, hrest⟩ := hrep.take hdvd hlt hne
  obtain ⟨hk, hget⟩ := List.getElem?_eq_some_iff.1 hfirst
  refine ⟨xs.drop (k + 1), ?_, xs, k + 1, hrest, rfl⟩
  rw [drop_eq_getElem_cons hk, hget]

end

end Queue

end Ring
