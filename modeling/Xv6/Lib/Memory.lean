import Mathlib.Logic.Function.Basic
import Mathlib.Tactic.Common
import Mathlib.Tactic.Ring

/-!
# Byte-addressed memory

A memory is a function from addresses to bytes, with numbers kept little-endian: `load m a n` is the number in the
`n` bytes at `a`, and `put m a n v` stores one there.  All that is said about parts of memory that a write leaves
alone goes through `Agree`.
-/

namespace Memory

open Function

abbrev Mem := Nat → UInt8

/-- `memset` -/
def fill (m : Mem) (a n : Nat) (c : UInt8) : Mem := fun x => if a ≤ x ∧ x < a + n then c else m x

/-- `memmove`: the bytes are read before any is written. -/
def copy (m : Mem) (dst src n : Nat) : Mem := fun x => if dst ≤ x ∧ x < dst + n then m (src + (x - dst)) else m x

def store (m : Mem) (a : Nat) (bytes : List UInt8) : Mem :=
  fun x => if a ≤ x ∧ x < a + bytes.length then bytes.getD (x - a) 0 else m x

def put (m : Mem) (a n v : Nat) : Mem := fun x => if a ≤ x ∧ x < a + n then UInt8.ofNat (v / 256 ^ (x - a)) else m x

def putArray (m : Mem) (a w n : Nat) (f : Nat → Nat) : Mem :=
  fun x => if a ≤ x ∧ x < a + w * n then UInt8.ofNat (f ((x - a) / w) / 256 ^ ((x - a) % w)) else m x

def load (m : Mem) (a : Nat) : Nat → Nat
  | 0 => 0
  | n + 1 => (m a).toNat + 256 * load m (a + 1) n

def number : List UInt8 → Nat
  | [] => 0
  | b :: l => b.toNat + 256 * number l

def digits (n v : Nat) : List UInt8 := (List.range n).map fun i => UInt8.ofNat (v / 256 ^ i)

def bytes (m : Mem) (a n : Nat) : List UInt8 := (List.range n).map fun i => m (a + i)

@[simp] theorem length_bytes (m : Mem) (a n : Nat) : (bytes m a n).length = n := by
  unfold bytes
  rw [List.length_map, List.length_range]

def Agree (m m' : Mem) (a n : Nat) : Prop := ∀ x, a ≤ x → x < a + n → m' x = m x

section Agree

variable {m m' m'' : Mem} {a b n k : Nat}

theorem Agree.refl (m : Mem) (a n : Nat) : Agree m m a n := fun _ _ _ => rfl

theorem Agree.trans (h : Agree m m' a n) (h' : Agree m' m'' a n) : Agree m m'' a n := by
  intro x hlo hhi
  rw [h' x hlo hhi, h x hlo hhi]

theorem Agree.sub (h : Agree m m' a n) (hlo : a ≤ b) (hhi : b + k ≤ a + n) : Agree m m' b k :=
  fun x hbx hxk => h x (by omega) (by omega)

theorem agree_fill {c : UInt8} (h : a + n ≤ b ∨ b + k ≤ a) : Agree m (fill m b k c) a n := by
  intro x hlo hhi
  have hout : ¬ (b ≤ x ∧ x < b + k) := by omega
  simp only [fill, if_neg hout]

theorem agree_copy {src : Nat} (h : a + n ≤ b ∨ b + k ≤ a) : Agree m (copy m b src k) a n := by
  intro x hlo hhi
  have hout : ¬ (b ≤ x ∧ x < b + k) := by omega
  simp only [copy, if_neg hout]

theorem agree_store {l : List UInt8} (h : a + n ≤ b ∨ b + l.length ≤ a) : Agree m (store m b l) a n := by
  intro x hlo hhi
  have hout : ¬ (b ≤ x ∧ x < b + l.length) := by omega
  simp only [store, if_neg hout]

theorem agree_put {v : Nat} (h : a + n ≤ b ∨ b + k ≤ a) : Agree m (put m b k v) a n := by
  intro x hlo hhi
  have hout : ¬ (b ≤ x ∧ x < b + k) := by omega
  simp only [put, if_neg hout]

theorem agree_putArray {w : Nat} {f : Nat → Nat} (h : a + n ≤ b ∨ b + w * k ≤ a) :
    Agree m (putArray m b w k f) a n := by
  intro x hlo hhi
  have hout : ¬ (b ≤ x ∧ x < b + w * k) := by omega
  simp only [putArray, if_neg hout]

end Agree

section Store

variable {m : Mem} {a : Nat} {b : UInt8} {l : List UInt8}

theorem store_nil : store m a [] = m := by
  funext x
  exact if_neg (by simp)

theorem store_cons : store m a (b :: l) = store (update m a b) (a + 1) l := by
  funext x
  unfold store
  by_cases hx : x = a
  · subst hx
    rw [if_pos (by simp), if_neg (by omega), update_self, Nat.sub_self]
    rfl
  rw [update_of_ne hx]
  by_cases hin : a + 1 ≤ x ∧ x < a + 1 + l.length
  · have hsub : x - a = x - (a + 1) + 1 := by omega
    rw [if_pos hin, if_pos (by rw [List.length_cons]; omega), hsub, List.getD_cons_succ]
  · rw [if_neg hin, if_neg (by rw [List.length_cons]; omega)]

end Store

section Load

variable {m m' : Mem} {a b n k v : Nat}

theorem load_congr (h : Agree m m' a n) : load m' a n = load m a n := by
  induction n generalizing a with
  | zero => rfl
  | succ n ih =>
    have hhead : m' a = m a := h a (Nat.le_refl a) (by omega)
    have htail : Agree m m' (a + 1) n := h.sub (by omega) (by omega)
    simp only [load, hhead, ih htail]

theorem load_lt (m : Mem) (a n : Nat) : load m a n < 256 ^ n := by
  induction n generalizing a with
  | zero => simp [load]
  | succ n ih =>
    have hbyte := (m a).toNat_lt
    have htail := ih (a + 1)
    simp only [load, pow_succ]
    omega

theorem load_fill_zero (h : b ≤ a) (h' : a + n ≤ b + k) : load (fill m b k 0) a n = 0 := by
  induction n generalizing a with
  | zero => rfl
  | succ n ih =>
    have hin : b ≤ a ∧ a < b + k := by omega
    have htail := ih (a := a + 1) (by omega) (by omega)
    simp only [load, htail, fill, if_pos hin]
    rfl

-- The bytes at `a` are the digits of `v` from position `a - b` on.
theorem load_put_from (hb : b ≤ a) (hend : a + n = b + k) : load (put m b k v) a n = v / 256 ^ (a - b) % 256 ^ n := by
  induction n generalizing a with
  | zero => simp [load, Nat.mod_one]
  | succ n ih =>
    have hin : b ≤ a ∧ a < b + k := by omega
    have hstep : a + 1 - b = a - b + 1 := by omega
    have hbyte : (UInt8.ofNat (v / 256 ^ (a - b))).toNat = v / 256 ^ (a - b) % 256 := by
      simp
    have htail := ih (a := a + 1) (by omega) (by omega)
    simp only [load, htail, put, if_pos hin, hbyte, hstep]
    rw [pow_succ 256 (a - b), ← Nat.div_div_eq_div_mul, pow_succ' 256 n, Nat.mod_mul]

theorem load_put (h : v < 256 ^ n) : load (put m a n v) a n = v := by
  rw [load_put_from (Nat.le_refl a) rfl, Nat.sub_self, pow_zero, Nat.div_one, Nat.mod_eq_of_lt h]

theorem load_putArray {w : Nat} {f : Nat → Nat} {i : Nat} (hi : i < n) (hv : f i < 256 ^ w) :
    load (putArray m a w n f) (a + w * i) w = f i := by
  -- On its own bytes the array looks as if only this number had been stored.
  have hsame : Agree (put m (a + w * i) w (f i)) (putArray m a w n f) (a + w * i) w := by
    intro x hlo hhi
    have hend : w * i + w ≤ w * n := by
      rw [← Nat.mul_succ]
      exact Nat.mul_le_mul_left w hi
    have hin : a ≤ x ∧ x < a + w * n := by omega
    obtain ⟨r, hr⟩ := Nat.exists_eq_add_of_le hlo
    have hx : x - a = r + w * i := by omega
    have hrw : r < w := by omega
    have hdiv : (r + w * i) / w = i := by
      rw [Nat.add_mul_div_left _ _ (by omega), Nat.div_eq_of_lt hrw, Nat.zero_add]
    have hmod : (r + w * i) % w = r := by
      rw [Nat.add_mul_mod_self_left, Nat.mod_eq_of_lt hrw]
    have hr' : x - (a + w * i) = r := by omega
    simp only [putArray, put, if_pos hin, if_pos (And.intro hlo hhi), hx, hdiv, hmod, hr']
  rw [load_congr hsame, load_put hv]

end Load

end Memory
