import Mathlib.Algebra.Order.Ring.Int
import Mathlib.Data.List.GetD
import Mathlib.Data.List.Nodup
import Mathlib.Tactic.Common

/-!
# `printint`

The kernel (`kernel/printf.c`) and the user library (`user/printf.c`) print an integer of 64 bits through an array of 20
characters, which is the length of the longest decimal numeral, signs included.  Both print the numeral of the value
that has no superfluous zeros, and `atoi` (`user/ulib.c`) reads it back.
-/

namespace Xv6.Support

open List

/-- `do { buf[i++] = digits[x % base]; } while((x /= base) != 0);` where `room` characters still fit in `buf`: what it
stores.  There is no result if it stores behind the end of `buf`. -/
def divide (digits : List Char) (base : Nat) : Nat → Nat → Option (List Char)
  | 0, _ => none
  | room + 1, x =>
    let c := digits.getD (x % base) '?'
    if x / base = 0 then some [c] else (divide digits base room (x / base)).map (c :: ·)

/-- `buf[i++] = c` -/
def put (buf : List Char) (c : Char) : Option (List Char) := if buf.length < 20 then some (buf ++ [c]) else none

/-- What `printint` prints with a table of digits. -/
def printWith (digits : List Char) (xx : BitVec 64) (base : Nat) (sign : Bool) : Option (List Char) :=
  let neg := sign && decide (xx.toInt < 0)
  let x := if neg then -xx else xx
  (divide digits base 20 x.toNat).bind fun buf => (if neg then put buf '-' else some buf).map List.reverse

def Kernel.digits : List Char := "0123456789abcdef".toList

def Kernel.printint (xx : BitVec 64) (base : Nat) (sign : Bool) : Option (List Char) :=
  printWith Kernel.digits xx base sign

def User.digits : List Char := "0123456789ABCDEF".toList

def User.printint (xx : BitVec 64) (base : Nat) (sgn : Bool) : Option (List Char) := printWith User.digits xx base sgn

/-! ## Numerals -/

/-- `cs` stands for `v`, the most significant digit first. -/
structure Numeral (digits : List Char) (base : Nat) (cs : List Char) (v : Nat) : Prop where
  some_digit : cs ≠ []
  digit : ∀ c ∈ cs, c ∈ digits.take base
  value : cs.foldl (fun v c => v * base + digits.idxOf c) 0 = v

def Shortest (digits : List Char) (base : Nat) (cs : List Char) (v : Nat) : Prop :=
  Numeral digits base cs v ∧ ∀ cs', Numeral digits base cs' v → cs' = cs ∨ cs.length < cs'.length

section Divide

variable {digits : List Char} {base room x r : Nat} {cs cs' : List Char}

theorem divide_fits (hr : 0 < r) (hle : r ≤ room) (hx : x < base ^ r) :
    ∃ cs, divide digits base room x = some cs ∧ cs.length ≤ r := by
  induction room generalizing x r with
  | zero => omega
  | succ room ih =>
    rw [divide]
    by_cases hzero : x / base = 0
    · exact ⟨_, if_pos hzero, hr⟩
    obtain ⟨r, rfl⟩ := Nat.exists_eq_succ_of_ne_zero (Nat.ne_of_gt hr)
    have hquot : x / base < base ^ r := Nat.div_lt_of_lt_mul (by rw [Nat.mul_comm]; exact hx)
    have hpos : 0 < r := by
      rcases Nat.eq_zero_or_pos r with rfl | hpos
      · exact absurd (Nat.lt_one_iff.mp hquot) hzero
      · exact hpos
    obtain ⟨cs, hrun, hlen⟩ := ih hpos (by omega) hquot
    refine ⟨_, by rw [if_neg hzero, hrun]; rfl, ?_⟩
    rw [length_cons]
    omega

theorem divide_map (f : Char → Char) (hf : f '?' = '?') :
    divide (digits.map f) base room x = (divide digits base room x).map (·.map f) := by
  induction room generalizing x with
  | zero => rfl
  | succ room ih =>
    have hdigit : (digits.map f).getD (x % base) '?' = f (digits.getD (x % base) '?') := by
      rw [getD_eq_getElem?_getD, getD_eq_getElem?_getD, getElem?_map]
      cases digits[x % base]? with
      | none => exact hf.symm
      | some => rfl
    rw [divide, divide, hdigit, ih]
    by_cases hzero : x / base = 0
    · rw [if_pos hzero, if_pos hzero]
      rfl
    · rw [if_neg hzero, if_neg hzero, Option.map_map, Option.map_map]
      rfl

variable (hnodup : digits.Nodup) (hlen : base ≤ digits.length)
include hnodup hlen

theorem idxOf_getD {i : Nat} (hi : i < base) : digits.idxOf (digits.getD i '?') = i := by
  rw [getD_eq_getElem _ _ (by omega)]
  exact hnodup.idxOf_getElem i (by omega)

section

variable (hbase : 0 < base) (h : divide digits base room x = some cs)

include hbase h

-- The digits come out with the least significant one first.
theorem divide_value :
    cs ≠ [] ∧ (∀ c ∈ cs, c ∈ digits.take base) ∧ cs.foldr (fun c v => v * base + digits.idxOf c) 0 = x := by
  induction room generalizing x cs with
  | zero => cases h
  | succ room ih =>
    have hmod : x % base < base := Nat.mod_lt x hbase
    have hmem : digits.getD (x % base) '?' ∈ digits.take base := by
      rw [getD_eq_getElem _ _ (by omega)]
      exact mem_take_iff_getElem.mpr ⟨x % base, by omega, rfl⟩
    have hidx := idxOf_getD hnodup hlen hmod
    have hx := Nat.div_add_mod' x base
    rw [divide] at h
    by_cases hzero : x / base = 0
    · rw [if_pos hzero] at h
      cases h
      refine ⟨cons_ne_nil _ _, by simpa using hmem, ?_⟩
      rw [foldr_cons, foldr_nil, hidx, ← hzero, hx]
    rw [if_neg hzero] at h
    obtain ⟨cs₁, hrest, rfl⟩ := Option.map_eq_some_iff.mp h
    obtain ⟨-, hdigits, hvalue⟩ := ih hrest
    refine ⟨cons_ne_nil _ _, forall_mem_cons.mpr ⟨hmem, hdigits⟩, ?_⟩
    rw [foldr_cons, hvalue, hidx, hx]

theorem divide_least (hne : cs' ≠ []) (hdigits : ∀ c ∈ cs', c ∈ digits.take base)
    (hvalue : cs'.foldr (fun c v => v * base + digits.idxOf c) 0 = x) : cs' = cs ∨ cs.length < cs'.length := by
  induction room generalizing x cs cs' with
  | zero => cases h
  | succ room ih =>
    obtain ⟨c, l, rfl⟩ := exists_cons_of_ne_nil hne
    obtain ⟨hc, hl⟩ := forall_mem_cons.mp hdigits
    obtain ⟨i, hi, hci⟩ := mem_take_iff_getElem.mp hc
    have hi' : i < digits.length := by omega
    have hidx : digits.idxOf c = i := by
      rw [← hci]
      exact hnodup.idxOf_getElem i hi'
    rw [foldr_cons, hidx] at hvalue
    have hquot : x / base = l.foldr (fun c v => v * base + digits.idxOf c) 0 := by
      rw [← hvalue, Nat.add_comm, Nat.add_mul_div_right _ _ hbase, Nat.div_eq_of_lt (by omega), Nat.zero_add]
    have hmod : x % base = i := by
      rw [← hvalue, Nat.add_comm, Nat.add_mul_mod_self_right, Nat.mod_eq_of_lt (by omega)]
    have hfirst : digits.getD (x % base) '?' = c := by
      rw [hmod, getD_eq_getElem _ _ hi', hci]
    rw [divide, hfirst] at h
    by_cases hzero : x / base = 0
    · rw [if_pos hzero] at h
      cases h
      cases l with
      | nil => exact .inl rfl
      | cons => exact .inr (by simp)
    rw [if_neg hzero] at h
    obtain ⟨cs₁, hrest, rfl⟩ := Option.map_eq_some_iff.mp h
    have hl' : l ≠ [] := by
      rintro rfl
      exact hzero hquot
    rcases ih hrest hl' hl hquot.symm with rfl | hlt
    · exact .inl rfl
    · exact .inr (Nat.succ_lt_succ hlt)

theorem divide_shortest : Shortest digits base cs.reverse x := by
  obtain ⟨hne, hdigits, hvalue⟩ := divide_value hnodup hlen hbase h
  refine ⟨⟨by simpa using hne, by simpa using hdigits, by rw [foldl_reverse]; exact hvalue⟩, fun cs' hn => ?_⟩
  have hleast : cs'.reverse = cs ∨ cs.length < cs'.reverse.length :=
    divide_least hnodup hlen hbase h (by simpa using hn.some_digit) (by simpa using hn.digit)
      (by rw [foldr_reverse]; exact hn.value)
  rw [length_reverse] at hleast ⊢
  exact hleast.imp_left fun heq => by rw [← heq, reverse_reverse]

end

end Divide

/-! ## Both versions -/

/-- The number that is printed after the sign. -/
def magnitude (xx : BitVec 64) (sign : Bool) : Nat := if sign then xx.toInt.natAbs else xx.toNat

def signOf (xx : BitVec 64) (sign : Bool) : List Char := if sign && decide (xx.toInt < 0) then ['-'] else []

-- The negation of the minimum wraps around to itself, which is its magnitude.
theorem toNat_magnitude (xx : BitVec 64) (sign : Bool) :
    (if sign && decide (xx.toInt < 0) then -xx else xx).toNat = magnitude xx sign := by
  unfold magnitude
  cases sign with
  | false => rfl
  | true =>
    have hlt := xx.isLt
    rw [if_pos rfl, Bool.true_and, BitVec.toInt_eq_toNat_cond]
    by_cases hpos : 2 * xx.toNat < 2 ^ 64
    · rw [if_pos hpos, if_neg (by simp)]
      rfl
    · rw [if_neg hpos, if_pos (by simp only [decide_eq_true_eq]; omega), BitVec.toNat_neg]
      omega

theorem magnitude_lt (xx : BitVec 64) (sign : Bool) : magnitude xx sign < 10 ^ (20 - (signOf xx sign).length) := by
  have hlt := xx.isLt
  have hint := xx.toInt_eq_toNat_cond
  unfold signOf magnitude
  cases sign with
  | false => exact Nat.lt_trans hlt (show 2 ^ 64 < 10 ^ 20 by decide)
  | true =>
    rw [if_pos rfl, Bool.true_and]
    by_cases hneg : xx.toInt < 0
    · rw [if_pos (decide_eq_true hneg)]
      show _ < 10 ^ 19
      omega
    · rw [if_neg (by simpa using hneg)]
      show _ < 10 ^ 20
      omega

theorem printWith_shortest (digits : List Char) (hnodup : digits.Nodup) (hlen : digits.length = 16) (xx : BitVec 64)
    {base : Nat} (hbase : base = 10 ∨ base = 16) (sign : Bool) :
    ∃ cs, divide digits base 20 (magnitude xx sign) = some cs ∧
      printWith digits xx base sign = some (signOf xx sign ++ cs.reverse) ∧
      Shortest digits base cs.reverse (magnitude xx sign) := by
  have hbound := magnitude_lt xx sign
  have hlen' : (signOf xx sign).length ≤ 1 := by
    unfold signOf
    split <;> simp
  have hfits : ∃ cs, divide digits base 20 (magnitude xx sign) = some cs ∧ cs.length ≤ 20 - (signOf xx sign).length :=
    divide_fits (by omega) (by omega) (Nat.lt_of_lt_of_le hbound (Nat.pow_le_pow_left (by omega) _))
  obtain ⟨cs, hrun, hcs⟩ := hfits
  refine ⟨cs, hrun, ?_, divide_shortest hnodup (by omega) (by omega) hrun⟩
  unfold printWith
  dsimp only
  rw [toNat_magnitude, hrun, Option.bind_some]
  unfold signOf at hcs ⊢
  by_cases hneg : (sign && decide (xx.toInt < 0)) = true
  · rw [if_pos hneg, length_singleton] at hcs
    rw [if_pos hneg, if_pos hneg, put, if_pos (by omega), Option.map_some, reverse_append]
    rfl
  · rw [if_neg hneg, if_neg hneg]
    rfl

/-- Both versions print the shortest numeral, and stay in their array. -/
theorem printint_exact (xx : BitVec 64) (base : Nat) (hbase : base = 10 ∨ base = 16) (sign : Bool) :
    ∃ cs cs', Kernel.printint xx base sign = some (signOf xx sign ++ cs) ∧
      User.printint xx base sign = some (signOf xx sign ++ cs') ∧
      Shortest Kernel.digits base cs (magnitude xx sign) ∧ Shortest User.digits base cs' (magnitude xx sign) ∧
      cs' = cs.map Char.toUpper := by
  obtain ⟨cs, hrun, hprint, hshort⟩ := printWith_shortest Kernel.digits (by decide) rfl xx hbase sign
  obtain ⟨cs', hrun', hprint', hshort'⟩ := printWith_shortest User.digits (by decide) rfl xx hbase sign
  refine ⟨cs.reverse, cs'.reverse, hprint, hprint', hshort, hshort', ?_⟩
  have hupper : User.digits = Kernel.digits.map Char.toUpper := by decide
  rw [hupper, divide_map _ rfl, hrun] at hrun'
  cases hrun'
  rw [map_reverse]

theorem printint_exact_min : (10 = 10 ∨ 10 = 16) ∧ ∃ cs cs',
    Kernel.printint (BitVec.intMin 64) 10 true = some (signOf (BitVec.intMin 64) true ++ cs) ∧
      User.printint (BitVec.intMin 64) 10 true = some (signOf (BitVec.intMin 64) true ++ cs') ∧
      Shortest Kernel.digits 10 cs (magnitude (BitVec.intMin 64) true) ∧
      Shortest User.digits 10 cs' (magnitude (BitVec.intMin 64) true) ∧ cs' = cs.map Char.toUpper :=
  ⟨.inl rfl, printint_exact _ 10 (.inl rfl) true⟩

/-! ## `atoi` -/

/-- The loop of `atoi`; the list ends where the string does, and `none` is an `int` sum that
overflows, which C leaves undefined. -/
def atoiLoop (n : Nat) : List Char → Option Nat
  | [] => some n
  | c :: s =>
    if '0'.toNat ≤ c.toNat ∧ c.toNat ≤ '9'.toNat then
      if n * 10 + c.toNat < 2 ^ 31 then atoiLoop (n * 10 + c.toNat - '0'.toNat) s else none
    else some n

def atoi (s : List Char) : Option Nat := atoiLoop 0 s

theorem le_foldl_digits (cs : List Char) (n : Nat) : n ≤ cs.foldl (fun v c => v * 10 + User.digits.idxOf c) n := by
  induction cs generalizing n with
  | nil => exact Nat.le_refl n
  | cons c cs ih =>
    have hstep : n ≤ n * 10 + User.digits.idxOf c := by omega
    exact Nat.le_trans hstep (ih _)

/-- The sum is taken before `'0'` is subtracted, so that it overflows 48 short of the largest `int`. -/
theorem atoiLoop_digits (cs : List Char) (n : Nat) (hdigits : ∀ c ∈ cs, c ∈ User.digits.take 10)
    (hn : n + 48 < 2 ^ 31) : atoiLoop n cs =
      (some (cs.foldl (fun v c => v * 10 + User.digits.idxOf c) n)).filter (· + 48 < 2 ^ 31) := by
  induction cs generalizing n with
  | nil => exact (if_pos (decide_eq_true hn)).symm
  | cons c cs ih =>
    obtain ⟨hc, hcs⟩ := forall_mem_cons.mp hdigits
    have hdigit : (User.digits.take 10).all fun c =>
        c.toNat = User.digits.idxOf c + 48 ∧ User.digits.idxOf c < 10 := by decide
    obtain ⟨hchar, hlt⟩ := of_decide_eq_true (all_eq_true.mp hdigit c hc)
    rw [atoiLoop, hchar, if_pos ⟨Nat.le_add_left 48 _, Nat.add_le_add_right (Nat.le_of_lt_succ hlt) 48⟩,
      ← Nat.add_assoc, foldl_cons]
    by_cases hfits : n * 10 + User.digits.idxOf c + 48 < 2 ^ 31
    · rw [if_pos hfits, ← ih _ hcs hfits]
      rfl
    · have hle := le_foldl_digits cs (n * 10 + User.digits.idxOf c)
      rw [if_neg hfits, Option.filter_some, if_neg]
      exact fun h => hfits (Nat.lt_of_le_of_lt (Nat.add_le_add_right hle 48) (of_decide_eq_true h))

/-- `atoi` reads back what the user's `printint` prints up to 48 short of the largest `int`, and 0 where there is a
sign. -/
theorem atoi_printint (xx : BitVec 64) (sgn : Bool) : (User.printint xx 10 sgn).bind atoi =
    if sgn && decide (xx.toInt < 0) then some 0 else if xx.toNat + 48 < 2 ^ 31 then some xx.toNat else none := by
  obtain ⟨cs, -, hprint, hshort⟩ := printWith_shortest User.digits (by decide) rfl xx (.inl rfl) sgn
  rw [User.printint, hprint, Option.bind_some, signOf]
  by_cases hneg : (sgn && decide (xx.toInt < 0)) = true
  · rw [if_pos hneg, if_pos hneg]
    rfl
  have hvalue := toNat_magnitude xx sgn
  rw [if_neg hneg] at hvalue
  rw [if_neg hneg, if_neg hneg, nil_append, atoi, atoiLoop_digits _ 0 hshort.1.digit (by decide), hshort.1.value,
    ← hvalue, Option.filter_some]
  simp only [decide_eq_true_eq]

end Xv6.Support
