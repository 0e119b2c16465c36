import Mathlib.Algebra.Order.Ring.Int
import Mathlib.Data.List.TakeWhile
import Mathlib.Tactic.Common

/-!
# `custom_cat`

`cat_file` of `custom_cat.c` reads its input with `fgets`, through an array of 4096 bytes, and prints what it reads as
a C string.  A null byte in the input ends that string early.  Without null bytes the output is the input, with
numbers at the starts of the lines if they are asked for.
-/

namespace Xv6.Cat

open List

variable {room fuel n : Nat} {number atStart : Bool} {b below : UInt8} {input l rest : List UInt8}

def newline : UInt8 := 10

/-- `fgets` where `room` bytes fit besides the null byte: what it reads, and the rest of the input.  It returns NULL
if it reads nothing. -/
def fgets : Nat → List UInt8 → List UInt8 × List UInt8
  | 0, input => ([], input)
  | _ + 1, [] => ([], [])
  | room + 1, b :: input =>
    if b = newline then ([b], input) else (b :: (fgets room input).1, (fgets room input).2)

/-- `printf("%6d\t", n)` -/
def label (n : Int) : List UInt8 :=
  let s := (toString n).toList.map fun c => UInt8.ofNat c.toNat
  List.replicate (6 - s.length) 32 ++ s ++ [9]

/-- `buf[strlen(buf) - 1] == '\n'`, where `below` is the byte in front of `buf`. -/
def endsLine (below : UInt8) (s : List UInt8) : Bool := s.getLast?.getD below == newline

-- Every round reads a byte, so that the length of the input bounds the rounds.
def catLoop (below : UInt8) (numberLines : Bool) : Nat → BitVec 32 → Bool → List UInt8 → List UInt8
  | 0, _, _, _ => []
  | fuel + 1, lineNum, atLineStart, input =>
    let (buf, rest) := fgets 4095 input
    if buf = [] then []
    else
      let s := buf.takeWhile (· ≠ 0)
      if numberLines && atLineStart then
        label lineNum.toInt ++ s ++ catLoop below numberLines fuel (lineNum + 1) (endsLine below s) rest
      else s ++ catLoop below numberLines fuel lineNum (endsLine below s) rest

/-- What `cat_file` prints. -/
def catFile (below : UInt8) (numberLines : Bool) (input : List UInt8) : List UInt8 :=
  catLoop below numberLines input.length 1 true input

/-- The input with the numbers from `n` on at the starts of its lines. -/
def numbered (n : Nat) (atStart : Bool) : List UInt8 → List UInt8
  | [] => []
  | b :: l =>
    if atStart then label n ++ b :: numbered (n + 1) (b == newline) l else b :: numbered n (b == newline) l

theorem fgets_append (room : Nat) (input : List UInt8) : (fgets room input).1 ++ (fgets room input).2 = input := by
  induction room generalizing input with
  | zero => rfl
  | succ room ih =>
    cases input with
    | nil => rfl
    | cons b input =>
      unfold fgets
      by_cases hb : b = newline
      · rw [if_pos hb]
        rfl
      · rw [if_neg hb]
        exact congrArg (b :: ·) (ih input)

theorem fgets_ne_nil (h : input ≠ []) : (fgets (room + 1) input).1 ≠ [] := by
  obtain ⟨b, input, rfl⟩ := exists_cons_of_ne_nil h
  unfold fgets
  split <;> exact cons_ne_nil _ _

theorem endsLine_cons : endsLine below (b :: l) = endsLine b l := by
  unfold endsLine
  rw [getLast?_cons, Option.getD_some]

-- Inside of a line, no number comes before the end of what is read.
theorem numbered_fgets (room : Nat) (hb : b ≠ newline) : numbered n false input =
    (fgets room input).1 ++ numbered n (endsLine b (fgets room input).1) (fgets room input).2 := by
  have hin : ∀ {c : UInt8}, c ≠ newline → (c == newline) = false := beq_eq_false_iff_ne.mpr
  induction room generalizing input b with
  | zero =>
    show numbered n false input = numbered n (b == newline) input
    rw [hin hb]
  | succ room ih =>
    cases input with
    | nil => rfl
    | cons c input =>
      unfold fgets
      by_cases hc : c = newline
      · rw [if_pos hc, hc]
        rfl
      · rw [if_neg hc, endsLine_cons]
        show c :: numbered n (c == newline) input = c :: (_ ++ numbered n _ (fgets room input).2)
        rw [hin hc, ih hc]

theorem numbered_start (n room : Nat) (below : UInt8) (h : input ≠ []) :
    numbered n true input = label n ++ ((fgets (room + 1) input).1 ++
      numbered (n + 1) (endsLine below (fgets (room + 1) input).1) (fgets (room + 1) input).2) := by
  obtain ⟨b, input, rfl⟩ := exists_cons_of_ne_nil h
  unfold fgets
  show label n ++ b :: numbered (n + 1) (b == newline) input = _
  by_cases hb : b = newline
  · rw [if_pos hb, hb]
    rfl
  · rw [if_neg hb, beq_eq_false_iff_ne.mpr hb, numbered_fgets room hb, endsLine_cons]
    rfl

theorem numbered_inside (n room : Nat) (below : UInt8) (h : input ≠ []) :
    numbered n false input = (fgets (room + 1) input).1 ++
      numbered n (endsLine below (fgets (room + 1) input).1) (fgets (room + 1) input).2 := by
  obtain ⟨b, input, rfl⟩ := exists_cons_of_ne_nil h
  have hzero : (0 : UInt8) ≠ newline := by decide
  rw [numbered_fgets (room + 1) hzero]
  unfold fgets
  split <;> rw [endsLine_cons, endsLine_cons]

theorem toInt_lineNum (h : n < 2 ^ 31) : (BitVec.ofNat 32 n).toInt = n := by
  rw [BitVec.toInt_eq_toNat_of_lt] <;> rw [BitVec.toNat_ofNat, Nat.mod_eq_of_lt (by omega)]
  omega

-- What is read ends at the first newline.
theorem count_fgets (room : Nat) (hb : b ≠ newline) :
    (fgets room input).1.count newline = (endsLine b (fgets room input).1).toNat := by
  induction room generalizing input b with
  | zero =>
    show 0 = (b == newline).toNat
    rw [beq_eq_false_iff_ne.mpr hb]
    rfl
  | succ room ih =>
    cases input with
    | nil =>
      show 0 = (b == newline).toNat
      rw [beq_eq_false_iff_ne.mpr hb]
      rfl
    | cons c =>
      unfold fgets
      by_cases hc : c = newline
      · rw [if_pos hc, hc]
        rfl
      · rw [if_neg hc, endsLine_cons, count_cons_of_ne hc, ih hc]

theorem endsLine_append (below : UInt8) {r : List UInt8} (h : l ≠ []) : endsLine b (l ++ r) = endsLine (l.getLast h) r ∧
    endsLine below l = (l.getLast h == newline) := by
  unfold endsLine
  rw [getLast?_append, getLast?_eq_some_getLast h]
  cases r.getLast? <;> exact ⟨rfl, rfl⟩

theorem endsLine_le : (endsLine b l).toNat ≤ (b == newline).toNat + l.count newline := by
  induction l generalizing b with
  | nil => exact Nat.le_add_right _ _
  | cons c l ih =>
    have hle := ih (b := c)
    rw [endsLine_cons, count_cons]
    cases hc : c == newline <;> rw [hc] at hle <;> simp at hle ⊢ <;> omega

theorem label_overflow (s t : List UInt8) : label (BitVec.ofNat 32 (2 ^ 31)).toInt ++ s ≠ label (2 ^ 31 : Nat) ++ t := by
  have hneg : label (BitVec.ofNat 32 (2 ^ 31)).toInt = [45, 50, 49, 52, 55, 52, 56, 51, 54, 52, 56, 9] := by decide
  have hpos : label (2 ^ 31 : Nat) = [50, 49, 52, 55, 52, 56, 51, 54, 52, 56, 9] := by decide
  rw [hneg, hpos]
  intro h
  exact absurd (cons.inj h).1 (by decide)

-- By induction on the rounds: the input that is left is numbered from `n` on, until `line_num` runs over.  `b` is the
-- byte before it.
theorem catLoop_iff (number : Bool) (hfuel : input.length ≤ fuel) (hnul : 0 ∉ input) (hn : n ≤ 2 ^ 31) :
    catLoop below number fuel (BitVec.ofNat 32 n) (b == newline) input =
        (if number then numbered n (b == newline) input else input) ↔
      (number = true → n + (b == newline).toNat + input.count newline ≤ 2 ^ 31 + (endsLine b input).toNat) := by
  have hempty : ∀ {n : Nat} {b : UInt8}, n ≤ 2 ^ 31 →
      n + (b == newline).toNat + ([] : List UInt8).count newline ≤ 2 ^ 31 + (endsLine b []).toNat :=
    fun hn => Nat.add_le_add_right hn _
  induction fuel generalizing input n b with
  | zero =>
    rw [length_eq_zero_iff.mp (Nat.le_zero.mp hfuel)]
    exact ⟨fun _ _ => hempty hn, fun _ => (ite_self []).symm⟩
  | succ fuel ih =>
    unfold catLoop
    by_cases hnil : input = []
    · rw [hnil]
      exact ⟨fun _ _ => hempty hn, fun _ => (ite_self []).symm⟩
    have hbuf := fgets_append 4095 input
    have hread : (fgets 4095 input).1 ≠ [] := fgets_ne_nil hnil
    have hcount := @count_fgets 0 input 4095 (by decide)
    have hstart := numbered_start n 4094 below hnil
    have hinside := numbered_inside n 4094 below hnil
    revert hbuf hread hcount hstart hinside
    show ∀ _ : (fgets 4095 input).1 ++ (fgets 4095 input).2 = input, _
    obtain ⟨buf, rest⟩ := fgets 4095 input
    dsimp only
    intro hbuf hread hcount hstart hinside
    have hpos := length_pos_iff.mpr hread
    obtain ⟨hend, hlast⟩ := endsLine_append (b := b) (r := rest) below hread
    rw [(endsLine_append (b := b) (r := rest) 0 hread).2] at hcount
    rw [← hbuf, length_append] at hfuel
    rw [← hbuf, mem_append, not_or] at hnul
    have hs : buf.takeWhile (· ≠ 0) = buf :=
      takeWhile_eq_self_iff.mpr fun b hb => decide_eq_true fun hzero => hnul.1 (hzero ▸ hb)
    have hnext : BitVec.ofNat 32 n + 1 = BitVec.ofNat 32 (n + 1) := BitVec.ofNat_add_ofNat n 1
    rw [if_neg hread, hs, hnext, hlast]
    rw [hlast] at hstart hinside
    rw [hbuf] at hend
    have hlines : input.count newline = (buf.getLast hread == newline).toNat + rest.count newline := by
      rw [← hbuf, count_append, hcount]
    cases number with
    | false =>
      have hrest := (ih (n := n) (b := buf.getLast hread) (by omega) hnul.2 hn).mpr fun h => absurd h Bool.false_ne_true
      rw [Bool.false_and, if_neg Bool.false_ne_true, if_neg Bool.false_ne_true]
      rw [if_neg Bool.false_ne_true] at hrest
      exact ⟨fun _ h => absurd h Bool.false_ne_true, fun _ => hrest.symm ▸ hbuf⟩
    | true =>
      rw [Bool.true_and, if_pos rfl, hend, hlines]
      cases b == newline with
      | false =>
        have hrest := ih (n := n) (b := buf.getLast hread) (by omega) hnul.2 hn
        simp only [if_true, forall_const] at hrest
        simp only [forall_const]
        rw [if_neg Bool.false_ne_true, hinside, append_cancel_left_eq, Bool.toNat_false, Nat.add_zero, ← Nat.add_assoc]
        exact hrest
      | true =>
        rw [if_pos rfl, hstart]
        obtain hlt | rfl := Nat.lt_or_eq_of_le hn
        · have hrest := ih (n := n + 1) (b := buf.getLast hread) (by omega) hnul.2 hlt
          simp only [if_true, forall_const] at hrest
          simp only [forall_const]
          rw [toInt_lineNum hlt, append_assoc, append_cancel_left_eq, append_cancel_left_eq, Bool.toNat_true, ← Nat.add_assoc]
          exact hrest
        rw [append_assoc]
        have hle := endsLine_le (b := buf.getLast hread) (l := rest)
        refine ⟨fun h => absurd h (label_overflow _ _), fun h => ?_⟩
        have hlines := h rfl
        rw [Bool.toNat_true] at hlines
        omega

theorem label_ne_zero (n : Int) : 0 ∉ label n := by
  have hdigit : ∀ (m : Nat), ∀ c ∈ (Nat.repr m).toList, 45 ≤ c.toNat ∧ c.toNat ≤ 57 := by
    intro m c hc
    rw [Nat.repr, String.toList_ofList] at hc
    have hc := Nat.isDigit_of_mem_toDigits (by decide) (by decide) hc
    simp only [Char.isDigit, Bool.and_eq_true, decide_eq_true_eq, UInt32.le_iff_toNat_le] at hc
    exact ⟨Nat.le_trans (by decide) hc.1, hc.2⟩
  have hchar : ∀ c ∈ (toString n).toList, 45 ≤ c.toNat ∧ c.toNat ≤ 57 := by
    cases n with
    | ofNat m => exact hdigit m
    | negSucc m =>
      intro c hc
      have hc : c ∈ ("-" ++ (m + 1).repr).toList := hc
      rw [String.toList_append, mem_append] at hc
      obtain hc | hc := hc
      · obtain rfl : c = '-' := by simpa using hc
        decide
      · exact hdigit (m + 1) c hc
  simp only [label, mem_append, mem_replicate, mem_map, mem_singleton]
  rintro ((⟨-, h⟩ | ⟨c, hc, h⟩) | h)
  · exact absurd h (by decide)
  · have hc := hchar c hc
    have h := congrArg UInt8.toNat h
    have h : c.toNat % 256 = 0 := h
    omega
  · exact absurd h (by decide)

theorem catLoop_ne_zero (number : Bool) (num : BitVec 32) : 0 ∉ catLoop below number fuel num atStart input := by
  induction fuel generalizing num atStart input with
  | zero => exact not_mem_nil
  | succ fuel ih =>
    have hs : ∀ l : List UInt8, 0 ∉ l.takeWhile (· ≠ 0) := fun l hl => absurd (mem_takeWhile_imp hl) (by decide)
    unfold catLoop
    dsimp only
    split_ifs
    · exact not_mem_nil
    · simp only [mem_append, not_or]
      exact ⟨⟨label_ne_zero _, hs _⟩, ih _⟩
    · simp only [mem_append, not_or]
      exact ⟨hs _, ih _⟩

theorem mem_numbered (h : b ∈ input) : b ∈ numbered n atStart input := by
  induction input generalizing n atStart with
  | nil => cases h
  | cons c input ih =>
    unfold numbered
    obtain rfl | h := mem_cons.mp h
    · split <;> simp
    · split <;> simp [ih h]

/-- Bytes are lost if and only if one of them is a null byte; and the numbers are right if and only if there are fewer than
2^31 lines besides. -/
theorem catFile_copies_iff (below : UInt8) (input : List UInt8) : (catFile below false input = input ↔ 0 ∉ input) ∧
    (catFile below true input = numbered 1 true input ↔
      0 ∉ input ∧ 2 + input.count newline ≤ 2 ^ 31 + (endsLine newline input).toNat) := by
  have hloop : ∀ number, 0 ∉ input → (catFile below number input = (if number then numbered 1 true input else input) ↔ _) :=
    fun number hnul => catLoop_iff (n := 1) (b := newline) number (Nat.le_refl _) hnul (by decide)
  have hclean : ∀ number, 0 ∉ catFile below number input := fun number => catLoop_ne_zero number 1
  refine ⟨⟨fun h => h ▸ hclean false, fun hnul => (hloop false hnul).mpr fun h => absurd h Bool.false_ne_true⟩, fun h => ?_, ?_⟩
  · have hnul : 0 ∉ input := fun hzero => hclean true (h ▸ mem_numbered hzero)
    exact ⟨hnul, (hloop true hnul).mp h rfl⟩
  · rintro ⟨hnul, hlines⟩
    exact (hloop true hnul).mpr fun _ => hlines

/-- `"a\0b\n"` is printed as `"a"`. -/
theorem catFile_drops_bytes : ¬ ∀ below input, catFile below false input = input := by
  intro h
  exact absurd (h 0 [97, 0, 98, newline]) (by decide)

end Xv6.Cat
