import Mathlib.Data.List.TakeWhile
import Xv6.Grep.Match
import Xv6.Lib.Splice

/-!
# The lines that `grep` writes

`grep` of `user/grep.c`: a buffer of 1024 bytes is filled by `read`, its complete lines are matched, and what is left is
moved to its beginning.  `want i` is how many bytes the file has ready at the `i`-th `read`; the call returns no more
than it was asked for, and none only at the end of the input or when none were asked for.
-/

namespace Xv6.Grep

open List Splice

/-! ## The code -/

/-- `sizeof(buf)` -/
def BUFSIZE : Nat := 1024

def newline : UInt8 := '\n'.toUInt8

/-- The offset of the character that is pointed to. -/
def strchr : List UInt8 → UInt8 → Option Nat
  | [], _ => none
  | b :: s, c => if b = 0 then none else if b = c then some 0 else (strchr s c).map (· + 1)

theorem strchr_lt {s : List UInt8} {c : UInt8} {k : Nat} (h : strchr s c = some k) : k < s.length := by
  induction s generalizing k with
  | nil => cases h
  | cons b s ih =>
    rw [strchr] at h
    split at h
    · cases h
    split at h
    · cases h
      exact Nat.succ_pos _
    · obtain ⟨j, hj, rfl⟩ := Option.map_eq_some_iff.mp h
      exact Nat.succ_lt_succ (ih hj)

def read (want n : Nat) (input : List UInt8) : List UInt8 := input.take (min n (max 1 want))

/-- The loop over the lines in the buffer: the buffer and `p` after it, and what it has written. -/
def scanLines (re buf : List UInt8) (p : Nat) (out : List (List UInt8)) : List UInt8 × Nat × List (List UInt8) :=
  match h : strchr (buf.drop p) newline with
  | none => (buf, p, out)
  | some k =>
    let q := p + k
    let cut := buf.set q 0
    if matchText re (cut.drop p) then
      let back := cut.set q newline
      scanLines re back (q + 1) (out ++ [(back.drop p).take (q + 1 - p)])
    else scanLines re cut (q + 1) out
termination_by buf.length - p
decreasing_by
  all_goals
    have hlt := strchr_lt h
    rw [List.length_drop] at hlt
    simp only [List.length_set]
    omega

def grepLoop (re : List UInt8) (want : Nat → Nat) (i : Nat) (input buf : List UInt8) (m : Nat)
    (out : List (List UInt8)) : List (List UInt8) :=
  let got := read (want i) (BUFSIZE - m - 1) input
  if got = [] then out
  else
    let buf := overwrite buf m got
    let m := m + got.length
    let buf := buf.set m 0
    let (buf, p, out) := scanLines re buf 0 out
    if m > 0 then
      grepLoop re want (i + 1) (input.drop got.length) (overwrite buf 0 ((buf.drop p).take (m - p))) (m - p) out
    else grepLoop re want (i + 1) (input.drop got.length) buf m out
termination_by input.length
decreasing_by
  all_goals
    have hpos : 0 < got.length := List.length_pos_iff.mpr ‹¬ got = []›
    have hle : got.length ≤ input.length := List.length_take_le' _ _
    rw [List.length_drop]
    show input.length - got.length < input.length
    omega

def grep (re : List UInt8) (want : Nat → Nat) (input : List UInt8) : List (List UInt8) :=
  grepLoop re want 0 input (List.replicate BUFSIZE 0) 0 []

/-! ## Lines -/

/-- The lines of a text without their newlines, and what comes after the last newline. -/
def lines : List UInt8 → List (List UInt8) × List UInt8
  | [] => ([], [])
  | b :: s =>
    if b = newline then ([] :: (lines s).1, (lines s).2)
    else match (lines s).1 with
      | [] => ([], b :: (lines s).2)
      | l :: ls => ((b :: l) :: ls, (lines s).2)

def written (re : List UInt8) (ls : List (List UInt8)) : List (List UInt8) :=
  (ls.filter fun l => matchText re l).map (· ++ [newline])

/-- Every line of the input that matches, a last one without newline too. -/
def selected (re input : List UInt8) : List (List UInt8) :=
  written re (lines input).1 ++
    if (lines input).2 ≠ [] ∧ matchText re (lines input).2 then [(lines input).2] else []

section Lines

variable {s l : List UInt8}

theorem lines_of_notMem (h : newline ∉ s) : lines s = ([], s) := by
  induction s with
  | nil => rfl
  | cons b s ih =>
    have hb : b ≠ newline := fun hb => h (hb ▸ mem_cons_self)
    rw [lines, if_neg hb, ih fun hs => h (mem_cons_of_mem b hs)]

theorem lines_append (h : newline ∉ l) : lines (l ++ newline :: s) = (l :: (lines s).1, (lines s).2) := by
  induction l with
  | nil => rw [nil_append, lines, if_pos rfl]
  | cons b l ih =>
    have hb : b ≠ newline := fun hb => h (hb ▸ mem_cons_self)
    rw [cons_append, lines, if_neg hb, ih fun hl => h (mem_cons_of_mem b hl)]

theorem newline_cases (s : List UInt8) : newline ∉ s ∨ ∃ l rest, s = l ++ newline :: rest ∧ newline ∉ l := by
  by_cases h : newline ∈ s
  · exact .inr (eq_append_cons_of_mem h)
  · exact .inl h

theorem newline_induction {P : List UInt8 → Prop} (hnone : ∀ s, newline ∉ s → P s)
    (hline : ∀ l rest, newline ∉ l → P rest → P (l ++ newline :: rest)) (s : List UInt8) : P s := by
  induction hn : s.length using Nat.strong_induction_on generalizing s with
  | _ n ih =>
    obtain hs | ⟨l, rest, rfl, hl⟩ := newline_cases s
    · exact hnone s hs
    have hlen : rest.length < n := by
      rw [← hn, length_append, length_cons]
      omega
    exact hline l rest hl (ih _ hlen rest rfl)

theorem lines_pieces (s t : List UInt8) :
    lines (s ++ t) = ((lines s).1 ++ (lines ((lines s).2 ++ t)).1, (lines ((lines s).2 ++ t)).2) := by
  induction s using newline_induction with
  | hnone s hs =>
    rw [lines_of_notMem hs]
    rfl
  | hline l rest hl ih =>
    rw [append_assoc, cons_append, lines_append hl, lines_append hl, ih]
    rfl

theorem lines_join (s : List UInt8) : ((lines s).1.map (· ++ [newline])).flatten ++ (lines s).2 = s := by
  induction s using newline_induction with
  | hnone s hs =>
    rw [lines_of_notMem hs]
    rfl
  | hline l rest hl ih =>
    rw [lines_append hl, map_cons, flatten_cons, append_assoc, ih, append_assoc]
    rfl

theorem notMem_lines (s : List UInt8) : newline ∉ (lines s).2 := by
  induction s using newline_induction with
  | hnone s hs =>
    rw [lines_of_notMem hs]
    exact hs
  | hline l rest hl ih =>
    rw [lines_append hl]
    exact ih

theorem lines_suffix (s : List UInt8) : (lines s).2 <:+ s := ⟨_, lines_join s⟩

theorem length_lt_of_mem_lines (h : l ∈ (lines s).1) : l.length < s.length := by
  have hsub : (l ++ [newline]).Sublist s := by
    have hflat := sublist_flatten_of_mem (mem_map_of_mem (f := (· ++ [newline])) h)
    rw [← lines_join s]
    exact hflat.trans (sublist_append_left ..)
  have hle := hsub.length_le
  rw [length_append, length_singleton] at hle
  exact hle

end Lines

/-! ## The loop over the lines -/

theorem strchr_none {s : List UInt8} (h : newline ∉ s) (after : List UInt8) : strchr (s ++ 0 :: after) newline = none := by
  induction s with
  | nil => rfl
  | cons b s ih =>
    have hb : b ≠ newline := fun hb => h (hb ▸ mem_cons_self)
    rw [cons_append, strchr, ih fun hs => h (mem_cons_of_mem b hs), if_neg hb]
    split <;> rfl

theorem strchr_some {l : List UInt8} (h0 : 0 ∉ l) (h : newline ∉ l) (after : List UInt8) :
    strchr (l ++ newline :: after) newline = some l.length := by
  induction l with
  | nil => rfl
  | cons b l ih =>
    have hb : b ≠ newline := fun hb => h (hb ▸ mem_cons_self)
    have hb0 : b ≠ 0 := fun hb => h0 (hb ▸ mem_cons_self)
    rw [cons_append, strchr, if_neg hb0, if_neg hb, ih (fun hs => h0 (mem_cons_of_mem b hs))
      fun hs => h (mem_cons_of_mem b hs)]
    rfl

theorem drop_set_add (buf : List UInt8) (p k : Nat) (c : UInt8) : (buf.set (p + k) c).drop p = (buf.drop p).set k c := by
  rw [drop_set, if_neg (by omega), Nat.add_sub_cancel_left]

theorem set_length_append (l after : List UInt8) (b c : UInt8) : (l ++ b :: after).set l.length c = l ++ c :: after := by
  rw [set_append_right _ _ (Nat.le_refl _), Nat.sub_self]
  rfl

theorem scanLines_eq (re : List UInt8) {text : List UInt8} (after : List UInt8) {buf : List UInt8} {p : Nat}
    (out : List (List UInt8)) (h0 : 0 ∉ text) (hbuf : buf.drop p = text ++ 0 :: after) :
    ∃ buf', scanLines re buf p out =
        (buf', p + (text.length - (lines text).2.length), out ++ written re (lines text).1) ∧
      buf'.length = buf.length ∧
      buf'.drop (p + (text.length - (lines text).2.length)) = (lines text).2 ++ 0 :: after := by
  induction hn : text.length using Nat.strong_induction_on generalizing text buf p out with
  | _ n ih =>
    subst hn
    obtain hnone | ⟨l, rest, rfl, hl⟩ := newline_cases text
    · refine ⟨buf, ?_, rfl, ?_⟩
      · rw [scanLines, hbuf, strchr_none hnone, lines_of_notMem hnone, Nat.sub_self]
        simp only [Nat.add_zero, written, filter_nil, map_nil, append_nil]
      · rw [lines_of_notMem hnone, Nat.sub_self, Nat.add_zero, hbuf]
    have h0l : 0 ∉ l := fun h => h0 (mem_append_left _ h)
    have h0rest : 0 ∉ rest := fun h => h0 (mem_append_right _ (mem_cons_of_mem _ h))
    have hlen : rest.length < (l ++ newline :: rest).length := by
      rw [length_append, length_cons]
      omega
    have hshort := (lines_suffix rest).length_le
    rw [append_assoc, cons_append] at hbuf
    -- The buffer from `p` on, with the NUL in the place of the newline and with the newline back.
    have hcut : (buf.set (p + l.length) 0).drop p = l ++ 0 :: (rest ++ 0 :: after) := by
      rw [drop_set_add, hbuf, set_length_append]
    have hback : ((buf.set (p + l.length) 0).set (p + l.length) newline).drop p =
        l ++ newline :: (rest ++ 0 :: after) := by
      rw [drop_set_add, hcut, set_length_append]
    have hmatch : matchText re (l ++ 0 :: (rest ++ 0 :: after)) = matchText re l := by
      apply matchText_congr
      rw [cstring_terminated h0l, cstring_self h0l]
    have hend : p + ((l ++ newline :: rest).length - (lines rest).2.length) =
        p + l.length + 1 + (rest.length - (lines rest).2.length) := by
      rw [length_append, length_cons]
      omega
    have hnext : ∀ {buf' : List UInt8} {c : UInt8}, buf'.drop p = l ++ c :: (rest ++ 0 :: after) →
        buf'.drop (p + l.length + 1) = rest ++ 0 :: after := by
      intro buf' c h
      rw [Nat.add_assoc, ← drop_drop, h, ← drop_drop, drop_left]
      rfl
    rw [scanLines, hbuf, strchr_some h0l hl]
    simp only [hcut, hback, hmatch, lines_append hl, hend]
    by_cases hsel : matchText re l = true
    · obtain ⟨buf', hrun, hlength, hdrop⟩ := ih _ hlen
        (out ++ [(l ++ newline :: (rest ++ 0 :: after)).take (p + l.length + 1 - p)]) h0rest (hnext hback) rfl
      refine ⟨buf', ?_, by rw [hlength, length_set, length_set], hdrop⟩
      have htake : (l ++ newline :: (rest ++ 0 :: after)).take (p + l.length + 1 - p) = l ++ [newline] := by
        rw [show p + l.length + 1 - p = l.length + 1 by omega, take_length_add_append]
        rfl
      rw [if_pos hsel, hrun, htake, written, written, filter_cons_of_pos hsel, map_cons, append_assoc]
      rfl
    · obtain ⟨buf', hrun, hlength, hdrop⟩ := ih _ hlen out h0rest (hnext hcut) rfl
      refine ⟨buf', ?_, by rw [hlength, length_set], hdrop⟩
      rw [if_neg hsel, hrun, written, written, filter_cons_of_neg hsel]

/-! ## The loop over the reads -/

theorem overwrite_read {buf got : List UInt8} {m : Nat} (h : m + got.length < buf.length) :
    (overwrite buf m got).set (m + got.length) 0 = buf.take m ++ got ++ 0 :: buf.drop (m + got.length + 1) := by
  have hlen : (buf.take m ++ got).length = m + got.length := by
    rw [length_append, length_take, Nat.min_eq_left (by omega)]
  have hset := set_length_append (buf.take m ++ got) (buf.drop (m + got.length + 1)) buf[m + got.length] 0
  rw [hlen] at hset
  rw [overwrite, drop_eq_getElem_cons h, hset]

/-- A round: the lines of what was left over and what was read are handled, and the rest is moved to the beginning. -/
theorem grepLoop_round (re : List UInt8) (want : Nat → Nat) (i : Nat) {input buf got : List UInt8} {m : Nat}
    (out : List (List UInt8)) (hread : read (want i) (BUFSIZE - m - 1) input = got) (hgot : got ≠ [])
    (h0 : 0 ∉ buf.take m ++ got) (hbuf : buf.length = BUFSIZE) (hm : m < BUFSIZE) :
    ∃ buf', grepLoop re want i input buf m out =
        grepLoop re want (i + 1) (input.drop got.length) buf' (lines (buf.take m ++ got)).2.length
          (out ++ written re (lines (buf.take m ++ got)).1) ∧
      buf'.length = BUFSIZE ∧ buf'.take (lines (buf.take m ++ got)).2.length = (lines (buf.take m ++ got)).2 := by
  have hcount : got.length ≤ BUFSIZE - m - 1 := by
    rw [← hread, read, length_take]
    omega
  have hpos : 0 < got.length := length_pos_iff.mpr hgot
  have hlength : (buf.take m ++ got).length = m + got.length := by
    rw [length_append, length_take, Nat.min_eq_left (by omega)]
  have hfilled : ((overwrite buf m got).set (m + got.length) 0).drop 0 =
      buf.take m ++ got ++ 0 :: buf.drop (m + got.length + 1) := overwrite_read (by omega)
  obtain ⟨buf', hscan, hbuf', hdrop⟩ := scanLines_eq re _ out h0 hfilled
  have hleft := (lines_suffix (buf.take m ++ got)).length_le
  rw [length_set, length_overwrite (by omega)] at hbuf'
  rw [grepLoop, hread, if_neg hgot]
  generalize lines (buf.take m ++ got) = parts at hscan hdrop hleft ⊢
  rw [hlength, Nat.zero_add] at hscan hdrop
  have hkept : m + got.length - (m + got.length - parts.2.length) = parts.2.length := by omega
  refine ⟨overwrite buf' 0 parts.2, ?_, ?_, ?_⟩
  · simp only [hscan]
    rw [if_pos (by omega), hkept, hdrop, take_left]
  · rw [length_overwrite (Nat.zero_le _)]
    omega
  · rw [overwrite, take_zero, nil_append, take_left]

/-- The lines up to the first that the buffer is too small for are handled: with a full buffer `grep` asks for nothing. -/
theorem grepLoop_eq (re : List UInt8) (want : Nat → Nat) (i : Nat) {input buf : List UInt8} {m : Nat}
    (out : List (List UInt8)) (h0 : 0 ∉ buf.take m ++ input) (hnl : newline ∉ buf.take m) (hbuf : buf.length = BUFSIZE)
    (hm : m < BUFSIZE) : grepLoop re want i input buf m out =
      out ++ written re ((lines (buf.take m ++ input)).1.takeWhile fun l => l.length + 1 < BUFSIZE) := by
  induction hn : input.length using Nat.strong_induction_on generalizing input buf m i out with
  | _ n ih =>
    subst hn
    have hrest : (buf.take m).length = m := by
      rw [length_take, Nat.min_eq_left (by omega)]
    by_cases hgot : read (want i) (BUFSIZE - m - 1) input = []
    · have hnone : (lines (buf.take m ++ input)).1.takeWhile (fun l => l.length + 1 < BUFSIZE) = [] := by
        obtain hcount | hinput := take_eq_nil_iff.mp hgot
        · -- The buffer is full of one line.
          have hfull : m + 1 = BUFSIZE := by omega
          obtain hin | ⟨l, rest, rfl, hl⟩ := newline_cases input
          · rw [lines_of_notMem fun h => (mem_append.mp h).elim hnl hin]
            rfl
          rw [← append_assoc, lines_append fun h => (mem_append.mp h).elim hnl hl]
          apply takeWhile_cons_of_neg
          rw [length_append, hrest]
          simp only [decide_eq_true_eq]
          omega
        · rw [hinput, append_nil, lines_of_notMem hnl]
          rfl
      rw [grepLoop, if_pos hgot, hnone]
      exact (append_nil out).symm
    generalize hread : read (want i) (BUFSIZE - m - 1) input = got at hgot
    have hpos : 0 < got.length := length_pos_iff.mpr hgot
    have hcount : got.length ≤ BUFSIZE - m - 1 ∧ got.length ≤ input.length := by
      rw [← hread, read, length_take]
      omega
    have hinput : got ++ input.drop got.length = input := by
      have htake : input.take got.length = got := by
        rw [← hread, read, length_take, take_eq_take_iff]
        omega
      rw [← htake, length_take, Nat.min_eq_left hcount.2, take_append_drop]
    rw [← hinput, ← append_assoc] at h0
    have htext : 0 ∉ buf.take m ++ got := fun h => h0 (mem_append_left _ h)
    have hshort : (buf.take m ++ got).length < BUFSIZE := by
      rw [length_append, hrest]
      omega
    have hsuffix := lines_suffix (buf.take m ++ got)
    have hsplit := lines_pieces (buf.take m ++ got) (input.drop got.length)
    obtain ⟨buf', hround, hbuf', hmoved⟩ := grepLoop_round re want i out hread hgot htext hbuf hm
    rw [append_assoc, hinput] at hsplit
    have hfit : ∀ l ∈ (lines (buf.take m ++ got)).1, decide (l.length + 1 < BUFSIZE) = true := by
      intro l hl
      have hlt := length_lt_of_mem_lines hl
      rw [decide_eq_true_eq]
      omega
    rw [hround, ih (input.drop got.length).length (by rw [length_drop]; omega) (i + 1) _ ?_
      (hmoved.symm ▸ notMem_lines _) hbuf' (lt_of_le_of_lt hsuffix.length_le hshort) rfl, hmoved, hsplit]
    · rw [takeWhile_append_of_pos hfit, written, written, written, filter_append, map_append,
        append_assoc]
    rw [hmoved]
    intro h
    obtain hleft | hlater := mem_append.mp h
    · exact htext (hsuffix.subset hleft)
    · exact h0 (mem_append_right _ hlater)

theorem grep_eq (re : List UInt8) (want : Nat → Nat) {input : List UInt8} (h0 : 0 ∉ input) :
    grep re want input = written re ((lines input).1.takeWhile fun l => l.length + 1 < BUFSIZE) := by
  unfold grep
  rw [grepLoop_eq re want 0 [] (by rwa [take_zero]) (by rw [take_zero]; exact not_mem_nil)
    (length_replicate ..) (by decide)]
  rfl

theorem written_eq_nil {re : List UInt8} {ls : List (List UInt8)} : written re ls = [] ↔ ∀ l ∈ ls, matchText re l = false := by
  simp only [written, map_eq_nil_iff, filter_eq_nil_iff, Bool.not_eq_true]

/-- The lines that match are written if and only if none of them comes from the first one on that does not fit the buffer
with its newline, and none is a last line without newline. -/
theorem grep_selects_iff (re : List UInt8) (want : Nat → Nat) {input : List UInt8} (h0 : 0 ∉ input) :
    grep re want input = selected re input ↔
      (∀ l ∈ (lines input).1.dropWhile fun l => l.length + 1 < BUFSIZE, matchText re l = false) ∧
        ((lines input).2 = [] ∨ matchText re (lines input).2 = false) := by
  have hsplit : written re (lines input).1 = written re ((lines input).1.takeWhile fun l => l.length + 1 < BUFSIZE) ++
      written re ((lines input).1.dropWhile fun l => l.length + 1 < BUFSIZE) := by
    conv_lhs => rw [← takeWhile_append_dropWhile (p := fun l => decide (l.length + 1 < BUFSIZE)) (l := (lines input).1)]
    rw [written, filter_append, map_append]
    rfl
  rw [grep_eq re want h0, selected, hsplit, append_assoc, self_eq_append_right, append_eq_nil_iff, written_eq_nil]
  refine and_congr_right fun _ => ?_
  rw [ite_eq_right_iff, ← Bool.not_eq_true, or_iff_not_imp_left]
  simp

theorem grep_selects_iff_a : grep [97] (fun _ => 1) [97, newline, 98, newline] = selected [97] [97, newline, 98, newline] :=
  (grep_selects_iff [97] (fun _ => 1) (by decide)).mpr ⟨by decide, .inl (by decide)⟩

theorem matchText_nil (text : List UInt8) : matchText [] text = true := by
  rw [matchText, if_neg (by decide), matchAnywhere, if_pos]
  rw [matchhere, if_pos (show byteAt [] 0 = 0 from rfl)]

/-- The empty pattern matches every line, but a last line without newline is not written; and of two lines, the first of
1023 characters, neither is. -/
theorem grep_loses_lines : (grep [] (fun _ => 1) [97] = [] ∧ selected [] [97] = [[97]]) ∧
      (grep [] (fun _ => 512) (List.replicate 1023 97 ++ [newline, 98, newline]) = [] ∧
        selected [] (List.replicate 1023 97 ++ [newline, 98, newline]) =
          [List.replicate 1023 97 ++ [newline], [98, newline]]) := by
  have hlong : lines (replicate 1023 97 ++ [newline, 98, newline]) = ([replicate 1023 97, [98]], []) :=
    lines_append fun h => absurd (eq_of_mem_replicate h) (by decide)
  refine ⟨⟨?_, ?_⟩, ?_, ?_⟩
  · rw [grep_eq _ _ (by decide)]
    rfl
  · rw [selected, if_pos ⟨by decide, matchText_nil _⟩]
    rfl
  · rw [grep_eq, hlong, takeWhile_cons_of_neg]
    · rfl
    · rw [length_replicate]
      decide
    intro h
    obtain h | h := mem_append.mp h
    · exact absurd (eq_of_mem_replicate h) (by decide)
    · exact absurd h (by decide)
  · rw [selected, hlong, if_neg fun h => h.1 rfl, written, filter_cons_of_pos (matchText_nil _),
      filter_cons_of_pos (matchText_nil _)]
    rfl

end Xv6.Grep
