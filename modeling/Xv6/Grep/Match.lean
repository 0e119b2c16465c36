import Mathlib.Computability.Language

/-!
# The regular expressions of `grep`

`match`, `matchhere` and `matchstar` of `user/grep.c`.  A pointer into a string is the list of the bytes from it on;
the string ends at the first NUL, or where the list does.  What a pattern means is said apart from the code, as a
language for each of its elements.
-/

namespace Xv6.Grep

open List

/-! ## The code -/

def byteAt (s : List UInt8) (i : Nat) : UInt8 := s.getD i 0

theorem lt_length_of_byteAt {s : List UInt8} {i : Nat} (h : byteAt s i ≠ 0) : i < s.length := by
  by_contra hout
  unfold byteAt at h
  rw [getD_eq_getElem?_getD, getElem?_eq_none (Nat.le_of_not_lt hout)] at h
  exact h rfl

mutual

def matchhere (re text : List UInt8) : Bool :=
  if byteAt re 0 = 0 then true
  else if byteAt re 1 = '*'.toUInt8 then matchstar (byteAt re 0) (re.drop 2) text
  else if byteAt re 0 = '$'.toUInt8 ∧ byteAt re 1 = 0 then byteAt text 0 = 0
  else if byteAt text 0 ≠ 0 ∧ (byteAt re 0 = '.'.toUInt8 ∨ byteAt re 0 = byteAt text 0) then
    matchhere (re.drop 1) (text.drop 1)
  else false
termination_by (re.length + text.length, 0)
decreasing_by
  · rename_i h
    have hlen : 1 < re.length := lt_length_of_byteAt (by rw [h]; decide)
    apply Prod.Lex.left
    rw [List.length_drop]
    omega
  rename_i h
  have hlen := lt_length_of_byteAt h.1
  apply Prod.Lex.left
  rw [List.length_drop, List.length_drop]
  omega

/-- The loop goes on as a call. -/
def matchstar (c : UInt8) (re text : List UInt8) : Bool :=
  if matchhere re text then true
  else if byteAt text 0 ≠ 0 ∧ (byteAt text 0 = c ∨ c = '.'.toUInt8) then matchstar c re (text.drop 1)
  else false
termination_by (re.length + text.length, 1)
decreasing_by
  · exact Prod.Lex.right _ Nat.one_pos
  rename_i h
  have hlen := lt_length_of_byteAt h.1
  apply Prod.Lex.left
  rw [List.length_drop]
  omega

end

/-- The loop of `match`. -/
def matchAnywhere (re text : List UInt8) : Bool :=
  if matchhere re text then true
  else if byteAt text 0 ≠ 0 then matchAnywhere re (text.drop 1)
  else false
termination_by text.length
decreasing_by
  rename_i h
  have hlen := lt_length_of_byteAt h
  rw [List.length_drop]
  omega

/-- `match` -/
def matchText (re text : List UInt8) : Bool :=
  if byteAt re 0 = '^'.toUInt8 then matchhere (re.drop 1) text else matchAnywhere re text

/-! ## What a pattern means -/

inductive Element where
  | one (c : UInt8)
  | star (c : UInt8)
  deriving DecidableEq, Repr

/-- The character `c` of a pattern stands for `x`. -/
def Accepts (c x : UInt8) : Prop := c = '.'.toUInt8 ∨ c = x

def Element.language : Element → Language UInt8
  | one c => {w | ∃ x, w = [x] ∧ Accepts c x}
  | star c => KStar.kstar ({w | ∃ x, w = [x] ∧ Accepts c x} : Language UInt8)

/-- The elements of a pattern after its initial `^`, and whether it ends in an anchor. -/
def elements : List UInt8 → List Element × Bool
  | [] => ([], false)
  | [c] => if c = '$'.toUInt8 then ([], true) else ([.one c], false)
  | c :: d :: re =>
    if d = '*'.toUInt8 then
      let rest := elements re
      (.star c :: rest.1, rest.2)
    else
      let rest := elements (d :: re)
      (.one c :: rest.1, rest.2)

structure Pattern where
  anchored : Bool
  elements : List Element
  atEnd : Bool
  deriving DecidableEq, Repr

def pattern : List UInt8 → Pattern
  | [] => ⟨false, [], false⟩
  | c :: re =>
    if c = '^'.toUInt8 then ⟨true, (elements re).1, (elements re).2⟩
    else ⟨false, (elements (c :: re)).1, (elements (c :: re)).2⟩

def Pattern.language (p : Pattern) : Language UInt8 := (p.elements.map Element.language).prod

/-- Some part of the text is in the language of the pattern, and stands where its anchors want it. -/
def Pattern.Matches (p : Pattern) (text : List UInt8) : Prop :=
  ∃ before found after, text = before ++ found ++ after ∧ found ∈ p.language ∧
    (p.anchored → before = []) ∧ (p.atEnd → after = [])

/-- The string that a pointer points to. -/
def cstring (s : List UInt8) : List UInt8 := s.takeWhile (· ≠ 0)

/-! ## Strings -/

section Strings

variable {s : List UInt8}

theorem cstring_of_end (h : byteAt s 0 = 0) : cstring s = [] := by
  cases s with
  | nil => rfl
  | cons c =>
    have hc : c = 0 := h
    subst hc
    rfl

theorem cstring_of_ne (h : byteAt s 0 ≠ 0) : cstring s = byteAt s 0 :: cstring (s.drop 1) := by
  cases s with
  | nil => exact absurd rfl h
  | cons c =>
    have hc : c ≠ 0 := h
    unfold cstring
    rw [takeWhile_cons_of_pos (by simpa using hc)]
    rfl

theorem cstring_eq_nil : cstring s = [] ↔ byteAt s 0 = 0 := by
  constructor
  · intro h
    by_contra hne
    rw [cstring_of_ne hne] at h
    cases h
  · exact cstring_of_end

theorem cstring_self (h : 0 ∉ s) : cstring s = s := by
  induction s with
  | nil => rfl
  | cons c s ih =>
    have hc : byteAt (c :: s) 0 ≠ 0 := fun hc => h (hc ▸ mem_cons_self)
    rw [cstring_of_ne hc]
    exact congrArg (c :: ·) (ih fun hs => h (mem_cons_of_mem c hs))

theorem cstring_terminated (h : 0 ∉ s) (after : List UInt8) : cstring (s ++ 0 :: after) = s := by
  have hself := cstring_self h
  unfold cstring at hself ⊢
  rw [takeWhile_append, hself, if_pos rfl]
  exact append_nil s

theorem byteAt_drop (i j : Nat) : byteAt (s.drop i) j = byteAt s (i + j) := by
  unfold byteAt
  rw [getD_eq_getElem?_getD, getD_eq_getElem?_getD, getElem?_drop]

end Strings

/-! ## Elements one by one -/

def Starts (p : List Element × Bool) (text : List UInt8) : Prop :=
  ∃ found after, text = found ++ after ∧ found ∈ (p.1.map Element.language).prod ∧ (p.2 → after = [])

section Starts

variable {es : List Element} {e : Bool} {c : UInt8} {text : List UInt8}

theorem starts_nil : Starts ([], false) text := ⟨[], text, rfl, Language.nil_mem_one, fun h => nomatch h⟩

theorem starts_end : Starts ([], true) text ↔ text = [] := by
  constructor
  · rintro ⟨found, after, htext, hfound, hafter⟩
    have hnil : found = [] := (Language.mem_one found).mp hfound
    rw [htext, hnil, hafter rfl]
    rfl
  · intro h
    exact ⟨[], [], h, Language.nil_mem_one, fun _ => rfl⟩

theorem starts_cons {a : Element} :
    Starts (a :: es, e) text ↔ ∃ u v, text = u ++ v ∧ u ∈ a.language ∧ Starts (es, e) v := by
  constructor
  · rintro ⟨found, after, htext, hfound, hafter⟩
    rw [map_cons, prod_cons, Language.mem_mul] at hfound
    obtain ⟨u, hu, v, hv, rfl⟩ := hfound
    exact ⟨u, v ++ after, by rw [htext, append_assoc], hu, v, after, rfl, hv, hafter⟩
  rintro ⟨u, v, htext, hu, found, after, hv, hfound, hafter⟩
  refine ⟨u ++ found, after, by rw [htext, hv, append_assoc], ?_, hafter⟩
  rw [map_cons, prod_cons]
  exact Language.append_mem_mul hu hfound

theorem starts_one :
    Starts (.one c :: es, e) text ↔ ∃ x rest, text = x :: rest ∧ Accepts c x ∧ Starts (es, e) rest := by
  rw [starts_cons]
  constructor
  · rintro ⟨u, v, htext, ⟨x, rfl, hx⟩, hv⟩
    exact ⟨x, v, htext, hx, hv⟩
  · rintro ⟨x, rest, htext, hx, hrest⟩
    exact ⟨[x], rest, htext, ⟨x, rfl, hx⟩, hrest⟩

theorem mem_language_star {w : List UInt8} : w ∈ (Element.star c).language ↔ ∀ x ∈ w, Accepts c x := by
  constructor
  · rintro ⟨parts, rfl, hparts⟩ x hx
    obtain ⟨part, hpart, hmem⟩ := mem_flatten.mp hx
    obtain ⟨y, rfl, hy⟩ := hparts part hpart
    rw [mem_singleton.mp hmem]
    exact hy
  intro h
  refine ⟨w.map fun x => [x], ?_, ?_⟩
  · induction w with
    | nil => rfl
    | cons x w ih => rw [map_cons, flatten_cons, ← ih fun y hy => h y (mem_cons_of_mem x hy)]; rfl
  · intro part hpart
    obtain ⟨x, hx, rfl⟩ := mem_map.mp hpart
    exact ⟨x, rfl, h x hx⟩

theorem starts_star : Starts (.star c :: es, e) text ↔
    ∃ u v, text = u ++ v ∧ (∀ x ∈ u, Accepts c x) ∧ Starts (es, e) v := by
  rw [starts_cons]
  simp only [mem_language_star]

end Starts

/-! ## The code finds what the pattern means -/

theorem matchstar_iff {p : List Element × Bool} {re : List UInt8}
    (hrest : ∀ text, matchhere re text = true ↔ Starts p (cstring text)) (c : UInt8) (text : List UInt8) :
    matchstar c re text = true ↔ ∃ u v, cstring text = u ++ v ∧ (∀ x ∈ u, Accepts c x) ∧ Starts p v := by
  induction hn : text.length using Nat.strong_induction_on generalizing text with
  | _ n ih =>
    subst hn
    rw [matchstar]
    by_cases hhere : matchhere re text = true
    · simp only [hhere, if_true, true_iff]
      exact ⟨[], cstring text, rfl, fun _ hx => (nomatch hx), (hrest text).mp hhere⟩
    rw [if_neg hhere]
    have hstop : ∀ v, cstring text = [] ++ v → ¬ Starts p v := by
      rintro v rfl hv
      exact hhere ((hrest text).mpr hv)
    by_cases hgo : byteAt text 0 ≠ 0 ∧ (byteAt text 0 = c ∨ c = '.'.toUInt8)
    · have hlen := lt_length_of_byteAt hgo.1
      rw [if_pos hgo, ih _ (by rw [length_drop]; omega) (text.drop 1) rfl, cstring_of_ne hgo.1]
      constructor
      · rintro ⟨u, v, huv, hu, hv⟩
        refine ⟨byteAt text 0 :: u, v, by rw [huv]; rfl, ?_, hv⟩
        rintro x (_ | ⟨_, hx⟩)
        · exact hgo.2.symm.imp_right Eq.symm
        · exact hu x hx
      rintro ⟨u, v, huv, hu, hv⟩
      cases u with
      | nil => exact absurd hv (hstop v (by rw [cstring_of_ne hgo.1, huv]))
      | cons x u =>
        rw [cons_append, cons.injEq] at huv
        exact ⟨u, v, huv.2, fun y hy => hu y (mem_cons_of_mem x hy), hv⟩
    rw [if_neg hgo]
    simp only [Bool.false_eq_true, false_iff]
    rintro ⟨u, v, huv, hu, hv⟩
    cases u with
    | nil => exact hstop v huv hv
    | cons x =>
      -- The first character would have to be one that the loop goes on with.
      have hne : byteAt text 0 ≠ 0 := fun h => by
        rw [cstring_of_end h] at huv
        cases huv
      rw [cstring_of_ne hne, cons_append, cons.injEq] at huv
      have hx := hu x mem_cons_self
      rw [← huv.1] at hx
      exact hgo ⟨hne, hx.symm.imp_left Eq.symm⟩

theorem one_iff {p : List Element × Bool} {re : List UInt8} {c : UInt8}
    (hrest : ∀ text, matchhere re text = true ↔ Starts p (cstring text)) (text : List UInt8) :
    (if byteAt text 0 ≠ 0 ∧ (c = '.'.toUInt8 ∨ c = byteAt text 0) then matchhere re (text.drop 1) else false) = true ↔
      Starts (.one c :: p.1, p.2) (cstring text) := by
  rw [starts_one]
  by_cases hne : byteAt text 0 = 0
  · rw [if_neg fun h => h.1 hne, cstring_of_end hne]
    simp only [Bool.false_eq_true, false_iff]
    rintro ⟨x, rest, h, -⟩
    cases h
  rw [cstring_of_ne hne]
  by_cases hc : c = '.'.toUInt8 ∨ c = byteAt text 0
  · rw [if_pos ⟨hne, hc⟩, hrest]
    constructor
    · intro h
      exact ⟨_, _, rfl, hc, h⟩
    rintro ⟨x, rest, h, -, hstarts⟩
    rw [cons.injEq] at h
    rw [h.2]
    exact hstarts
  rw [if_neg fun h => hc h.2]
  simp only [Bool.false_eq_true, false_iff]
  rintro ⟨x, rest, h, hx, -⟩
  rw [cons.injEq] at h
  rw [← h.1] at hx
  exact hc hx

theorem matchhere_iff (re text : List UInt8) :
    matchhere re text = true ↔ Starts (elements (cstring re)) (cstring text) := by
  -- By the length of the pattern: each branch of the code goes on with a shorter one, at any text.
  induction hn : re.length using Nat.strong_induction_on generalizing re text with
  | _ n ih =>
    subst hn
    rw [matchhere]
    by_cases h0 : byteAt re 0 = 0
    · rw [if_pos h0, cstring_of_end h0]
      exact ⟨fun _ => starts_nil, fun _ => rfl⟩
    have hlen := lt_length_of_byteAt h0
    rw [if_neg h0, cstring_of_ne h0]
    have hdrop : byteAt (re.drop 1) 0 = byteAt re 1 := byteAt_drop 1 0
    have hone := one_iff (c := byteAt re 0) (fun text => ih (re.drop 1).length (by rw [length_drop]; omega)
      (re.drop 1) text rfl) text
    by_cases h1 : byteAt re 1 = 0
    · rw [cstring_of_end (hdrop.trans h1)] at hone ⊢
      rw [if_neg (by rw [h1]; decide)]
      by_cases hend : byteAt re 0 = '$'.toUInt8
      · rw [if_pos ⟨hend, h1⟩, elements, if_pos hend, starts_end, decide_eq_true_eq, cstring_eq_nil]
      · rw [if_neg fun h => hend h.1, elements, if_neg hend, hone]
        rfl
    rw [cstring_of_ne (hdrop ▸ h1), hdrop, drop_drop]
    by_cases hstar : byteAt re 1 = '*'.toUInt8
    · rw [if_pos hstar, matchstar_iff (fun text => ih (re.drop 2).length (by rw [length_drop]; omega)
        (re.drop 2) text rfl), elements, if_pos hstar]
      exact starts_star.symm
    · rw [if_neg hstar, if_neg fun h => h1 h.2, hone, elements, if_neg hstar, cstring_of_ne (hdrop ▸ h1), hdrop,
        drop_drop]

theorem matchAnywhere_iff (re text : List UInt8) : matchAnywhere re text = true ↔
    ∃ before rest, cstring text = before ++ rest ∧ Starts (elements (cstring re)) rest := by
  induction hn : text.length using Nat.strong_induction_on generalizing text with
  | _ n ih =>
    subst hn
    rw [matchAnywhere]
    by_cases hhere : matchhere re text = true
    · simp only [hhere, if_true, true_iff]
      exact ⟨[], cstring text, rfl, (matchhere_iff re text).mp hhere⟩
    rw [if_neg hhere]
    have hstop : ∀ rest, cstring text = [] ++ rest → ¬ Starts (elements (cstring re)) rest := by
      rintro rest rfl h
      exact hhere ((matchhere_iff re text).mpr h)
    by_cases hne : byteAt text 0 = 0
    · rw [if_neg (not_not.mpr hne)]
      simp only [Bool.false_eq_true, false_iff]
      rintro ⟨before, rest, hsplit, hrest⟩
      rw [cstring_of_end hne] at hsplit
      have hnil : before = [] ∧ rest = [] := append_eq_nil_iff.mp hsplit.symm
      exact hstop rest (by rw [cstring_of_end hne, hnil.2]; rfl) hrest
    have hlen := lt_length_of_byteAt hne
    rw [if_pos hne, ih _ (by rw [length_drop]; omega) (text.drop 1) rfl, cstring_of_ne hne]
    constructor
    · rintro ⟨before, rest, hsplit, hrest⟩
      exact ⟨byteAt text 0 :: before, rest, by rw [hsplit]; rfl, hrest⟩
    rintro ⟨before, rest, hsplit, hrest⟩
    cases before with
    | nil => exact absurd hrest (hstop rest (by rw [cstring_of_ne hne, hsplit]))
    | cons x before =>
      rw [cons_append, cons.injEq] at hsplit
      exact ⟨before, rest, hsplit.2, hrest⟩

theorem matches_iff (anchored : Bool) (es : List Element × Bool) (text : List UInt8) :
    (⟨anchored, es.1, es.2⟩ : Pattern).Matches text ↔
      ∃ before rest, text = before ++ rest ∧ Starts es rest ∧ (anchored → before = []) := by
  constructor
  · rintro ⟨before, found, after, rfl, hfound, hbefore, hafter⟩
    exact ⟨before, found ++ after, append_assoc .., ⟨found, after, rfl, hfound, hafter⟩, hbefore⟩
  · rintro ⟨before, rest, rfl, ⟨found, after, rfl, hfound, hafter⟩, hbefore⟩
    exact ⟨before, found, after, (append_assoc ..).symm, hfound, hbefore, hafter⟩

theorem matchText_eq_true (re text : List UInt8) :
    matchText re text = true ↔ (pattern (cstring re)).Matches (cstring text) := by
  have hplain : (⟨false, (elements (cstring re)).1, (elements (cstring re)).2⟩ : Pattern).Matches (cstring text) ↔
      matchAnywhere re text = true := by
    rw [matches_iff, matchAnywhere_iff]
    simp only [Bool.false_eq_true, false_implies, and_true]
  unfold matchText
  by_cases h0 : byteAt re 0 = 0
  · rw [if_neg (by rw [h0]; decide), ← hplain, cstring_of_end h0]
    rfl
  by_cases hcaret : byteAt re 0 = '^'.toUInt8
  · rw [if_pos hcaret, cstring_of_ne h0, pattern, if_pos hcaret, matches_iff, matchhere_iff]
    simp only [forall_const]
    constructor
    · intro h
      exact ⟨[], _, rfl, h, rfl⟩
    · rintro ⟨before, rest, hsplit, hrest, rfl⟩
      rw [hsplit]
      exact hrest
  · rw [if_neg hcaret, ← hplain, cstring_of_ne h0, pattern, if_neg hcaret]

theorem matchText_congr (re : List UInt8) {text text' : List UInt8} (h : cstring text = cstring text') :
    matchText re text = matchText re text' := by
  rw [Bool.eq_iff_iff, matchText_eq_true, matchText_eq_true, h]

/-- `match` says whether the text has a part that the pattern stands for. -/
theorem matchText_correct {re text : List UInt8} (after after' : List UInt8) (hre : 0 ∉ re) (htext : 0 ∉ text) :
    matchText (re ++ 0 :: after) (text ++ 0 :: after') = true ↔ (pattern re).Matches text := by
  rw [matchText_eq_true, cstring_terminated hre, cstring_terminated htext]

theorem matchText_correct_ab : matchText ([97, 42, 98] ++ 0 :: []) ([99, 98] ++ 0 :: [1]) = true ↔
    (pattern [97, 42, 98]).Matches [99, 98] :=
  matchText_correct [] [1] (by decide) (by decide)

-- A `*` with nothing before it stands for itself.
example : pattern (['^', '*', 'a', '$'].map Char.toUInt8) = ⟨true, [.one '*'.toUInt8, .one 'a'.toUInt8], true⟩ := by decide

end Xv6.Grep
