import Mathlib.Data.List.DropRight
import Mathlib.Data.List.Forall2
import Xv6.Sh.Grammar

/-!
# The parser and its grammar

The cursor stands before a list of tokens, and `peek` and `gettoken` are operations on that list.  That the parser
only accepts sentences is an induction on its bound; that it accepts all of them, an induction on the derivation,
with one token of lookahead.
-/

namespace Xv6.Sh

open Function Hoare List

-- The list is looked through, and not all bytes that there are.
local instance (priority := high) decidableOfList (p : UInt8 → Prop) [DecidablePred p] (l : List UInt8) :
    Decidable (∀ c ∈ l, p c) :=
  List.decidableBAll p l

variable {inp : List UInt8} {s : Nat} {ts : List Token}

/-! ## The cursor -/

theorem byteAt_eq (s : Nat) : byteAt inp s = (inp.drop s).head?.getD 0 := by
  rw [byteAt, getD_eq_getElem?_getD, head?_drop]

theorem scan_eq (p : UInt8 → Bool) (n s : Nat) (h : inp.length - s ≤ n) :
    scan inp p n s = s + ((inp.drop s).takeWhile p).length := by
  induction n generalizing s with
  | zero =>
    rw [drop_eq_nil_of_le (by omega)]
    rfl
  | succ n ih =>
    by_cases hs : s < inp.length
    · have hdrop : inp.drop s = inp[s] :: inp.drop (s + 1) := drop_eq_getElem_cons hs
      have hbyte : byteAt inp s = inp[s] := by rw [byteAt_eq, hdrop]; rfl
      rw [scan, hbyte, hdrop, takeWhile_cons]
      by_cases hp : p inp[s]
      · rw [if_pos ⟨hs, hp⟩, if_pos hp, ih (s + 1) (by omega), length_cons]
        omega
      · rw [if_neg fun hboth => hp hboth.2, if_neg hp]
        rfl
    · rw [scan, if_neg fun hboth => hs hboth.1, drop_eq_nil_of_le (by omega)]
      rfl

theorem drop_add_takeWhile (p : UInt8 → Bool) (l : List UInt8) : l.drop (l.takeWhile p).length = l.dropWhile p := by
  have hsplit : (l.takeWhile p ++ l.dropWhile p).drop (l.takeWhile p).length = l.dropWhile p := drop_left
  rwa [takeWhile_append_dropWhile] at hsplit

theorem drop_skipSpace (s : Nat) : inp.drop (skipSpace inp s) = (inp.drop s).dropWhile (strchr whitespace) := by
  rw [skipSpace, scan_eq _ _ _ (Nat.le_refl _), ← drop_drop, drop_add_takeWhile]

/-- The cursor stands before the tokens `ts`, in a string. -/
structure At (inp : List UInt8) (s : Nat) (ts : List Token) : Prop where
  nul : ∀ c ∈ inp, c ≠ 0
  le : s ≤ inp.length
  tokens : lex (inp.drop s) = ts

theorem lex_nil {l : List UInt8} (h : nextToken (l.dropWhile (strchr whitespace)) = none) : lex l = [] := by
  rw [lex]
  split
  · rfl
  · rename_i heq
    rw [h] at heq
    cases heq

variable {t : Token} {toks l rest : List UInt8} {c : UInt8}

theorem lex_cons (h : nextToken (l.dropWhile (strchr whitespace)) = some (t, rest)) : lex l = t :: lex rest := by
  rw [lex]
  split
  · rename_i heq
    rw [h] at heq
    cases heq
  rename_i heq
  rw [h] at heq
  cases heq
  rfl

theorem lex_dropWhile (l : List UInt8) : lex (l.dropWhile (strchr whitespace)) = lex l := by
  cases h : nextToken (l.dropWhile (strchr whitespace)) with
  | none => rw [lex_nil h, lex_nil (by rw [dropWhile_idempotent]; exact h)]
  | some => rw [lex_cons h, lex_cons (by rw [dropWhile_idempotent]; exact h)]

theorem add_takeWhile_le (p : UInt8 → Bool) (h : s ≤ inp.length) : s + ((inp.drop s).takeWhile p).length ≤ inp.length := by
  have hle := ( takeWhile_prefix p (l := inp.drop s)).length_le
  rw [length_drop] at hle
  omega

theorem At.space (h : At inp s ts) : At inp (skipSpace inp s) ts where
  nul := h.nul
  le := by
    rw [skipSpace, scan_eq _ _ _ (Nat.le_refl _)]
    exact add_takeWhile_le _ h.le
  tokens := by
    rw [drop_skipSpace, lex_dropWhile]
    exact h.tokens

/-! ## Tokens -/

def Token.code : Token → UInt8
  | .word _ => ch 'a'
  | .bar => ch '|'
  | .amp => ch '&'
  | .semi => ch ';'
  | .lparen => ch '('
  | .rparen => ch ')'
  | .less => ch '<'
  | .greater => ch '>'
  | .append => ch '+'

/-- The first character of a token that is not a word: what `peek` looks at. -/
def Token.lead : Token → Option UInt8
  | .word _ => none
  | .append => some (ch '>')
  | t => some t.code

def startsWith (ts : List Token) (toks : List UInt8) : Bool := ts.head?.any (·.lead.any (strchr toks))

/-- The span of a word is as long as it can be. -/
structure IsWord (inp : List UInt8) (span : Span) (w : List UInt8) : Prop where
  text : w = (inp.drop span.1).takeWhile plain
  stop : span.2 = span.1 + w.length

theorem symbolToken_code (h : symbolToken c = some t) : t.code = c ∧ t.lead = some c ∧ ∀ w, t ≠ .word w := by
  unfold symbolToken at h
  split_ifs at h with h₁ h₂ h₃ h₄ h₅ h₆
  all_goals
    cases h
    subst c
    exact ⟨rfl, rfl, nofun⟩

theorem symbolToken_eq_none (hgt : c ≠ ch '>') : symbolToken c = none ↔ strchr symbols c = false := by
  unfold symbolToken
  simp only [strchr, symbols, contains_cons, contains_nil, Bool.or_false, Bool.or_eq_false_iff, beq_eq_false_iff_ne]
  split_ifs with h₁ h₂ h₃ h₄ h₅ h₆
  all_goals simp_all

theorem token_eq {q : Nat} (hl : inp.drop q = c :: l) (hc : c ≠ 0)
    (hspace : strchr whitespace c = false) (hnext : nextToken (c :: l) = some (t, rest)) :
    (token inp q).1 = t.code ∧ (token inp q).2 ≤ inp.length ∧ inp.drop (token inp q).2 = rest ∧
      ∀ w, t = .word w → IsWord inp (q, (token inp q).2) w := by
  have hlt : ∀ {x : Nat} {d : UInt8} {l' : List UInt8}, inp.drop x = d :: l' → x < inp.length := by
    intro x d l' hx
    by_contra hle
    rw [drop_eq_nil_of_le (Nat.not_lt.1 hle)] at hx
    cases hx
  have hq := hlt hl
  have hbyte : byteAt inp q = c := by rw [byteAt_eq, hl]; rfl
  have hdrop : inp.drop (q + 1) = l := by rw [← drop_drop, hl]; rfl
  simp only [nextToken] at hnext
  simp only [token, hbyte]
  rw [if_neg hc]
  by_cases hgt : c = ch '>'
  · rw [if_pos hgt] at hnext ⊢
    have hnextByte : byteAt inp (q + 1) = l.head?.getD 0 := by rw [byteAt_eq, hdrop]
    cases l with
    | nil =>
      cases hnext
      rw [if_neg (by rw [hnextByte]; decide)]
      exact ⟨hgt, hq, hdrop, fun w hw => by cases hw⟩
    | cons d =>
      have hbyte' : byteAt inp (q + 1) = d := hnextByte
      by_cases hd : d = ch '>'
      · simp only [hd, if_true] at hnext
        cases hnext
        rw [if_pos (by rw [hbyte', hd])]
        refine ⟨rfl, hlt hdrop, ?_, fun w hw => by cases hw⟩
        rw [← drop_drop, hdrop]
        rfl
      simp only [hd, if_false] at hnext
      cases hnext
      rw [if_neg (by rw [hbyte']; exact hd)]
      exact ⟨hgt, hq, hdrop, fun w hw => by cases hw⟩
  rw [if_neg hgt] at hnext ⊢
  cases hsym : symbolToken c with
  | some =>
    simp only [hsym] at hnext
    cases hnext
    obtain ⟨hcode, -, hword⟩ := symbolToken_code hsym
    have hchr : strchr symbols c = true := by
      rw [← Bool.not_eq_false, ← symbolToken_eq_none hgt, hsym]
      exact Option.some_ne_none _
    rw [if_pos hchr]
    exact ⟨hcode.symm, hq, hdrop, fun w hw => absurd hw (hword w)⟩
  | none =>
    simp only [hsym] at hnext
    cases hnext
    have hchr : strchr symbols c = false := (symbolToken_eq_none hgt).1 hsym
    have hplain : plain c = true := by rw [plain, hspace, hchr]; rfl
    have htake : (inp.drop q).takeWhile plain = c :: l.takeWhile plain := by
      rw [hl, takeWhile_cons, if_pos hplain]
    have hskip : skipWord inp q = q + (c :: l.takeWhile plain).length := by
      rw [← htake]
      exact scan_eq _ _ _ (Nat.le_refl _)
    rw [if_neg (by rw [hchr]; decide)]
    refine ⟨rfl, ?_, ?_, ?_⟩
    · rw [hskip, ← htake]
      exact add_takeWhile_le plain (Nat.le_of_lt hq)
    · rw [hskip, ← drop_drop, hl, length_cons, drop_succ_cons, drop_add_takeWhile]
    · intro w hw
      cases hw
      exact ⟨htake.symm, hskip⟩

theorem lead_any
    (hnext : nextToken (c :: l) = some (t, rest)) (htoks : ∀ x ∈ toks, x ∈ symbols) :
    t.lead.any (strchr toks) = strchr toks c := by
  simp only [nextToken] at hnext
  by_cases hgt : c = ch '>'
  · rw [if_pos hgt] at hnext
    rw [hgt]
    split at hnext
    · cases hnext
      rfl
    split at hnext
    all_goals
      cases hnext
      rfl
  rw [if_neg hgt] at hnext
  cases hsym : symbolToken c with
  | some =>
    simp only [hsym] at hnext
    cases hnext
    rw [(symbolToken_code hsym).2.1]
    rfl
  | none =>
    simp only [hsym] at hnext
    cases hnext
    have hnot := (symbolToken_eq_none hgt).1 hsym
    show false = strchr toks c
    symm
    simp only [strchr, ← Bool.not_eq_true, contains_iff_mem] at hnot ⊢
    exact fun hmem => hnot (htoks c hmem)

theorem nextToken_isSome (c : UInt8) (l : List UInt8) : ∃ t rest, nextToken (c :: l) = some (t, rest) := by
  simp only [nextToken]
  split
  · split
    · exact ⟨_, _, rfl⟩
    · split <;> exact ⟨_, _, rfl⟩
  · split <;> exact ⟨_, _, rfl⟩

theorem At.next (h : At inp s ts) : (inp.drop (skipSpace inp s) = [] ∧ ts = []) ∨
      ∃ c l t rest, inp.drop (skipSpace inp s) = c :: l ∧ c ≠ 0 ∧ strchr whitespace c = false ∧
        nextToken (c :: l) = some (t, rest) ∧ ts = t :: lex rest := by
  have hdrop : inp.drop (skipSpace inp s) = (inp.drop s).dropWhile (strchr whitespace) := drop_skipSpace s
  cases hl : (inp.drop s).dropWhile (strchr whitespace) with
  | nil =>
    refine .inl ⟨hdrop.trans hl, ?_⟩
    rw [← h.tokens]
    exact lex_nil (by rw [hl]; rfl)
  | cons c l =>
    obtain ⟨t, rest, hnext⟩ := nextToken_isSome c l
    refine .inr ⟨c, l, t, rest, hdrop.trans hl, ?_, ?_, hnext, ?_⟩
    · have hmem : c ∈ (inp.drop s).dropWhile (strchr whitespace) := by rw [hl]; exact mem_cons_self
      exact h.nul c (mem_of_mem_drop ((dropWhile_suffix _).subset hmem))
    · have hhead := head?_dropWhile_not (strchr whitespace) (inp.drop s)
      rw [hl] at hhead
      exact hhead
    · rw [← h.tokens]
      exact lex_cons (by rw [hl]; exact hnext)

theorem peek_at (h : At inp s ts) (toks : List UInt8) (htoks : ∀ c ∈ toks, c ∈ symbols := by decide) :
    ∃ s', peek inp toks s = .ok (startsWith ts toks, s') ∧ At inp s' ts := by
  refine ⟨skipSpace inp s, ?_, h.space⟩
  show Except.ok (_, _) = Except.ok (_, _)
  congr 2
  rw [byteAt_eq]
  rcases h.next with ⟨hdrop, rfl⟩ | ⟨c, l, t, rest, hdrop, hc, -, hnext, rfl⟩
  · rw [hdrop]
    rfl
  · rw [hdrop]
    show (decide (c ≠ 0) && strchr toks c) = t.lead.any (strchr toks)
    rw [decide_eq_true hc, Bool.true_and, lead_any hnext htoks]

theorem peek_is (h : At inp s ts) (toks : List UInt8) (b : Bool) (hb : startsWith ts toks = b)
    (htoks : ∀ c ∈ toks, c ∈ symbols := by decide) : ∃ s', peek inp toks s = .ok (b, s') ∧ At inp s' ts := by
  rw [← hb]
  exact peek_at h toks htoks

theorem gettoken_eq (inp : List UInt8) (s : Nat) :
    gettoken inp s = .ok (((token inp (skipSpace inp s)).1, (skipSpace inp s, (token inp (skipSpace inp s)).2)),
      skipSpace inp (token inp (skipSpace inp s)).2) := rfl

theorem gettoken_nil (h : At inp s []) :
    ∃ span s', gettoken inp s = .ok ((0, span), s') ∧ At inp s' [] := by
  rcases h.next with ⟨hdrop, -⟩ | ⟨c, l, t, rest, -, -, -, -, hts⟩
  · have hbyte : byteAt inp (skipSpace inp s) = 0 := by rw [byteAt_eq, hdrop]; rfl
    have htoken : token inp (skipSpace inp s) = (0, skipSpace inp s) := by
      simp only [token, hbyte, if_true]
    have hrun := gettoken_eq inp s
    rw [htoken] at hrun
    exact ⟨_, _, hrun, h.space.space⟩
  · cases hts

theorem gettoken_cons (h : At inp s (t :: ts)) :
    ∃ span s', gettoken inp s = .ok ((t.code, span), s') ∧ At inp s' ts ∧ ∀ w, t = .word w → IsWord inp span w := by
  rcases h.next with ⟨-, ⟨⟩⟩ | ⟨c, l, t, rest, hdrop, hc, hspace, hnext, hts⟩
  cases hts
  obtain ⟨hcode, hle, hrest, hword⟩ := token_eq hdrop hc hspace hnext
  have hat : At inp (token inp (skipSpace inp s)).2 (lex rest) := ⟨h.nul, hle, by rw [hrest]⟩
  have hrun := gettoken_eq inp s
  rw [hcode] at hrun
  exact ⟨_, _, hrun, hat.space, hword⟩

/-! ## Lookahead -/

theorem startsWith_iff : startsWith ts toks = true ↔ ∃ t ts' c, ts = t :: ts' ∧ t.lead = some c ∧ c ∈ toks := by
  cases ts with
  | nil => simp [startsWith]
  | cons t =>
    cases hlead : t.lead with
    | none => simp [startsWith, hlead]
    | some => simp [startsWith, hlead, strchr]

theorem eq_cons_of_startsWith (h : startsWith ts [t.code] = true)
    (ht : t = .bar ∨ t = .amp ∨ t = .semi ∨ t = .lparen ∨ t = .rparen) : ∃ ts', ts = t :: ts' := by
  obtain ⟨u, ts', c, rfl, hlead, hc⟩ := startsWith_iff.1 h
  rw [mem_singleton.1 hc] at hlead
  refine ⟨ts', ?_⟩
  rcases ht with rfl | rfl | rfl | rfl | rfl
  all_goals
    cases u
    all_goals first | rfl | exact absurd hlead (by decide) | exact absurd hlead nofun

theorem not_startsWith {toks toks' : List UInt8} (h : ts = [] ∨ startsWith ts toks = true)
    (hne : ∀ c ∈ toks, c ∉ toks' := by decide) : startsWith ts toks' = false := by
  rw [← Bool.not_eq_true, startsWith_iff]
  rintro ⟨t, ts', c, rfl, hlead, hc⟩
  rcases h with h | h
  · cases h
  obtain ⟨u, us, c', ⟨⟩, hlead', hc'⟩ := startsWith_iff.1 h
  rw [hlead] at hlead'
  cases hlead'
  exact hne c hc' hc

theorem startsWith_redir : startsWith ts [ch '<', ch '>'] = true ↔
    ∃ t ts' mode fd, ts = t :: ts' ∧ t.redir = some (mode, fd) := by
  rw [startsWith_iff]
  constructor
  · rintro ⟨t, ts', c, rfl, hlead, hc⟩
    cases t with
    | less | greater | append => exact ⟨_, _, _, _, rfl, rfl⟩
    | word => cases hlead
    | _ =>
      cases hlead
      exact absurd hc (by decide)
  rintro ⟨t, ts', mode, fd, rfl, hredir⟩
  cases t with
  | less | greater | append => exact ⟨_, _, _, rfl, rfl, by decide⟩
  | _ => cases hredir

theorem code_eq_word : t.code = ch 'a' ↔ ∃ w, t = .word w := by
  constructor
  · intro h
    cases t with
    | word w => exact ⟨w, rfl⟩
    | _ => exact absurd h (by decide)
  · rintro ⟨w, rfl⟩
    rfl

theorem code_ne_zero (t : Token) : t.code ≠ 0 := by
  cases t with
  | word =>
    show ch 'a' ≠ 0
    decide
  | _ => decide

/-! ## Trees -/

/-- The command that the code has built is this tree, with pointers for the words. -/
inductive Built (inp : List UInt8) : Cmd Span → Tree → Prop
  | exec {argv : List Span} {ws : List (List UInt8)} : List.Forall₂ (IsWord inp) argv ws → Built inp (.exec argv) (.exec ws)
  | redir {cmd : Cmd Span} {tree : Tree} {span : Span} {w : List UInt8} {mode fd : Nat} : Built inp cmd tree →
      IsWord inp span w → Built inp (.redir cmd span mode fd) (.redir tree w mode fd)
  | pipe {left right : Cmd Span} {tree tree' : Tree} : Built inp left tree → Built inp right tree' →
      Built inp (.pipe left right) (.pipe tree tree')
  | list {left right : Cmd Span} {tree tree' : Tree} : Built inp left tree → Built inp right tree' →
      Built inp (.list left right) (.list tree tree')
  | back {cmd : Cmd Span} {tree : Tree} : Built inp cmd tree → Built inp (.back cmd) (.back tree)

section Built

variable {cmd : Cmd Span} {tree : Tree} {span : Span} {w : List UInt8}

theorem Built.redircmd {mode fd : Nat} (h : Built inp cmd tree) (ht : t.redir = some (mode, fd))
    (hw : IsWord inp span w) : Built inp (redircmd cmd t.code span) (.redir tree w mode fd) := by
  cases t with
  | less | greater | append =>
    cases ht
    exact .redir h hw
  | _ => cases ht

theorem wrap_snoc (tree : Tree) (fs : List Redir) (f : Redir) :
    wrap tree (fs ++ [f]) = .redir (wrap tree fs) f.file f.mode f.fd := by
  rw [wrap, foldl_append]
  rfl

theorem wrap_append (tree : Tree) (fs fs' : List Redir) : wrap tree (fs ++ fs') = wrap (wrap tree fs) fs' :=
  foldl_append

theorem Built.pushArg {ws : List (List UInt8)} {fs : List Redir} (h : Built inp cmd (wrap (.exec ws) fs))
    (hw : IsWord inp span w) : Built inp (cmd.pushArg span) (wrap (.exec (ws ++ [w])) fs) := by
  induction fs using reverseRecOn generalizing cmd with
  | nil =>
    change Built inp cmd (.exec ws) at h
    cases h with
    | exec hargs => exact .exec (rel_append hargs (.cons hw .nil))
  | append_singleton fs f ih =>
    rw [wrap_snoc] at h ⊢
    cases h with
    | redir hcmd hfile => exact .redir (ih hcmd) hfile

end Built

/-! ## The parser accepts only sentences -/

/-- A routine has taken `ts₁` and built a command for it, or it has panicked. -/
def Outcome (inp : List UInt8) (Q : List Token → Cmd Span → Prop) (ts : List Token) : Except Err (Cmd Span × Nat) → Prop
  | .ok (cmd, s') => ∃ ts₁ ts₂, ts = ts₁ ++ ts₂ ∧ At inp s' ts₂ ∧ Q ts₁ cmd
  | .error e => ∃ msg, e = .panic msg

section Outcome

variable {Q Q' : List Token → Cmd Span → Prop} {m : Parse (Cmd Span)} {f : Cmd Span → Parse (Cmd Span)}

theorem Outcome.before (h : Outcome inp Q ts (m s)) (ts₀ : List Token)
    (hf : ∀ ts₁ ts₂ cmd s', ts = ts₁ ++ ts₂ → At inp s' ts₂ → Q ts₁ cmd → Outcome inp Q' (ts₀ ++ ts) (f cmd s')) :
    Outcome inp Q' (ts₀ ++ ts) ((m >>= f) s) := by
  show Outcome inp Q' (ts₀ ++ ts) (m s >>= fun r => f r.1 r.2)
  cases hm : m s with
  | error =>
    rw [hm] at h
    exact h
  | ok r =>
    rw [hm] at h
    obtain ⟨ts₁, ts₂, hts, hat, hq⟩ := h
    exact hf ts₁ ts₂ r.1 r.2 hts hat hq

theorem Outcome.after {r : Except Err (Cmd Span × Nat)} {ts₂ : List Token} (h : Outcome inp Q ts₂ r) (ts₁ : List Token)
    (hq : ∀ ts' cmd, Q ts' cmd → Q' (ts₁ ++ ts') cmd) : Outcome inp Q' (ts₁ ++ ts₂) r := by
  cases r with
  | error => exact h
  | ok r =>
    obtain ⟨ts', ts'', rfl, hat, hcmd⟩ := h
    exact ⟨ts₁ ++ ts', ts'', (append_assoc ..).symm, hat, hq ts' r.1 hcmd⟩

theorem Outcome.done {cmd : Cmd Span} (h : At inp s ts) (hq : Q [] cmd) : Outcome inp Q ts (.ok (cmd, s)) :=
  ⟨[], ts, rfl, h, hq⟩

end Outcome

section Sound

variable {n : Nat} {cmd : Cmd Span} {tree : Tree}

theorem parseredirs_sound (h : At inp s ts) (hn : ts.length + 1 ≤ n) (hcmd : Built inp cmd tree) :
    Outcome inp (fun ts₁ cmd' => ∃ fs, Redirs ts₁ fs ∧ Built inp cmd' (wrap tree fs)) ts (parseredirs inp n cmd s) := by
  induction n generalizing s ts cmd tree with
  | zero => omega
  | succ n ih =>
    rw [parseredirs]
    obtain ⟨s₁, hpeek, h₁⟩ := peek_at h [ch '<', ch '>']
    rw [bind_of_ok hpeek]
    by_cases hstart : startsWith ts [ch '<', ch '>'] = true
    · rw [if_pos hstart]
      obtain ⟨t, ts', mode, fd, rfl, hredir⟩ := startsWith_redir.1 hstart
      obtain ⟨span, s₂, htok, h₂, -⟩ := gettoken_cons h₁
      rw [bind_of_ok htok]
      cases ts' with
      | nil =>
        obtain ⟨file, s₃, hfile, -⟩ := gettoken_nil h₂
        rw [bind_of_ok hfile, if_pos (show (0 : UInt8) ≠ ch 'a' by decide)]
        exact ⟨_, rfl⟩
      | cons u ts' =>
        obtain ⟨file, s₃, hfile, h₃, hword⟩ := gettoken_cons h₂
        rw [bind_of_ok hfile]
        by_cases hcode : u.code = ch 'a'
        · obtain ⟨w, rfl⟩ := code_eq_word.1 hcode
          rw [if_neg (not_not.2 hcode)]
          have hlen : ts'.length + 1 ≤ n := by
            simp only [length_cons] at hn
            omega
          refine (ih h₃ hlen (hcmd.redircmd hredir (hword w rfl))).after [t, .word w] ?_
          rintro ts₁ cmd' ⟨fs, hfs, hbuilt⟩
          exact ⟨_, .cons hredir hfs, hbuilt⟩
        · rw [if_pos hcode]
          exact ⟨_, rfl⟩
    · rw [if_neg hstart]
      exact .done h₁ ⟨[], .nil, hcmd⟩

theorem parseargs_sound {argc : Nat} {ws : List (List UInt8)} {fs : List Redir} (h : At inp s ts)
    (hn : ts.length + 1 ≤ n) (hargc : argc = ws.length) (hlt : ws.length < MAXARGS)
    (hcmd : Built inp cmd (wrap (.exec ws) fs)) :
    Outcome inp (fun ts₁ cmd' => ∃ ws' fs', Args ts₁ ws' fs' ∧ (ws ++ ws').length < MAXARGS ∧
      Built inp cmd' (wrap (.exec (ws ++ ws')) (fs ++ fs'))) ts (parseargs inp n argc cmd s) := by
  induction n generalizing s ts cmd argc ws fs with
  | zero => omega
  | succ n ih =>
    rw [parseargs]
    obtain ⟨s₁, hpeek, h₁⟩ := peek_at h [ch '|', ch ')', ch '&', ch ';']
    rw [bind_of_ok hpeek]
    have hnil : Built inp cmd (wrap (.exec (ws ++ [])) (fs ++ [])) := by
      rw [append_nil, append_nil]
      exact hcmd
    have hlen : (ws ++ []).length < MAXARGS := by
      rw [append_nil]
      exact hlt
    by_cases hstop : startsWith ts [ch '|', ch ')', ch '&', ch ';'] = true
    · rw [if_pos hstop]
      exact .done h₁ ⟨[], [], .nil, hlen, hnil⟩
    rw [if_neg hstop]
    cases ts with
    | nil =>
      obtain ⟨span, s₂, htok, h₂⟩ := gettoken_nil h₁
      rw [bind_of_ok htok, if_pos rfl]
      exact .done h₂ ⟨[], [], .nil, hlen, hnil⟩
    | cons t ts' =>
      obtain ⟨span, s₂, htok, h₂, hword⟩ := gettoken_cons h₁
      rw [bind_of_ok htok, if_neg (code_ne_zero t)]
      by_cases hcode : t.code = ch 'a'
      · obtain ⟨w, rfl⟩ := code_eq_word.1 hcode
        rw [if_neg (not_not.2 hcode)]
        by_cases hmany : argc + 1 ≥ MAXARGS
        · rw [if_pos hmany]
          exact ⟨_, rfl⟩
        rw [if_neg hmany]
        have hn' : ts'.length + 1 ≤ n := by
          rw [length_cons] at hn
          omega
        refine (parseredirs_sound h₂ hn' (hcmd.pushArg (hword w rfl))).before [.word w] ?_
        rintro rs ts₂ cmd₁ s₃ rfl h₃ ⟨fs₁, hrs, hcmd₁⟩
        rw [← wrap_append] at hcmd₁
        have hn₂ : ts₂.length + 1 ≤ n := by
          rw [length_append] at hn'
          omega
        have hargc' : argc + 1 = (ws ++ [w]).length := by
          rw [hargc, length_append, length_singleton]
        have hout := ih h₃ hn₂ hargc' (by rw [← hargc']; omega) hcmd₁
        refine hout.after (.word w :: rs) ?_
        rintro ts₃ cmd₂ ⟨ws₂, fs₂, hargs, hlt₂, hcmd₂⟩
        rw [append_assoc ws, append_assoc fs] at hcmd₂
        rw [append_assoc] at hlt₂
        exact ⟨w :: ws₂, fs₁ ++ fs₂, .cons hrs hargs, hlt₂, hcmd₂⟩
      · rw [if_pos hcode]
        exact ⟨_, rfl⟩

theorem parseback_sound (h : At inp s ts) (hn : ts.length + 1 ≤ n) (hcmd : Built inp cmd tree) :
    Outcome inp (fun ts₁ cmd' => ∃ k, ts₁ = List.replicate k .amp ∧ Built inp cmd' (backs tree k)) ts
      (parseback inp n cmd s) := by
  induction n generalizing s ts cmd tree with
  | zero => omega
  | succ n ih =>
    rw [parseback]
    obtain ⟨s₁, hpeek, h₁⟩ := peek_at h [ch '&']
    rw [bind_of_ok hpeek]
    by_cases hamp : startsWith ts [ch '&'] = true
    · rw [if_pos hamp]
      obtain ⟨ts', rfl⟩ := eq_cons_of_startsWith (t := .amp) hamp (by simp)
      obtain ⟨span, s₂, htok, h₂, -⟩ := gettoken_cons h₁
      rw [bind_of_ok htok]
      have hn' : ts'.length + 1 ≤ n := by
        rw [length_cons] at hn
        omega
      refine (ih h₂ hn' hcmd.back).after [.amp] ?_
      rintro ts₁ cmd' ⟨k, rfl, hbuilt⟩
      exact ⟨k + 1, rfl, hbuilt⟩
    · rw [if_neg hamp]
      exact .done h₁ ⟨0, rfl, hcmd⟩

theorem parse_sound (n : Nat) : (∀ s ts, At inp s ts → 4 * ts.length + 4 ≤ n →
      Outcome inp (fun ts₁ cmd => ∃ tree, Line ts₁ tree ∧ Built inp cmd tree) ts (parseline inp n s)) ∧
    (∀ s ts, At inp s ts → 4 * ts.length + 3 ≤ n →
      Outcome inp (fun ts₁ cmd => ∃ tree, Pipe ts₁ tree ∧ Built inp cmd tree) ts (parsepipe inp n s)) ∧
    (∀ s ts, At inp s ts → 4 * ts.length + 1 ≤ n → startsWith ts [ch '('] = true →
      Outcome inp (fun ts₁ cmd => ∃ tree, Exec ts₁ tree ∧ Built inp cmd tree) ts (parseblock inp n s)) ∧
    ∀ s ts, At inp s ts → 4 * ts.length + 2 ≤ n →
      Outcome inp (fun ts₁ cmd => ∃ tree, Exec ts₁ tree ∧ Built inp cmd tree) ts (parseexec inp n s) := by
  induction n with
  | zero => exact ⟨fun _ _ _ h => by omega, fun _ _ _ h => by omega, fun _ _ _ h => by omega, fun _ _ _ h => by omega⟩
  | succ n ih =>
    obtain ⟨ihline, ihpipe, ihblock, ihexec⟩ := ih
    refine ⟨?line, ?pipe, ?block, ?exec⟩
    case line =>
      intro s ts h hn
      rw [parseline]
      refine (ihpipe s ts h (by omega)).before [] ?_
      rintro ts₁ ts₂ cmd s₁ rfl h₁ ⟨tree, hpipe, hcmd⟩
      rw [length_append] at hn
      refine (parseback_sound h₁ (by omega) hcmd).before ts₁ ?_
      rintro amps ts₃ cmd' s₂ rfl h₂ ⟨k, rfl, hcmd'⟩
      rw [length_append] at hn
      obtain ⟨s₃, hpeek, h₃⟩ := peek_at h₂ [ch ';']
      rw [bind_of_ok hpeek]
      by_cases hsemi : startsWith ts₃ [ch ';'] = true
      · rw [if_pos hsemi]
        obtain ⟨ts₄, rfl⟩ := eq_cons_of_startsWith (t := .semi) hsemi (by simp)
        obtain ⟨span, s₄, htok, h₄, -⟩ := gettoken_cons h₃
        rw [bind_of_ok htok]
        rw [length_cons] at hn
        rw [show ts₁ ++ (replicate k .amp ++ .semi :: ts₄) = (ts₁ ++ (replicate k .amp ++ [.semi])) ++ ts₄ by simp]
        refine (ihline s₄ ts₄ h₄ (by omega)).before _ ?_
        rintro ts₅ ts₆ rest s₅ rfl h₅ ⟨tree', hline, hrest⟩
        exact ⟨_, ts₆, by simp, h₅, _, .seq k hpipe hline, .list hcmd' hrest⟩
      · rw [if_neg hsemi]
        exact ⟨_, ts₃, by simp, h₃, _, .last k hpipe, hcmd'⟩
    case pipe =>
      intro s ts h hn
      rw [parsepipe]
      refine (ihexec s ts h (by omega)).before [] ?_
      rintro ts₁ ts₂ cmd s₁ rfl h₁ ⟨tree, hexec, hcmd⟩
      rw [length_append] at hn
      obtain ⟨s₂, hpeek, h₂⟩ := peek_at h₁ [ch '|']
      rw [bind_of_ok hpeek]
      by_cases hbar : startsWith ts₂ [ch '|'] = true
      · rw [if_pos hbar]
        obtain ⟨ts₃, rfl⟩ := eq_cons_of_startsWith (t := .bar) hbar (by simp)
        obtain ⟨span, s₃, htok, h₃, -⟩ := gettoken_cons h₂
        rw [bind_of_ok htok]
        rw [length_cons] at hn
        rw [show [] ++ (ts₁ ++ .bar :: ts₃) = (ts₁ ++ [.bar]) ++ ts₃ by simp]
        refine (ihpipe s₃ ts₃ h₃ (by omega)).before _ ?_
        rintro ts₄ ts₅ rest s₄ rfl h₄ ⟨tree', hpipe, hrest⟩
        exact ⟨_, ts₅, by simp, h₄, _, .bar hexec hpipe, .pipe hcmd hrest⟩
      · rw [if_neg hbar]
        exact ⟨ts₁, ts₂, rfl, h₂, tree, .last hexec, hcmd⟩
    case block =>
      intro s ts h hn hparen
      rw [parseblock]
      obtain ⟨s₁, hpeek, h₁⟩ := peek_at h [ch '(']
      rw [bind_of_ok hpeek, if_pos hparen]
      obtain ⟨ts', rfl⟩ := eq_cons_of_startsWith (t := .lparen) hparen (by simp)
      obtain ⟨span, s₂, htok, h₂, -⟩ := gettoken_cons h₁
      rw [bind_of_ok htok]
      rw [length_cons] at hn
      refine (ihline s₂ ts' h₂ (by omega)).before [.lparen] ?_
      rintro ts₁ ts₂ cmd s₃ rfl h₃ ⟨tree, hline, hcmd⟩
      rw [length_append] at hn
      obtain ⟨s₄, hpeek', h₄⟩ := peek_at h₃ [ch ')']
      rw [bind_of_ok hpeek']
      by_cases hclose : startsWith ts₂ [ch ')'] = true
      · rw [if_pos hclose]
        obtain ⟨ts₃, rfl⟩ := eq_cons_of_startsWith (t := .rparen) hclose (by simp)
        obtain ⟨span', s₅, htok', h₅, -⟩ := gettoken_cons h₄
        rw [bind_of_ok htok']
        rw [length_cons] at hn
        rw [show [.lparen] ++ (ts₁ ++ .rparen :: ts₃) = ([.lparen] ++ (ts₁ ++ [.rparen])) ++ ts₃ by simp]
        refine (parseredirs_sound h₅ (by omega) hcmd).after _ ?_
        rintro rs cmd' ⟨fs, hrs, hcmd'⟩
        refine ⟨_, ?_, hcmd'⟩
        rw [show [.lparen] ++ (ts₁ ++ [.rparen]) ++ rs = .lparen :: (ts₁ ++ .rparen :: rs) by simp]
        exact .block hline hrs
      · rw [if_neg hclose]
        exact ⟨_, rfl⟩
    case exec =>
      intro s ts h hn
      rw [parseexec]
      obtain ⟨s₁, hpeek, h₁⟩ := peek_at h [ch '(']
      rw [bind_of_ok hpeek]
      by_cases hparen : startsWith ts [ch '('] = true
      · rw [if_pos hparen]
        exact ihblock s₁ ts h₁ (by omega) hparen
      rw [if_neg hparen]
      refine (parseredirs_sound h₁ (by omega) (.exec .nil)).before [] ?_
      rintro rs ts₂ cmd s₂ rfl h₂ ⟨fs, hrs, hcmd⟩
      rw [length_append] at hn
      refine (parseargs_sound h₂ (by omega) rfl (by decide) hcmd).after rs ?_
      rintro ts₃ cmd' ⟨ws, fs', hargs, hlt, hcmd'⟩
      exact ⟨_, .words hrs hargs (Nat.le_pred_of_lt hlt), hcmd'⟩

end Sound

/-! ## The parser accepts all sentences -/

section Complete

variable {n : Nat} {cmd : Cmd Span} {tree : Tree} {rs ts₁ ts₂ : List Token} {fs : List Redir} {ws : List (List UInt8)}

/-- The tokens that can follow a command. -/
abbrev follow : List UInt8 := [ch '|', ch ')', ch '&', ch ';']

/-- The next token is one of these, or there is none. -/
def Ends (toks : List UInt8) (ts : List Token) : Prop := ts = [] ∨ startsWith ts toks = true

theorem Redirs.not_startsWith (h : Redirs rs fs) (hne : ch '<' ∉ toks ∧ ch '>' ∉ toks)
    (hts : startsWith ts₂ toks = false) : startsWith (rs ++ ts₂) toks = false := by
  cases h with
  | nil => exact hts
  | @cons t mode fd w rs fs ht _ =>
    have hfirst : startsWith (t :: .word w :: rs ++ ts₂) [ch '<', ch '>'] = true :=
      startsWith_redir.2 ⟨t, _, mode, fd, rfl, ht⟩
    refine Sh.not_startsWith (.inr hfirst) ?_
    simp only [mem_cons, not_mem_nil, or_false]
    rintro c (rfl | rfl)
    · exact hne.1
    · exact hne.2

theorem Args.not_startsWith (h : Args ts₁ ws fs) (hts : startsWith ts₂ toks = false) :
    startsWith (ts₁ ++ ts₂) toks = false := by
  cases h with
  | nil => exact hts
  | cons => rfl

theorem parseredirs_complete (hrs : Redirs rs fs) (h : At inp s (rs ++ ts₂))
    (hn : (rs ++ ts₂).length + 1 ≤ n) (hstop : startsWith ts₂ [ch '<', ch '>'] = false) (hcmd : Built inp cmd tree) :
    ∃ cmd' s', parseredirs inp n cmd s = .ok (cmd', s') ∧ At inp s' ts₂ ∧ Built inp cmd' (wrap tree fs) := by
  obtain _ | n := n
  · omega
  induction hrs generalizing n s cmd tree with
  | nil =>
    obtain ⟨s₁, hpeek, h₁⟩ := peek_is h [ch '<', ch '>'] false hstop
    refine ⟨cmd, s₁, ?_, h₁, hcmd⟩
    rw [parseredirs, bind_of_ok hpeek, if_neg Bool.false_ne_true]
    rfl
  | @cons t mode fd w rs fs ht hrs ih =>
    have hfirst : startsWith (t :: .word w :: rs ++ ts₂) [ch '<', ch '>'] = true :=
      startsWith_redir.2 ⟨t, _, mode, fd, rfl, ht⟩
    obtain ⟨s₁, hpeek, h₁⟩ := peek_is h [ch '<', ch '>'] true hfirst
    obtain ⟨span, s₂, htok, h₂, -⟩ := gettoken_cons h₁
    obtain ⟨file, s₃, hfile, h₃, hword⟩ := gettoken_cons h₂
    simp only [cons_append, length_cons] at hn
    obtain _ | n := n
    · omega
    obtain ⟨cmd', s', hrun, h', hcmd'⟩ := ih h₃ (hcmd.redircmd ht (hword w rfl)) n (by omega)
    refine ⟨cmd', s', ?_, h', hcmd'⟩
    rw [parseredirs, bind_of_ok hpeek, if_pos rfl, bind_of_ok htok, bind_of_ok hfile,
      if_neg (not_not.2 (code_eq_word.2 ⟨w, rfl⟩))]
    exact hrun

theorem parseargs_complete {argc : Nat} {ws' : List (List UInt8)} {fs' : List Redir}
    (hargs : Args ts₁ ws' fs') (h : At inp s (ts₁ ++ ts₂)) (hn : (ts₁ ++ ts₂).length + 1 ≤ n) (hstop : Ends follow ts₂)
    (hargc : argc + ws'.length < MAXARGS) (hcmd : Built inp cmd (wrap (.exec ws) fs)) :
    ∃ cmd' s', parseargs inp n argc cmd s = .ok (cmd', s') ∧ At inp s' ts₂ ∧
      Built inp cmd' (wrap (.exec (ws ++ ws')) (fs ++ fs')) := by
  obtain _ | n := n
  · omega
  induction hargs generalizing n s cmd argc ws fs with
  | nil =>
    rw [append_nil, append_nil]
    rcases hstop with rfl | hstop
    · obtain ⟨s₁, hpeek, h₁⟩ := peek_is h follow false rfl
      obtain ⟨span, s₂, htok, h₂⟩ := gettoken_nil h₁
      refine ⟨cmd, s₂, ?_, h₂, hcmd⟩
      rw [parseargs, bind_of_ok hpeek, if_neg Bool.false_ne_true, bind_of_ok htok, if_pos rfl]
      rfl
    obtain ⟨s₁, hpeek, h₁⟩ := peek_is h follow true hstop
    refine ⟨cmd, s₁, ?_, h₁, hcmd⟩
    rw [parseargs, bind_of_ok hpeek, if_pos rfl]
    rfl
  | @cons w rs ts₁ ws' fs₁ fs' hrs hargs ih =>
    rw [cons_append, append_assoc] at h hn
    rw [length_cons] at hn hargc
    obtain ⟨s₁, hpeek, h₁⟩ := peek_is h follow false rfl
    obtain ⟨span, s₂, htok, h₂, hword⟩ := gettoken_cons h₁
    obtain _ | n := n
    · omega
    have hnot : startsWith ts₂ [ch '<', ch '>'] = false := not_startsWith hstop
    obtain ⟨cmd₁, s₃, hrun₁, h₃, hcmd₁⟩ := parseredirs_complete hrs h₂ (Nat.le_of_succ_le_succ hn)
      (hargs.not_startsWith hnot) (hcmd.pushArg (hword w rfl))
    rw [← wrap_append] at hcmd₁
    have hargc' : argc + 1 + ws'.length < MAXARGS := by omega
    obtain ⟨cmd₂, s₄, hrun₂, h₄, hcmd₂⟩ := ih h₃ hargc' hcmd₁ n (by rw [length_append] at hn; omega)
    rw [append_assoc ws, append_assoc fs] at hcmd₂
    refine ⟨cmd₂, s₄, ?_, h₄, hcmd₂⟩
    rw [parseargs, bind_of_ok hpeek, if_neg Bool.false_ne_true, bind_of_ok htok, if_neg (code_ne_zero _),
      if_neg (not_not.2 (code_eq_word.2 ⟨w, rfl⟩)), if_neg (by omega), bind_of_ok hrun₁]
    exact hrun₂

theorem parseback_complete {k : Nat} (h : At inp s (List.replicate k .amp ++ ts₂))
    (hn : (List.replicate k Token.amp ++ ts₂).length + 1 ≤ n) (hstop : startsWith ts₂ [ch '&'] = false)
    (hcmd : Built inp cmd tree) :
    ∃ cmd' s', parseback inp n cmd s = .ok (cmd', s') ∧ At inp s' ts₂ ∧ Built inp cmd' (backs tree k) := by
  obtain _ | n := n
  · omega
  induction k generalizing n s cmd tree with
  | zero =>
    obtain ⟨s₁, hpeek, h₁⟩ := peek_is h [ch '&'] false hstop
    refine ⟨cmd, s₁, ?_, h₁, hcmd⟩
    rw [parseback, bind_of_ok hpeek, if_neg Bool.false_ne_true]
    rfl
  | succ k ih =>
    rw [replicate_succ, cons_append] at h hn
    obtain ⟨s₁, hpeek, h₁⟩ := peek_is h [ch '&'] true rfl
    obtain ⟨span, s₂, htok, h₂, -⟩ := gettoken_cons h₁
    rw [length_cons] at hn
    obtain _ | n := n
    · omega
    obtain ⟨cmd', s', hrun, h', hcmd'⟩ := ih h₂ hcmd.back n (by omega)
    refine ⟨cmd', s', ?_, h', hcmd'⟩
    rw [parseback, bind_of_ok hpeek, if_pos rfl, bind_of_ok htok]
    exact hrun

/-- What the induction on a derivation shows for each of the three symbols of the grammar: the routine takes the
tokens of the derivation, whatever follows that may follow. -/
def Accepts (inp : List UInt8) (parse : Nat → Parse (Cmd Span)) (d : Nat) (toks : List UInt8) (ts : List Token)
    (tree : Tree) : Prop :=
  ∀ n s ts₂, At inp s (ts ++ ts₂) → Ends toks ts₂ → 4 * (ts ++ ts₂).length + d ≤ n →
    ∃ cmd s', parse n s = .ok (cmd, s') ∧ At inp s' ts₂ ∧ Built inp cmd tree

theorem Ends.mono {toks toks' : List UInt8} (h : Ends toks ts) (hsub : ∀ c ∈ toks, c ∈ toks' := by decide) : Ends toks' ts := by
  rcases h with h | h
  · exact .inl h
  · obtain ⟨t, ts', c, hts, hlead, hc⟩ := startsWith_iff.1 h
    exact .inr (startsWith_iff.2 ⟨t, ts', c, hts, hlead, hsub c hc⟩)

abbrev followLine : List UInt8 := [ch ')']

abbrev followPipe : List UInt8 := [ch ')', ch '&', ch ';']

section Derivation

variable {ts ts' : List Token} {tree' : Tree}

theorem accepts_last (k : Nat) (hpipe : Accepts inp (parsepipe inp) 3 followPipe ts tree) :
    Accepts inp (parseline inp) 4 followLine (ts ++ List.replicate k .amp) (backs tree k) := by
  intro n s ts₂ hat hends hn
  rw [append_assoc] at hat hn
  obtain _ | n := n
  · omega
  have hafter : Ends followPipe (replicate k .amp ++ ts₂) := by
    cases k with
    | zero => exact hends.mono
    | succ => exact .inr rfl
  obtain ⟨cmd₁, s₁, hrun₁, h₁, hcmd₁⟩ := hpipe n s _ hat hafter (by omega)
  obtain ⟨cmd₂, s₂, hrun₂, h₂, hcmd₂⟩ := parseback_complete (n := n) h₁ (by rw [length_append] at hn; omega)
    (not_startsWith hends) hcmd₁
  obtain ⟨s₃, hpeek, h₃⟩ := peek_is h₂ [ch ';'] false (not_startsWith hends)
  refine ⟨cmd₂, s₃, ?_, h₃, hcmd₂⟩
  rw [parseline, bind_of_ok hrun₁, bind_of_ok hrun₂, bind_of_ok hpeek, if_neg Bool.false_ne_true]
  rfl

theorem accepts_seq (k : Nat) (hpipe : Accepts inp (parsepipe inp) 3 followPipe ts tree)
    (hline : Accepts inp (parseline inp) 4 followLine ts' tree') :
    Accepts inp (parseline inp) 4 followLine (ts ++ (List.replicate k .amp ++ .semi :: ts'))
      (.list (backs tree k) tree') := by
  intro n s ts₂ hat hends hn
  simp only [append_assoc, cons_append, length_append, length_cons] at hat hn
  obtain _ | n := n
  · omega
  have hafter : Ends followPipe (replicate k .amp ++ .semi :: (ts' ++ ts₂)) := by
    cases k with
    | zero | succ => exact .inr rfl
  obtain ⟨cmd₁, s₁, hrun₁, h₁, hcmd₁⟩ := hpipe n s _ hat hafter (by simp only [length_append, length_cons]; omega)
  obtain ⟨cmd₂, s₂, hrun₂, h₂, hcmd₂⟩ := parseback_complete (n := n) h₁
    (by simp only [length_append, length_cons]; omega) rfl hcmd₁
  obtain ⟨s₃, hpeek, h₃⟩ := peek_is h₂ [ch ';'] true rfl
  obtain ⟨span, s₄, htok, h₄, -⟩ := gettoken_cons h₃
  obtain ⟨cmd₃, s₅, hrun₃, h₅, hcmd₃⟩ := hline n s₄ ts₂ h₄ hends (by rw [length_append]; omega)
  refine ⟨.list cmd₂ cmd₃, s₅, ?_, h₅, .list hcmd₂ hcmd₃⟩
  rw [parseline, bind_of_ok hrun₁, bind_of_ok hrun₂, bind_of_ok hpeek, if_pos rfl, bind_of_ok htok, bind_of_ok hrun₃]
  rfl

theorem accepts_exec (hexec : Accepts inp (parseexec inp) 2 follow ts tree) :
    Accepts inp (parsepipe inp) 3 followPipe ts tree := by
  intro n s ts₂ hat hends hn
  obtain _ | n := n
  · omega
  obtain ⟨cmd, s₁, hrun, h₁, hcmd⟩ := hexec n s ts₂ hat hends.mono (by omega)
  obtain ⟨s₂, hpeek, h₂⟩ := peek_is h₁ [ch '|'] false (not_startsWith hends)
  refine ⟨cmd, s₂, ?_, h₂, hcmd⟩
  rw [parsepipe, bind_of_ok hrun, bind_of_ok hpeek, if_neg Bool.false_ne_true]
  rfl

theorem accepts_bar (hexec : Accepts inp (parseexec inp) 2 follow ts tree)
    (hpipe : Accepts inp (parsepipe inp) 3 followPipe ts' tree') :
    Accepts inp (parsepipe inp) 3 followPipe (ts ++ .bar :: ts') (.pipe tree tree') := by
  intro n s ts₂ hat hends hn
  simp only [append_assoc, cons_append, length_append, length_cons] at hat hn
  obtain _ | n := n
  · omega
  obtain ⟨cmd, s₁, hrun, h₁, hcmd⟩ := hexec n s _ hat (.inr rfl) (by simp only [length_append, length_cons]; omega)
  obtain ⟨s₂, hpeek, h₂⟩ := peek_is h₁ [ch '|'] true rfl
  obtain ⟨span, s₃, htok, h₃, -⟩ := gettoken_cons h₂
  obtain ⟨cmd', s₄, hrun', h₄, hcmd'⟩ := hpipe n s₃ ts₂ h₃ hends (by rw [length_append]; omega)
  refine ⟨.pipe cmd cmd', s₄, ?_, h₄, .pipe hcmd hcmd'⟩
  rw [parsepipe, bind_of_ok hrun, bind_of_ok hpeek, if_pos rfl, bind_of_ok htok, bind_of_ok hrun']
  rfl

theorem accepts_block (hline : Accepts inp (parseline inp) 4 followLine ts tree) (hrs : Redirs rs fs) :
    Accepts inp (parseexec inp) 2 follow (.lparen :: (ts ++ .rparen :: rs)) (wrap tree fs) := by
  intro n s ts₂ hat hends hn
  simp only [append_assoc, cons_append, length_append, length_cons] at hat hn
  obtain ⟨n, rfl⟩ : ∃ m, n = m + 1 + 1 := ⟨n - 2, by omega⟩
  -- `parseexec` and `parseblock` both look at the parenthesis.
  obtain ⟨s₁, hpeek₁, h₁⟩ := peek_is hat [ch '('] true rfl
  obtain ⟨s₂, hpeek₂, h₂⟩ := peek_is h₁ [ch '('] true rfl
  obtain ⟨span, s₃, htok, h₃, -⟩ := gettoken_cons h₂
  obtain ⟨cmd, s₄, hrun, h₄, hcmd⟩ := hline n s₃ _ h₃ (.inr rfl) (by simp only [length_append, length_cons]; omega)
  obtain ⟨s₅, hpeek₃, h₅⟩ := peek_is h₄ [ch ')'] true rfl
  obtain ⟨span', s₆, htok', h₆, -⟩ := gettoken_cons h₅
  obtain ⟨cmd', s₇, hrun', h₇, hcmd'⟩ := parseredirs_complete (n := n) hrs h₆ (by rw [length_append]; omega)
    (not_startsWith hends) hcmd
  refine ⟨cmd', s₇, ?_, h₇, hcmd'⟩
  rw [parseexec, bind_of_ok hpeek₁, if_pos rfl, parseblock, bind_of_ok hpeek₂, if_pos rfl,
    bind_of_ok htok, bind_of_ok hrun, bind_of_ok hpeek₃, if_pos rfl, bind_of_ok htok']
  exact hrun'

theorem accepts_words {fs' : List Redir} (hrs : Redirs rs fs) (hargs : Args ts ws fs') (hlen : ws.length ≤ MAXARGS - 1) :
    Accepts inp (parseexec inp) 2 follow (rs ++ ts) (wrap (.exec ws) (fs ++ fs')) := by
  intro n s ts₂ hat hends hn
  simp only [append_assoc, length_append] at hat hn
  obtain _ | n := n
  · omega
  have hopen : startsWith (rs ++ (ts ++ ts₂)) [ch '('] = false :=
    hrs.not_startsWith (by decide) (hargs.not_startsWith (not_startsWith hends))
  obtain ⟨s₁, hpeek, h₁⟩ := peek_is hat [ch '('] false hopen
  obtain ⟨cmd, s₂, hrun, h₂, hcmd⟩ := parseredirs_complete (n := n) hrs h₁
    (by simp only [length_append]; omega) (hargs.not_startsWith (not_startsWith hends)) (.exec .nil)
  have hargc : 0 + ws.length < MAXARGS := by
    rw [Nat.zero_add]
    exact Nat.lt_of_le_pred (by decide) hlen
  obtain ⟨cmd', s₃, hrun', h₃, hcmd'⟩ := parseargs_complete (n := n) hargs h₂ (by rw [length_append]; omega)
    hends hargc hcmd
  refine ⟨cmd', s₃, ?_, h₃, hcmd'⟩
  rw [parseexec, bind_of_ok hpeek, if_neg Bool.false_ne_true, bind_of_ok hrun]
  exact hrun'

theorem line_complete (h : Line ts tree) : Accepts inp (parseline inp) 4 followLine ts tree :=
  -- One case for each rule of the grammar.
  @Line.rec (fun ts tree _ => Accepts inp (parseline inp) 4 followLine ts tree)
    (fun ts tree _ => Accepts inp (parsepipe inp) 3 followPipe ts tree)
    (fun ts tree _ => Accepts inp (parseexec inp) 2 follow ts tree)
    (fun k _ hpipe => accepts_last k hpipe)
    (fun k _ _ hpipe hline => accepts_seq k hpipe hline)
    (fun _ hexec => accepts_exec hexec)
    (fun _ _ hexec hpipe => accepts_bar hexec hpipe)
    (fun _ hrs hline => accepts_block hline hrs)
    (fun hrs hargs hlen => accepts_words hrs hargs hlen)
    ts tree h

end Derivation

end Complete

/-! ## The words after `nulterminate` -/

section Words

variable {buf : Nat → UInt8} {cmd : Cmd Span} {tree : Tree} {span : Span} {w : List UInt8}

/-- Where `nulterminate` writes. -/
def Cmd.stops : Cmd Span → List Nat
  | .exec argv => argv.map Prod.snd
  | .redir cmd file _ _ => file.2 :: cmd.stops
  | .pipe left right => left.stops ++ right.stops
  | .list left right => left.stops ++ right.stops
  | .back cmd => cmd.stops

theorem foldl_update_apply (l : List Span) (buf : Nat → UInt8) (i : Nat) :
    l.foldl (fun buf word => update buf word.2 0) buf i = if i ∈ l.map Prod.snd then 0 else buf i := by
  induction l generalizing buf with
  | nil => simp
  | cons word l ih =>
    rw [foldl_cons, ih, map_cons, update_apply]
    by_cases hi : i = word.2
    · simp [hi]
    · simp only [hi, if_false, mem_cons, false_or]

theorem nulterminate_apply (cmd : Cmd Span) (buf : Nat → UInt8) (i : Nat) :
    nulterminate cmd buf i = if i ∈ cmd.stops then 0 else buf i := by
  induction cmd generalizing buf with
  | exec argv => exact foldl_update_apply argv buf i
  | redir cmd file mode fd ih =>
    rw [nulterminate, update_apply, ih, Cmd.stops]
    by_cases hi : i = file.2 <;> simp [hi]
  | pipe left right ihl ihr | list left right ihl ihr =>
    rw [nulterminate, ihr, ihl, Cmd.stops]
    by_cases hr : i ∈ right.stops <;> simp [hr]
  | back cmd ih => exact ih buf

theorem IsWord.stop_not_plain (h : IsWord inp span w) (hlt : span.2 < inp.length) : plain (byteAt inp span.2) = false := by
  have hhead := head?_dropWhile_not plain (inp.drop span.1)
  have hdrop : (inp.drop span.1).dropWhile plain = inp.drop span.2 := by
    rw [h.stop, h.text, ← drop_drop, drop_add_takeWhile]
  rw [hdrop, head?_drop, getElem?_eq_getElem hlt] at hhead
  rw [byteAt_eq, head?_drop, getElem?_eq_getElem hlt]
  exact hhead

theorem Built.stops_not_plain (h : Built inp cmd tree) {i : Nat} (hi : i ∈ cmd.stops) (hlt : i < inp.length) :
    plain (byteAt inp i) = false := by
  induction h with
  | exec hargs =>
    induction hargs with
    | nil => cases hi
    | cons hw _ ih =>
      rcases mem_cons.1 hi with rfl | hi
      · exact hw.stop_not_plain hlt
      · exact ih hi
  | redir _ hw ih =>
    rcases mem_cons.1 hi with rfl | hi
    · exact hw.stop_not_plain hlt
    · exact ih hi
  | pipe _ _ ihl ihr | list _ _ ihl ihr =>
    rcases mem_append.1 hi with hi | hi
    · exact ihl hi
    · exact ihr hi
  | back _ ih => exact ih hi

theorem cstring_eq {n q : Nat} {l : List UInt8} (hlen : l.length ≤ n) (hbytes : ∀ i (hi : i < l.length), buf (q + i) = l[i])
    (hnz : ∀ c ∈ l, c ≠ 0) (hend : buf (q + l.length) = 0) : cstring buf n q = l := by
  induction l generalizing n q with
  | nil =>
    cases n with
    | zero => rfl
    | succ => exact if_pos hend
  | cons c l ih =>
    obtain ⟨n, rfl⟩ : ∃ m, n = m + 1 := ⟨n - 1, by rw [length_cons] at hlen; omega⟩
    have hfirst : buf q = c := hbytes 0 (Nat.succ_pos _)
    rw [cstring, hfirst, if_neg (hnz c mem_cons_self), ih (Nat.le_of_succ_le_succ hlen)]
    · intro i hi
      rw [Nat.add_assoc, Nat.add_comm 1 i]
      exact hbytes (i + 1) (Nat.succ_lt_succ hi)
    · exact fun c hc => hnz c (mem_cons_of_mem _ hc)
    · rw [Nat.add_assoc, Nat.add_comm 1]
      exact hend

theorem IsWord.cstring (h : IsWord inp span w) (hnul : ∀ c ∈ inp, c ≠ 0)
    (hkeep : ∀ i < inp.length, plain (byteAt inp i) = true → buf i = byteAt inp i) (hstop : buf span.2 = 0) :
    cstring buf (inp.length + 1) span.1 = w := by
  have hpre : w <+: inp.drop span.1 := by
    rw [h.text]
    exact takeWhile_prefix _
  have hlen := hpre.length_le
  rw [length_drop] at hlen
  have hbyte : ∀ i (hi : i < w.length), byteAt inp (span.1 + i) = w[i] := by
    intro i hi
    rw [byteAt_eq, head?_drop, ← getElem?_drop, getElem?_eq_getElem (by rw [length_drop]; omega)]
    exact (hpre.getElem hi).symm
  apply cstring_eq (by omega)
  · intro i hi
    rw [← hbyte i hi]
    apply hkeep _ (by omega)
    rw [hbyte i hi]
    have hmem : w[i] ∈ (inp.drop span.1).takeWhile plain := h.text ▸ getElem_mem hi
    exact mem_takeWhile_imp hmem
  · intro c hc
    exact hnul c (mem_of_mem_drop (hpre.subset hc))
  · rw [← h.stop]
    exact hstop

theorem Built.read (h : Built inp cmd tree) (hnul : ∀ c ∈ inp, c ≠ 0)
    (hkeep : ∀ i < inp.length, plain (byteAt inp i) = true → buf i = byteAt inp i)
    (hstop : ∀ i ∈ cmd.stops, buf i = 0) : readBack inp cmd buf = tree := by
  unfold readBack
  induction h with
  | exec hargs =>
    rw [Cmd.map]
    congr 1
    induction hargs with
    | nil => rfl
    | cons hw _ ih =>
      rw [map_cons, ih fun i hi => hstop i (mem_cons_of_mem _ hi), hw.cstring hnul hkeep (hstop _ mem_cons_self)]
  | redir _ hw ih =>
    rw [Cmd.map, ih fun i hi => hstop i (mem_cons_of_mem _ hi), hw.cstring hnul hkeep (hstop _ mem_cons_self)]
  | pipe _ _ ihl ihr | list _ _ ihl ihr =>
    rw [Cmd.map, ihl fun i hi => hstop i (mem_append_left _ hi), ihr fun i hi => hstop i (mem_append_right _ hi)]
  | back _ ih => rw [Cmd.map, ih hstop]

theorem Built.readBack_nulterminate (h : Built inp cmd tree) (hnul : ∀ c ∈ inp, c ≠ 0) :
    readBack inp cmd (nulterminate cmd (byteAt inp)) = tree := by
  apply h.read hnul
  · intro i hi hplain
    rw [nulterminate_apply, if_neg]
    intro hmem
    rw [h.stops_not_plain hmem hi] at hplain
    cases hplain
  · intro i hi
    rw [nulterminate_apply, if_pos hi]

end Words

/-! ## All strings -/

theorem lex_length_le (l : List UInt8) : (lex l).length ≤ l.length := by
  induction l using lex.induct with
  | case1 l hnext =>
    rw [lex_nil hnext]
    exact Nat.zero_le _
  | case2 l t rest hnext =>
    rw [lex_cons hnext, length_cons]
    have hrest := nextToken_length hnext
    have hdrop := (dropWhile_suffix (strchr whitespace) (l := l)).length_le
    omega

theorem At.eq_length_iff (h : At inp s ts) : skipSpace inp s = inp.length ↔ ts = [] := by
  have hle := h.space.le
  rcases h.next with ⟨hdrop, hts⟩ | ⟨c, l, t, rest, hdrop, -, -, -, hts⟩
  · rw [drop_eq_nil_iff] at hdrop
    exact ⟨fun _ => hts, fun _ => by omega⟩
  constructor
  · intro heq
    rw [heq, drop_length] at hdrop
    cases hdrop
  · intro hnil
    rw [hts] at hnil
    cases hnil

theorem parseAll_of_parseline {cmd : Cmd Span} (hrun : parseline inp (4 * inp.length + 4) 0 = .ok (cmd, s)) :
    parseAll inp 0 =
      if skipSpace inp s = inp.length then .ok (cmd, skipSpace inp s) else .error (.panic "syntax") := by
  rw [parseAll, bind_of_ok hrun]
  show (if skipSpace inp s ≠ inp.length then (throw (.panic "syntax") : Parse (Cmd Span)) else pure cmd)
    (skipSpace inp s) = _
  by_cases hend : skipSpace inp s = inp.length
  · rw [if_neg (not_not.2 hend), if_pos hend]
    rfl
  · rw [if_pos hend, if_neg hend]
    rfl

theorem parsecmd_eq (inp : List UInt8) :
    parsecmd inp = (parseAll inp 0).map fun r => (r.1, nulterminate r.1 (byteAt inp)) := by
  show (parseAll inp 0 >>= fun r => _) = _
  cases parseAll inp 0 with
  | error | ok => rfl

theorem At.start (hnul : ∀ c ∈ inp, c ≠ 0) : At inp 0 (lex inp) := ⟨hnul, Nat.zero_le _, by rw [drop_zero]⟩

theorem bound_le (inp : List UInt8) : 4 * (lex inp).length + 4 ≤ 4 * inp.length + 4 := by
  have hle := lex_length_le inp
  omega

theorem parsecmd_sound (hnul : ∀ c ∈ inp, c ≠ 0) :
    (∃ cmd tree, parsecmd inp = .ok (cmd, nulterminate cmd (byteAt inp)) ∧ Line (lex inp) tree ∧ Built inp cmd tree) ∨
      ∃ msg, parsecmd inp = .error (.panic msg) := by
  have hsound := (parse_sound (4 * inp.length + 4)).1 0 (lex inp) (.start hnul) (bound_le inp)
  cases hrun : parseline inp (4 * inp.length + 4) 0 with
  | error =>
    rw [hrun] at hsound
    obtain ⟨msg, rfl⟩ := hsound
    have hall : parseAll inp 0 = .error (.panic msg) := by
      show (parseline inp (4 * inp.length + 4) 0 >>= fun r => _) = _
      rw [hrun]
      rfl
    refine .inr ⟨msg, ?_⟩
    rw [parsecmd_eq, hall]
    rfl
  | ok r =>
    rw [hrun] at hsound
    obtain ⟨ts₁, ts₂, hts, hat, tree, hline, hcmd⟩ := hsound
    by_cases hend : skipSpace inp r.2 = inp.length
    · refine .inl ⟨r.1, tree, ?_, ?_, hcmd⟩
      · rw [parsecmd_eq, parseAll_of_parseline hrun, if_pos hend]
        rfl
      · rw [hts, hat.eq_length_iff.1 hend, append_nil]
        exact hline
    · refine .inr ⟨"syntax", ?_⟩
      rw [parsecmd_eq, parseAll_of_parseline hrun, if_neg hend]
      rfl

theorem parsecmd_complete (hnul : ∀ c ∈ inp, c ≠ 0) {tree : Tree} (hline : Line (lex inp) tree) :
    ∃ cmd, parsecmd inp = .ok (cmd, nulterminate cmd (byteAt inp)) ∧ Built inp cmd tree := by
  have hstart := At.start hnul
  have hbound := bound_le inp
  rw [← append_nil (lex inp)] at hstart hbound
  obtain ⟨cmd, s, hrun, hat, hcmd⟩ := line_complete hline _ 0 [] hstart (.inl rfl) hbound
  refine ⟨cmd, ?_, hcmd⟩
  rw [parsecmd_eq, parseAll_of_parseline hrun, if_pos (hat.eq_length_iff.2 rfl)]
  rfl

/-- `parsecmd` builds the tree of a sentence, and panics on what is not one. -/
theorem parsecmd_iff_line (inp : List UInt8) (hnul : ∀ c ∈ inp, c ≠ 0) :
    (∀ tree, Line (lex inp) tree ↔ ∃ cmd buf, parsecmd inp = .ok (cmd, buf) ∧ readBack inp cmd buf = tree) ∧
      ((∃ cmd buf, parsecmd inp = .ok (cmd, buf)) ∨ ∃ msg, parsecmd inp = .error (.panic msg)) := by
  refine ⟨fun tree => ⟨?_, ?_⟩, ?_⟩
  · intro hline
    obtain ⟨cmd, hrun, hcmd⟩ := parsecmd_complete hnul hline
    exact ⟨cmd, _, hrun, hcmd.readBack_nulterminate hnul⟩
  · rintro ⟨cmd, buf, hrun, hread⟩
    rcases parsecmd_sound hnul with ⟨cmd', tree', hrun', hline, hcmd⟩ | ⟨msg, herror⟩
    · rw [hrun'] at hrun
      cases hrun
      rw [hcmd.readBack_nulterminate hnul] at hread
      rw [← hread]
      exact hline
    · rw [herror] at hrun
      cases hrun
  · rcases parsecmd_sound hnul with ⟨cmd, tree, hrun, -, -⟩ | herror
    · exact .inl ⟨cmd, _, hrun⟩
    · exact .inr herror

/-- `a>f b` -/
theorem parsecmd_iff_line_redir : Line (lex [ch 'a', ch '>', ch 'f', ch ' ', ch 'b'])
    (.redir (.exec [[ch 'a'], [ch 'b']]) [ch 'f'] (O_WRONLY ||| O_CREATE ||| O_TRUNC) 1) :=
  ((parsecmd_iff_line _ (by decide)).1 _).2 ⟨.redir (.exec [(0, 1), (4, 5)]) (2, 3) _ 1, _, rfl, rfl⟩

-- A command after `&` has to be separated by `;`, and the tenth word is one too many.
example : (parsecmd [ch 'a', ch '&', ch 'b']).toOption.isNone = true := by decide +kernel

example : (parsecmd ((List.replicate 9 [ch 'a', ch ' ']).flatten)).toOption.isSome = true := by decide +kernel

example : (parsecmd ((List.replicate 10 [ch 'a', ch ' ']).flatten)).toOption.isSome = false := by decide +kernel

end Xv6.Sh
