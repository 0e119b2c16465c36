import Mathlib.Data.List.Basic
import Xv6.Sh.Parser

/-!
# The shell's grammar

    line  ::= pipe '&'* [';' line]
    pipe  ::= exec ['|' pipe]
    exec  ::= '(' line ')' redir* | redir* (word redir*)*
    redir ::= ('<' | '>' | '>>') word

A derivation comes with its tree.  The lexer below says what the tokens of a string are without the code's cursor;
`peek_at` and `gettoken_at` say that the cursor moves through them.
-/

namespace Xv6.Sh

open Hoare

inductive Token where
  | word (text : List UInt8)
  | bar | amp | semi | lparen | rparen | less | greater | append
  deriving DecidableEq, Repr

/-! ## Tokens -/

def plain (c : UInt8) : Bool := !strchr whitespace c && !strchr symbols c

def symbolToken (c : UInt8) : Option Token :=
  if c = ch '<' then some .less
  else if c = ch '|' then some .bar
  else if c = ch '&' then some .amp
  else if c = ch ';' then some .semi
  else if c = ch '(' then some .lparen
  else if c = ch ')' then some .rparen
  else none

def nextToken : List UInt8 → Option (Token × List UInt8)
  | [] => none
  | c :: rest =>
    if c = ch '>' then
      match rest with
      | [] => some (.greater, [])
      | d :: rest' => if d = ch '>' then some (.append, rest') else some (.greater, rest)
    else
      match symbolToken c with
      | some t => some (t, rest)
      | none => some (.word (c :: rest.takeWhile plain), rest.dropWhile plain)

theorem nextToken_length {l rest : List UInt8} {t : Token} (h : nextToken l = some (t, rest)) :
    rest.length < l.length := by
  cases l with
  | nil => cases h
  | cons c l =>
    have hdrop := (List.dropWhile_suffix plain (l := l)).length_le
    simp only [nextToken] at h
    split at h
    · split at h
      · cases h
        simp
      split at h
      · cases h
        simp only [List.length_cons]
        omega
      · cases h
        simp
    split at h
    · cases h
      simp
    · cases h
      simp only [List.length_cons]
      omega

def lex (l : List UInt8) : List Token :=
  match _h : nextToken (l.dropWhile (strchr whitespace)) with
  | none => []
  | some (t, rest) => t :: lex rest
termination_by l.length
decreasing_by
  have hnext := nextToken_length _h
  have hdrop := (List.dropWhile_suffix (strchr whitespace) (l := l)).length_le
  omega

/-! ## Sentences -/

/-- `O_...` and the descriptor of a redirection. -/
def Token.redir : Token → Option (Nat × Nat)
  | .less => some (O_RDONLY, 0)
  | .greater => some (O_WRONLY ||| O_CREATE ||| O_TRUNC, 1)
  | .append => some (O_WRONLY ||| O_CREATE, 1)
  | _ => none

structure Redir where
  file : List UInt8
  mode : Nat
  fd : Nat

abbrev Tree := Cmd (List UInt8)

def wrap (tree : Tree) (fs : List Redir) : Tree := fs.foldl (fun tree f => .redir tree f.file f.mode f.fd) tree

def backs (tree : Tree) : Nat → Tree
  | 0 => tree
  | k + 1 => backs (.back tree) k

/-- `redir*` -/
inductive Redirs : List Token → List Redir → Prop
  | nil : Redirs [] []
  | cons {t : Token} {mode fd : Nat} {w : List UInt8} {ts : List Token} {fs : List Redir} :
      t.redir = some (mode, fd) → Redirs ts fs → Redirs (t :: .word w :: ts) (⟨w, mode, fd⟩ :: fs)

/-- `(word redir*)*` -/
inductive Args : List Token → List (List UInt8) → List Redir → Prop
  | nil : Args [] [] []
  | cons {w : List UInt8} {rs ts : List Token} {ws : List (List UInt8)} {fs fs' : List Redir} :
      Redirs rs fs → Args ts ws fs' → Args (.word w :: (rs ++ ts)) (w :: ws) (fs ++ fs')

mutual

inductive Line : List Token → Tree → Prop
  | last {ts : List Token} {tree : Tree} (k : Nat) : Pipe ts tree → Line (ts ++ List.replicate k .amp) (backs tree k)
  | seq {ts ts' : List Token} {tree tree' : Tree} (k : Nat) : Pipe ts tree → Line ts' tree' →
      Line (ts ++ (List.replicate k .amp ++ .semi :: ts')) (.list (backs tree k) tree')

inductive Pipe : List Token → Tree → Prop
  | last {ts : List Token} {tree : Tree} : Exec ts tree → Pipe ts tree
  | bar {ts ts' : List Token} {tree tree' : Tree} : Exec ts tree → Pipe ts' tree' →
      Pipe (ts ++ .bar :: ts') (.pipe tree tree')

inductive Exec : List Token → Tree → Prop
  | block {ts rs : List Token} {tree : Tree} {fs : List Redir} : Line ts tree → Redirs rs fs →
      Exec (.lparen :: (ts ++ .rparen :: rs)) (wrap tree fs)
  | words {rs ts : List Token} {ws : List (List UInt8)} {fs fs' : List Redir} : Redirs rs fs → Args ts ws fs' →
      ws.length ≤ MAXARGS - 1 → Exec (rs ++ ts) (wrap (.exec ws) (fs ++ fs'))

end

/-! ## The tree that the code builds -/

/-- The NUL-terminated string at `q`, of at most `n` bytes. -/
def cstring (buf : Nat → UInt8) : Nat → Nat → List UInt8
  | 0, _ => []
  | n + 1, q => if buf q = 0 then [] else buf q :: cstring buf n (q + 1)

def Cmd.map {α β : Type} (f : α → β) : Cmd α → Cmd β
  | .exec argv => .exec (argv.map f)
  | .redir cmd file mode fd => .redir (cmd.map f) (f file) mode fd
  | .pipe left right => .pipe (left.map f) (right.map f)
  | .list left right => .list (left.map f) (right.map f)
  | .back cmd => .back (cmd.map f)

/-- The command with its strings, as they are found in memory after `nulterminate`. -/
def readBack (inp : List UInt8) (cmd : Cmd Span) (buf : Nat → UInt8) : Tree :=
  cmd.map fun word => cstring buf (inp.length + 1) word.1

end Xv6.Sh
