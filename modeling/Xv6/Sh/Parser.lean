import Xv6.Lib.Hoare

/-!
# The shell's parser

`parsecmd` of `user/sh.c` and what it calls.  The input is a string without NUL; `s`, `q` and `eq` are offsets in it,
and the byte at its end is the NUL.  `malloc` succeeds.  The routines take a bound on the depth of their calls and
the rounds of their loops; `parsecmd` gives one that is enough for its input.
-/

namespace Xv6.Sh

open Hoare

def MAXARGS : Nat := 10

def O_RDONLY : Nat := 0x000
def O_WRONLY : Nat := 0x001
def O_CREATE : Nat := 0x200
def O_TRUNC : Nat := 0x400

def ch (c : Char) : UInt8 := c.toUInt8

/-- `" \t\r\n\v"` -/
def whitespace : List UInt8 := [ch ' ', ch '\t', ch '\r', ch '\n', 11]

/-- `"<|>&;()"` -/
def symbols : List UInt8 := [ch '<', ch '|', ch '>', ch '&', ch ';', ch '(', ch ')']

/-- `strchr(set, c) != 0`; a NUL is in no string. -/
def strchr (set : List UInt8) (c : UInt8) : Bool := set.contains c

inductive Err where
  | panic (msg : String)
  | bound
  deriving DecidableEq, Repr

/-- `struct cmd`, over the words: pairs of pointers in the code, texts in the grammar. -/
inductive Cmd (ω : Type) where
  | exec (argv : List ω)
  | redir (cmd : Cmd ω) (file : ω) (mode fd : Nat)
  | pipe (left right : Cmd ω)
  | list (left right : Cmd ω)
  | back (cmd : Cmd ω)

abbrev Span := Nat × Nat

abbrev Parse (α : Type) := Prog Err Nat α

section Code

variable (inp : List UInt8)

def byteAt (s : Nat) : UInt8 := inp.getD s 0

/-- `while(s < es && p(*s)) s++`, for at most `n` rounds. -/
def scan (p : UInt8 → Bool) : Nat → Nat → Nat
  | 0, s => s
  | n + 1, s => if s < inp.length ∧ p (byteAt inp s) then scan p n (s + 1) else s

/-- `while(s < es && strchr(whitespace, *s)) s++` -/
def skipSpace (s : Nat) : Nat := scan inp (strchr whitespace) (inp.length - s) s

def skipWord (s : Nat) : Nat := scan inp (fun c => !strchr whitespace c && !strchr symbols c) (inp.length - s) s

/-- The token at `s`, and where it ends. -/
def token (s : Nat) : UInt8 × Nat :=
  let c := byteAt inp s
  if c = 0 then (c, s)
  else if c = ch '>' then if byteAt inp (s + 1) = ch '>' then (ch '+', s + 1 + 1) else (c, s + 1)
  else if strchr symbols c then (c, s + 1)
  else (ch 'a', skipWord inp s)

def gettoken : Parse (UInt8 × Span) := do
  let s ← get
  let q := skipSpace inp s
  let (ret, eq) := token inp q
  set (skipSpace inp eq)
  pure (ret, (q, eq))

def peek (toks : List UInt8) : Parse Bool := do
  let s ← get
  let s := skipSpace inp s
  set s
  pure (byteAt inp s ≠ 0 && strchr toks (byteAt inp s))

/-- What the `switch` of `parseredirs` does. -/
def redircmd (cmd : Cmd Span) (tok : UInt8) (file : Span) : Cmd Span :=
  if tok = ch '<' then .redir cmd file O_RDONLY 0
  else if tok = ch '>' then .redir cmd file (O_WRONLY ||| O_CREATE ||| O_TRUNC) 1
  else if tok = ch '+' then .redir cmd file (O_WRONLY ||| O_CREATE) 1
  else cmd

def parseredirs : Nat → Cmd Span → Parse (Cmd Span)
  | 0, _ => throw .bound
  | n + 1, cmd => do
    if ← peek inp [ch '<', ch '>'] then
      let tok ← gettoken inp
      let file ← gettoken inp
      if file.1 ≠ ch 'a' then throw (.panic "missing file for redirection")
      else parseredirs n (redircmd cmd tok.1 file.2)
    else pure cmd

/-- `cmd->argv[argc] = q; cmd->eargv[argc] = eq`, where `cmd` is the command inside the redirections. -/
def Cmd.pushArg {ω : Type} (word : ω) : Cmd ω → Cmd ω
  | .exec argv => .exec (argv ++ [word])
  | .redir cmd file mode fd => .redir (cmd.pushArg word) file mode fd
  | cmd => cmd

/-- The loop of `parseexec`. -/
def parseargs : Nat → Nat → Cmd Span → Parse (Cmd Span)
  | 0, _, _ => throw .bound
  | n + 1, argc, ret => do
    if ← peek inp [ch '|', ch ')', ch '&', ch ';'] then pure ret
    else
      let tok ← gettoken inp
      if tok.1 = 0 then pure ret
      else if tok.1 ≠ ch 'a' then throw (.panic "syntax")
      else if argc + 1 ≥ MAXARGS then throw (.panic "too many args")
      else
        let ret ← parseredirs inp n (ret.pushArg tok.2)
        parseargs n (argc + 1) ret

/-- The loop of `parseline`. -/
def parseback : Nat → Cmd Span → Parse (Cmd Span)
  | 0, _ => throw .bound
  | n + 1, cmd => do
    if ← peek inp [ch '&'] then
      let _ ← gettoken inp
      parseback n (.back cmd)
    else pure cmd

mutual

def parseline : Nat → Parse (Cmd Span)
  | 0 => throw .bound
  | n + 1 => do
    let cmd ← parsepipe n
    let cmd ← parseback inp n cmd
    if ← peek inp [ch ';'] then
      let _ ← gettoken inp
      let rest ← parseline n
      pure (.list cmd rest)
    else pure cmd

def parsepipe : Nat → Parse (Cmd Span)
  | 0 => throw .bound
  | n + 1 => do
    let cmd ← parseexec n
    if ← peek inp [ch '|'] then
      let _ ← gettoken inp
      let rest ← parsepipe n
      pure (.pipe cmd rest)
    else pure cmd

def parseblock : Nat → Parse (Cmd Span)
  | 0 => throw .bound
  | n + 1 => do
    if ← peek inp [ch '('] then
      let _ ← gettoken inp
      let cmd ← parseline n
      if ← peek inp [ch ')'] then
        let _ ← gettoken inp
        parseredirs inp n cmd
      else throw (.panic "syntax - missing )")
    else throw (.panic "parseblock")

def parseexec : Nat → Parse (Cmd Span)
  | 0 => throw .bound
  | n + 1 => do
    if ← peek inp [ch '('] then parseblock n
    else
      let ret ← parseredirs inp n (.exec [])
      parseargs inp n 0 ret

end

end Code

/-- `nulterminate`; `buf` are the bytes of the input. -/
def nulterminate : Cmd Span → (Nat → UInt8) → (Nat → UInt8)
  | .exec argv, buf => argv.foldl (fun buf word => Function.update buf word.2 0) buf
  | .redir cmd file _ _, buf => Function.update (nulterminate cmd buf) file.2 0
  | .pipe left right, buf => nulterminate right (nulterminate left buf)
  | .list left right, buf => nulterminate right (nulterminate left buf)
  | .back cmd, buf => nulterminate cmd buf

/-- What `parsecmd` does before `nulterminate`. -/
def parseAll (inp : List UInt8) : Parse (Cmd Span) := do
  let cmd ← parseline inp (4 * inp.length + 4)
  let _ ← peek inp []
  let s ← get
  if s ≠ inp.length then throw (.panic "syntax") else pure cmd

/-- `parsecmd(s)`: the command, and the bytes of the string afterwards. -/
def parsecmd (inp : List UInt8) : Except Err (Cmd Span × (Nat → UInt8)) := do
  let (cmd, _) ← (parseAll inp).run 0
  pure (cmd, nulterminate cmd (byteAt inp))

end Xv6.Sh
