import Xv6.Sysfile

-- user/sh.c: the parser. A pointer into the line is an offset from its start, and malloc succeeds.

namespace Sh

open Function

abbrev MAXARGS : Nat := 10

def chars (cs : List Char) : List UInt8 := cs.map Char.toUInt8

def whitespace : List UInt8 := chars [' ', '\t', '\r', '\n', '\x0b']

def symbols : List UInt8 := chars ['<', '|', '>', '&', ';', '(', ')']

inductive Panic where
  | syntaxError
  | missingFile
  | parseblock
  | missingParen
  | tooManyArgs
  deriving DecidableEq, Repr

-- What a function of the parser comes to. `overrun` is an index outside of argv or eargv.
inductive Result (α : Type) where
  | ok (a : α) (s : Nat)
  | panic (e : Panic)
  | overrun
  | fuel

def Parser (α : Type) : Type := Nat → Result α

namespace Parser

variable {α β : Type}

def bind (m : Parser α) (f : α → Parser β) : Parser β := fun s =>
  match m s with
  | .ok a s => f a s
  | .panic e => .panic e
  | .overrun => .overrun
  | .fuel => .fuel

instance : Monad Parser where
  pure a := fun s => .ok a s
  bind := bind

def panic (e : Panic) : Parser α := fun _ => .panic e

def overrun : Parser α := fun _ => .overrun

def fuel : Parser α := fun _ => .fuel

end Parser

structure Exec where
  argv : Fin MAXARGS → Option Nat
  eargv : Fin MAXARGS → Option Nat

structure Redir where
  file : Nat
  efile : Nat
  mode : UInt32
  fd : Nat

inductive Cmd where
  | exec (cmd : Exec)
  | redir (cmd : Cmd) (r : Redir)
  | pipe (left right : Cmd)
  | list (left right : Cmd)
  | back (cmd : Cmd)
  | builtin (argv : Fin MAXARGS → Option Nat)

def execcmd : Exec := ⟨fun _ => none, fun _ => none⟩

def Exec.set (cmd : Exec) (argc : Nat) (q eq : Option Nat) : Parser Exec :=
  if h : argc < MAXARGS then
    pure ⟨update cmd.argv ⟨argc, h⟩ q, update cmd.eargv ⟨argc, h⟩ eq⟩
  else Parser.overrun

section

variable (line : List UInt8)

-- The byte under the cursor; there is a NUL after the line.
def char (s : Nat) : UInt8 := line.getD s 0

-- The loops that move the cursor over bytes that satisfy `p`.
def skipFrom (p : UInt8 → Bool) : Nat → Nat → Nat
  | 0, s => s
  | n + 1, s => if p (char line s) then skipFrom p n (s + 1) else s

def skip (p : UInt8 → Bool) (s : Nat) : Nat := skipFrom line p (line.length - s) s

def isSpace (c : UInt8) : Bool := c ∈ whitespace

def isWord (c : UInt8) : Bool := c ∉ whitespace ∧ c ∉ symbols

-- The token that starts at `s`, as a character, and its end.
def scan (s : Nat) : UInt8 × Nat :=
  let c := char line s
  if c = 0 then (0, s)
  else if c ∈ chars ['|', '(', ')', ';', '&', '<'] then (c, s + 1)
  else if c = '>'.toUInt8 then if char line (s + 1) = '>'.toUInt8 then ('+'.toUInt8, s + 2) else (c, s + 1)
  else ('a'.toUInt8, skip line isWord s)

def gettoken : Parser (UInt8 × Nat × Nat) := fun s =>
  let q := skip line isSpace s
  let (ret, eq) := scan line q
  .ok (ret, q, eq) (skip line isSpace eq)

def peek (toks : List UInt8) : Parser Bool := fun s =>
  let s := skip line isSpace s
  .ok (char line s ≠ 0 ∧ char line s ∈ toks) s

-- The redirection that stands for the token `tok`.
def redircmd (tok : UInt8) (q eq : Nat) : Redir :=
  if tok = '<'.toUInt8 then ⟨q, eq, Fs.O_RDONLY, 0⟩
  else if tok = '>'.toUInt8 then ⟨q, eq, Fs.O_WRONLY ||| Fs.O_CREATE ||| Fs.O_TRUNC, 1⟩
  else ⟨q, eq, Fs.O_WRONLY ||| Fs.O_CREATE, 1⟩

-- The redirections around a command, innermost first. parseexec fills its command in while they are
-- put around it, so they are kept apart here.
def parseredirs : Nat → List Redir → Parser (List Redir)
  | 0, _ => Parser.fuel
  | n + 1, rs => do
    if ← peek line (chars ['<', '>']) then do
      let (tok, _, _) ← gettoken line
      let (word, q, eq) ← gettoken line
      if word ≠ 'a'.toUInt8 then Parser.panic .missingFile
      else parseredirs n (rs ++ [redircmd tok q eq])
    else pure rs

def wrap (rs : List Redir) (cmd : Cmd) : Cmd := rs.foldl Cmd.redir cmd

def parseargs : Nat → Nat → Exec → List Redir → Parser (Nat × Exec × List Redir)
  | 0, _, _, _ => Parser.fuel
  | n + 1, argc, cmd, rs => do
    if ← peek line (chars ['|', ')', '&', ';']) then pure (argc, cmd, rs)
    else do
      let (tok, q, eq) ← gettoken line
      if tok = 0 then pure (argc, cmd, rs)
      else if tok ≠ 'a'.toUInt8 then Parser.panic .syntaxError
      else do
        let cmd ← cmd.set argc (some q) (some eq)
        if argc + 1 ≥ MAXARGS then Parser.panic .tooManyArgs
        else do
          let rs ← parseredirs line n rs
          parseargs n (argc + 1) cmd rs

def parsebacks : Nat → Cmd → Parser Cmd
  | 0, _ => Parser.fuel
  | n + 1, cmd => do
    if ← peek line (chars ['&']) then do
      let _ ← gettoken line
      parsebacks n (.back cmd)
    else pure cmd

mutual

def parseline : Nat → Parser Cmd
  | 0 => Parser.fuel
  | n + 1 => do
    let cmd ← parsepipe n
    let cmd ← parsebacks line n cmd
    if ← peek line (chars [';']) then do
      let _ ← gettoken line
      let right ← parseline n
      pure (.list cmd right)
    else pure cmd

def parsepipe : Nat → Parser Cmd
  | 0 => Parser.fuel
  | n + 1 => do
    let cmd ← parseexec n
    if ← peek line (chars ['|']) then do
      let _ ← gettoken line
      let right ← parsepipe n
      pure (.pipe cmd right)
    else pure cmd

def parseblock : Nat → Parser Cmd
  | 0 => Parser.fuel
  | n + 1 => do
    if ← peek line (chars ['(']) then do
      let _ ← gettoken line
      let cmd ← parseline n
      if ← peek line (chars [')']) then do
        let _ ← gettoken line
        let rs ← parseredirs line n []
        pure (wrap rs cmd)
      else Parser.panic .missingParen
    else Parser.panic .parseblock

def parseexec : Nat → Parser Cmd
  | 0 => Parser.fuel
  | n + 1 => do
    if ← peek line (chars ['(']) then parseblock n
    else do
      let rs ← parseredirs line n []
      let (argc, cmd, rs) ← parseargs line n 0 execcmd rs
      let cmd ← cmd.set argc none none
      pure (wrap rs (.exec cmd))

end

end

abbrev Buf := List UInt8

-- The loop over argv, which stops at a null pointer.
def nulArgs (cmd : Exec) : Nat → Nat → Buf → Option Buf
  | 0, _, _ => none
  | n + 1, i, buf =>
    if h : i < MAXARGS then
      match cmd.argv ⟨i, h⟩, cmd.eargv ⟨i, h⟩ with
      | none, _ => some buf
      | some _, some e => nulArgs cmd n (i + 1) (buf.set e 0)
      | some _, none => none
    else none

def nulterminate : Cmd → Buf → Option Buf
  | .exec cmd, buf => nulArgs cmd (MAXARGS + 1) 0 buf
  | .redir cmd r, buf => do
    let buf ← nulterminate cmd buf
    pure (buf.set r.efile 0)
  | .pipe left right, buf => do
    let buf ← nulterminate left buf
    nulterminate right buf
  | .list left right, buf => do
    let buf ← nulterminate left buf
    nulterminate right buf
  | .back cmd, buf => nulterminate cmd buf
  | .builtin _, buf => some buf

-- memcmp(s, "cd ", 3) == 0 || strcmp(s, "cd") == 0
def isCd (buf : Buf) (s : Nat) : Bool :=
  char buf s = 'c'.toUInt8 ∧ char buf (s + 1) = 'd'.toUInt8 ∧ (char buf (s + 2) = ' '.toUInt8 ∨ char buf (s + 2) = 0)

-- The arguments of cd, cut at each space.
def cdArgs : Nat → Buf → Nat → Nat → (Fin MAXARGS → Option Nat) → Option (Buf × (Fin MAXARGS → Option Nat))
  | 0, _, _, _, _ => none
  | n + 1, buf, s, argc, argv =>
    if h : argc < MAXARGS then
      match (buf.drop s).findIdx? fun c => c = ' '.toUInt8 ∨ c = 0 with
      | some d =>
        if char buf (s + d) = ' '.toUInt8 ∧ argc < MAXARGS - 1 then
          cdArgs n (buf.set (s + d) 0) (s + d + 1) (argc + 1) (update argv ⟨argc, h⟩ (some s))
        else some (buf, update argv ⟨argc, h⟩ none)
      | none => none
    else none

-- The lines of parsecmd before the cursor is compared with the end of the line.
def readcmd (line : List UInt8) : Parser Cmd := do
  let cmd ← parseline line (4 * line.length + 5)
  let _ ← peek line []
  pure cmd

def parsecmd (line : List UInt8) : Result (Cmd × Buf) :=
  match readcmd line 0 with
  | .ok cmd s =>
    if s ≠ line.length then .panic .syntaxError
    else
      match nulterminate cmd (line ++ [0]) with
      | none => .overrun
      | some buf =>
        if isCd buf s then
          match cdArgs (line.length + 1) buf s 0 fun _ => none with
          | none => .overrun
          | some (buf, argv) => .ok (.builtin argv, buf) s
        else .ok (cmd, buf) s
  | .panic e => .panic e
  | .overrun => .overrun
  | .fuel => .fuel

end Sh
