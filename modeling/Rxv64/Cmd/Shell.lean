import Rxv64.Lib.Fuel

/-!
# Cmd.Shell — the parser of the shell

`gettoken` to `nulterminate` of `cmd/sh.c`. The line is in a buffer that ends with
a NUL, `s` and `es` are positions in it, and a token is the pair of pointers
around it. A tree holds such pairs until `nulterminate` has made C strings of
them, so its type is that of its strings.

The five functions call each other, so the depth of the calls is the fuel. A
parser that would go deeper is `blocked`.
-/

namespace Rxv64.Cmd.Sh

open Prog

/-- The bytes in front of the NUL. -/
abbrev Text := List UInt8

/-- `'|'`. -/
abbrev bar : UInt8 := 124

/-- `'('`. -/
abbrev lparen : UInt8 := 40

/-- `')'`. -/
abbrev rparen : UInt8 := 41

/-- `';'`. -/
abbrev semicolon : UInt8 := 59

/-- `'&'`. -/
abbrev ampersand : UInt8 := 38

/-- `'<'`. -/
abbrev less : UInt8 := 60

/-- `'>'`. -/
abbrev greater : UInt8 := 62

/-- `'+'`, what `gettoken` returns for `>>`. -/
abbrev plus : UInt8 := 43

/-- `'a'`, what `gettoken` returns for a word. -/
abbrev aWord : UInt8 := 97

/-- `MAXARGS`. -/
abbrev maxArgs : Nat := 10

/-- `O_RDONLY`. -/
abbrev oRdonly : Nat := 0

/-- `O_WRONLY|O_CREAT`. -/
abbrev oWronlyCreat : Nat := 0x201

/-- `" \t\r\n\v"`. -/
def whitespace : List UInt8 := [32, 9, 13, 10, 11]

/-- `"<|>&;()"`. -/
def symbols : List UInt8 := [less, bar, greater, ampersand, semicolon, lparen, rparen]

/-! ## Tokens -/

/-- Is `strchr(s, c)` a pointer. -/
def strchr (s : List UInt8) (c : UInt8) : Bool := decide (c ∈ s)

/-- `*s`; behind the text there is a NUL. -/
def charAt (text : Text) (s : Nat) : UInt8 := text.getD s 0

/-- `while(s < es && p(*s)) s++`. -/
def advance (p : UInt8 → Bool) (text : Text) (s : Nat) : Nat :=
  s + ((text.drop s).takeWhile p).length

def skip (text : Text) (s : Nat) : Nat := advance (strchr whitespace) text s

def isWord (c : UInt8) : Bool := !strchr whitespace c && !strchr symbols c

/-- `q` and `eq`. -/
structure Span where
  start : Nat
  stop : Nat

/-- What `gettoken` returns. -/
structure Token where
  ret : UInt8
  word : Span

/-- The `switch` of `gettoken`: `ret` and `s` behind it. -/
def lex (text : Text) (s : Nat) : UInt8 × Nat :=
  if charAt text s = 0 then (0, s)
  else if charAt text s ∈ [bar, lparen, rparen, semicolon, ampersand, less] then
    (charAt text s, s + 1)
  else if charAt text s = greater then
    if charAt text (s + 1) = greater then (plus, s + 2) else (greater, s + 1)
  else (aWord, advance isWord text s)

/-- Code that moves `*ps` over a text. -/
abbrev ParseM := Prog Text Nat

def gettoken : ParseM Token := fun text s =>
  .ok ⟨(lex text (skip text s)).1, skip text s, (lex text (skip text s)).2⟩
    (skip text (lex text (skip text s)).2)

def peek (toks : List UInt8) : ParseM Bool := fun text s =>
  .ok (decide (charAt text (skip text s) ≠ 0) && strchr toks (charAt text (skip text s)))
    (skip text s)

/-! ## Trees -/

/-- `struct cmd`, with strings of type `α`. -/
inductive Command (α : Type) where
  | exec (argv : List α)
  | redir (cmd : Command α) (file : α) (mode fd : Nat)
  | pipe (left right : Command α)
  | list (left right : Command α)
  | back (cmd : Command α)

namespace Command

variable {α β : Type}

def map (f : α → β) : Command α → Command β
  | exec argv => exec (argv.map f)
  | redir cmd file mode fd => redir (cmd.map f) (f file) mode fd
  | pipe left right => pipe (left.map f) (right.map f)
  | list left right => list (left.map f) (right.map f)
  | back cmd => back (cmd.map f)

/-- All strings of a tree. -/
def words : Command α → List α
  | exec argv => argv
  | redir cmd file _ _ => cmd.words ++ [file]
  | pipe left right => left.words ++ right.words
  | list left right => left.words ++ right.words
  | back cmd => cmd.words

/-- `cmd->argv[argc] = q`. The redirections that were read so far are wrapped
around the `execcmd`, which is still written to. -/
def addArg (q : α) : Command α → Command α
  | exec argv => exec (argv ++ [q])
  | redir cmd file mode fd => redir (cmd.addArg q) file mode fd
  | cmd => cmd

end Command

/-! ## The parser -/

/-- The `switch` of `parseredirs`. -/
def redirect (cmd : Command Span) (tok : UInt8) (file : Span) : Command Span :=
  if tok = less then .redir cmd file oRdonly 0
  else if tok = greater then .redir cmd file oWronlyCreat 1
  else if tok = plus then .redir cmd file oWronlyCreat 1
  else cmd

def parseredirs : Nat → Command Span → ParseM (Command Span)
  | 0, _ => block
  | n + 1, cmd => do
      if ← peek [less, greater] then do
        let tok ← gettoken
        let file ← gettoken
        if file.ret ≠ aWord then abort "missing file for redirection"
        else parseredirs n (redirect cmd tok.ret file.word)
      else pure cmd

/-- The first loop of `parseline`. -/
def parsebacks : Nat → Command Span → ParseM (Command Span)
  | 0, _ => block
  | n + 1, cmd => do
      if ← peek [ampersand] then do
        let _ ← gettoken
        parsebacks n (.back cmd)
      else pure cmd

/-- The loop of `parseexec`. -/
def parseargs : Nat → (argc : Nat) → Command Span → ParseM (Command Span)
  | 0, _, _ => block
  | n + 1, argc, ret => do
      if ← peek [bar, rparen, ampersand, semicolon] then pure ret
      else do
        let tok ← gettoken
        if tok.ret = 0 then pure ret
        else if tok.ret ≠ aWord then abort "syntax"
        else if maxArgs ≤ argc + 1 then abort "too many args"
        else do
          let ret ← parseredirs n (ret.addArg tok.word)
          parseargs n (argc + 1) ret

mutual

def parseline : Nat → ParseM (Command Span)
  | 0 => block
  | n + 1 => do
      let cmd ← parsepipe n
      let cmd ← parsebacks n cmd
      if ← peek [semicolon] then do
        let _ ← gettoken
        let right ← parseline n
        pure (.list cmd right)
      else pure cmd

def parsepipe : Nat → ParseM (Command Span)
  | 0 => block
  | n + 1 => do
      let cmd ← parseexec n
      if ← peek [bar] then do
        let _ ← gettoken
        let right ← parsepipe n
        pure (.pipe cmd right)
      else pure cmd

def parseblock : Nat → ParseM (Command Span)
  | 0 => block
  | n + 1 => do
      if ← peek [lparen] then do
        let _ ← gettoken
        let cmd ← parseline n
        if ← peek [rparen] then do
          let _ ← gettoken
          parseredirs n cmd
        else abort "syntax - missing )"
      else abort "parseblock"

def parseexec : Nat → ParseM (Command Span)
  | 0 => block
  | n + 1 => do
      if ← peek [lparen] then parseblock n
      else do
        let ret ← parseredirs n (.exec [])
        parseargs n 0 ret

end

/-! ## The whole line -/

/-- What is in the buffer. -/
abbrev Buffer := List UInt8

def nulterminate : Command Span → Buffer → Buffer
  | .exec argv, buf => argv.foldl (fun buf w => buf.set w.stop 0) buf
  | .redir cmd file _ _, buf => (nulterminate cmd buf).set file.stop 0
  | .pipe left right, buf => nulterminate right (nulterminate left buf)
  | .list left right, buf => nulterminate right (nulterminate left buf)
  | .back cmd, buf => nulterminate cmd buf

/-- `parsecmd` behind its `strlen`. -/
def parseall (n : Nat) : ParseM (Command Span × Buffer) := do
  let cmd ← parseline n
  let _ ← peek []
  let text ← env
  let s ← gets fun s => s
  if s ≠ text.length then abort "syntax"
  else pure (cmd, nulterminate cmd (text ++ [0]))

/-- The bytes in front of the first NUL: `strlen(s)` of them. -/
def cstr (s : Buffer) : Text := s.takeWhile fun c => decide (c ≠ 0)

/-- `parsecmd`: the tree and the buffer. -/
def parsecmd (s : Buffer) : Outcome Nat (Command Span × Buffer) :=
  parseall (4 * (cstr s).length + 4) (cstr s) 0

end Rxv64.Cmd.Sh
