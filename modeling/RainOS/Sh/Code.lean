import Mathlib.Data.List.Basic

/-!
# The parser of the shell

`gettoken`, `peek` and the recursive descent of `sh.c`, which work on a NUL-terminated string in memory. A pointer into the
string is an index, and `*s` reads 0 past the last byte of the list; a pointer that is passed by reference is returned.
Calls and loops take fuel, and `Stop.fuel` says that it was not enough. Memory for commands is always there.
-/

namespace RainOS.Sh

def maxargs : Nat := 10

def oRdonly : Nat := 0x000

def oWronly : Nat := 0x001

def oCreate : Nat := 0x200

def chr (c : Char) : UInt8 := c.toNat.toUInt8

def chars (s : List Char) : List UInt8 := s.map chr

def whitespace : List UInt8 := chars [' ', '\t', '\r', '\n', '\x0b']

def symbols : List UInt8 := chars ['<', '|', '>', '&', ';', '(', ')']

def strchr (s : List UInt8) (c : UInt8) : Bool := s.contains c

def strlen (buf : List UInt8) : Nat := (buf.takeWhile (· ≠ 0)).length

inductive Stop
  | fuel
  | panic (msg : String)
  /-- What is left is printed, with `leftovers: ` before it, and then `panic("syntax")`. -/
  | leftovers (s : Nat)
  deriving DecidableEq

/-- A counted string: where it starts, and where the NUL goes that ends it. -/
structure Word where
  q : Nat
  eq : Nat
  deriving DecidableEq

/-- Parsed command representation, over any representation of the words. -/
inductive Cmd (W : Type)
  | exec (argv : List W)
  | redir (cmd : Cmd W) (file : W) (mode fd : Nat)
  | pipe (left right : Cmd W)
  | list (left right : Cmd W)
  | back (cmd : Cmd W)
  deriving DecidableEq

/-- Another argument for the `execcmd` that `parseexec` has wrapped in redirections. -/
def Cmd.addArg {W : Type} : Cmd W → W → Cmd W
  | .exec argv, w => .exec (argv ++ [w])
  | .redir cmd file mode fd, w => .redir (cmd.addArg w) file mode fd
  | cmd, _ => cmd

structure Gettoken where
  ret : UInt8
  word : Word
  s : Nat

section Parse

variable (buf : List UInt8) (es : Nat)

def scan (p : UInt8 → Bool) : Nat → Nat → Nat
  | 0, s => s
  | n + 1, s => if p (buf.getD s 0) then scan p n (s + 1) else s

def skip (s : Nat) : Nat := scan buf (strchr whitespace) (es - s) s

def gettoken (s : Nat) : Gettoken :=
  let q := skip buf es s
  let c := buf.getD q 0
  let (ret, eq) :=
    if c = 0 then (c, q)
    else if strchr (chars ['|', '(', ')', ';', '&', '<']) c then (c, q + 1)
    else if c = chr '>' then if buf.getD (q + 1) 0 = chr '>' then (chr '+', q + 2) else (c, q + 1)
    else (chr 'a', scan buf (fun c => !strchr whitespace c && !strchr symbols c) (es - q) q)
  ⟨ret, ⟨q, eq⟩, skip buf es eq⟩

def peek (s : Nat) (toks : List Char) : Bool × Nat :=
  let s := skip buf es s
  (buf.getD s 0 ≠ 0 ∧ strchr (chars toks) (buf.getD s 0) = true, s)

def parseredirs : Nat → Cmd Word → Nat → Except Stop (Cmd Word × Nat)
  | 0, _, _ => .error .fuel
  | fuel + 1, cmd, s =>
    let (more, s) := peek buf es s ['<', '>']
    if more then
      let tok := gettoken buf es s
      let file := gettoken buf es tok.s
      if file.ret ≠ chr 'a' then .error (.panic "missing file for redirection")
      else
        let cmd :=
          if tok.ret = chr '<' then .redir cmd file.word oRdonly 0
          else if tok.ret = chr '>' then .redir cmd file.word (oWronly ||| oCreate) 1
          -- >>
          else if tok.ret = chr '+' then .redir cmd file.word (oWronly ||| oCreate) 1
          else cmd
        parseredirs fuel cmd file.s
    else .ok (cmd, s)

def parseargs : Nat → Nat → Cmd Word → Nat → Except Stop (Cmd Word × Nat)
  | 0, _, _, _ => .error .fuel
  | fuel + 1, argc, ret, s =>
    let (done, s) := peek buf es s ['|', ')', '&', ';']
    if done then .ok (ret, s)
    else
      let tok := gettoken buf es s
      if tok.ret = 0 then .ok (ret, tok.s)
      else if tok.ret ≠ chr 'a' then .error (.panic "syntax")
      else
        let ret := ret.addArg tok.word
        let argc := argc + 1
        if maxargs ≤ argc then .error (.panic "too many args")
        else do
          let (ret, s) ← parseredirs buf es fuel ret tok.s
          parseargs fuel argc ret s

def parsebacks : Nat → Cmd Word → Nat → Except Stop (Cmd Word × Nat)
  | 0, _, _ => .error .fuel
  | fuel + 1, cmd, s =>
    let (more, s) := peek buf es s ['&']
    if more then parsebacks fuel (.back cmd) (gettoken buf es s).s else .ok (cmd, s)

mutual

def parseline : Nat → Nat → Except Stop (Cmd Word × Nat)
  | 0, _ => .error .fuel
  | fuel + 1, s => do
      let (cmd, s) ← parsepipe fuel s
      let (cmd, s) ← parsebacks buf es fuel cmd s
      let (more, s) := peek buf es s [';']
      if more then do
        let (rest, s) ← parseline fuel (gettoken buf es s).s
        return (.list cmd rest, s)
      else return (cmd, s)

def parsepipe : Nat → Nat → Except Stop (Cmd Word × Nat)
  | 0, _ => .error .fuel
  | fuel + 1, s => do
      let (cmd, s) ← parseexec fuel s
      let (more, s) := peek buf es s ['|']
      if more then do
        let (rest, s) ← parsepipe fuel (gettoken buf es s).s
        return (.pipe cmd rest, s)
      else return (cmd, s)

def parseexec : Nat → Nat → Except Stop (Cmd Word × Nat)
  | 0, _ => .error .fuel
  | fuel + 1, s => do
      let (block, s) := peek buf es s ['(']
      if block then parseblock fuel s
      else do
        let (ret, s) ← parseredirs buf es fuel (.exec []) s
        parseargs buf es fuel 0 ret s

def parseblock : Nat → Nat → Except Stop (Cmd Word × Nat)
  | 0, _ => .error .fuel
  | fuel + 1, s => do
      let (opened, s) := peek buf es s ['(']
      if !opened then .error (.panic "parseblock")
      else do
        let (cmd, s) ← parseline fuel (gettoken buf es s).s
        let (closed, s) := peek buf es s [')']
        if !closed then .error (.panic "syntax - missing )")
        else parseredirs buf es fuel cmd (gettoken buf es s).s

end

end Parse

def nulterminate : Cmd Word → List UInt8 → List UInt8
  | .exec argv, buf => argv.foldl (fun buf w => buf.set w.eq 0) buf
  | .redir cmd file _ _, buf => (nulterminate cmd buf).set file.eq 0
  | .pipe left right, buf | .list left right, buf => nulterminate right (nulterminate left buf)
  | .back cmd, buf => nulterminate cmd buf

def parsecmd (fuel : Nat) (buf : List UInt8) : Except Stop (Cmd Word × List UInt8) := do
  let es := strlen buf
  let (cmd, s) ← parseline buf es fuel 0
  let (_, s) := peek buf es s []
  if s ≠ es then .error (.leftovers s) else return (cmd, nulterminate cmd buf)

def cstr (buf : List UInt8) (s : Nat) : List UInt8 := (buf.drop s).takeWhile (· ≠ 0)

end RainOS.Sh
