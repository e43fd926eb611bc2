import Mathlib.Logic.Function.Iterate
import RainOS.Sh.Code

/-!
# The grammar of the shell

Tokens of a line, and the derivations of the grammar with the command that each stands for. Nothing here depends on how the
parser goes about it.
-/

namespace RainOS.Sh

def isSpace (c : UInt8) : Bool := strchr whitespace c

def isWordChar (c : UInt8) : Bool := !strchr whitespace c && !strchr symbols c

inductive Token
  | less
  | greater
  | append
  | pipe
  | amp
  | semi
  | left
  | right
  | word (w : List UInt8)
  deriving DecidableEq

def symbol? (c : UInt8) : Option Token :=
  if c = chr '<' then some .less
  else if c = chr '>' then some .greater
  else if c = chr '|' then some .pipe
  else if c = chr '&' then some .amp
  else if c = chr ';' then some .semi
  else if c = chr '(' then some .left
  else if c = chr ')' then some .right
  else none

/-- The token at the start of a text without leading whitespace, and the text behind it. -/
def firstToken : List UInt8 → Option (Token × List UInt8)
  | [] => none
  | c :: cs =>
    match symbol? c with
    | some .greater => if cs.head? = some (chr '>') then some (.append, cs.tail) else some (.greater, cs)
    | some t => some (t, cs)
    | none => some (.word (c :: cs.takeWhile isWordChar), cs.dropWhile isWordChar)

theorem firstToken_length {text rest : List UInt8} {t : Token} (h : firstToken text = some (t, rest)) :
    rest.length < text.length := by
  cases text with
  | nil => cases h
  | cons c cs =>
    rw [firstToken] at h
    rw [List.length_cons, Nat.lt_succ_iff]
    split at h
    · split at h
      · cases h
        exact Nat.le_trans (Nat.le_of_eq cs.length_tail) (Nat.sub_le ..)
      · cases h
        exact Nat.le_refl _
    · cases h
      exact Nat.le_refl _
    · cases h
      exact (List.dropWhile_suffix _).length_le

def tokens (text : List UInt8) : List Token :=
  match _h : firstToken (text.dropWhile isSpace) with
  | none => []
  | some (t, rest) => t :: tokens rest
termination_by text.length
decreasing_by exact Nat.lt_of_lt_of_le (firstToken_length _h) (List.dropWhile_suffix _).length_le

inductive Direction
  | input
  | output
  | append

namespace Direction

def token : Direction → Token
  | .input => .less
  | .output => .greater
  | .append => .append

def mode : Direction → Nat
  | .input => oRdonly
  | .output | .append => oWronly ||| oCreate

def fd : Direction → Nat
  | .input => 0
  | .output | .append => 1

end Direction

/-- `redir ::= ('<' | '>' | '>>') word`. -/
structure Redir where
  direction : Direction
  file : List UInt8

namespace Redir

def tokens (rs : List Redir) : List Token := rs.flatMap fun r => [r.direction.token, .word r.file]

def wrap (cmd : Cmd (List UInt8)) (rs : List Redir) : Cmd (List UInt8) :=
  rs.foldl (fun cmd r => .redir cmd r.file r.direction.mode r.direction.fd) cmd

end Redir

structure Arg where
  word : List UInt8
  redirs : List Redir

namespace Arg

def tokens (args : List Arg) : List Token := args.flatMap fun a => .word a.word :: Redir.tokens a.redirs

def words (args : List Arg) : List (List UInt8) := args.map word

def allRedirs (args : List Arg) : List Redir := args.flatMap redirs

end Arg

inductive Nonterminal
  | line
  | pipe
  | exec
  | block

/-- The tokens derive from the nonterminal, as the command. -/
inductive Derives : Nonterminal → List Token → Cmd (List UInt8) → Prop
  /-- `line ::= pipe '&'*`. -/
  | line {ts : List Token} {cmd : Cmd (List UInt8)} (k : Nat) : Derives .pipe ts cmd →
      Derives .line (ts ++ List.replicate k .amp) (Cmd.back^[k] cmd)
  /-- `line ::= pipe '&'* ';' line`. -/
  | list {ts us : List Token} {left right : Cmd (List UInt8)} (k : Nat) : Derives .pipe ts left → Derives .line us right →
      Derives .line (ts ++ List.replicate k .amp ++ .semi :: us) (.list (Cmd.back^[k] left) right)
  /-- `pipe ::= exec`. -/
  | single {ts : List Token} {cmd : Cmd (List UInt8)} : Derives .exec ts cmd → Derives .pipe ts cmd
  /-- `pipe ::= exec '|' pipe`. -/
  | pipe {ts us : List Token} {left right : Cmd (List UInt8)} : Derives .exec ts left → Derives .pipe us right →
      Derives .pipe (ts ++ .pipe :: us) (.pipe left right)
  /-- `exec ::= block`. -/
  | group {ts : List Token} {cmd : Cmd (List UInt8)} : Derives .block ts cmd → Derives .exec ts cmd
  /-- `exec ::= redir* (word redir*)*`. -/
  | exec (rs : List Redir) (args : List Arg) : args.length ≤ maxargs - 1 →
      Derives .exec (Redir.tokens rs ++ Arg.tokens args)
        (Redir.wrap (.exec (Arg.words args)) (rs ++ Arg.allRedirs args))
  /-- `block ::= '(' line ')' redir*`. -/
  | block {ts : List Token} {cmd : Cmd (List UInt8)} (rs : List Redir) : Derives .line ts cmd →
      Derives .block (.left :: ts ++ .right :: Redir.tokens rs) (Redir.wrap cmd rs)

end RainOS.Sh
