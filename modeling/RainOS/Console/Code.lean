import Mathlib.Data.Fintype.Basic
import RainOS.Lib.Circular
import RainOS.Lib.System
import RainOS.Param

/-!
# Console input

`consoleintr` and `consoleread` for any number of reading processes. `consoleintr` holds `input.lock` for all characters
that `getc` has; a stretch of `consoleread` goes from taking the lock to releasing it, to return or in `sleep`. The inode
lock, what is echoed and the process listing are left out.

The bytes that were committed are noted, and what each stretch took, under the number of its call.
-/

namespace RainOS.Console

def inputBuf : UInt32 := 128

def ctrl (x : Char) : UInt8 := (x.toNat - '@'.toNat).toUInt8

def newline : UInt8 := 10

def carriageReturn : UInt8 := 13

def del : UInt8 := 0x7f

structure Input where
  buf : Nat → UInt8
  /-- Read index. -/
  r : UInt32
  /-- Write index. -/
  w : UInt32
  /-- Edit index. -/
  e : UInt32

namespace Input

def get (i : Input) (index : UInt32) : UInt8 := i.buf (index % inputBuf).toNat

def bytes (i : Input) (first last : UInt32) : List UInt8 :=
  (List.range (last - first).toNat).map fun k => i.get (first + .ofNat k)

/-- The loop of ^U. It ends at the write index, which `fuel` steps reach. -/
def killLine : Nat → Input → Input
  | 0, i => i
  | fuel + 1, i => if i.e ≠ i.w ∧ i.get (i.e - 1) ≠ newline then killLine fuel { i with e := i.e - 1 } else i

end Input

/-- What a stretch of `consoleread` does: the bytes it stores, whether it takes ^D, and whether it sleeps at the end. -/
structure Stretch where
  input : Input
  bytes : List UInt8
  eof : Bool
  sleeps : Bool

/-- The loop of `consoleread` up to the point where it returns or sleeps, when `n` of `target` bytes are still wanted. -/
def Input.drain (target : Nat) : Nat → Input → Stretch
  | 0, i => ⟨i, [], false, false⟩
  | n + 1, i =>
    if i.r = i.w then ⟨i, [], false, true⟩
    else
      let c := i.get i.r
      let i := { i with r := i.r + 1 }
      if c = ctrl 'D' then
        -- Save ^D for next time, to make sure caller gets a 0-byte result.
        if n + 1 < target then ⟨{ i with r := i.r - 1 }, [], false, false⟩
        else ⟨i, [], true, false⟩
      else if c = newline then ⟨i, [c], false, false⟩
      else
        let rest := drain target n i
        { rest with bytes := c :: rest.bytes }

/-- A call of `consoleread`: `n` of `target` bytes are still wanted, and `dst` are stored. -/
structure Read where
  id : Nat
  target : Nat
  n : Nat
  dst : List UInt8

structure Proc where
  call : Option Read
  /-- It sleeps on `&input.r`. -/
  asleep : Bool
  killed : Bool

structure State (P : Type) where
  input : Input
  proc : P → Proc
  committed : List UInt8
  /-- How many calls there were, what each stretch took from the buffer, and the calls that returned a number of bytes. -/
  calls : Nat
  taken : List (Nat × List UInt8)
  returns : List Read

variable {P : Type}

def wakeup (s : State P) : State P := { s with proc := fun q => { s.proc q with asleep := false } }

def consoleintrChar (s : State P) (c : UInt8) : State P :=
  if c = ctrl 'P' then s
  else if c = ctrl 'U' then { s with input := s.input.killLine (s.input.e - s.input.w).toNat }
  else if c = ctrl 'H' ∨ c = del then
    if s.input.e ≠ s.input.w then { s with input := { s.input with e := s.input.e - 1 } } else s
  else if c ≠ 0 ∧ s.input.e - s.input.r < inputBuf then
    let c := if c = carriageReturn then newline else c
    let i := { s.input with buf := store s.input.buf (s.input.e % inputBuf).toNat c, e := s.input.e + 1 }
    if c = newline ∨ c = ctrl 'D' ∨ i.e = i.r + inputBuf then
      wakeup { s with input := { i with w := i.e }, committed := s.committed ++ i.bytes i.w i.e }
    else { s with input := i }
  else s

/-- The characters that `getc` gives until it has no more. -/
def consoleintr (s : State P) (chars : List UInt8) : State P := chars.foldl consoleintrChar s

section Calls

variable [DecidableEq P]

def State.setProc (s : State P) (p : P) (f : Proc → Proc) : State P :=
  { s with proc := Function.update s.proc p (f (s.proc p)) }

def consoleread (s : State P) (p : P) (call : Read) : State P :=
  let after := s.input.drain call.target call.n
  let call := { call with n := call.n - after.bytes.length, dst := call.dst ++ after.bytes }
  let s := { s with
    input := after.input
    taken := s.taken ++ [(call.id, after.bytes ++ if after.eof then [ctrl 'D'] else [])] }
  if after.sleeps then
    if (s.proc p).killed then s.setProc p fun q => { q with call := none }
    else s.setProc p fun q => { q with call := some call, asleep := true }
  else { s with returns := s.returns ++ [call] }.setProc p fun q => { q with call := none }

def kill (s : State P) (p : P) : State P := s.setProc p fun q => { q with killed := true, asleep := false }

inductive Action (P : Type)
  | consoleintr (chars : List UInt8)
  | read (p : P) (n : Nat)
  | run (p : P)
  | kill (p : P)

def step (s : State P) : Action P → Option (Except Halt (State P))
  | .consoleintr chars => some (.ok (consoleintr s chars))
  | .read p n =>
    match (s.proc p).call with
    | none => some (.ok ({ s with calls := s.calls + 1 }.setProc p fun q => { q with call := some ⟨s.calls, n, n, []⟩ }))
    | some _ => none
  | .run p =>
    match (s.proc p).call with
    | none => none
    | some call => if (s.proc p).asleep then none else some (.ok (consoleread s p call))
  | .kill p => some (.ok (kill s p))

/-- A read asks for at least one byte, and no process is killed. -/
def Patient (_ : State P) : Action P → Prop
  | .read _ n => 0 < n
  | .kill _ => False
  | _ => True

instance (s : State P) : (a : Action P) → Decidable (Patient s a)
  | .read _ n => inferInstanceAs (Decidable (0 < n))
  | .kill _ => isFalse id
  | .consoleintr _ | .run _ => isTrue trivial

def consoleinit (P : Type) : State P where
  input := ⟨fun _ => 0, 0, 0, 0⟩
  proc _ := ⟨none, false, false⟩
  committed := []
  calls := 0
  taken := []
  returns := []

def system (P : Type) [DecidableEq P] : System (State P) (Action P) :=
  (System.ofStep (consoleinit P) step).restrict Patient

end Calls

end RainOS.Console
