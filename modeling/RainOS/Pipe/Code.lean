import Mathlib.Data.Fintype.Basic
import RainOS.Lib.Circular
import RainOS.Lib.System
import RainOS.Param

/-!
# Pipes

`pipe.c` for one pipe and any number of processes. A stretch of `pipewrite` or `piperead` between taking `p->lock` and
releasing it, to return or in `sleep`, is one step; so is `pipeclose`. `kill` may come between any two of them: a stretch
looks at `proc->killed` at most once.

Every stretch of a call is noted under the number of the call, and so are the results of `pipewrite`.
-/

namespace RainOS.Pipes

def pipeSize : UInt32 := 512

structure Pipe where
  data : Nat → UInt8
  nread : UInt32
  nwrite : UInt32
  readopen : Bool
  writeopen : Bool

namespace Pipe

/-- The loop of `pipewrite` up to the point where the pipe is full or `todo` bytes are stored; `i` is how many of the
bytes at `addr` are. -/
def fill (addr : Mem) : Nat → Pipe → Nat → Pipe × Nat
  | 0, p, i => (p, i)
  | todo + 1, p, i =>
    if p.nwrite = p.nread + pipeSize then (p, i)
    else fill addr todo
      { p with data := store p.data (p.nwrite % pipeSize).toNat (addr i), nwrite := p.nwrite + 1 } (i + 1)

def drain : Nat → Pipe → Pipe × List UInt8
  | 0, p => (p, [])
  | n + 1, p =>
    if p.nread = p.nwrite then (p, [])
    else
      let rest := drain n { p with nread := p.nread + 1 }
      (rest.1, p.data (p.nread % pipeSize).toNat :: rest.2)

def isOpen (p : Pipe) (writable : Bool) : Bool := if writable then p.writeopen else p.readopen

end Pipe

/-- What a process sleeps on: `&p->nread` or `&p->nwrite`. -/
inductive Chan
  | nread
  | nwrite
  deriving DecidableEq

/-- The call a process is in: `pipewrite` with `i` of the `n` bytes at `addr` stored, or `piperead`. -/
inductive Call
  | none
  | write (id : Nat) (addr : Mem) (n : Int) (i : Nat)
  | read (n : Int)

structure Proc where
  call : Call
  asleep : Option Chan
  killed : Bool

structure Return where
  id : Nat
  addr : Mem
  n : Int
  result : Int

structure State (P : Type) where
  pipe : Pipe
  proc : P → Proc
  /-- How many calls of `pipewrite` there were, what each of their stretches stored, what each stretch of `piperead` that
  returned gave, and the results of `pipewrite`. -/
  calls : Nat
  writes : List (Nat × List UInt8)
  reads : List (List UInt8)
  returns : List Return

variable {P : Type} [DecidableEq P]

def State.setProc (s : State P) (p : P) (f : Proc → Proc) : State P :=
  { s with proc := Function.update s.proc p (f (s.proc p)) }

def Proc.wake (c : Chan) (q : Proc) : Proc := if q.asleep = some c then { q with asleep := none } else q

def wakeup (s : State P) (c : Chan) : State P := { s with proc := fun q => (s.proc q).wake c }

def leave (s : State P) (p : P) : State P := s.setProc p fun q => { q with call := .none }

def pipewrite (s : State P) (p : P) (id : Nat) (addr : Mem) (n : Int) (i : Nat) : State P :=
  let after := s.pipe.fill addr (n - i).toNat i
  let s := { s with
    pipe := after.1
    writes := s.writes ++ [(id, (List.range (after.2 - i)).map fun j => addr (i + j))] }
  if n ≤ after.2 then leave { wakeup s .nread with returns := s.returns ++ [⟨id, addr, n, n⟩] } p
  else if after.1.readopen = false ∨ (s.proc p).killed then leave { s with returns := s.returns ++ [⟨id, addr, n, -1⟩] } p
  else (wakeup s .nread).setProc p fun q => { q with call := .write id addr n after.2, asleep := some .nwrite }

def piperead (s : State P) (p : P) (n : Int) : State P :=
  if s.pipe.nread = s.pipe.nwrite ∧ s.pipe.writeopen = true then
    if (s.proc p).killed then leave s p
    else s.setProc p fun q => { q with asleep := some .nread }
  else
    let after := s.pipe.drain n.toNat
    leave (wakeup { s with pipe := after.1, reads := s.reads ++ [after.2] } .nwrite) p

def pipeclose (s : State P) (writable : Bool) : State P :=
  if writable then wakeup { s with pipe := { s.pipe with writeopen := false } } .nread
  else wakeup { s with pipe := { s.pipe with readopen := false } } .nwrite

def kill (s : State P) (q : P) : State P := s.setProc q fun q => { q with killed := true, asleep := none }

inductive Action (P : Type)
  | write (p : P) (addr : Mem) (n : Int)
  | read (p : P) (n : Int)
  | run (p : P)
  | pipeclose (writable : Bool)
  | kill (q : P)

def step (s : State P) : Action P → Option (Except Halt (State P))
  | .write p addr n =>
    match (s.proc p).call with
    | .none =>
      if s.pipe.writeopen then
        some (.ok ({ s with calls := s.calls + 1 }.setProc p fun q => { q with call := .write s.calls addr n 0 }))
      else none
    | _ => none
  | .read p n =>
    match (s.proc p).call with
    | .none => if s.pipe.readopen then some (.ok (s.setProc p fun q => { q with call := .read n })) else none
    | _ => none
  | .run p =>
    if (s.proc p).asleep = none then
      match (s.proc p).call with
      | .none => none
      | .write id addr n i => some (.ok (pipewrite s p id addr n i))
      | .read n => some (.ok (piperead s p n))
    else none
  | .pipeclose writable =>
    if s.pipe.isOpen writable then some (.ok (pipeclose s writable)) else none
  | .kill q => some (.ok (kill s q))

/-- The call is made through the writable end, or the readable one. -/
def Call.uses (writable : Bool) : Call → Bool
  | .none => false
  | .write .. => writable
  | .read _ => !writable

/-- `fileclose` closes an end of the pipe when the last descriptor is gone: no process is in a call through it. -/
def Disciplined (s : State P) : Action P → Prop
  | .pipeclose writable => ∀ p, (s.proc p).call.uses writable = false
  | _ => True

instance [Fintype P] (s : State P) : (a : Action P) → Decidable (Disciplined s a)
  | .pipeclose writable => inferInstanceAs (Decidable (∀ p, (s.proc p).call.uses writable = false))
  | .write .. | .read .. | .run _ | .kill _ => isTrue trivial

/-- A pipe as `pipealloc` makes it, in a page with any contents. -/
def pipealloc (P : Type) (data : Nat → UInt8) : State P where
  pipe := ⟨data, 0, 0, true, true⟩
  proc _ := ⟨.none, none, false⟩
  calls := 0
  writes := []
  reads := []
  returns := []

def system (P : Type) [DecidableEq P] (data : Nat → UInt8) : System (State P) (Action P) :=
  (System.ofStep (pipealloc P data) step).restrict Disciplined

end RainOS.Pipes
