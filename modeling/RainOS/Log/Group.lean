import RainOS.Lib.System
import RainOS.Param
import Mathlib.Data.Fintype.Card
import Mathlib.Data.Finset.Card

/-!
# Group commit

`begin_op`, `log_write` and `end_op` of `log.c` as the steps of a transition system over any number
of processes. Every critical section under `log.lock` is one step, a `log_write` is one step, and the
last `end_op` runs `commit()` in a step of its own between the one that sets `log.committing` and
the one that clears it. What the log records about operations, which of its `log_write`s went into
which transaction, is carried along as history: no step reads it.

The invariant ties the three words the code keeps, `outstanding`, `committing` and `lh.n`, to where
the processes are. Everything the group commit promises is read off it.
-/

namespace RainOS.GroupCommit

inductive Stage
  | out
  | woken
  | asleep
  | inside (op : Nat)
  | mustCommit
  | committed
  deriving DecidableEq

def Stage.isInside : Stage → Bool
  | .inside _ => true
  | _ => false

/-- In `end_op`, between setting and clearing `log.committing`. -/
def Stage.isCommitter : Stage → Bool
  | .mustCommit => true
  | .committed => true
  | _ => false

structure Write where
  op : Nat
  sector : Nat
  deriving DecidableEq

/-- What one `commit()` took from memory: the header and the `log_write`s since the one before. -/
structure Transaction where
  sectors : List Nat
  writes : List Write
  deriving DecidableEq

structure State (P : Type) where
  outstanding : Int
  committing : Bool
  /-- `lh.sector[0..n)`. -/
  lh : List Nat
  stage : P → Stage
  nextOp : Nat
  pending : List Write
  history : List Write
  transactions : List Transaction

inductive Panic
  | logCommitting
  | tooBigATransaction
  | logWriteOutsideOfTrans
  deriving DecidableEq

def Panic.message : Panic → String
  | .logCommitting => "log.committing"
  | .tooBigATransaction => "too big a transaction"
  | .logWriteOutsideOfTrans => "log_write outside of trans"

inductive Action (P : Type)
  | beginOp (p : P)
  | logWrite (p : P) (sector : Nat)
  | endOp (p : P)
  | commit (p : P)
  | endCommit (p : P)
  deriving DecidableEq

/-- The state `initlog` leaves: the log recovered, nobody in it. -/
def initlog (P : Type) : State P where
  outstanding := 0
  committing := false
  lh := []
  stage := fun _ => .out
  nextOp := 0
  pending := []
  history := []
  transactions := []

variable {P : Type}

def wakeup (stage : P → Stage) : P → Stage :=
  fun p => if stage p = .asleep then .woken else stage p

/-- The scan of `log_write`: the slot of the sector is overwritten in place, and a sector found in no
slot goes into a new one. -/
def absorb : List Nat → Nat → List Nat
  | [], sector => [sector]
  | slot :: slots, sector => if slot = sector then sector :: slots else slot :: absorb slots sector

variable [DecidableEq P]

def beginOp (s : State P) (p : P) : State P :=
  if s.committing then
    { s with stage := Function.update s.stage p .asleep }
  else if (s.lh.length : Int) + (s.outstanding + 1) * maxOpBlocks > logSize then
    { s with stage := Function.update s.stage p .asleep }
  else
    { s with
      outstanding := s.outstanding + 1
      stage := Function.update s.stage p (.inside s.nextOp)
      nextOp := s.nextOp + 1 }

def logWrite (size : Int) (s : State P) (op sector : Nat) : Except Panic (State P) :=
  if (s.lh.length : Int) ≥ logSize ∨ (s.lh.length : Int) ≥ size - 1 then
    .error .tooBigATransaction
  else if s.outstanding < 1 then
    .error .logWriteOutsideOfTrans
  else
    .ok { s with
      lh := absorb s.lh sector
      pending := s.pending ++ [⟨op, sector⟩]
      history := s.history ++ [⟨op, sector⟩] }

def endOp (s : State P) (p : P) : Except Panic (State P) :=
  let outstanding := s.outstanding - 1
  if s.committing then
    .error .logCommitting
  else if outstanding = 0 then
    .ok { s with
      outstanding := outstanding
      committing := true
      stage := Function.update s.stage p .mustCommit }
  else
    .ok { s with
      outstanding := outstanding
      stage := Function.update (wakeup s.stage) p .out }

/-- `commit()`, as far as the log in memory is concerned. -/
def commit (s : State P) (p : P) : State P :=
  if s.lh.length > 0 then
    { s with
      lh := []
      stage := Function.update s.stage p .committed
      pending := []
      transactions := s.transactions ++ [⟨s.lh, s.pending⟩] }
  else
    { s with stage := Function.update s.stage p .committed }

def endCommit (s : State P) (p : P) : State P :=
  { s with
    committing := false
    stage := Function.update (wakeup s.stage) p .out }

/-- A process takes the step its own place in the code allows; no other is possible for it. -/
def step (size : Int) (s : State P) : Action P → Option (Except Panic (State P))
  | .beginOp p =>
    match s.stage p with
    | .out => some (.ok (beginOp s p))
    | .woken => some (.ok (beginOp s p))
    | _ => none
  | .logWrite p sector =>
    match s.stage p with
    | .inside op => some (logWrite size s op sector)
    | _ => none
  | .endOp p =>
    match s.stage p with
    | .inside _ => some (endOp s p)
    | _ => none
  | .commit p =>
    match s.stage p with
    | .mustCommit => some (.ok (commit s p))
    | _ => none
  | .endCommit p =>
    match s.stage p with
    | .committed => some (.ok (endCommit s p))
    | _ => none

/-- Every interleaving of the processes, with a log of `size` blocks. -/
def system (size : Int) : System (State P) (Action P) := System.ofStep (initlog P) (step size)

end RainOS.GroupCommit
