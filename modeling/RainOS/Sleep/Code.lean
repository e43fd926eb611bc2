import RainOS.Sched.Code

/-!
# sleep and wakeup, line by line

Processes that share a condition, a lock `lk` that guards it and a channel. Each step is one line of `sleep`, `wakeup`,
`yield`, `kill` or of the scheduler, by any processor; a processor that waits for a spinlock takes no step. The lock
may be `ptable.lock` itself: then `sleep` does not take it again, and `wakeup1` is called under it.

A process holds `lk` when it changes the condition and when it sleeps on the channel, and it sleeps there only if it
found the condition false. One that makes the condition true `owes` a wakeup until it has been through the table.
-/

namespace RainOS.Sleep

open Sched (ProcState)

inductive Lock
  | ptable
  | other
  deriving DecidableEq

inductive Pc (n : Nat)
  | out
  | crit
  | sleepAcquire (chan : Nat)
  | sleepRelease (chan : Nat)
  | sleepChan (chan : Nat)
  | sleepState
  | sleepSched
  | sleepTidy
  | sleepUnlock
  | sleepLock
  | slept
  | wakeAcquire (chan : Nat) (held : Bool)
  | wakeLoop (chan : Nat) (held : Bool) (i : Nat)
  | wakeRelease (held : Bool)
  | yieldAcquire
  | yieldState
  | yieldSched
  | yieldRelease
  | killAcquire (q : Fin n)
  | killSet (q : Fin n)
  | killRelease

inductive Cpu (n : Nat)
  | idle
  | scan (i : Nat)
  | runs (p : Fin n)

structure State (n : Nat) (C : Type) where
  cond : Bool
  owes : Fin n → Bool
  pc : Fin n → Pc n
  state : Fin n → ProcState
  chan : Fin n → Option Nat
  holder : Lock → Option C
  cpu : C → Cpu n

variable {n : Nat} {C : Type} [DecidableEq C]

def State.setPc (s : State n C) (p : Fin n) (pc : Pc n) : State n C := { s with pc := Function.update s.pc p pc }

def State.setState (s : State n C) (p : Fin n) (state : ProcState) : State n C :=
  { s with state := Function.update s.state p state }

def State.setChan (s : State n C) (p : Fin n) (chan : Option Nat) : State n C :=
  { s with chan := Function.update s.chan p chan }

def State.setCpu (s : State n C) (c : C) (cpu : Cpu n) : State n C := { s with cpu := Function.update s.cpu c cpu }

def acquire (s : State n C) (c : C) (l : Lock) : Option (Except Halt (State n C)) :=
  match s.holder l with
  | none => some (.ok { s with holder := Function.update s.holder l (some c) })
  | some c' => if c' = c then some (.error (.panic "acquire")) else none

def release (s : State n C) (c : C) (l : Lock) : Option (Except Halt (State n C)) :=
  if s.holder l = some c then some (.ok { s with holder := Function.update s.holder l none })
  else some (.error (.panic "release"))

/-- Switch to the scheduler, which goes on with its loop after the process. -/
def sched (s : State n C) (c : C) (p : Fin n) : Option (Except Halt (State n C)) :=
  if s.holder .ptable ≠ some c then some (.error (.panic "sched ptable.lock"))
  else if s.holder .other = some c then some (.error (.panic "sched locks"))
  else if s.state p = .running then some (.error (.panic "sched running"))
  else some (.ok (s.setCpu c (.scan (p + 1))))

def wakeSlot (s : State n C) (chan : Nat) (q : Fin n) : State n C :=
  if s.state q = .sleeping ∧ s.chan q = some chan then s.setState q .runnable else s

def scheduler (s : State n C) (c : C) : Option (Except Halt (State n C)) :=
  match s.cpu c with
  | .idle => acquire (s.setCpu c (.scan 0)) c .ptable
  | .scan i =>
    if h : i < n then
      if s.state ⟨i, h⟩ = .runnable then some (.ok ((s.setState ⟨i, h⟩ .running).setCpu c (.runs ⟨i, h⟩)))
      else some (.ok (s.setCpu c (.scan (i + 1))))
    else release (s.setCpu c .idle) c .ptable
  | .runs _ => none

/-- What a process does where the code leaves it a choice. -/
inductive Choice (n : Nat)
  | acquire
  | release
  | produce
  | consume
  | sleep (chan : Nat)
  | wakeup (chan : Nat)
  | yield
  | kill (q : Fin n)

section Process

variable (lk : Lock) (chan : Nat)

/-- Outside the lines of the calls: with no lock, or with `lk`. -/
def choose (s : State n C) (c : C) (p : Fin n) : Pc n → Choice n → Option (Except Halt (State n C))
  | .out, .acquire => acquire (s.setPc p .crit) c lk
  | .out, .wakeup a => some (.ok (s.setPc p (.wakeAcquire a false)))
  | .out, .yield => some (.ok (s.setPc p .yieldAcquire))
  | .out, .kill q => some (.ok (s.setPc p (.killAcquire q)))
  | .crit, .release => release (s.setPc p .out) c lk
  | .crit, .produce => some (.ok { s with cond := true, owes := Function.update s.owes p (s.owes p || !s.cond) })
  | .crit, .consume => some (.ok { s with cond := false })
  | .crit, .sleep a =>
    -- A consumer sleeps on the channel while the condition is false.
    if a = chan ∧ s.cond then none
    else some (.ok (s.setPc p (if lk = .ptable then .sleepChan a else .sleepAcquire a)))
  | .crit, .wakeup a => some (.ok (s.setPc p (if lk = .ptable then .wakeLoop a true 0 else .wakeAcquire a true)))
  | _, _ => none

/-- The next line of `sleep`, `wakeup`, `yield` or `kill`. -/
def advance (s : State n C) (c : C) (p : Fin n) : Pc n → Option (Except Halt (State n C))
  | .out => none
  | .crit => none
  | .sleepAcquire a => acquire (s.setPc p (.sleepRelease a)) c .ptable
  | .sleepRelease a => release (s.setPc p (.sleepChan a)) c lk
  | .sleepChan a => some (.ok ((s.setPc p .sleepState).setChan p (some a)))
  | .sleepState => some (.ok ((s.setPc p .sleepSched).setState p .sleeping))
  | .sleepSched => sched (s.setPc p .sleepTidy) c p
  | .sleepTidy => some (.ok ((s.setPc p (if lk = .ptable then .slept else .sleepUnlock)).setChan p none))
  | .sleepUnlock => release (s.setPc p .sleepLock) c .ptable
  | .sleepLock => acquire (s.setPc p .slept) c lk
  | .slept => some (.ok (s.setPc p .crit))
  | .wakeAcquire a held => acquire (s.setPc p (.wakeLoop a held 0)) c .ptable
  | .wakeLoop a held i =>
    if h : i < n then some (.ok (wakeSlot (s.setPc p (.wakeLoop a held (i + 1))) a ⟨i, h⟩))
    else
      let s := if a = chan then { s with owes := Function.update s.owes p false } else s
      some (.ok (s.setPc p (if lk = .ptable ∧ held then .crit else .wakeRelease held)))
  | .wakeRelease held => release (s.setPc p (if held then .crit else .out)) c .ptable
  | .yieldAcquire => acquire (s.setPc p .yieldState) c .ptable
  | .yieldState => some (.ok ((s.setPc p .yieldSched).setState p .runnable))
  | .yieldSched => sched (s.setPc p .yieldRelease) c p
  | .yieldRelease => release (s.setPc p .out) c .ptable
  | .killAcquire q => acquire (s.setPc p (.killSet q)) c .ptable
  | .killSet q =>
    let s := s.setPc p .killRelease
    some (.ok (if s.state q = .sleeping then s.setState q .runnable else s))
  | .killRelease => release (s.setPc p .out) c .ptable

/-- A step of a processor, with a choice if the process it runs has one. -/
def step (s : State n C) : C × Option (Choice n) → Option (Except Halt (State n C))
  | (c, choice) =>
    match s.cpu c, choice with
    | .runs p, some choice => choose lk chan s c p (s.pc p) choice
    | .runs p, none => advance lk chan s c p (s.pc p)
    | _, none => scheduler s c
    | _, some _ => none

/-- Any processes are ready to run for the first time, the condition is true or false, and all is at rest. -/
def system (n : Nat) (C : Type) [DecidableEq C] : System (State n C) (C × Option (Choice n)) where
  Init s := (∀ p, s.owes p = false ∧ s.pc p = .yieldRelease ∧ (s.state p = .runnable ∨ s.state p = .unused)) ∧
    (∀ l, s.holder l = none) ∧ ∀ c, s.cpu c = .idle
  Step s a s' := step lk chan s a = some (.ok s')

end Process

end RainOS.Sleep
