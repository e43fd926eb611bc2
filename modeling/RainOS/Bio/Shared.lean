import RainOS.Lib.Ring
import RainOS.Lib.System
import RainOS.Param

/-!
# The buffer cache with many processes

`bio.c` with its buffers, the list through `prev` and `next`, and any number of processes that call it. A section
under `bcache.lock` is one step. A process that finds its buffer busy sleeps and looks again when it wakes; between
its calls it may hold any buffers. A request to the disk is made in one step and done in a later one.

Who changes the data of a buffer must call `log_write` or `bwrite` before `brelse`; `touched` says that it still has
to. `log_write` is here for what it does to the buffer.
-/

namespace RainOS.Bcache

open Function

structure Key where
  dev : Nat
  sector : Nat
  deriving DecidableEq

structure Buf where
  key : Key
  busy : Bool
  valid : Bool
  dirty : Bool
  data : Block

def noDev : Nat := 2 ^ 32 - 1

/-- Where a process is: in `bget`, asleep there, with the buffer but not its data, and in a disk request. -/
inductive Call (n : Nat)
  | idle
  | bget (key : Key)
  | asleep (key : Key) (b : Fin n)
  | got (key : Key) (b : Fin n)
  | reading (key : Key) (b : Fin n)
  | writing (b : Fin n)
  deriving DecidableEq

/-- A link of the list leads to a buffer or to `bcache.head`. -/
abbrev Link (n : Nat) := Option (Fin n)

structure Links (n : Nat) where
  next : Link n → Link n
  prev : Link n → Link n

structure State (n : Nat) (P : Type) where
  buf : Fin n → Buf
  links : Links n
  disk : Key → Block
  call : P → Call n
  held : P → Fin n → Bool
  touched : Fin n → Bool

variable {n : Nat} {P : Type} [DecidableEq P]

def Links.push (l : Links n) (b : Fin n) : Links n :=
  let next := update l.next (some b) (l.next none)
  let prev := update l.prev (some b) none
  let prev := update prev (next none) (some b)
  let next := update next none (some b)
  ⟨next, prev⟩

def Links.toFront (l : Links n) (b : Fin n) : Links n :=
  let prev := update l.prev (l.next (some b)) (l.prev (some b))
  let next := update l.next (prev (some b)) (l.next (some b))
  Links.push ⟨next, prev⟩ b

def binit (n : Nat) : Links n := (List.finRange n).foldl Links.push ⟨fun _ => none, fun _ => none⟩

@[simp] def State.setBuf (s : State n P) (b : Fin n) (f : Buf → Buf) : State n P := { s with buf := update s.buf b (f (s.buf b)) }

@[simp] def State.setCall (s : State n P) (p : P) (call : Call n) : State n P := { s with call := update s.call p call }

@[simp] def State.hold (s : State n P) (p : P) (b : Fin n) (holds : Bool) : State n P :=
  { s with held := update s.held p (update (s.held p) b holds) }

def onLink (test : Fin n → Bool) : Link n → Bool
  | none => false
  | some b => test b

def bget (s : State n P) (p : P) (key : Key) : Except Halt (State n P) :=
  match walk s.links.next none (onLink fun b => (s.buf b).key = key) (n + 1) (s.links.next none) with
  | some (some (some b)) =>
    if (s.buf b).busy then .ok (s.setCall p (.asleep key b))
    else .ok (((s.setBuf b fun c => { c with busy := true }).setCall p (.got key b)).hold p b true)
  | some _ =>
    match walk s.links.prev none (onLink fun b => !(s.buf b).busy && !(s.buf b).dirty) (n + 1) (s.links.prev none) with
    | some (some (some b)) =>
      .ok (((s.setBuf b fun c => ⟨key, true, false, false, c.data⟩).setCall p (.got key b)).hold p b true)
    | some _ => .error (.panic "bget: no buffers")
    | none => .error .spin
  | none => .error .spin

def iderw (s : State n P) (p : P) (b : Fin n) (call : Call n) : Except Halt (State n P) :=
  if (s.buf b).busy = false then .error (.panic "iderw: buf not busy")
  else if (s.buf b).valid ∧ (s.buf b).dirty = false then .error (.panic "iderw: nothing to do")
  else .ok (s.setCall p call)

/-- The disk has done the request: a dirty buffer was written, and any other was read. -/
def complete (s : State n P) (p : P) (b : Fin n) : State n P :=
  let c := s.buf b
  let s := s.setCall p .idle
  if c.dirty then
    { s.setBuf b fun c => { c with valid := true, dirty := false } with
      disk := update s.disk c.key c.data
      touched := update s.touched b false }
  else s.setBuf b fun c => { c with valid := true, data := s.disk c.key }

def Call.wake (b : Fin n) : Call n → Call n
  | .asleep key c => if c = b then .bget key else .asleep key c
  | call => call

def brelse (s : State n P) (p : P) (b : Fin n) : Except Halt (State n P) :=
  if (s.buf b).busy = false then .error (.panic "brelse")
  else
    let s := { s with links := s.links.toFront b }
    let s := (s.setBuf b fun c => { c with busy := false }).hold p b false
    .ok { s with call := fun q => (s.call q).wake b }

inductive Action (n : Nat) (P : Type)
  | bread (p : P) (key : Key)
  | bget (p : P)
  | wake (p : P)
  | check (p : P)
  | complete (p : P)
  | store (p : P) (b : Fin n) (data : Block)
  | logWrite (p : P) (b : Fin n)
  | bwrite (p : P) (b : Fin n)
  | brelse (p : P) (b : Fin n)

def State.owns (s : State n P) (p : P) (b : Fin n) : Prop := (s.call p matches .idle) ∧ s.held p b = true

instance (s : State n P) (p : P) (b : Fin n) : Decidable (s.owns p b) := inferInstanceAs (Decidable (_ ∧ _))

def step (s : State n P) : Action n P → Option (Except Halt (State n P))
  | .bread p key =>
    match s.call p with
    | .idle => if key.dev ≠ noDev then some (.ok (s.setCall p (.bget key))) else none
    | _ => none
  | .bget p =>
    match s.call p with
    | .bget key => some (bget s p key)
    | _ => none
  | .wake p =>
    match s.call p with
    | .asleep key _ => some (.ok (s.setCall p (.bget key)))
    | _ => none
  | .check p =>
    match s.call p with
    | .got key b =>
      if (s.buf b).valid then some (.ok (s.setCall p .idle)) else some (iderw s p b (.reading key b))
    | _ => none
  | .complete p =>
    match s.call p with
    | .reading _ b => some (.ok (complete s p b))
    | .writing b => some (.ok (complete s p b))
    | _ => none
  | .store p b data =>
    if s.owns p b then
      some (.ok { s.setBuf b fun c => { c with data := data } with touched := update s.touched b true })
    else none
  | .logWrite p b =>
    if s.owns p b then
      some (.ok { s.setBuf b fun c => { c with dirty := true } with touched := update s.touched b false })
    else none
  | .bwrite p b =>
    if s.owns p b then
      if (s.buf b).busy = false then some (.error (.panic "bwrite"))
      else some (iderw (s.setBuf b fun c => { c with dirty := true }) p b (.writing b))
    else none
  | .brelse p b => if s.owns p b ∧ s.touched b = false then some (brelse s p b) else none

def boot (n : Nat) (P : Type) (disk : Key → Block) : State n P where
  buf := fun _ => ⟨⟨noDev, 0⟩, false, false, false, fun _ => 0⟩
  links := binit n
  disk := disk
  call := fun _ => .idle
  held := fun _ _ => false
  touched := fun _ => false

def system (n : Nat) (P : Type) [DecidableEq P] (disk : Key → Block) : System (State n P) (Action n P) :=
  System.ofStep (boot n P disk) step

end RainOS.Bcache
