import Mathlib.Logic.Function.Basic
import RainOS.Fs.Layout
import RainOS.Lib.System

/-!
# The inode cache with many processes

`iget`, `idup`, `ilock`, `iunlock` and `iput` of `fs.c`, for any number of entries and processes. A section under
`icache.lock` is one step, and so is each access to the inode on disk. A process that finds an inode busy sleeps until it
is unlocked; it may hold locks on any inodes between its calls.

The references that were handed out and not put back are kept in a list, each with the entry it points to and the inode it
was asked for.
-/

namespace RainOS.Icache

open Function

structure Key where
  dev : Nat
  inum : Nat
  deriving DecidableEq

structure Inode extends Fs.Dinode where
  key : Key
  ref : Nat
  busy : Bool
  valid : Bool

/-- Where a process is: in `ilock` before the section, asleep, and with the inode busy; in the part of `iput` that frees
the inode, before and after it is cleared on disk. -/
inductive Call (n : Nat)
  | idle
  | ilock (ip : Fin n)
  | asleep (ip : Fin n)
  | load (ip : Fin n)
  | itrunc (ip : Fin n)
  | ifree (ip : Fin n) (key : Key)
  deriving DecidableEq

structure State (n : Nat) (P : Type) where
  inode : Fin n → Inode
  disk : Key → Fs.Dinode
  call : P → Call n
  /-- Between `ilock` and `iunlock`. -/
  locked : P → Fin n → Bool
  refs : List (Fin n × Key)

variable {n : Nat} {P : Type}

def State.setInode (s : State n P) (ip : Fin n) (f : Inode → Inode) : State n P :=
  { s with inode := update s.inode ip (f (s.inode ip)) }

def Call.wake (ip : Fin n) : Call n → Call n
  | .asleep ip' => if ip' = ip then .ilock ip' else .asleep ip'
  | call => call

def wakeup (s : State n P) (ip : Fin n) : State n P := { s with call := fun q => (s.call q).wake ip }

def iget (s : State n P) (key : Key) : Except Halt (State n P) :=
  match (List.finRange n).find? fun ip => 0 < (s.inode ip).ref ∧ (s.inode ip).key = key with
  | some ip => .ok { s.setInode ip fun c => { c with ref := c.ref + 1 } with refs := (ip, key) :: s.refs }
  | none =>
    match (List.finRange n).find? fun ip => (s.inode ip).ref = 0 with
    | some ip =>
      .ok { s.setInode ip fun c => { c with key := key, ref := 1, busy := false, valid := false } with
        refs := (ip, key) :: s.refs }
    | none => .error (.panic "iget: no inodes")

def idup (s : State n P) (ip : Fin n) (key : Key) : State n P :=
  { s.setInode ip fun c => { c with ref := c.ref + 1 } with refs := (ip, key) :: s.refs }

section Calls

variable [DecidableEq P]

def State.setCall (s : State n P) (p : P) (call : Call n) : State n P := { s with call := update s.call p call }

def State.setLocked (s : State n P) (p : P) (ip : Fin n) (locked : Bool) : State n P :=
  { s with locked := update s.locked p (update (s.locked p) ip locked) }

def ilock (s : State n P) (p : P) (ip : Fin n) : Except Halt (State n P) :=
  if (s.inode ip).ref < 1 then .error (.panic "ilock") else .ok (s.setCall p (.ilock ip))

def ilockSection (s : State n P) (p : P) (ip : Fin n) : State n P :=
  if (s.inode ip).busy then s.setCall p (.asleep ip)
  else ((s.setInode ip fun c => { c with busy := true }).setCall p (.load ip)).setLocked p ip true

def load (s : State n P) (p : P) (ip : Fin n) : Except Halt (State n P) :=
  if (s.inode ip).valid then .ok (s.setCall p .idle)
  else
    let d := s.disk (s.inode ip).key
    if d.type = 0 then .error (.panic "ilock: no type")
    else .ok ((s.setInode ip fun c => { c with toDinode := d, valid := true }).setCall p .idle)

def iunlock (s : State n P) (p : P) (ip : Fin n) : Except Halt (State n P) :=
  if (s.inode ip).busy = false ∨ (s.inode ip).ref < 1 then .error (.panic "iunlock")
  else .ok (wakeup ((s.setInode ip fun c => { c with busy := false, valid := false }).setLocked p ip false) ip)

def iput (s : State n P) (p : P) (ip : Fin n) (key : Key) : Except Halt (State n P) :=
  let c := s.inode ip
  if c.ref = 1 ∧ c.valid = true ∧ c.nlink = 0 then
    if c.busy then .error (.panic "iput busy")
    else .ok ((s.setInode ip fun c => { c with busy := true }).setCall p (.itrunc ip))
  else .ok { s.setInode ip fun c => { c with ref := c.ref - 1 } with refs := s.refs.erase (ip, key) }

def itrunc (s : State n P) (p : P) (ip : Fin n) : State n P :=
  let c := s.inode ip
  let d : Fs.Dinode := { c.toDinode with type := 0, size := 0, addrs := fun _ => 0 }
  { (s.setInode ip fun c => { c with toDinode := d }).setCall p (.ifree ip c.key) with disk := update s.disk c.key d }

def ifree (s : State n P) (p : P) (ip : Fin n) (key : Key) : State n P :=
  let s := wakeup (s.setInode ip fun c => { c with busy := false, valid := false, ref := c.ref - 1 }) ip
  { s.setCall p .idle with refs := s.refs.erase (ip, key) }

inductive Action (n : Nat) (P : Type)
  | iget (p : P) (key : Key)
  | idup (p : P) (ip : Fin n) (key : Key)
  | ilock (p : P) (ip : Fin n)
  | run (p : P)
  | iunlock (p : P) (ip : Fin n)
  | iput (p : P) (ip : Fin n) (key : Key)
  /-- The holder of the lock changes the inode in memory, and copies it to disk. -/
  | modify (p : P) (ip : Fin n) (d : Fs.Dinode)
  | iupdate (p : P) (ip : Fin n)

def step (s : State n P) : Action n P → Option (Except Halt (State n P))
  | .iget p key => if s.call p = .idle then some (iget s key) else none
  | .idup p ip key => if s.call p = .idle then some (.ok (idup s ip key)) else none
  | .ilock p ip => if s.call p = .idle then some (ilock s p ip) else none
  | .run p =>
    match s.call p with
    | .idle | .asleep _ => none
    | .ilock ip => some (.ok (ilockSection s p ip))
    | .load ip => some (load s p ip)
    | .itrunc ip => some (.ok (itrunc s p ip))
    | .ifree ip key => some (.ok (ifree s p ip key))
  | .iunlock p ip => if s.call p = .idle then some (iunlock s p ip) else none
  | .iput p ip key => if s.call p = .idle then some (iput s p ip key) else none
  | .modify p ip d =>
    if s.call p = .idle then some (.ok (s.setInode ip fun c => { c with toDinode := d })) else none
  | .iupdate p ip =>
    if s.call p = .idle then
      some (.ok { s with disk := update s.disk (s.inode ip).key (s.inode ip).toDinode })
    else none

/-- The process is on its way to the lock of an inode, or has it. -/
def State.Uses (s : State n P) (p : P) (ip : Fin n) : Prop :=
  s.locked p ip = true ∨ s.call p = .ilock ip ∨ s.call p = .asleep ip ∨ s.call p = .load ip

instance (s : State n P) (p : P) (ip : Fin n) : Decidable (s.Uses p ip) := inferInstanceAs (Decidable (_ ∨ _))

/-- References that are used or put back are held, only the holder unlocks and changes an inode, and an inode that a
process uses keeps a reference. -/
def Disciplined (s : State n P) : Action n P → Prop
  | .iget .. | .run _ => True
  | .idup _ ip key => (ip, key) ∈ s.refs
  | .ilock _ ip => ∃ x ∈ s.refs, x.1 = ip
  | .iunlock p ip | .modify p ip _ | .iupdate p ip => s.locked p ip = true
  | .iput _ ip key => (ip, key) ∈ s.refs ∧ ((∃ q, s.Uses q ip) → 2 ≤ s.refs.countP (·.1 = ip))

def iinit (n : Nat) (P : Type) (disk : Key → Fs.Dinode) : State n P where
  inode _ := { Fs.Dinode.fresh 0 with key := ⟨0, 0⟩, ref := 0, busy := false, valid := false }
  disk := disk
  call _ := .idle
  locked _ _ := false
  refs := []

def system (n : Nat) (P : Type) [DecidableEq P] (disk : Key → Fs.Dinode) : System (State n P) (Action n P) :=
  (System.ofStep (iinit n P disk) step).restrict Disciplined

end Calls

end RainOS.Icache
