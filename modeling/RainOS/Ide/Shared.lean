import Mathlib.Data.List.Basic
import RainOS.Ide.Code
import RainOS.Lib.System

/-!
# Two drivers on one controller

The kernel's driver (`iderw`, `idestart`, `ideintr`) and the exokernel's (`ExFileRead`, `ExReadSector`,
`ex_ideintr`) issue commands to the same controller. Each call up to the point where it sleeps, each
completion of a command and each interrupt is one step. `ideintr` takes a completion for its own queue's
head whenever that queue is not empty, and for the running process's exokernel queue otherwise.
-/

namespace RainOS.Ide

structure KBuf where
  sector : Nat
  data : Block
  valid : Bool
  dirty : Bool

/-- A request a buffer came back from: the buffer's data, and what its sector then held. -/
structure Completion where
  buf : Nat
  data : Block
  stored : Block

/-- A buffer of the exokernel queue: whose memory it is in, where, and for which sector. -/
structure Node (P : Type) where
  proc : P
  sector : Nat
  location : Nat

/-- A buffer that was filled: its bytes, and what the sector queued for it then held. -/
structure Delivery (P : Type) where
  node : Node P
  got : Block
  want : Block

structure State (P : Type) where
  ctl : Controller
  bufs : Nat → KBuf
  idequeue : List Nat
  queue : Queue
  mem : P → Mem
  exo : P → Bool
  /-- The buffers given to `iderw`, in order. -/
  requests : List Nat
  completions : List Completion
  /-- The buffers given to `ex_addbuffer`, in order, and those of them not yet filled. -/
  asked : List (Node P)
  pending : List (Node P)
  deliveries : List (Delivery P)

inductive Action (P : Type)
  | iderw (b : Nat) (buf : KBuf)
  | exRegister (p : P)
  | exAddbuffer (p : P) (sector device location : Nat)
  | exReadSector (p : P)
  | exResetTransferCount
  | complete
  | ideintr (proc : Option P)

variable {P : Type} [DecidableEq P]

def ideinit (disk : Nat → Block) (mem : P → Mem) : State P where
  ctl := ⟨disk, none, false, 0, []⟩
  bufs _ := ⟨0, fun _ => 0, false, false⟩
  idequeue := []
  queue := resetTransferCount
  mem := mem
  exo _ := false
  requests := []
  completions := []
  asked := []
  pending := []
  deliveries := []

def KBuf.request (buf : KBuf) : Command :=
  if buf.dirty then .write buf.sector buf.data else .read buf.sector

def idestart (c : Controller) (buf : KBuf) : Controller := c.issue buf.request

def startNext (c : Controller) (bufs : Nat → KBuf) : List Nat → Controller
  | [] => c
  | b :: _ => idestart c (bufs b)

/-- Sync buf with disk, up to the sleep. The caller has locked the buffer, so it is not queued. -/
def iderw (s : State P) (b : Nat) (buf : KBuf) : Option (Except Halt (State P)) :=
  if b ∈ s.idequeue then none
  else if buf.valid ∧ ¬buf.dirty then some (.error (.panic "iderw: nothing to do"))
  else some (.ok { s with
    bufs := Function.update s.bufs b buf
    idequeue := s.idequeue ++ [b]
    requests := s.requests ++ [b]
    ctl := if s.idequeue = [] then idestart s.ctl buf else s.ctl })

def blockAt (m : Mem) (location : Nat) : Block := fun i => m (location + i)

def exInterrupt (s : State P) (p : P) : State P :=
  let after := exIdeintr s.queue (s.mem p) s.ctl
  let mem := Function.update s.mem p after.2.1
  { s with
    queue := after.1
    mem := mem
    ctl := after.2.2
    pending := s.pending.tail
    deliveries := s.deliveries ++ s.pending.head?.toList.map fun node =>
      ⟨node, blockAt (mem node.proc) node.location, s.ctl.idewait.disk node.sector⟩ }

def kernelInterrupt (s : State P) (b : Nat) (rest : List Nat) : State P :=
  let buf := s.bufs b
  let ctl := if buf.dirty then s.ctl else s.ctl.idewait
  let data := if buf.dirty then buf.data else ctl.insl
  { s with
    bufs := Function.update s.bufs b { buf with data := data, valid := true, dirty := false }
    idequeue := rest
    completions := s.completions ++ [⟨b, data, ctl.disk buf.sector⟩]
    ctl := startNext ctl s.bufs rest }

/-- Interrupt handler. With no process running `proc->type` has no memory behind it, and with a
process of the other type the handler goes on with a null buffer. -/
def ideintr (s : State P) (proc : Option P) : Except Halt (State P) :=
  match s.idequeue, proc with
  | b :: rest, _ => .ok (kernelInterrupt s b rest)
  | [], none => .error (.panic "trap")
  | [], some p => if s.exo p then .ok (exInterrupt s p) else .error .wild

def step (s : State P) : Action P → Option (Except Halt (State P))
  | .iderw b buf => iderw s b buf
  | .exRegister p => some (.ok { s with exo := Function.update s.exo p true })
  | .exAddbuffer p sector device location =>
    -- the arguments are machine words
    if sector < 2 ^ 32 ∧ location < 2 ^ 32 then
      let after := exAddbuffer s.queue (s.mem p) sector device location
      some (.ok { s with
        queue := after.1
        mem := Function.update s.mem p after.2
        asked := s.asked ++ [⟨p, sector, location⟩]
        pending := s.pending ++ [⟨p, sector, location⟩] })
    else none
  | .exReadSector p => some (.ok { s with ctl := processBuffer s.queue (s.mem p) s.ctl })
  | .exResetTransferCount => some (.ok { s with queue := resetTransferCount, pending := [] })
  | .complete => if s.ctl.busy then some (.ok { s with ctl := s.ctl.idewait }) else none
  | .ideintr proc =>
    if s.ctl.irqs = 0 then none
    else some (ideintr { s with ctl := s.ctl.acknowledge } proc)

def system (disk : Nat → Block) (mem : P → Mem) : System (State P) (Action P) :=
  System.ofStep (ideinit disk mem) step

end RainOS.Ide
