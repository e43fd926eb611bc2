import Mathlib.Logic.Function.Basic
import RainOS.Param

/-!
# The disk controller and the exokernel's queue

The IDE controller serves the command issued last, raises one interrupt when it is done and delivers
that command's sector to `insl`. `idewait` waits until it is done. The exokernel queue of `ex_ide.c` is
a linked list of nodes that lie at the start of their own destination buffers, in the memory of the
process that queued them; `idequeue` and `last` are kernel variables, but the nodes are read and written
in whatever address space is current.
-/

namespace RainOS.Ide

inductive Command
  | read (sector : Nat)
  | write (sector : Nat) (data : Block)

def Command.sector : Command → Nat
  | .read sector => sector
  | .write sector _ => sector

/-- The disk behind the controller, the command issued last, whether it is in progress, the interrupts
raised and not yet taken, and all commands issued so far. -/
structure Controller where
  disk : Nat → Block
  command : Option Command
  busy : Bool
  irqs : Nat
  issued : List Command

namespace Controller

def effect (c : Controller) : Nat → Block :=
  match c.command with
  | some (.write sector data) => Function.update c.disk sector data
  | _ => c.disk

def idewait (c : Controller) : Controller :=
  if c.busy then { c with disk := c.effect, busy := false, irqs := c.irqs + 1 } else c

def issue (c : Controller) (command : Command) : Controller :=
  { c.idewait with command := some command, busy := true, issued := c.issued ++ [command] }

def acknowledge (c : Controller) : Controller := { c with irqs := c.irqs - 1 }

def insl (c : Controller) : Block :=
  match c.command with
  | some command => c.disk command.sector
  | none => fun _ => 0

end Controller

structure Queue where
  idequeue : Nat
  last : Nat
  transfercount : Nat

def resetTransferCount : Queue := ⟨0, 0, 0⟩

def ideread (c : Controller) (sector : Nat) : Controller := (c.issue (.read sector)).idewait

/-! A node has its device at offset 0, its sector at 4, its location at 8 and the next node at 12. -/

def processBuffer (q : Queue) (m : Mem) (c : Controller) : Controller :=
  if q.idequeue = 0 then c else ideread c (Mem.word m 4 (q.idequeue + 4))

def writeNode (m : Mem) (sector device location : Nat) : Mem :=
  Mem.setWord (Mem.setWord (Mem.setWord (Mem.setWord m 4 location device) 4 (location + 4) sector)
    4 (location + 8) location) 4 (location + 12) 0

def exAddbuffer (q : Queue) (m : Mem) (sector device location : Nat) : Queue × Mem :=
  let m := writeNode m sector device location
  if q.idequeue = 0 then ({ q with idequeue := location, last := location }, m)
  else ({ q with last := location }, Mem.setWord m 4 (q.last + 12) location)

def exIdeintr (q : Queue) (m : Mem) (c : Controller) : Queue × Mem × Controller :=
  let location := Mem.word m 4 (q.idequeue + 8)
  let next := Mem.word m 4 (q.idequeue + 12)
  let c := c.idewait
  let q : Queue := ⟨next, if next = 0 then 0 else q.last, (q.transfercount + 1) % 2 ^ 32⟩
  let m := Mem.copyIn m location bsize c.insl.mem
  (q, m, processBuffer q m c)

end RainOS.Ide
