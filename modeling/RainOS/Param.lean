import RainOS.Lib.Bytes

/-!
# Kernel constants

The constants of `param.h`, `fs.h` and `mkfs.c` that the model reads, the disk block, and the ways
in which kernel code stops before it returns.
-/

namespace RainOS

def maxOpBlocks : Nat := 10

def logSize : Nat := maxOpBlocks * 3

def nbuf : Nat := maxOpBlocks * 3

abbrev bsize : Nat := 512

abbrev Block := Bytes bsize

def pgsize : Nat := 4096

def kernbase : Nat := 0x80000000

def extmem : Nat := 0x100000

def phystop : Nat := 0xE000000

def v2p (a : Nat) : Nat := (a + (2 ^ 32 - kernbase)) % 2 ^ 32

def p2v (a : Nat) : Nat := (a + kernbase) % 2 ^ 32

def pgroundup (a : Nat) : Nat := (a + pgsize - 1) % 2 ^ 32 / pgsize * pgsize

def pgrounddown (a : Nat) : Nat := a / pgsize * pgsize

/-- A panic with its message, a sleep on something that only the sleeper itself could change, a loop
without end, or a step through a pointer to no object. -/
inductive Halt
  | panic (message : String)
  | asleep
  | spin
  | wild
  deriving DecidableEq, Repr

end RainOS
