import RainOS.Lib.Chain
import RainOS.Lib.Hoare
import RainOS.Param

/-!
# Physical memory allocator

`kalloc.c` over the words of kernel memory. The free list is threaded through the first words of the
free pages. The ledger of granted frames is the list of its filled slots: slot `i` lies at
`P2V(PHYSTOP) + 16 * i`, and the first slot past the mapped pages faults. The kernel's `end` is fixed
when it is linked. `allocadd` may read the word at virtual address 0, which belongs to the process
that is running, so it comes as an argument.
-/

namespace RainOS.Kalloc

structure Memory where
  kernelEnd : Nat
  word : Nat → Nat
  freelist : Nat
  ledger : List (Int × Nat)

def fillPage (word : Nat → Nat) (v : Nat) : Nat → Nat := fun a =>
  if v ≤ a ∧ a < v + pgsize then 0x01010101 else word a

def Accepts (kernelEnd v : Nat) : Prop := v % pgsize = 0 ∧ kernelEnd ≤ v ∧ v2p v < phystop

instance (kernelEnd v : Nat) : Decidable (Accepts kernelEnd v) := inferInstanceAs (Decidable (_ ∧ _))

def putFree (m : Memory) (v : Nat) : Memory :=
  { m with word := Function.update (fillPage m.word v) v m.freelist, freelist := v }

def kfree (v : Nat) : EStateM Halt Memory Unit := do
  let m ← get
  if ¬Accepts m.kernelEnd v then throw (.panic "kfree")
  set (putFree m v)

def kalloc : EStateM Halt Memory Nat := do
  let m ← get
  if m.freelist ≠ 0 then set { m with freelist := m.word m.freelist }
  return m.freelist

def freerange (vstart vend : Nat) : EStateM Halt Memory Unit :=
  (List.range ((vend - pgroundup vstart) / pgsize)).forM fun i => kfree (pgroundup vstart + i * pgsize)

def kinit1 (vstart vend : Nat) : EStateM Halt Memory Unit := freerange vstart vend

def kinit2 (vstart vend : Nat) : EStateM Halt Memory Unit := freerange vstart vend

/-- Slots in the `NUM_PAGES` pages that are mapped for the ledger. -/
def ledgerSlots : Nat := 8 * pgsize / 16

/-- Walk the free list; a walk longer than there are addresses has no end. -/
def findFree (m : Memory) (frame : Nat) : Option Bool := search m.word 0 frame (2 ^ 32 + 1) m.freelist

def allocadd (low : Nat) (pid : Int) (frame : Nat) : EStateM Halt Memory Nat := do
  let m ← get
  if frame = 0 then return 0
  if m.freelist = 0 then return 0
  match findFree m frame with
  | none => throw .spin
  | some false => return 0
  | some true =>
    let next := m.word frame
    set { m with word := Function.update m.word frame (if next = 0 then low else m.word next) }
    if m.ledger.length + 1 ≥ ledgerSlots then throw (.panic "trap")
    modify fun m => { m with ledger := m.ledger ++ [(pid, frame)] }
    return 1

/-- The boot's free list: all pages from the kernel's end to the top of memory. -/
def kinit : EStateM Halt Memory Unit := do
  let m ← get
  kinit1 m.kernelEnd (p2v (4 * 1024 * 1024))
  kinit2 (p2v (4 * 1024 * 1024)) (p2v phystop)

def unbuilt (kernelEnd : Nat) : Memory := ⟨kernelEnd, fun _ => 0, 0, []⟩

end RainOS.Kalloc
