import RainOS.Fs.Layout
import RainOS.Vm.Code

/-!
# Processes and their memory

The calls of `proc.c`, `exec.c` and `sysmem.c` that change an address space, over kernel memory and the
process table. An executable is the bytes of its file, which `readi` hands out. What these calls do to
open files and to saved registers is left out; so is what lies on a kernel stack. `loads` is a history of
the stores of `loaduvm` that no code reads.
-/

namespace RainOS.Process

open Kalloc Vm

def nproc : Nat := 64

def maxarg : Nat := 32

abbrev Slot := Fin nproc

inductive ProcState
  | unused
  | embryo
  | runnable
  | zombie
  deriving DecidableEq, Repr

structure Proc where
  state : ProcState
  pid : Nat
  parent : Option Slot
  pgdir : Nat
  sz : Nat
  kstack : Nat

/-- A store of `loaduvm`: the virtual address and the entry that translated it. -/
structure Load where
  va : Nat
  pte : Nat
  deriving DecidableEq

structure Machine where
  mem : Memory
  procs : Slot → Proc
  nextpid : Nat
  loads : List Load

abbrev X := EStateM Halt Machine

def lift {α : Type} (x : Vm.M α) : X α := fun s =>
  match x s.mem with
  | .ok a m => .ok a { s with mem := m }
  | .error e m => .error e { s with mem := m }

def setProc (p : Slot) (f : Proc → Proc) : X Unit :=
  modify fun s => { s with procs := Function.update s.procs p (f (s.procs p)) }

structure File where
  bytes : List UInt8
  small : bytes.length ≤ Fs.maxfile * bsize

/-- The bytes that `readi` copies, and none if it returns -1. -/
def readi (f : File) (off n : Nat) : Option (List UInt8) :=
  if off > f.bytes.length ∨ (off + n) % 2 ^ 32 < off then none else some ((f.bytes.drop off).take n)

def field (bytes : List UInt8) (w off : Nat) : Nat := Mem.word (fun i => bytes.getD i 0) w off

def elfMagic : Nat := 0x464C457F

structure Elfhdr where
  magic : Nat
  phoff : Nat
  phnum : Nat

def elfhdrSize : Nat := 52

def Elfhdr.read (bytes : List UInt8) : Elfhdr := ⟨field bytes 4 0, field bytes 4 28, field bytes 2 44⟩

structure Proghdr where
  type : Nat
  off : Nat
  vaddr : Nat
  filesz : Nat
  memsz : Nat

def proghdrSize : Nat := 32

def elfProgLoad : Nat := 1

def Proghdr.read (bytes : List UInt8) : Proghdr :=
  ⟨field bytes 4 0, field bytes 4 4, field bytes 4 8, field bytes 4 16, field bytes 4 20⟩

def roundSize (sz i : Nat) : Nat := if sz - i < pgsize then sz - i else pgsize

def loadLoop (cur pgdir addr : Nat) (ip : File) (offset sz : Nat) : Nat → Nat → X Int
  | 0, _ => if sz + pgsize > 2 ^ 32 then throw .spin else return 0
  | count + 1, i => do
      let pte ← lift (walkpgdir pgdir ((addr + i) % 2 ^ 32) false)
      if pte = 0 then throw (.panic "loaduvm: address should exist")
      let s ← get
      match readi ip ((offset + i) % 2 ^ 32) (roundSize sz i) with
      | none => return -1
      | some bytes =>
        if bytes ≠ [] then
          modify fun s' => { s' with loads := s'.loads ++ [⟨(addr + i) % 2 ^ 32, s.mem.word pte⟩] }
        lift (memmove cur (p2v (pteAddr (s.mem.word pte))) bytes)
        if bytes.length ≠ roundSize sz i then return -1
        loadLoop cur pgdir addr ip offset sz count (i + pgsize)

@[irreducible] def loaduvm (cur pgdir addr : Nat) (ip : File) (offset sz : Nat) : X Int := do
  if addr % pgsize ≠ 0 then throw (.panic "loaduvm: addr must be page aligned")
  loadLoop cur pgdir addr ip offset sz ((sz + pgsize - 1) / pgsize) 0

/-- The loop over the program headers, with the number that are left; none is a jump to `bad`. -/
def loadHeaders (cur pgdir : Nat) (ip : File) : Nat → Nat → Nat → X (Option Nat)
  | 0, _, sz => return some sz
  | n + 1, off, sz => do
      match readi ip off proghdrSize with
      | none => return none
      | some bytes =>
        if bytes.length ≠ proghdrSize then return none
        let ph := Proghdr.read bytes
        let next := (off + proghdrSize) % 2 ^ 32
        if ph.type ≠ elfProgLoad then loadHeaders cur pgdir ip n next sz
        else if ph.memsz < ph.filesz then return none
        else
          let sz ← lift (allocuvm pgdir sz ((ph.vaddr + ph.memsz) % 2 ^ 32))
          if sz = 0 then return none
          if (← loaduvm cur pgdir ph.vaddr ip ph.off ph.filesz) < 0 then return none
          loadHeaders cur pgdir ip n next sz

/-- Push argument strings; the addresses they get, and none for a jump to `bad`. -/
def pushArgs (cur pgdir : Nat) : List (List UInt8) → Nat → Nat → Vm.M (Option (Nat × List Nat))
  | [], _, sp => return some (sp, [])
  | arg :: rest, argc, sp => do
      if argc ≥ maxarg then return none
      let sp := (sp + 2 ^ 32 - (arg.length + 1)) % 2 ^ 32 / 4 * 4
      if (← copyout cur pgdir sp (arg ++ [0])) < 0 then return none
      match ← pushArgs cur pgdir rest (argc + 1) sp with
      | none => return none
      | some (bottom, addrs) => return some (bottom, sp :: addrs)

def ustack (sp argc : Nat) (addrs : List Nat) : List UInt8 :=
  ([0xffffffff, argc, (sp + 2 ^ 32 - (argc + 1) * 4) % 2 ^ 32] ++ addrs ++ [0]).flatMap fun v =>
    (List.range 4).map fun i => UInt8.ofNat (v / 256 ^ i)

/-- The stack of a new image; false is a jump to `bad`. -/
@[irreducible] def pushStack (cur pgdir sz : Nat) (argv : List (List UInt8)) : Vm.M Bool := do
  clearpteu pgdir (sz - 2 * pgsize)
  match ← pushArgs cur pgdir argv 0 sz with
  | none => return false
  | some (sp, addrs) =>
    let argc := addrs.length
    if (← copyout cur pgdir ((sp + 2 ^ 32 - (3 + argc + 1) * 4) % 2 ^ 32) (ustack sp argc addrs)) < 0 then
      return false
    return true

/-- Build a new image in `pgdir`: the size it has, and none for a jump to `bad`. -/
@[irreducible] def loadImage (cur pgdir : Nat) (ip : File) (elf : Elfhdr) (argv : List (List UInt8)) :
    X (Option Nat) := do
  match ← loadHeaders cur pgdir ip elf.phnum elf.phoff 0 with
  | none => return none
  | some sz =>
    let sz := pgroundup sz
    let sz ← lift (allocuvm pgdir sz ((sz + 2 * pgsize) % 2 ^ 32))
    if sz = 0 then return none
    if ← lift (pushStack cur pgdir sz argv) then return some sz else return none

/-- The system call of process `p`; `none` is a path that names no file. -/
@[irreducible] def exec (data : Nat) (p : Slot) (file : Option File) (argv : List (List UInt8)) : X Int := do
  match file with
  | none => return -1
  | some ip =>
    let header := (readi ip 0 elfhdrSize).getD []
    if header.length < elfhdrSize then return -1
    let elf := Elfhdr.read header
    if elf.magic ≠ elfMagic then return -1
    let s ← get
    let pgdir ← lift (setupkvm data)
    if pgdir = 0 then return -1
    match ← loadImage (s.procs p).pgdir pgdir ip elf argv with
    | none =>
      lift (freevm pgdir)
      return -1
    | some sz =>
      let oldpgdir := (s.procs p).pgdir
      setProc p fun q => { q with pgdir := pgdir, sz := sz }
      lift (freevm oldpgdir)
      return 0

@[irreducible] def allocproc : X (Option Slot) := do
  let s ← get
  match (List.finRange nproc).find? fun p => (s.procs p).state = .unused with
  | none => return none
  | some p =>
    set { s with
      procs := Function.update s.procs p { s.procs p with state := .embryo, pid := s.nextpid }
      nextpid := s.nextpid + 1 }
    let kstack ← lift kalloc
    setProc p fun q => { q with kstack := kstack }
    if kstack = 0 then
      setProc p fun q => { q with state := .unused }
      return none
    return some p

@[irreducible] def fork (data : Nat) (p : Slot) : X Int := do
  match ← allocproc with
  | none => return -1
  | some np =>
    let s ← get
    let pgdir ← lift (copyuvm data (s.procs p).pgdir (s.procs p).sz)
    setProc np fun q => { q with pgdir := pgdir }
    if pgdir = 0 then
      lift (kfree (s.procs np).kstack)
      setProc np fun q => { q with kstack := 0, state := .unused }
      return -1
    setProc np fun q => { q with sz := (s.procs p).sz, parent := some p, state := .runnable }
    return (s.procs np).pid

@[irreducible] def growproc (p : Slot) (n : Int) : X Int := do
  let s ← get
  let q := s.procs p
  let newsz := ((q.sz + n) % 2 ^ 32).toNat
  let sz ←
    if n > 0 then lift (allocuvm q.pgdir q.sz newsz)
    else if n < 0 then lift (deallocuvm q.pgdir q.sz newsz)
    else pure q.sz
  if n ≠ 0 ∧ sz = 0 then return -1
  setProc p fun q => { q with sz := sz }
  return 0

def sbrk (p : Slot) (n : Int) : X Int := do
  let s ← get
  if (← growproc p n) < 0 then return -1
  return (s.procs p).sz

/-- `allocadd` follows the last free page's null pointer to the process's address 0. -/
@[irreducible] def allocaddAt (pgdir pid frame : Nat) : Vm.M Nat := do
  let m ← get
  match translate m.word pgdir 0 with
  | some a => allocadd (m.word a) pid frame
  | none =>
    if findFree m frame = some true ∧ m.word frame = 0 then throw (.panic "trap")
    allocadd 0 pid frame

@[irreducible] def getpgtab (pid pgdir va : Nat) (alloc : Bool) : Vm.M Nat := do
  let m ← get
  let pde := pgdir + 4 * pdx va
  if Present (m.word pde) then return p2v (pteAddr (m.word pde)) + 4 * ptx va
  if !alloc then return 0
  let pgtab := m.freelist
  if pgtab = 0 then return 0
  let _ ← allocaddAt pgdir pid m.freelist
  memset0 pgtab
  setWord pde (v2p pgtab ||| pteP ||| pteW ||| pteU)
  return pgtab + 4 * ptx va

@[irreducible] def exAddPage (p : Slot) (va frame : Nat) : X Int := do
  let s ← get
  let q := s.procs p
  if va % pgsize ≠ 0 then return 0
  if (← lift (allocaddAt q.pgdir q.pid frame)) = 0 then return 0
  let pgtab ← lift (getpgtab q.pid q.pgdir va true)
  if pgtab = 0 then return 0
  lift (setWord pgtab (frame ||| pteU ||| pteW ||| pteP))
  setProc p fun q => { q with sz := (q.sz + pgsize) % 2 ^ 32 }
  return 1

def initproc : Slot := ⟨0, by decide⟩

/-- An exited process remains in the zombie state until its parent calls `wait`. -/
@[irreducible] def exit (p : Slot) : X Unit := do
  if p = initproc then throw (.panic "init exiting")
  modify fun s => { s with procs := fun q =>
    if (s.procs q).parent = some p then { s.procs q with parent := some initproc } else s.procs q }
  setProc p fun q => { q with state := .zombie }

/-- Reap an exited child; -1 without children, and asleep while all of them run. -/
@[irreducible] def wait (p : Slot) : X Int := do
  let s ← get
  match (List.finRange nproc).find? fun q => (s.procs q).parent = some p ∧ (s.procs q).state = .zombie with
  | some q =>
    lift (kfree (s.procs q).kstack)
    lift (freevm (s.procs q).pgdir)
    setProc q fun r => { r with kstack := 0, state := .unused, pid := 0, parent := none }
    return (s.procs q).pid
  | none =>
    if (List.finRange nproc).any fun q => (s.procs q).parent = some p then throw .asleep
    return -1

@[irreducible] def userinit (data : Nat) (initcode : List UInt8) : X Unit := do
  match ← allocproc with
  | none => throw .wild
  | some p =>
    let pgdir ← lift (setupkvm data)
    if pgdir = 0 then throw (.panic "userinit: out of memory?")
    lift (inituvm pgdir initcode)
    setProc p fun q => { q with pgdir := pgdir, sz := pgsize, state := .runnable }

@[irreducible] def main (data : Nat) (initcode : List UInt8) : X Unit := do
  let s ← get
  lift (kinit1 s.mem.kernelEnd (p2v (4 * 1024 * 1024)))
  let _ ← lift (setupkvm data)
  lift (kinit2 (p2v (4 * 1024 * 1024)) (p2v phystop))
  userinit data initcode

end RainOS.Process
