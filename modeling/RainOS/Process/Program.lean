import RainOS.Process.Code

/-!
# exec from any inode

`exec` with what it does besides building an image: it holds a log operation, the lock of an inode and a reference to
it, and it sets the registers, the name and the type of the process. The inode may be a device, and then `readi` is
the device's. The two header variables are on the stack and hold anything before they are read. `failed` is a history
of the steps that have failed, which no code reads.
-/

namespace RainOS.Program

open Kalloc Vm Process

/-- The steps of `exec` that can fail. -/
inductive Step
  | path
  | header
  | magic
  | directory
  | programHeader
  | segment
  | memory
  | load
  | stack
  deriving DecidableEq, Repr

def ndev : Int := 10

def console : Int := 1

/-- An inode as `readi` sees it: the bytes of a file or a directory, or a device. -/
inductive Inode
  | data (file : File)
  | device (major : Int)

/-- The registers and the other fields of a process that `exec` sets. -/
structure Context where
  eip : Nat
  esp : Nat
  name : List UInt8
  type : Nat
  deriving DecidableEq

/-- What a read of the console meets: the bytes up to the end of the line, or those before the process is killed. -/
structure Line where
  bytes : List UInt8
  killed : Bool

structure World where
  machine : Machine
  context : Slot → Context
  /-- `I_BUSY` and `ref` of the inode. -/
  busy : Bool
  ref : Nat
  begun : Nat
  ended : Nat
  input : List Line
  failed : List Step

abbrev E := EStateM Halt World

def mem {α : Type} (x : Vm.M α) : E α := fun w =>
  match x w.machine.mem with
  | .ok a m => .ok a { w with machine.mem := m }
  | .error e m => .error e { w with machine.mem := m }

def check (ok : Bool) (step : Step) : E Unit :=
  modify fun w => if ok then w else { w with failed := w.failed ++ [step] }

def beginOp : E Unit := modify fun w => { w with begun := w.begun + 1 }

def endOp : E Unit := modify fun w => { w with ended := w.ended + 1 }

def iget : E Unit := modify fun w => { w with ref := w.ref + 1 }

def ilock : E Unit := do
  let w ← get
  if w.ref < 1 then throw (.panic "ilock")
  if w.busy then throw .asleep
  set { w with busy := true }

def iunlock : E Unit := do
  let w ← get
  if w.busy = false ∨ w.ref < 1 then throw (.panic "iunlock")
  set { w with busy := false }

def iput : E Unit := modify fun w => { w with ref := w.ref - 1 }

def iunlockput : E Unit := do
  iunlock
  iput

def Line.read (line : Line) (n : Nat) : Int × List UInt8 :=
  if line.killed ∧ line.bytes.length < n then (-1, line.bytes)
  else ((line.bytes.take n).length, line.bytes.take n)

/-- A line that is longer than the read stays for the next one. -/
def Line.rest (line : Line) (n : Nat) (lines : List Line) : List Line :=
  if n < line.bytes.length then ⟨line.bytes.drop n, line.killed⟩ :: lines else lines

def consoleread (n : Nat) : E (Int × List UInt8) := do
  iunlock
  let w ← get
  match w.input with
  | [] => throw .asleep
  | line :: lines =>
    set { w with input := line.rest n lines }
    ilock
    return line.read n

def devswRead (major : Int) : Bool := major = console

def readi (ip : Inode) (off n : Nat) : E (Int × List UInt8) :=
  match ip with
  | .device major => if major < 0 ∨ major ≥ ndev ∨ devswRead major = false then return (-1, []) else consoleread n
  | .data file =>
    match Process.readi file off n with
    | none => return (-1, [])
    | some bytes => return (bytes.length, bytes)

def loadLoop (cur pgdir addr : Nat) (ip : Inode) (offset sz : Nat) : Nat → Nat → E Int
  | 0, _ => if sz + pgsize > 2 ^ 32 then throw .spin else return 0
  | count + 1, i => do
      let pte ← mem (walkpgdir pgdir ((addr + i) % 2 ^ 32) false)
      if pte = 0 then throw (.panic "loaduvm: address should exist")
      let w ← get
      let (r, bytes) ← readi ip ((offset + i) % 2 ^ 32) (roundSize sz i)
      if bytes ≠ [] then
        modify fun w' => { w' with machine.loads := w'.machine.loads ++ [⟨(addr + i) % 2 ^ 32, w.machine.mem.word pte⟩] }
      mem (memmove cur (p2v (pteAddr (w.machine.mem.word pte))) bytes)
      if r % 2 ^ 32 ≠ roundSize sz i then return -1
      loadLoop cur pgdir addr ip offset sz count (i + pgsize)

@[irreducible] def loaduvm (cur pgdir addr : Nat) (ip : Inode) (offset sz : Nat) : E Int := do
  if addr % pgsize ≠ 0 then throw (.panic "loaduvm: addr must be page aligned")
  loadLoop cur pgdir addr ip offset sz ((sz + pgsize - 1) / pgsize) 0

def fill (old bytes : List UInt8) : List UInt8 := bytes ++ old.drop bytes.length

/-- The loop over the program headers, with the number that are left, the offset, the size and the variable `ph`; none
is a jump to `bad`. -/
def loadHeaders (cur pgdir : Nat) (ip : Inode) : Nat → Nat → Nat → List UInt8 → E (Option Nat)
  | 0, _, sz, _ => return some sz
  | n + 1, off, sz, old => do
      let (r, bytes) ← readi ip off proghdrSize
      check (r = proghdrSize) .programHeader
      if r % 2 ^ 32 ≠ proghdrSize then return none
      let ph := Proghdr.read (fill old bytes)
      let next := (off + proghdrSize) % 2 ^ 32
      if ph.type ≠ elfProgLoad then loadHeaders cur pgdir ip n next sz (fill old bytes)
      else
        check (ph.filesz ≤ ph.memsz) .segment
        if ph.memsz < ph.filesz then return none
        let sz ← mem (allocuvm pgdir sz ((ph.vaddr + ph.memsz) % 2 ^ 32))
        check (sz ≠ 0) .memory
        if sz = 0 then return none
        let r ← loaduvm cur pgdir ph.vaddr ip ph.off ph.filesz
        check (0 ≤ r) .load
        if r < 0 then return none
        loadHeaders cur pgdir ip n next sz (fill old bytes)

/-- The stack of a new image: the stack pointer, and none for a jump to `bad`. -/
@[irreducible] def pushStack (cur pgdir sz : Nat) (argv : List (List UInt8)) : Vm.M (Option Nat) := do
  clearpteu pgdir (sz - 2 * pgsize)
  match ← pushArgs cur pgdir argv 0 sz with
  | none => return none
  | some (sp, addrs) =>
    let argc := addrs.length
    let top := (sp + 2 ^ 32 - (3 + argc + 1) * 4) % 2 ^ 32
    if (← copyout cur pgdir top (ustack sp argc addrs)) < 0 then return none
    return some top

def programName (path : List UInt8) : List UInt8 :=
  (path.reverse.takeWhile fun c => c ≠ 47).reverse

def commit (p : Slot) (path : List UInt8) (pgdir sz entry sp : Nat) : E Unit :=
  modify fun w => { w with
    machine.procs := Function.update w.machine.procs p { w.machine.procs p with pgdir := pgdir, sz := sz }
    context := Function.update w.context p ⟨entry, sp, (programName path).take 15, 0⟩ }

def bad (pgdir : Nat) (held : Bool) : E Int := do
  if pgdir ≠ 0 then mem (freevm pgdir)
  if held then
    iunlockput
    endOp
  return -1

/-- What `exec` does once it has let go of the inode. -/
def finish (p : Slot) (path : List UInt8) (oldpgdir pgdir sz entry : Nat) (argv : List (List UInt8)) : E Int := do
  let sz := pgroundup sz
  let sz ← mem (allocuvm pgdir sz ((sz + 2 * pgsize) % 2 ^ 32))
  check (sz ≠ 0) .memory
  if sz = 0 then bad pgdir false
  else
    let sp ← mem (pushStack oldpgdir pgdir sz argv)
    check sp.isSome .stack
    match sp with
    | none => bad pgdir false
    | some sp =>
      commit p path pgdir sz entry sp
      mem (freevm oldpgdir)
      return 0

/-- What `exec` does with the ELF header that is in its variable. -/
def load (data : Nat) (p : Slot) (path : List UInt8) (ip : Inode) (elf ph : List UInt8) (argv : List (List UInt8)) :
    E Int := do
  check ((Elfhdr.read elf).magic = elfMagic) .magic
  if (Elfhdr.read elf).magic ≠ elfMagic then bad 0 true
  else
    let w ← get
    let pgdir ← mem (setupkvm data)
    check (pgdir ≠ 0) .directory
    if pgdir = 0 then bad 0 true
    else
      match ← loadHeaders (w.machine.procs p).pgdir pgdir ip (Elfhdr.read elf).phnum (Elfhdr.read elf).phoff 0 ph with
      | none => bad pgdir true
      | some sz =>
        iunlockput
        endOp
        -- `elf.entry`
        finish p path (w.machine.procs p).pgdir pgdir sz (field elf 4 24) argv

structure Locals where
  elf : List UInt8
  ph : List UInt8
  elf_length : elf.length = elfhdrSize
  ph_length : ph.length = proghdrSize

/-- The system call of process `p`; `none` is a path that names no file. A negative result of `readi` is a large number
where it is compared with `sizeof(elf)`. -/
@[irreducible] def exec (data : Nat) (p : Slot) (path : List UInt8) (file : Option Inode) (locals : Locals)
    (argv : List (List UInt8)) : E Int := do
  beginOp
  check file.isSome .path
  match file with
  | none =>
    endOp
    return -1
  | some ip =>
    iget
    ilock
    let (r, bytes) ← readi ip 0 elfhdrSize
    check (r = elfhdrSize) .header
    if r % 2 ^ 32 < elfhdrSize then bad 0 true
    else load data p path ip (fill locals.elf bytes) locals.ph argv

end RainOS.Program
