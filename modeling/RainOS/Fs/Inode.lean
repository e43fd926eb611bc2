import RainOS.Fs.Layout
import RainOS.Lib.Store
import RainOS.Log.Code

/-!
# Blocks and inodes

The block and inode layers of `fs.c`, one system call at a time. The buffer cache and the disk are
one block map, the map that is read through the cache; a buffer a process holds is busy until it is
released. Inodes in memory are slots of the inode cache. The calls of `balloc`, `iput` and `iunlock` are
kept in ghost histories.
-/

namespace RainOS.Fs

open BlockStore List

def ninode : Nat := 50

def nfile : Nat := 100

def nofile : Nat := 16

def nproc : Nat := 64

/-- `NINODE` slots of the inode cache: a `struct inode *` that is not null. -/
abbrev Slot := Fin ninode

theorem ninode_pos : 0 < ninode := by decide

theorem nfile_pos : 0 < nfile := by decide

structure Inode extends Dinode where
  inum : Nat
  ref : Int
  busy : Bool
  valid : Bool

def Inode.zero : Inode := { Dinode.fresh 0 with inum := 0, ref := 0, busy := false, valid := false }

instance : Inhabited Inode := ⟨.zero⟩

inductive FileType
  | none
  | inode
  deriving DecidableEq, Repr

structure File where
  type : FileType
  ref : Int
  readable : Bool
  writable : Bool
  ip : Slot
  off : Nat

def File.zero : File := ⟨.none, 0, false, false, ⟨0, ninode_pos⟩, 0⟩

instance : Inhabited File := ⟨.zero⟩

/-- What a process has of the file system: its current directory, none when the entry of the process
table is not in use, and its open files. -/
structure Proc where
  cwd : Option Slot
  ofile : Fin nofile → Option (Fin nfile)

/-- A call of `balloc` that has ended: the blocks it found, and its result unless it panicked. -/
structure BallocCall where
  before : Nat → Block
  result : Option Nat

/-- A call of `iput` that has returned: the inode, its references before, and the blocks before and
after. -/
structure IputCall where
  inum : Nat
  ref : Int
  before : Nat → Block
  after : Nat → Block

/-- A call of `iunlock` that did not panic: the inode in memory, and the blocks. -/
structure IunlockCall where
  copy : Inode
  blk : Nat → Block

structure State where
  blk : Nat → Block
  held : List Nat
  log : Log
  icache : Slot → Inode
  ftable : Fin nfile → File
  procs : Fin nproc → Proc
  input : List UInt8
  ballocs : List BallocCall
  iputs : List IputCall
  iunlocks : List IunlockCall

abbrev M := EStateM Halt State

instance : BlockStore State where
  log s := s.log
  setLog log s := { s with log := log }
  bread b := do
    let s ← get
    if b ∈ s.held then throw .asleep
    set { s with held := b :: s.held }
    return ⟨true, b, true, true, false, s.blk b⟩
  bwrite b := do
    let s ← get
    if b.sector ∉ s.held then throw (.panic "bwrite")
    set { s with blk := store s.blk b.sector b.data }
    return { b with dirty := false }
  brelse b := do
    let s ← get
    if b.sector ∉ s.held then throw (.panic "brelse")
    set { s with held := s.held.erase b.sector }
  pin b := do
    modify fun s => { s with blk := store s.blk b.sector b.data }
    return { b with dirty := true }

@[irreducible] def readsb : M Superblock := do
  let bp ← bread 1
  brelse bp
  return getSuperblock bp.data

@[irreducible] def bzero (bno : Nat) : M Unit := do
  let bp ← bread bno
  let bp ← logWrite { bp with data := fun _ => 0 }
  brelse bp

/-- The first clear bit among the first `limit` bits of a bitmap block. -/
def findClear (b : Block) (limit : Nat) : Option Nat := (List.range limit).find? fun bi => !getBit b bi

def bitmapStarts (size : Nat) : List Nat := (List.range ((size + bpb - 1) / bpb)).map (· * bpb)

def ballocScan (sb : Superblock) : List Nat → M (Option Nat)
  | [] => return none
  | b :: rest => do
    let bp ← bread (bblock b sb.ninodes)
    match findClear bp.data (min bpb (sb.size - b)) with
    | some bi =>
      let bp ← logWrite { bp with data := setBit bp.data bi }
      brelse bp
      bzero (b + bi)
      return some (b + bi)
    | none =>
      brelse bp
      ballocScan sb rest

@[irreducible] def balloc : M Nat := do
  let before := (← get).blk
  let sb ← readsb
  let found ← ballocScan sb (bitmapStarts sb.size)
  modify fun s => { s with ballocs := s.ballocs ++ [⟨before, found⟩] }
  match found with
  | some b => return b
  | none => throw (.panic "balloc: out of blocks")

@[irreducible] def bfree (b : Nat) : M Unit := do
  let sb ← readsb
  let bp ← bread (bblock b sb.ninodes)
  if getBit bp.data (b % bpb) = false then throw (.panic "freeing free block")
  let bp ← logWrite { bp with data := clearBit bp.data (b % bpb) }
  brelse bp

def getInode (ip : Slot) : M Inode := do return (← get).icache ip

def modifyInode (ip : Slot) (f : Inode → Inode) : M Unit :=
  modify fun s => { s with icache := store s.icache ip (f (s.icache ip)) }

@[irreducible] def iget (inum : Nat) : M Slot := do
  let s ← get
  match (finRange ninode).find? fun i => 0 < (s.icache i).ref ∧ (s.icache i).inum = inum with
  | some ip =>
    modifyInode ip fun e => { e with ref := e.ref + 1 }
    return ip
  | none =>
    match (finRange ninode).find? fun i => (s.icache i).ref = 0 with
    | none => throw (.panic "iget: no inodes")
    | some ip =>
      modifyInode ip fun e => { e with inum := inum, ref := 1, busy := false, valid := false }
      return ip

@[irreducible] def idup (ip : Slot) : M Slot := do
  modifyInode ip fun e => { e with ref := e.ref + 1 }
  return ip

def iallocScan (type : Nat) : List Nat → M (Option Nat)
  | [] => return none
  | inum :: rest => do
    let bp ← bread (iblock inum)
    if (getDinode bp.data inum).type = 0 then
      let bp ← logWrite { bp with data := putDinode bp.data inum (.fresh type) }
      brelse bp
      return some inum
    else
      brelse bp
      iallocScan type rest

@[irreducible] def ialloc (type : Nat) : M Slot := do
  let sb ← readsb
  match ← iallocScan type (range' 1 (sb.ninodes - 1)) with
  | some inum => iget inum
  | none => throw (.panic "ialloc: no inodes")

@[irreducible] def iupdate (ip : Slot) : M Unit := do
  let e ← getInode ip
  let bp ← bread (iblock e.inum)
  let bp ← logWrite { bp with data := putDinode bp.data e.inum e.toDinode }
  brelse bp

@[irreducible] def ilock (ip : Slot) : M Unit := do
  let e ← getInode ip
  if e.ref < 1 then throw (.panic "ilock")
  if e.busy then throw .asleep
  modifyInode ip fun e => { e with busy := true }
  if !e.valid then
    let bp ← bread (iblock e.inum)
    let d := getDinode bp.data e.inum
    modifyInode ip fun e => { e with toDinode := d }
    brelse bp
    modifyInode ip fun e => { e with valid := true }
    if d.type = 0 then throw (.panic "ilock: no type")

@[irreducible] def iunlock (ip : Slot) : M Unit := do
  let e ← getInode ip
  if e.busy = false ∨ e.ref < 1 then throw (.panic "iunlock")
  modifyInode ip fun e => { e with busy := false, valid := false }
  modify fun s => { s with iunlocks := s.iunlocks ++ [⟨e, s.blk⟩] }

/-- `addrs[k]` of an inode, with a new block if there is none yet. -/
@[irreducible] def addrAt (ip : Slot) (k : Nat) : M Nat := do
  let e ← getInode ip
  if e.addrs k = 0 then
    let addr ← balloc
    modifyInode ip fun e => { e with addrs := store e.addrs k addr }
    return addr
  else return e.addrs k

/-- The disk block address of the `bn`th block in inode `ip`; allocated if there is no such block. -/
@[irreducible] def bmap (ip : Slot) (bn : Nat) : M Nat := do
  if bn < ndirect then addrAt ip bn
  else if bn - ndirect < nindirect then
    let addr ← addrAt ip ndirect
    let bp ← bread addr
    let a := bp.data.word 4 (4 * (bn - ndirect))
    if a = 0 then
      let addr ← balloc
      let bp ← logWrite { bp with data := bp.data.setWord 4 (4 * (bn - ndirect)) addr }
      brelse bp
      return addr
    else
      brelse bp
      return a
  else throw (.panic "bmap: out of range")

@[irreducible] def itrunc (ip : Slot) : M Unit := do
  (range ndirect).forM fun k => do
    let e ← getInode ip
    if e.addrs k ≠ 0 then
      bfree (e.addrs k)
      modifyInode ip fun e => { e with addrs := store e.addrs k 0 }
  let e ← getInode ip
  if e.addrs ndirect ≠ 0 then
    let bp ← bread (e.addrs ndirect)
    (range nindirect).forM fun j => do
      if bp.data.word 4 (4 * j) ≠ 0 then bfree (bp.data.word 4 (4 * j))
    brelse bp
    bfree (e.addrs ndirect)
    modifyInode ip fun e => { e with addrs := store e.addrs ndirect 0 }
  modifyInode ip fun e => { e with size := 0 }
  iupdate ip

/-- Drop a reference to an in-memory inode. The last reference to an inode without links frees the
inode on disk, if its copy is valid. -/
@[irreducible] def iput (ip : Slot) : M Unit := do
  let s ← get
  let e := s.icache ip
  if e.ref = 1 ∧ e.valid = true ∧ e.nlink = 0 then
    if e.busy then throw (.panic "iput busy")
    modifyInode ip fun e => { e with busy := true }
    itrunc ip
    modifyInode ip fun e => { e with type := 0 }
    iupdate ip
    modifyInode ip fun e => { e with busy := false, valid := false }
  modifyInode ip fun e => { e with ref := e.ref - 1 }
  modify fun s' => { s' with iputs := s'.iputs ++ [⟨e.inum, e.ref, s.blk, s'.blk⟩] }

@[irreducible] def iunlockput (ip : Slot) : M Unit := do
  iunlock ip
  iput ip

/-- `CONSOLE`: the only major device number with device functions. -/
def console : Nat := 1

/-- `consoleread`: the inode is unlocked while it waits for a line of input. -/
@[irreducible] def consoleread (ip : Slot) (n : Nat) : M (List UInt8) := do
  iunlock ip
  let input := (← get).input
  modify fun s => { s with input := s.input.drop n }
  ilock ip
  return input.take n

@[irreducible] def consolewrite (ip : Slot) (n : Nat) : M Nat := do
  iunlock ip
  ilock ip
  return n

/-- The loop of `readi`; each round reads at least one byte. -/
def readFrom (ip : Slot) : Nat → Nat → Nat → M (List UInt8)
  | 0, _, _ => return []
  | fuel + 1, off, n =>
    if n = 0 then return []
    else do
      let addr ← bmap ip (off / bsize)
      let bp ← bread addr
      let m := min n (bsize - off % bsize)
      brelse bp
      let rest ← readFrom ip fuel (off + m) (n - m)
      return (List.range m).map (fun j => bp.data.mem (off % bsize + j)) ++ rest

@[irreducible] def readi (ip : Slot) (off n : Nat) : M (Option (List UInt8)) := do
  let e ← getInode ip
  if e.type = tDev then
    if e.major = console then return some (← consoleread ip n) else return none
  else if off > e.size ∨ (off + n) % 2 ^ 32 < off then return none
  else return some (← readFrom ip n off (min n (e.size - off)))

/-- The loop of `writei`; each round writes at least one byte. -/
def writeFrom (ip : Slot) : Nat → Nat → List UInt8 → M Unit
  | 0, _, _ => return
  | fuel + 1, off, src =>
    if src = [] then return
    else do
      let addr ← bmap ip (off / bsize)
      let bp ← bread addr
      let m := min src.length (bsize - off % bsize)
      let bp ← logWrite { bp with data := bp.data.copyIn (off % bsize) m fun j => src.getD j 0 }
      brelse bp
      writeFrom ip fuel (off + m) (src.drop m)

@[irreducible] def writei (ip : Slot) (src : List UInt8) (off : Nat) : M (Option Nat) := do
  let e ← getInode ip
  if e.type = tDev then
    if e.major = console then return some (← consolewrite ip src.length) else return none
  else if off > e.size ∨ (off + src.length) % 2 ^ 32 < off then return none
  else if (off + src.length) % 2 ^ 32 > maxfile * bsize then return none
  else
    writeFrom ip src.length off src
    if src.length > 0 ∧ off + src.length > e.size then
      modifyInode ip fun e => { e with size := off + src.length }
      iupdate ip
    return some src.length

end RainOS.Fs
