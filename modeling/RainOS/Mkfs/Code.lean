import RainOS.Fs.Disk
import RainOS.Lib.Hoare

/-!
# Writing a file system image

`mkfs.c`. The image is a file of sectors that grows when a sector past its end is written; reading there is an error.
An input file is its name and what successive calls of `read` return of it, at most a buffer each, or none if it cannot
be opened. What `ialloc` and `iappend` hand out and the sectors that are written, with the part of the program that
writes them, are kept in ghost histories.
-/

namespace RainOS.Mkfs

open Fs

def nlog : Nat := logSize

def nblocks : Nat := 995 - logSize

def ninodes : Nat := 200

def size : Nat := 1024

inductive Kind
  | zero
  | super
  | inode
  | data
  | bitmap
  deriving DecidableEq

/-- An assertion that fails, or a message about a call and `exit(1)`. -/
inductive Exit
  | assert (condition : String)
  | perror (call : String)
  deriving DecidableEq

structure Host where
  image : Nat → Block
  sectors : Nat
  freeblock : Nat
  usedblocks : Nat
  freeinode : Nat
  inodes : List Nat
  blocks : List Nat
  writes : List (Kind × Nat)

abbrev M := EStateM Exit Host

def start : Host := ⟨fun _ _ => 0, 0, 0, 0, 1, [], [], []⟩

/-- What a call of `read` returns: at least a byte, and at most a buffer. -/
structure Chunk where
  bytes : List UInt8
  pos : 0 < bytes.length
  small : bytes.length ≤ bsize

structure Input where
  name : List UInt8
  chunks : Option (List Chunk)

@[irreducible] def assert (condition : Prop) [Decidable condition] (text : String) : M Unit :=
  if condition then return () else throw (.assert text)

@[irreducible] def wsect (kind : Kind) (sec : Nat) (buf : Block) : M Unit :=
  modify fun s => { s with
    image := Function.update s.image sec buf
    sectors := max s.sectors (sec + 1)
    writes := s.writes ++ [(kind, sec)] }

@[irreducible] def rsect (sec : Nat) : M Block := do
  let s ← get
  if sec < s.sectors then return s.image sec else throw (.perror "read")

def i2b (inum : Nat) : Nat := inum / ipb + 2

@[irreducible] def winode (inum : Nat) (ip : Dinode) : M Unit := do
  let buf ← rsect (i2b inum)
  wsect .inode (i2b inum) (putDinode buf inum ip)

@[irreducible] def rinode (inum : Nat) : M Dinode := do
  let buf ← rsect (i2b inum)
  return getDinode buf inum

def newDinode (type : Nat) : Dinode := { Dinode.fresh type with nlink := 1 }

@[irreducible] def ialloc (type : Nat) : M Nat := do
  let inum := (← get).freeinode
  modify fun s => { s with freeinode := inum + 1, inodes := s.inodes ++ [inum] }
  winode inum (newDinode type)
  return inum

def bitmap (used : Nat) : Block := (List.range used).foldl setBit fun _ => 0

@[irreducible] def balloc (used : Nat) : M Unit := do
  assert (used < bsize * 8) "used < 512*8"
  wsect .bitmap (ninodes / ipb + 3) (bitmap used)

@[irreducible] def newBlock : M Nat := do
  let b := (← get).freeblock
  modify fun s => { s with freeblock := b + 1, usedblocks := s.usedblocks + 1, blocks := s.blocks ++ [b] }
  return b

/-- An inode with a block at `addrs[k]`, a new one if there is none yet. -/
@[irreducible] def withAddr (din : Dinode) (k : Nat) : M Dinode :=
  if din.addrs k = 0 then din.setAddr k <$> newBlock else return din

/-- The block for the next bytes of a file, a new one if there is none yet. -/
@[irreducible] def blockFor (din : Dinode) (fbn : Nat) : M (Dinode × Nat) := do
  if fbn < ndirect then
    let din ← withAddr din fbn
    return (din, din.addrs fbn)
  else
    let din ← withAddr din ndirect
    let indirect ← rsect (din.addrs ndirect)
    if indirect.word 4 (4 * (fbn - ndirect)) = 0 then
      let b ← newBlock
      let indirect := indirect.setWord 4 (4 * (fbn - ndirect)) b
      wsect .data (din.addrs ndirect) indirect
      return (din, indirect.word 4 (4 * (fbn - ndirect)))
    else return (din, indirect.word 4 (4 * (fbn - ndirect)))

def appendLoop : Nat → Dinode → Nat → List UInt8 → M (Dinode × Nat)
  | 0, din, off, _ => return (din, off)
  | fuel + 1, din, off, p => do
      if p = [] then return (din, off)
      let fbn := off / bsize
      assert (fbn < maxfile) "fbn < MAXFILE"
      let (din, x) ← blockFor din fbn
      let n1 := min p.length ((fbn + 1) * bsize - off)
      let buf ← rsect x
      wsect .data x (buf.copyIn (off - fbn * bsize) n1 fun i => p.getD i 0)
      appendLoop fuel din (off + n1) (p.drop n1)

@[irreducible] def iappend (inum : Nat) (p : List UInt8) : M Unit := do
  let din ← rinode inum
  let (din, off) ← appendLoop p.length din din.size p
  winode inum { din with size := off }

/-- The name in the file system: without a leading underscore. -/
def Input.stored (a : Input) : List UInt8 := if a.name.head? = some 95 then a.name.tail else a.name

@[irreducible] def addFile (a : Input) : M Unit := do
  assert (slash ∉ a.name) "index(argv[i], '/') == 0"
  match a.chunks with
  | none => throw (.perror "open")
  | some chunks =>
    let inum ← ialloc tFile
    iappend rootino (Dirent.mk inum a.stored).bytes
    chunks.forM fun c => iappend inum c.bytes

def superblock : Superblock := ⟨size, nblocks, ninodes, nlog⟩

@[irreducible] def main (args : List Input) : M Unit := do
  let bitblocks := size / (bsize * 8) + 1
  let usedblocks := ninodes / ipb + 3 + bitblocks
  modify fun s => { s with usedblocks := usedblocks, freeblock := usedblocks }
  assert (nblocks + usedblocks + nlog = size) "nblocks + usedblocks + nlog == size"
  (List.range (nblocks + usedblocks + nlog)).forM fun i => wsect .zero i fun _ => 0
  wsect .super 1 (putSuperblock (fun _ => 0) superblock)
  let root ← ialloc tDir
  assert (root = rootino) "rootino == ROOTINO"
  iappend root (Dirent.mk root [46]).bytes
  iappend root (Dirent.mk root [46, 46]).bytes
  args.forM addFile
  -- fix size of root inode dir
  let din ← rinode root
  winode root { din with size := (din.size / bsize + 1) * bsize }
  balloc (← get).usedblocks

end RainOS.Mkfs
