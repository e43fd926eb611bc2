import RainOS.Param

/-!
# The on-disk file system format

`fs.h`: where the superblock, the inodes, the free bitmap, the data blocks and the log lie, and how a
disk inode, a directory entry and a bitmap bit are stored in a block. Integers are the unsigned values
of their bytes.
-/

namespace RainOS.Fs

def rootino : Nat := 1

def ndirect : Nat := 12

def nindirect : Nat := bsize / 4

def maxfile : Nat := ndirect + nindirect

def ipb : Nat := 8

def bpb : Nat := bsize * 8

/-- `DIRSIZ`: the most bytes of a name in a directory entry. -/
def dirsiz : Nat := 14

def direntSize : Nat := 16

def tDir : Nat := 1

def tFile : Nat := 2

def tDev : Nat := 3

structure Superblock where
  size : Nat
  nblocks : Nat
  ninodes : Nat
  nlog : Nat
  deriving DecidableEq, Repr

def getSuperblock (b : Block) : Superblock where
  size := b.word 4 0
  nblocks := b.word 4 4
  ninodes := b.word 4 8
  nlog := b.word 4 12

def putSuperblock (b : Block) (sb : Superblock) : Block :=
  (((b.setWord 4 0 sb.size).setWord 4 4 sb.nblocks).setWord 4 8 sb.ninodes).setWord 4 12 sb.nlog

def iblock (i : Nat) : Nat := i / ipb + 2

def bblock (b ninodes : Nat) : Nat := b / bpb + ninodes / ipb + 3

def Superblock.firstData (sb : Superblock) : Nat := sb.ninodes / ipb + 3 + (sb.size / bpb + 1)

def Superblock.logStart (sb : Superblock) : Nat := sb.size - sb.nlog

structure Dinode where
  type : Nat
  major : Nat
  minor : Nat
  nlink : Nat
  size : Nat
  addrs : Nat → Nat

def inodeOffset (i : Nat) : Nat := i % ipb * 64

def getDinode (b : Block) (i : Nat) : Dinode where
  type := b.word 2 (inodeOffset i)
  major := b.word 2 (inodeOffset i + 2)
  minor := b.word 2 (inodeOffset i + 4)
  nlink := b.word 2 (inodeOffset i + 6)
  size := b.word 4 (inodeOffset i + 8)
  addrs k := b.word 4 (inodeOffset i + 12 + 4 * k)

/-- Store the first `n` of the addresses from `offset` on. -/
def putAddrs (b : Block) (offset : Nat) (addrs : Nat → Nat) : Nat → Block
  | 0 => b
  | n + 1 => (putAddrs b offset addrs n).setWord 4 (offset + 4 * n) (addrs n)

def putDinode (b : Block) (i : Nat) (d : Dinode) : Block :=
  putAddrs (((((b.setWord 2 (inodeOffset i) d.type).setWord 2 (inodeOffset i + 2) d.major).setWord 2
    (inodeOffset i + 4) d.minor).setWord 2 (inodeOffset i + 6) d.nlink).setWord 4
    (inodeOffset i + 8) d.size) (inodeOffset i + 12) d.addrs (ndirect + 1)

/-- An inode that `memset` has cleared, with its type. -/
def Dinode.fresh (type : Nat) : Dinode where
  type := type
  major := 0
  minor := 0
  nlink := 0
  size := 0
  addrs _ := 0

instance : Inhabited Dinode := ⟨.fresh 0⟩

def getBit (b : Block) (bi : Nat) : Bool := (b.word 1 (bi / 8)).testBit (bi % 8)

def setBit (b : Block) (bi : Nat) : Block :=
  b.setWord 1 (bi / 8) (b.word 1 (bi / 8) ||| 2 ^ (bi % 8))

def clearBit (b : Block) (bi : Nat) : Block :=
  b.setWord 1 (bi / 8) (b.word 1 (bi / 8) &&& (0xff ^^^ 2 ^ (bi % 8)))

structure Dirent where
  inum : Nat
  name : List UInt8
  deriving DecidableEq, Repr

/-- The sixteen bytes of an entry; the name is cut at its first zero and padded, as `strncpy` does. -/
def Dirent.bytes (de : Dirent) : List UInt8 :=
  UInt8.ofNat de.inum :: UInt8.ofNat (de.inum / 256) ::
    (List.range dirsiz).map fun k => (de.name.takeWhile (· ≠ 0)).getD k 0

def getDirent (bytes : List UInt8) : Dirent where
  inum := (bytes.getD 0 0).toNat + 256 * (bytes.getD 1 0).toNat
  name := bytes.drop 2

/-- `strncmp(s, t, n) == 0`, a string being zero past its end. -/
def sameName : Nat → List UInt8 → List UInt8 → Bool
  | 0, _, _ => true
  | n + 1, s, t =>
    if s.headD 0 ≠ 0 ∧ s.headD 0 = t.headD 0 then sameName n s.tail t.tail
    else s.headD 0 == t.headD 0

def namecmp (s t : List UInt8) : Bool := sameName dirsiz s t

def slash : UInt8 := 47

/-- The first element of a path, cut to the size of a name, and the path behind it; none when no
element is left. -/
def skipelem (path : List UInt8) : Option (List UInt8 × List UInt8) :=
  let path := path.dropWhile (· = slash)
  if path = [] then none
  else some ((path.takeWhile (· ≠ slash)).take dirsiz,
    (path.dropWhile (· ≠ slash)).dropWhile (· = slash))

end RainOS.Fs
