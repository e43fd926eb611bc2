import RainOS.Fs.Inode

/-!
# Directories and paths

The directory and name layers of `fs.c`. A path is its bytes without the closing zero, a name at most
`DIRSIZ` of them.
-/

namespace RainOS.Fs

abbrev Path := List UInt8

@[irreducible] def readDirent (dp : Slot) (off : Nat) (message : String) : M Dirent := do
  match ← readi dp off direntSize with
  | some bytes => if bytes.length = direntSize then return getDirent bytes else throw (.panic message)
  | none => throw (.panic message)

/-- The loop of `dirlookup` over the entries that are left: the offset of the entry and its inode
number. -/
def lookupFrom (dp : Slot) (name : List UInt8) : List Nat → M (Option (Nat × Nat))
  | [] => return none
  | off :: rest => do
    let de ← readDirent dp off "dirlink read"
    if de.inum ≠ 0 ∧ namecmp name de.name then return some (off, de.inum)
    else lookupFrom dp name rest

def direntOffsets (first size : Nat) : List Nat :=
  (List.range' first ((size + direntSize - 1) / direntSize - first)).map (· * direntSize)

@[irreducible] def dirlookup (dp : Slot) (name : List UInt8) : M (Option (Slot × Nat)) := do
  let e ← getInode dp
  if e.type ≠ tDir then throw (.panic "dirlookup not DIR")
  match ← lookupFrom dp name (direntOffsets 0 e.size) with
  | some (off, inum) => return some (← iget inum, off)
  | none => return none

/-- The loop of `dirlink`: the offset of the first empty entry, or where the directory ends. -/
def emptyFrom (dp : Slot) (limit : Nat) : List Nat → M Nat
  | [] => return limit
  | off :: rest => do
    let de ← readDirent dp off "dirlink read"
    if de.inum = 0 then return off else emptyFrom dp limit rest

@[irreducible] def dirlink (dp : Slot) (name : List UInt8) (inum : Nat) : M Bool := do
  match ← dirlookup dp name with
  | some (ip, _) =>
    iput ip
    return false
  | none =>
    let e ← getInode dp
    let off ← emptyFrom dp ((e.size + direntSize - 1) / direntSize * direntSize)
      (direntOffsets 0 e.size)
    match ← writei dp (Dirent.mk inum name).bytes off with
    | some _ => return true
    | none => throw (.panic "dirlink")

/-- The loop of `namex`; each round takes an element off the path. -/
def namexFrom (parent : Bool) : Nat → Path → Slot → M (Option (Slot × List UInt8))
  | 0, _, _ => throw .spin
  | fuel + 1, path, ip =>
    match skipelem path with
    | none => do
      if parent then
        iput ip
        return none
      else return some (ip, [])
    | some (name, path) => do
      ilock ip
      let e ← getInode ip
      if e.type ≠ tDir then
        iunlockput ip
        return none
      else if parent ∧ path = [] then
        iunlock ip
        return some (ip, name)
      else
        match ← dirlookup ip name with
        | none =>
          iunlockput ip
          return none
        | some (next, _) =>
          iunlockput ip
          namexFrom parent fuel path next

/-- Look up the inode for a path name, or that of its parent together with the last element. -/
@[irreducible] def namex (cwd : Slot) (path : Path) (parent : Bool) : M (Option (Slot × List UInt8)) := do
  let ip ← if path.head? = some slash then iget rootino else idup cwd
  namexFrom parent (path.length + 1) path ip

@[irreducible] def namei (cwd : Slot) (path : Path) : M (Option Slot) := do
  return (← namex cwd path false).map Prod.fst

@[irreducible] def nameiparent (cwd : Slot) (path : Path) : M (Option (Slot × List UInt8)) :=
  namex cwd path true

end RainOS.Fs
