import RainOS.Fs.Dir
import RainOS.Lib.System

/-!
# Files and system calls

`file.c`, `sysfile.c` and what `fork`, `exit`, `exec` and the boot do to the file system. Arguments are
the values the calls have fetched from user memory; a result of -1 is `none` or `false`. Pipes are left
out.
-/

namespace RainOS.Fs

open BlockStore List

def getFile (f : Fin nfile) : M File := do return (← get).ftable f

def modifyFile (f : Fin nfile) (g : File → File) : M Unit :=
  modify fun s => { s with ftable := store s.ftable f (g (s.ftable f)) }

def getProc (p : Fin nproc) : M Proc := do return (← get).procs p

def modifyProc (p : Fin nproc) (g : Proc → Proc) : M Unit :=
  modify fun s => { s with procs := store s.procs p (g (s.procs p)) }

@[irreducible] def filealloc : M (Option (Fin nfile)) := do
  let s ← get
  match (finRange nfile).find? fun f => (s.ftable f).ref = 0 with
  | some f =>
    modifyFile f fun file => { file with ref := 1 }
    return some f
  | none => return none

@[irreducible] def filedup (f : Fin nfile) : M Unit := do
  let file ← getFile f
  if file.ref < 1 then throw (.panic "filedup")
  modifyFile f fun file => { file with ref := file.ref + 1 }

@[irreducible] def fileclose (f : Fin nfile) : M Unit := do
  let ff ← getFile f
  if ff.ref < 1 then throw (.panic "fileclose")
  if ff.ref - 1 > 0 then modifyFile f fun file => { file with ref := file.ref - 1 }
  else
    modifyFile f fun file => { file with ref := 0, type := .none }
    if ff.type = .inode then
      beginOp
      iput ff.ip
      endOp

/-- What `stati` copies out. -/
structure Stat where
  ino : Nat
  type : Nat
  nlink : Nat
  size : Nat
  deriving DecidableEq, Repr

def stati (e : Inode) : Stat := ⟨e.inum, e.type, e.nlink, e.size⟩

@[irreducible] def filestat (f : Fin nfile) : M (Option Stat) := do
  let file ← getFile f
  if file.type = .inode then
    ilock file.ip
    let e ← getInode file.ip
    iunlock file.ip
    return some (stati e)
  else return none

@[irreducible] def fileread (f : Fin nfile) (n : Nat) : M (Option (List UInt8)) := do
  let file ← getFile f
  if file.readable = false then return none
  else if file.type = .inode then
    ilock file.ip
    let r ← readi file.ip file.off n
    modifyFile f fun file => { file with off := (file.off + (r.getD []).length) % 2 ^ 32 }
    iunlock file.ip
    return r
  else throw (.panic "fileread")

/-- The most bytes `filewrite` writes in one transaction. -/
def writeMax : Nat := (logSize - 1 - 1 - 2) / 2 * bsize

/-- The loop of `filewrite`: whether all of the bytes were written. -/
def fileWriteFrom (f : Fin nfile) (ip : Slot) : Nat → List UInt8 → M Bool
  | 0, _ => return true
  | fuel + 1, src =>
    if src = [] then return true
    else do
      beginOp
      ilock ip
      let file ← getFile f
      let r ← writei ip (src.take writeMax) file.off
      modifyFile f fun file => { file with off := (file.off + r.getD 0) % 2 ^ 32 }
      iunlock ip
      endOp
      match r with
      | none => return false
      | some r =>
        if r ≠ min src.length writeMax then throw (.panic "short filewrite")
        fileWriteFrom f ip fuel (src.drop writeMax)

@[irreducible] def filewrite (f : Fin nfile) (src : List UInt8) : M (Option Nat) := do
  let file ← getFile f
  if file.writable = false then return none
  else if file.type = .inode then
    let all ← fileWriteFrom f file.ip src.length src
    return if all then some src.length else none
  else throw (.panic "filewrite")

@[irreducible] def argfd (p : Fin nproc) (fd : Nat) : M (Option (Fin nfile)) := do
  let proc ← getProc p
  return if h : fd < nofile then proc.ofile ⟨fd, h⟩ else none

@[irreducible] def fdalloc (p : Fin nproc) (f : Fin nfile) : M (Option (Fin nofile)) := do
  let proc ← getProc p
  match (finRange nofile).find? fun fd => (proc.ofile fd).isNone with
  | some fd =>
    modifyProc p fun proc => { proc with ofile := store proc.ofile fd (some f) }
    return some fd
  | none => return none

def currentDir (p : Fin nproc) : M Slot := do
  match (← getProc p).cwd with
  | some cwd => return cwd
  | none => throw .wild

@[irreducible] def sysDup (p : Fin nproc) (fd : Nat) : M (Option (Fin nofile)) := do
  match ← argfd p fd with
  | none => return none
  | some f =>
    match ← fdalloc p f with
    | none => return none
    | some fd =>
      filedup f
      return some fd

@[irreducible] def sysRead (p : Fin nproc) (fd n : Nat) : M (Option (List UInt8)) := do
  match ← argfd p fd with
  | none => return none
  | some f => fileread f n

@[irreducible] def sysWrite (p : Fin nproc) (fd : Nat) (src : List UInt8) : M (Option Nat) := do
  match ← argfd p fd with
  | none => return none
  | some f => filewrite f src

@[irreducible] def sysClose (p : Fin nproc) (fd : Fin nofile) : M Bool := do
  match ← argfd p fd with
  | none => return false
  | some f =>
    modifyProc p fun proc => { proc with ofile := store proc.ofile fd none }
    fileclose f
    return true

@[irreducible] def sysFstat (p : Fin nproc) (fd : Nat) : M (Option Stat) := do
  match ← argfd p fd with
  | none => return none
  | some f => filestat f

def increment (x : Nat) : Nat := (x + 1) % 2 ^ 16

def decrement (x : Nat) : Nat := (x + (2 ^ 16 - 1)) % 2 ^ 16

@[irreducible] def linkBad (ip : Slot) : M Unit := do
  ilock ip
  modifyInode ip fun e => { e with nlink := decrement e.nlink }
  iupdate ip
  iunlockput ip
  endOp

@[irreducible] def sysLink (p : Fin nproc) (old new : Path) : M Bool := do
  let cwd ← currentDir p
  beginOp
  match ← namei cwd old with
  | none =>
    endOp
    return false
  | some ip =>
    ilock ip
    let e ← getInode ip
    if e.type = tDir then
      iunlockput ip
      endOp
      return false
    else
      modifyInode ip fun e => { e with nlink := increment e.nlink }
      iupdate ip
      iunlock ip
      match ← nameiparent cwd new with
      | none =>
        linkBad ip
        return false
      | some (dp, name) =>
        ilock dp
        let e ← getInode ip
        if ← dirlink dp name e.inum then
          iunlockput dp
          iput ip
          endOp
          return true
        else
          iunlockput dp
          linkBad ip
          return false

def emptyDirFrom (dp : Slot) : List Nat → M Bool
  | [] => return true
  | off :: rest => do
    let de ← readDirent dp off "isdirempty: readi"
    if de.inum ≠ 0 then return false else emptyDirFrom dp rest

@[irreducible] def isdirempty (dp : Slot) : M Bool := do
  let e ← getInode dp
  emptyDirFrom dp (direntOffsets 2 e.size)

def dot : List UInt8 := [46]

def dotdot : List UInt8 := [46, 46]

/-- The tail of `sys_unlink` when nothing is removed. -/
@[irreducible] def unlinkBad (dp : Slot) : M Bool := do
  iunlockput dp
  endOp
  return false

/-- `sys_unlink` once the entry of `ip` at `off` of `dp` may go. -/
@[irreducible] def unlinkEntry (dp ip : Slot) (off : Nat) : M Bool := do
  match ← writei dp (replicate direntSize 0) off with
  | none => throw (.panic "unlink: writei")
  | some _ =>
    let e ← getInode ip
    if e.type = tDir then
      modifyInode dp fun e => { e with nlink := decrement e.nlink }
      iupdate dp
    iunlockput dp
    modifyInode ip fun e => { e with nlink := decrement e.nlink }
    iupdate ip
    iunlockput ip
    endOp
    return true

@[irreducible] def sysUnlink (p : Fin nproc) (path : Path) : M Bool := do
  let cwd ← currentDir p
  beginOp
  match ← nameiparent cwd path with
  | none =>
    endOp
    return false
  | some (dp, name) =>
    ilock dp
    if namecmp name dot ∨ namecmp name dotdot then unlinkBad dp
    else
      match ← dirlookup dp name with
      | none => unlinkBad dp
      | some (ip, off) =>
        ilock ip
        let e ← getInode ip
        if e.nlink = 0 ∨ e.nlink ≥ 2 ^ 15 then throw (.panic "unlink: nlink < 1")
        let keep ← if e.type = tDir then (fun empty => !empty) <$> isdirempty ip else pure false
        if keep then
          iunlockput ip
          unlinkBad dp
        else unlinkEntry dp ip off

/-- `create` once the name is known to be new in the directory `dp`. -/
@[irreducible] def createIn (dp : Slot) (name : List UInt8) (type major minor : Nat) : M Slot := do
  let ip ← ialloc type
  ilock ip
  modifyInode ip fun e => { e with major := major, minor := minor, nlink := 1 }
  iupdate ip
  if type = tDir then
    modifyInode dp fun e => { e with nlink := increment e.nlink }
    iupdate dp
    let e ← getInode ip
    if !(← dirlink ip dot e.inum) then throw (.panic "create dots")
    let e ← getInode dp
    if !(← dirlink ip dotdot e.inum) then throw (.panic "create dots")
  let e ← getInode ip
  if !(← dirlink dp name e.inum) then throw (.panic "create: dirlink")
  iunlockput dp
  return ip

/-- Make an inode of the given type under a new name, or return the file of that name, locked. -/
@[irreducible] def create (cwd : Slot) (path : Path) (type major minor : Nat) : M (Option Slot) := do
  match ← nameiparent cwd path with
  | none => return none
  | some (dp, name) =>
    ilock dp
    match ← dirlookup dp name with
    | some (ip, _) =>
      iunlockput dp
      ilock ip
      let e ← getInode ip
      if type = tFile ∧ e.type = tFile then return some ip
      else
        iunlockput ip
        return none
    | none => return some (← createIn dp name type major minor)

def oWronly : Nat := 0x001

def oRdwr : Nat := 0x002

def oCreate : Nat := 0x200

/-- The inode `sys_open` opens, locked. -/
@[irreducible] def openInode (cwd : Slot) (path : Path) (omode : Nat) : M (Option Slot) := do
  if omode &&& oCreate ≠ 0 then create cwd path tFile 0 0
  else
    match ← namei cwd path with
    | none => return none
    | some ip =>
      ilock ip
      let e ← getInode ip
      if e.type = tDir ∧ omode ≠ 0 then
        iunlockput ip
        return none
      else return some ip

@[irreducible] def sysOpen (p : Fin nproc) (path : Path) (omode : Nat) : M (Option (Fin nofile)) := do
  let cwd ← currentDir p
  beginOp
  match ← openInode cwd path omode with
  | none =>
    endOp
    return none
  | some ip =>
    match ← filealloc with
    | none =>
      iunlockput ip
      endOp
      return none
    | some f =>
      match ← fdalloc p f with
      | none =>
        fileclose f
        iunlockput ip
        endOp
        return none
      | some fd =>
        iunlock ip
        endOp
        modifyFile f fun file =>
          { file with
            type := .inode
            ip := ip
            off := 0
            readable := omode &&& oWronly = 0
            writable := omode &&& oWronly ≠ 0 ∨ omode &&& oRdwr ≠ 0 }
        return some fd

/-- The end of `sys_mkdir` and `sys_mknod`. -/
@[irreducible] def createEnd : Option Slot → M Bool
  | none => do
    endOp
    return false
  | some ip => do
    iunlockput ip
    endOp
    return true

@[irreducible] def sysMkdir (p : Fin nproc) (path : Path) : M Bool := do
  let cwd ← currentDir p
  beginOp
  createEnd (← create cwd path tDir 0 0)

@[irreducible] def sysMknod (p : Fin nproc) (path : Path) (major minor : Nat) : M Bool := do
  let cwd ← currentDir p
  beginOp
  createEnd (← create cwd path tDev (major % 2 ^ 16) (minor % 2 ^ 16))

@[irreducible] def sysChdir (p : Fin nproc) (path : Path) : M Bool := do
  let cwd ← currentDir p
  beginOp
  match ← namei cwd path with
  | none =>
    endOp
    return false
  | some ip =>
    ilock ip
    let e ← getInode ip
    if e.type ≠ tDir then
      iunlockput ip
      endOp
      return false
    else
      iunlock ip
      iput cwd
      endOp
      modifyProc p fun proc => { proc with cwd := some ip }
      return true

/-- The part of `fork` that shares the open files and the current directory with the child, an entry
of the process table that is not in use. -/
@[irreducible] def fork (p child : Fin nproc) : M Unit := do
  let cwd ← currentDir p
  let proc ← getProc p
  if (← getProc child).cwd.isSome then return
  (finRange nofile).forM fun fd =>
    match proc.ofile fd with
    | none => return
    | some f => do
      filedup f
      modifyProc child fun proc => { proc with ofile := store proc.ofile fd (some f) }
  let cwd ← idup cwd
  modifyProc child fun proc => { proc with cwd := some cwd }

def initproc : Fin nproc := ⟨0, by decide⟩

@[irreducible] def exit (p : Fin nproc) : M Unit := do
  if p = initproc then throw (.panic "init exiting")
  (finRange nofile).forM fun fd => do
    match (← getProc p).ofile fd with
    | none => return
    | some f =>
      fileclose f
      modifyProc p fun proc => { proc with ofile := store proc.ofile fd none }
  let cwd ← currentDir p
  beginOp
  iput cwd
  endOp
  modifyProc p fun proc => { proc with cwd := none }

/-- The part of `exec` that reads the program file, at the offsets and lengths of its headers and
segments. -/
@[irreducible] def exec (p : Fin nproc) (path : Path) (reads : List (Nat × Nat)) : M Unit := do
  let cwd ← currentDir p
  beginOp
  match ← namei cwd path with
  | none => endOp
  | some ip =>
    ilock ip
    reads.forM fun r => discard (readi ip r.1 r.2)
    iunlockput ip
    endOp

/-- `sys_ExFileRead`: the sectors and locations it hands to `ex_addbuffer`, in order. It runs outside
of a transaction and keeps its reference to the inode. -/
@[irreducible] def exFileRead (p : Fin nproc) (path : Path) (location : Nat) :
    M (List (Nat × Nat)) := do
  let cwd ← currentDir p
  match ← namei cwd path with
  | none => throw (.panic "ilock")
  | some ip =>
    ilock ip
    let e ← getInode ip
    let blocks ← (range ((e.size + bsize - 1) / bsize)).mapM (bmap ip)
    let last ← bmap ip (e.size / bsize)
    iunlock ip
    return blocks.zipIdx.map (fun b => (b.1, (location + bsize * b.2) % 2 ^ 32)) ++
      [(last, (location + e.size) % 2 ^ 32)]

@[irreducible] def initlog : M Unit := do
  let sb ← readsb
  modify fun s => { s with log := { s.log with start := sb.logStart, size := sb.nlog } }
  recoverFromLog

/-- The first process: its current directory is the root, and it recovers the log before it runs. -/
@[irreducible] def boot : M Unit := do
  let cwd ← iget rootino
  modifyProc initproc fun proc => { proc with cwd := some cwd }
  initlog

inductive Syscall
  | dup (fd : Nat)
  | read (fd n : Nat)
  | write (fd : Nat) (src : List UInt8)
  | close (fd : Fin nofile)
  | fstat (fd : Nat)
  | link (old new : Path)
  | unlink (path : Path)
  | open (path : Path) (omode : Nat)
  | mkdir (path : Path)
  | mknod (path : Path) (major minor : Nat)
  | chdir (path : Path)
  | fork (child : Fin nproc)
  | exit
  | exec (path : Path) (reads : List (Nat × Nat))
  | exFileRead (path : Path) (location : Nat)

@[irreducible] def syscall (p : Fin nproc) : Syscall → M Unit
  | .dup fd => discard (sysDup p fd)
  | .read fd n => discard (sysRead p fd n)
  | .write fd src => discard (sysWrite p fd src)
  | .close fd => discard (sysClose p fd)
  | .fstat fd => discard (sysFstat p fd)
  | .link old new => discard (sysLink p old new)
  | .unlink path => discard (sysUnlink p path)
  | .open path omode => discard (sysOpen p path omode)
  | .mkdir path => discard (sysMkdir p path)
  | .mknod path major minor => discard (sysMknod p path major minor)
  | .chdir path => discard (sysChdir p path)
  | .fork child => fork p child
  | .exit => exit p
  | .exec path reads => exec p path reads
  | .exFileRead path location => discard (exFileRead p path location)

end RainOS.Fs
