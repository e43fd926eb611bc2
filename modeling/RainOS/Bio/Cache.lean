import RainOS.Lib.Crash
import RainOS.Lib.Hoare
import RainOS.Log.Code

/-!
# Buffer cache

The buffer cache of `bio.c` over one disk: `NBUF` buffers in the order of the list from
`bcache.head.next` on, most recently used first. A buffer that `bread` returned is held by its
caller, which changes its own copy and hands it back to `bwrite`, `log_write` and `brelse`; no one
else touches a busy buffer. A request to the disk is one step.
-/

namespace RainOS.Bio

open BlockStore

structure Machine where
  disk : Recorded Nat Block
  bufs : List Buf
  log : Log

def Caches (sector : Nat) (b : Buf) : Bool := b.cached && b.sector == sector

def store (bufs : List Buf) (b : Buf) : List Buf :=
  bufs.map fun c => if Caches b.sector c then b else c

/-- Recycle the least recently used buffer that is neither busy nor dirty. -/
def recycle (sector : Nat) : List Buf → Option (Buf × List Buf)
  | [] => none
  | b :: bs =>
    match recycle sector bs with
    | some (c, bs') => some (c, b :: bs')
    | none =>
      if !b.busy && !b.dirty then
        let c : Buf := ⟨true, sector, true, false, false, b.data⟩
        some (c, c :: bs)
      else none

def binit (disk : Nat → Block) (log : Log) : Machine where
  disk := .start disk
  bufs := List.replicate nbuf ⟨false, 0, false, false, false, fun _ => 0⟩
  log := log

def bget (sector : Nat) : EStateM Halt Machine Buf := do
  let m ← get
  match m.bufs.find? (Caches sector) with
  | some b =>
    if b.busy then throw .asleep
    let b := { b with busy := true }
    set { m with bufs := store m.bufs b }
    return b
  | none =>
    match recycle sector m.bufs with
    | some (b, bufs) =>
      set { m with bufs := bufs }
      return b
    | none => throw (.panic "bget: no buffers")

def iderw (b : Buf) : EStateM Halt Machine Buf := do
  if !b.busy then throw (.panic "iderw: buf not busy")
  if b.valid && !b.dirty then throw (.panic "iderw: nothing to do")
  let m ← get
  if b.dirty then
    let b := { b with valid := true, dirty := false }
    set { m with disk := m.disk.write b.sector b.data, bufs := store m.bufs b }
    return b
  else
    let b := { b with valid := true, data := m.disk.now b.sector }
    set { m with bufs := store m.bufs b }
    return b

def bread (sector : Nat) : EStateM Halt Machine Buf := do
  let b ← bget sector
  if b.valid then return b else iderw b

def bwrite (b : Buf) : EStateM Halt Machine Buf := do
  if !b.busy then throw (.panic "bwrite")
  iderw { b with dirty := true }

def brelse (b : Buf) : EStateM Halt Machine Unit := do
  if !b.busy then throw (.panic "brelse")
  modify fun m => { m with bufs := { b with busy := false } :: m.bufs.eraseP (Caches b.sector) }

/-- Keep a changed buffer in the cache with `B_DIRTY` until it is written. -/
def pin (b : Buf) : EStateM Halt Machine Buf := do
  let b := { b with dirty := true }
  modify fun m => { m with bufs := store m.bufs b }
  return b

instance : BlockStore Machine where
  log := Machine.log
  setLog log m := { m with log := log }
  bread := bread
  bwrite := bwrite
  brelse := brelse
  pin := pin

end RainOS.Bio
