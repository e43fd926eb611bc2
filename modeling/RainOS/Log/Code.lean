import RainOS.Param

/-!
# The log's code

`log.c` as one process runs it, over any block store that has `bread`, `bwrite` and `brelse`. The
in-memory header is the list of its first `n` sectors. `begin_op` that has to wait, with no other
process to wake it, is asleep for good.
-/

namespace RainOS

/-- A buffer: whether it belongs to a sector at all, the sector, the flags and the data. -/
structure Buf where
  cached : Bool
  sector : Nat
  busy : Bool
  valid : Bool
  dirty : Bool
  data : Block

/-- Where the log lies on disk: its header block, and its size with the header. -/
structure Region where
  start : Nat
  size : Nat
  deriving Inhabited

/-- The in-memory log: its region, the operations in progress and the header. -/
structure Log extends Region where
  outstanding : Int
  committing : Bool
  lh : List Nat
  deriving Inhabited

/-- A state that holds the in-memory log and a cache of disk blocks. -/
class BlockStore (σ : Type) where
  log : σ → Log
  setLog : Log → σ → σ
  bread : Nat → EStateM Halt σ Buf
  bwrite : Buf → EStateM Halt σ Buf
  brelse : Buf → EStateM Halt σ Unit
  pin : Buf → EStateM Halt σ Buf

namespace BlockStore

variable {σ : Type} [BlockStore σ]

def getLog : EStateM Halt σ Log := do return log (← get)

def setLh (lh : List Nat) : EStateM Halt σ Unit :=
  modify fun s => setLog { log s with lh := lh } s

def headSector (b : Block) (i : Nat) : Nat := b.word 4 (4 + 4 * i)

/-- `n` of a header block, a signed word; a negative one counts as none. -/
def headCount (b : Block) : Nat := if b.word 4 0 < 2 ^ 31 then b.word 4 0 else 0

def headSectors (b : Block) : List Nat := (List.range (headCount b)).map (headSector b)

def putSectors (b : Block) : Nat → List Nat → Block
  | _, [] => b
  | i, sector :: rest => putSectors (b.setWord 4 (4 + 4 * i) sector) (i + 1) rest

def putHead (b : Block) (lh : List Nat) : Block := putSectors (b.setWord 4 0 lh.length) 0 lh

@[irreducible] def installTrans : EStateM Halt σ Unit := do
  let log ← getLog
  log.lh.zipIdx.forM fun (sector, tail) => do
    let lbuf ← bread (log.start + tail + 1)
    let dbuf ← bread sector
    let dbuf ← bwrite { dbuf with data := lbuf.data }
    brelse lbuf
    brelse dbuf

@[irreducible] def readHead : EStateM Halt σ Unit := do
  let log ← getLog
  let buf ← bread log.start
  setLh (headSectors buf.data)
  brelse buf

@[irreducible] def writeHead : EStateM Halt σ Unit := do
  let log ← getLog
  let buf ← bread log.start
  let buf ← bwrite { buf with data := putHead buf.data log.lh }
  brelse buf

@[irreducible] def recoverFromLog : EStateM Halt σ Unit := do
  readHead
  installTrans
  setLh []
  writeHead

@[irreducible] def writeLog : EStateM Halt σ Unit := do
  let log ← getLog
  log.lh.zipIdx.forM fun (sector, tail) => do
    let toBuf ← bread (log.start + tail + 1)
    let fromBuf ← bread sector
    let toBuf ← bwrite { toBuf with data := fromBuf.data }
    brelse fromBuf
    brelse toBuf

@[irreducible] def commit : EStateM Halt σ Unit := do
  let log ← getLog
  if log.lh ≠ [] then
    writeLog
    writeHead
    installTrans
    setLh []
    writeHead

@[irreducible] def beginOp : EStateM Halt σ Unit := do
  let log ← getLog
  if log.committing then throw .asleep
  if log.lh.length + (log.outstanding + 1) * maxOpBlocks > logSize then throw .asleep
  modify (setLog { log with outstanding := log.outstanding + 1 })

@[irreducible] def endOp : EStateM Halt σ Unit := do
  modify fun s => setLog { log s with outstanding := (log s).outstanding - 1 } s
  let log ← getLog
  if log.committing then throw (.panic "log.committing")
  if log.outstanding = 0 then
    modify (setLog { log with committing := true })
    commit
    modify fun s => setLog { BlockStore.log s with committing := false } s

/-- Record the block number of a modified buffer and keep it in the cache. -/
@[irreducible] def logWrite (b : Buf) : EStateM Halt σ Buf := do
  let log ← getLog
  if log.lh.length ≥ logSize ∨ (log.lh.length : Int) ≥ log.size - 1 then
    throw (.panic "too big a transaction")
  if log.outstanding < 1 then throw (.panic "log_write outside of trans")
  if b.sector ∉ log.lh then setLh (log.lh ++ [b.sector])
  pin b

end BlockStore

end RainOS
