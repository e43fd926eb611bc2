import RainOS.Fs.Inode
import RainOS.Lib.System
import RainOS.Process.Code

/-!
# Processes and processors

The process table of `proc.c` and the processors that share it. `ptable.lock` is taken and given back by
processors, and a process that gives up its processor in `sched` leaves the lock to the scheduler it switches
to, which goes on with its loop over the table where it was. A section of code under the lock is one step up
to the switch, and each turn of a scheduler's loop is one step. Between its sections `fork` works on a slot
that no one else touches.

What a process does to its own memory, files and registers is any change of those fields. Other spinlocks are
counted only. `serials` numbers the uses of slots and the lists at the end of the table are a history; no code
reads them.
-/

namespace RainOS.Sched

open Process (Slot nproc)

inductive ProcState
  | unused
  | embryo
  | sleeping
  | runnable
  | running
  | zombie
  deriving DecidableEq, Repr

/-- What a process sleeps on: itself in `wait`, else an address in the kernel. -/
inductive Chan
  | proc (p : Slot)
  | addr (a : Nat)
  deriving DecidableEq

inductive Context
  | forkret
  | yield
  | sleep
  | wait
  | exit
  deriving DecidableEq

structure Trapframe where
  eax : Nat
  others : List Nat
  deriving DecidableEq

structure Proc where
  sz : Nat
  pgdir : Nat
  /-- The bytes its directory maps below `sz`. -/
  mem : Mem
  kstack : Nat
  state : ProcState
  pid : Int
  parent : Option Slot
  tf : Trapframe
  context : Context
  chan : Option Chan
  killed : Bool
  ofile : Fin Fs.nofile → Option Nat
  cwd : Option Nat
  name : List UInt8
  type : Int

/-- A process in `fork`: it has a slot, then also a kernel stack, then all but the state. -/
inductive Doing
  | idle
  | slot (np : Slot)
  | stack (np : Slot)
  | ready (np : Slot)
  deriving DecidableEq

/-- A child that `wait` returned, the process it was returned to and the parent it then had. -/
structure Reaped where
  serial : Nat
  waiter : Slot
  parent : Option Slot
  deriving DecidableEq

structure Table where
  procs : Slot → Proc
  nextpid : Int
  initproc : Slot
  doing : Slot → Doing
  born : Nat
  serials : Slot → Nat
  exits : List Nat
  reaped : List Reaped
  /-- The processes whose kernel stack was given to `kfree`, and whose directory to `freevm`. -/
  kstackFrees : List Nat
  pgdirFrees : List Nat

namespace Table

def setProc (t : Table) (p : Slot) (f : Proc → Proc) : Table :=
  { t with procs := Function.update t.procs p (f (t.procs p)) }

def setDoing (t : Table) (p : Slot) (doing : Doing) : Table :=
  { t with doing := Function.update t.doing p doing }

end Table

def wakeup1 (procs : Slot → Proc) (chan : Option Chan) : Slot → Proc := fun p =>
  if (procs p).state = .sleeping ∧ (procs p).chan = chan then { procs p with state := .runnable } else procs p

def wakeAll (t : Table) (chan : Option Chan) : Table := { t with procs := wakeup1 t.procs chan }

def fallAsleep (t : Table) (p : Slot) (chan : Chan) : Table :=
  t.setProc p fun q => { q with chan := some chan, state := .sleeping }

def reparent (procs : Slot → Proc) (p initproc : Slot) : Slot → Proc :=
  let abandoned := (List.finRange nproc).any fun q => (procs q).parent = some p ∧ (procs q).state = .zombie
  let given : Slot → Proc := fun q =>
    if (procs q).parent = some p then { procs q with parent := some initproc } else procs q
  if abandoned then wakeup1 given (some (.proc initproc)) else given

def closeFiles (t : Table) (p : Slot) : Table :=
  t.setProc p fun q => { q with ofile := fun _ => none, cwd := none }

def becomeZombie (t : Table) (p : Slot) : Table :=
  let procs := reparent (wakeup1 t.procs ((t.procs p).parent.map .proc)) p t.initproc
  { t with
    procs := Function.update procs p { procs p with state := .zombie }
    exits := t.exits ++ [t.serials p] }

def reap (t : Table) (p q : Slot) : Table :=
  { t.setProc q fun r => { r with kstack := 0, state := .unused, pid := 0, parent := none, name := [], killed := false } with
    reaped := t.reaped ++ [⟨t.serials q, p, (t.procs q).parent⟩]
    kstackFrees := t.kstackFrees ++ [t.serials q]
    pgdirFrees := t.pgdirFrees ++ [t.serials q] }

def findZombie (procs : Slot → Proc) (p : Slot) : Option Slot :=
  (List.finRange nproc).find? fun q => (procs q).parent = some p ∧ (procs q).state = .zombie

def haveKids (procs : Slot → Proc) (p : Slot) : Bool :=
  (List.finRange nproc).any fun q => (procs q).parent = some p

def findPid (procs : Slot → Proc) (pid : Int) : Option Slot :=
  (List.finRange nproc).find? fun p => (procs p).pid = pid

def kill (t : Table) (pid : Int) : Table × Int :=
  match findPid t.procs pid with
  | some q => (t.setProc q fun r =>
    { r with killed := true, state := if r.state = .sleeping then .runnable else r.state }, 0)
  | none => (t, -1)

def next (pid : Int) : Int := if pid = 2 ^ 31 - 1 then -2 ^ 31 else pid + 1

def findUnused (procs : Slot → Proc) : Option Slot :=
  (List.finRange nproc).find? fun p => (procs p).state = .unused

def allocproc (t : Table) (p : Slot) : Table :=
  match findUnused t.procs with
  | none => t
  | some np =>
    { t.setProc np fun q => { q with state := .embryo, pid := t.nextpid } with
      nextpid := next t.nextpid
      doing := Function.update t.doing p (.slot np)
      born := t.born + 1
      serials := Function.update t.serials np t.born }

/-- Allocate kernel stack; `kalloc` returned `page`. -/
def kstack (t : Table) (p np : Slot) (page : Nat) : Table :=
  if page = 0 then (t.setProc np fun q => { q with kstack := page, state := .unused }).setDoing p .idle
  else (t.setProc np fun q => { q with kstack := page, context := .forkret }).setDoing p (.stack np)

/-- Copy process state from p; `copyuvm` returned `pgdir`. -/
def copyuvm (t : Table) (p np : Slot) (pgdir : Nat) : Table :=
  let proc := t.procs p
  if pgdir = 0 then
    { (t.setProc np fun q => { q with pgdir := pgdir, kstack := 0, state := .unused }).setDoing p .idle with
      kstackFrees := t.kstackFrees ++ [t.serials np] }
  else
    (t.setProc np fun q => { q with
      pgdir := pgdir
      mem := proc.mem
      sz := proc.sz
      parent := some p
      tf := { proc.tf with eax := 0 }
      ofile := fun fd => if (proc.ofile fd).isSome then proc.ofile fd else q.ofile fd
      cwd := proc.cwd
      name := proc.name.take 15 }).setDoing p (.ready np)

def forked (t : Table) (p np : Slot) : Table :=
  (t.setProc np fun q => { q with state := .runnable }).setDoing p .idle

def work (own q : Proc) : Proc :=
  { own with
    kstack := q.kstack
    state := q.state
    pid := q.pid
    parent := q.parent
    context := q.context
    chan := q.chan
    killed := q.killed }

/-- The scheduler of a processor: outside its loop over the table, in it with the lock held, or switched away
to the slot it chose. -/
inductive Phase
  | idle
  | scan (i : Nat)
  | away (i : Nat)
  deriving DecidableEq

structure Cpu where
  proc : Option Slot
  ncli : Nat
  phase : Phase

structure State (C : Type) where
  table : Table
  /-- The processor that holds `ptable.lock`. -/
  lock : Option C
  cpus : C → Cpu

variable {C : Type} [DecidableEq C]

def State.setCpu (s : State C) (c : C) (f : Cpu → Cpu) : State C :=
  { s with cpus := Function.update s.cpus c (f (s.cpus c)) }

def pushcli (s : State C) (c : C) : State C := s.setCpu c fun cpu => { cpu with ncli := cpu.ncli + 1 }

def popcli (s : State C) (c : C) : Except Halt (State C) :=
  if (s.cpus c).ncli = 0 then .error (.panic "popcli")
  else .ok (s.setCpu c fun cpu => { cpu with ncli := cpu.ncli - 1 })

def acquire (s : State C) (c : C) : Except Halt (State C) :=
  if s.lock = some c then .error (.panic "acquire") else .ok { pushcli s c with lock := some c }

def release (s : State C) (c : C) : Except Halt (State C) :=
  if s.lock ≠ some c then .error (.panic "release") else popcli { s with lock := none } c

/-- Enter scheduler. Must hold only `ptable.lock` and have changed `proc->state`. -/
def sched (s : State C) (c : C) (p : Slot) (context : Context) : Except Halt (State C) :=
  if s.lock ≠ some c then .error (.panic "sched ptable.lock")
  else if (s.cpus c).ncli ≠ 1 then .error (.panic "sched locks")
  else if (s.table.procs p).state = .running then .error (.panic "sched running")
  else
    let s := { s with table := s.table.setProc p fun q => { q with context := context } }
    .ok (s.setCpu c fun cpu =>
      { cpu with
        proc := none
        phase := match cpu.phase with
          | .away i => .scan (i + 1)
          | phase => phase })

def under (s : State C) (c : C) (f : Table → Table) : Except Halt (State C) := do
  let s ← acquire s c
  release { s with table := f s.table } c

def yield (s : State C) (c : C) (p : Slot) : Except Halt (State C) := do
  let s ← acquire s c
  sched { s with table := s.table.setProc p fun q => { q with state := .runnable } } c p .yield

/-- Sleep with another lock than `ptable.lock`, which is released. -/
def sleep (s : State C) (c : C) (p : Slot) (a : Nat) : Except Halt (State C) := do
  let s ← acquire s c
  let s ← popcli s c
  sched { s with table := fallAsleep s.table p (.addr a) } c p .sleep

/-- An exited process remains in the zombie state until its parent calls `wait`. -/
def exit (s : State C) (c : C) (p : Slot) : Except Halt (State C) :=
  if p = s.table.initproc then .error (.panic "init exiting")
  else do
    let s ← acquire { s with table := closeFiles s.table p } c
    sched { s with table := becomeZombie s.table p } c p .exit

def waitLoop (s : State C) (c : C) (p : Slot) : Except Halt (State C) :=
  match findZombie s.table.procs p with
  | some q => release { s with table := reap s.table p q } c
  | none =>
    if haveKids s.table.procs p = false ∨ (s.table.procs p).killed then release s c
    else sched { s with table := fallAsleep s.table p (.proc p) } c p .wait

def wait (s : State C) (c : C) (p : Slot) : Except Halt (State C) := do
  let s ← acquire s c
  waitLoop s c p

/-- A process goes on after it was switched to, with the lock held. -/
def resume (s : State C) (c : C) (p : Slot) : Except Halt (State C) :=
  match (s.table.procs p).context with
  | .forkret => release s c
  | .yield => release s c
  | .sleep => release { s with table := s.table.setProc p fun q => { q with chan := none } } c
  | .wait => waitLoop { s with table := s.table.setProc p fun q => { q with chan := none } } c p
  | .exit => .error (.panic "zombie exit")

def scanSlot (s : State C) (c : C) (i : Nat) : Except Halt (State C) :=
  if h : i < nproc then
    let p : Slot := ⟨i, h⟩
    if (s.table.procs p).state = .runnable then
      let s := s.setCpu c fun cpu => { cpu with proc := some p, phase := .away i }
      resume { s with table := s.table.setProc p fun q => { q with state := .running } } c p
    else .ok (s.setCpu c fun cpu => { cpu with phase := .scan (i + 1) })
  else release (s.setCpu c fun cpu => { cpu with phase := .idle }) c

/-- One step of the scheduler of a processor that runs no process. -/
def scheduler (s : State C) (c : C) : Option (Except Halt (State C)) :=
  match (s.cpus c).phase with
  | .idle => if s.lock = none then some (acquire (s.setCpu c fun cpu => { cpu with phase := .scan 0 }) c) else none
  | .scan i => some (scanSlot s c i)
  | .away _ => none

inductive Action (C : Type)
  | scheduler (c : C)
  | work (c : C) (own : Proc)
  | acquire (c : C)
  | release (c : C)
  | yield (c : C)
  | sleep (c : C) (a : Nat)
  | wakeup (c : C) (a : Nat)
  | kill (c : C) (pid : Int)
  | fault (c : C)
  | allocproc (c : C)
  | kstack (c : C) (page : Nat)
  | copyuvm (c : C) (pgdir : Nat)
  | forked (c : C)
  | exit (c : C)
  | wait (c : C)

/-- The process a processor runs, if it is not inside `fork`. -/
def State.current (s : State C) (c : C) : Option Slot :=
  (s.cpus c).proc.filter fun p => s.table.doing p = .idle

/-- The process a processor runs, and where in `fork` it is. -/
def State.forking (s : State C) (c : C) : Option (Slot × Doing) :=
  (s.cpus c).proc.map fun p => (p, s.table.doing p)

/-- A section under the lock, which must be free, of a process that holds `ncli` other spinlocks. -/
def locked (s : State C) (c : C) (ncli : Nat) (f : Slot → Except Halt (State C)) : Option (Except Halt (State C)) :=
  match s.current c with
  | some p => if s.lock = none ∧ (s.cpus c).ncli = ncli then some (f p) else none
  | none => none

/-- `none` if the step cannot be taken: the lock is not free, or the processor does not run such code. A clock
interrupt makes any process yield that holds no spinlock; `wakeup` is also called by interrupts. -/
def step (s : State C) : Action C → Option (Except Halt (State C))
  | .scheduler c => scheduler s c
  | .work c own => (s.current c).map fun p => .ok { s with table := s.table.setProc p (work own) }
  | .acquire c => (s.current c).map fun _ => .ok (pushcli s c)
  | .release c => if (s.cpus c).ncli ≠ 0 then (s.current c).map fun _ => popcli s c else none
  | .yield c =>
    match (s.cpus c).proc with
    | some p => if s.lock = none ∧ (s.cpus c).ncli = 0 then some (yield s c p) else none
    | none => none
  | .sleep c a => locked s c 1 fun p => sleep s c p a
  | .wakeup c a => if s.lock = none then some (under s c fun t => wakeAll t (some (.addr a))) else none
  | .kill c pid => locked s c 0 fun _ => under s c fun t => (kill t pid).1
  | .fault c => (s.current c).map fun p => .ok { s with table := s.table.setProc p fun q => { q with killed := true } }
  | .allocproc c => locked s c 0 fun p => under s c fun t => allocproc t p
  | .kstack c page =>
    match s.forking c with
    | some (p, .slot np) => some (.ok { s with table := kstack s.table p np page })
    | _ => none
  | .copyuvm c pgdir =>
    match s.forking c with
    | some (p, .stack np) => some (.ok { s with table := copyuvm s.table p np pgdir })
    | _ => none
  | .forked c =>
    match s.forking c with
    | some (p, .ready np) => if s.lock = none then some (under s c fun t => forked t p np) else none
    | _ => none
  | .exit c => locked s c 0 (exit s c)
  | .wait c => locked s c 0 (wait s c)

def fresh : Proc where
  sz := 0
  pgdir := 0
  mem := fun _ => 0
  kstack := 0
  state := .unused
  pid := 0
  parent := none
  tf := ⟨0, []⟩
  context := .forkret
  chan := none
  killed := false
  ofile := fun _ => none
  cwd := none
  name := []
  type := 0

/-- What `userinit` gets for the first process. -/
structure First where
  pgdir : Nat
  kstack : Nat
  mem : Mem
  tf : Trapframe
  cwd : Nat

def initcode : List UInt8 := [0x69, 0x6E, 0x69, 0x74, 0x63, 0x6F, 0x64, 0x65]

def userinit (first : First) : Proc :=
  { fresh with
    sz := pgsize
    pgdir := first.pgdir
    mem := first.mem
    kstack := first.kstack
    state := .runnable
    pid := 1
    tf := first.tf
    cwd := some first.cwd
    name := initcode }

/-- `userinit` has made the first process, and every processor enters its scheduler. -/
def boot (C : Type) (first : First) : State C where
  table :=
    { procs := Function.update (fun _ => fresh) Process.initproc (userinit first)
      nextpid := 2
      initproc := Process.initproc
      doing := fun _ => .idle
      born := 1
      serials := fun _ => 0
      exits := []
      reaped := []
      kstackFrees := []
      pgdirFrees := [] }
  lock := none
  cpus := fun _ => ⟨none, 0, .idle⟩

def system (C : Type) [DecidableEq C] (first : First) : System (State C) (Action C) :=
  System.ofStep (boot C first) step

end RainOS.Sched
