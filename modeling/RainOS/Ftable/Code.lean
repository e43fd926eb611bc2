import RainOS.Fs.Syscall

/-!
# Open files, descriptors and pipe ends

`file.c`, the two ends of the pipes of `pipe.c`, and the calls that take and give up references to open files: `sys_open`,
`sys_dup`, `sys_close`, `sys_pipe`, `fork` and `exit`. A section under `ftable.lock` or under the lock of a pipe is one
step, and so is a stretch of private code between two of them; any number of processes take their steps in any order.

What `sys_open` does with the inode, and `iput` at the end of `fileclose`, touch no open file and are left out: a call of
`sys_open` that fails before `filealloc` changes nothing here.
-/

namespace RainOS.Ftable

open Function

inductive FdType
  | none
  | pipe
  | inode
  deriving DecidableEq

structure File where
  type : FdType
  ref : Nat
  readable : Bool
  writable : Bool
  pipe : Nat

structure Pipe where
  readopen : Bool
  writeopen : Bool

def Pipe.isOpen (p : Pipe) (writable : Bool) : Bool := if writable then p.writeopen else p.readopen

/-- The states of a process that matter here; a process is `used` from RUNNABLE on. -/
inductive Status
  | unused
  | embryo
  | used
  | zombie
  deriving DecidableEq

variable (nfile nofile : Nat) (P : Type)

inductive Work
  | fileclose (f : Fin nfile)
  | pipeclose (page : Nat) (writable : Bool)
  deriving DecidableEq

inductive Pc
  | idle
  /-- `sys_open` has its file, and then also a descriptor for it. -/
  | filealloc (f : Fin nfile) (omode : Nat)
  | fdalloc (f : Fin nfile) (omode : Nat)
  /-- `pipealloc` has one file, both, and has returned. -/
  | one (f0 : Fin nfile)
  | both (f0 f1 : Fin nfile)
  | pipealloc (f0 f1 : Fin nfile)
  /-- `fork` has its child, and has passed `i` descriptors on. -/
  | allocproc (np : P)
  | pass (np : P) (i : Nat)
  /-- `exit` comes to a descriptor, and has given its file to `fileclose`. -/
  | exit (fd : Nat)
  | closing (fd : Nat)

structure Proc where
  status : Status
  ofile : Fin nofile → Option (Fin nfile)
  work : List (Work nfile)
  pc : Pc nfile P

structure State where
  ftable : Fin nfile → File
  pipe : Nat → Pipe
  proc : P → Proc nfile nofile P
  /-- The pages that `kalloc` has given to `pipealloc`, and how often each was given and freed. -/
  inUse : Nat → Bool
  kallocs : Nat → Nat
  kfrees : Nat → Nat

variable {nfile nofile : Nat} {P : Type}

def State.setFile (s : State nfile nofile P) (f : Fin nfile) (g : File → File) : State nfile nofile P :=
  { s with ftable := update s.ftable f (g (s.ftable f)) }

def State.setProc [DecidableEq P] (s : State nfile nofile P) (p : P)
    (g : Proc nfile nofile P → Proc nfile nofile P) : State nfile nofile P :=
  { s with proc := update s.proc p (g (s.proc p)) }

def filealloc (s : State nfile nofile P) : Option (Fin nfile × State nfile nofile P) :=
  match (List.finRange nfile).find? fun f => (s.ftable f).ref = 0 with
  | some f => some (f, s.setFile f fun g => { g with ref := 1 })
  | none => none

def filedup (s : State nfile nofile P) (f : Fin nfile) : Except Halt (State nfile nofile P) :=
  if (s.ftable f).ref < 1 then .error (.panic "filedup") else .ok (s.setFile f fun g => { g with ref := g.ref + 1 })

/-- Close file f: the section under `ftable.lock`, and whether `pipeclose` is to be called. -/
def fileclose (s : State nfile nofile P) (f : Fin nfile) : Except Halt (State nfile nofile P × List (Work nfile)) :=
  if (s.ftable f).ref < 1 then .error (.panic "fileclose")
  else if 0 < (s.ftable f).ref - 1 then .ok (s.setFile f fun g => { g with ref := g.ref - 1 }, [])
  else
    let ff := s.ftable f
    .ok (s.setFile f fun g => { g with ref := 0, type := .none },
      if ff.type = .pipe then [.pipeclose ff.pipe ff.writable] else [])

def fdalloc (ofile : Fin nofile → Option (Fin nfile)) (f : Fin nfile) : Option (Fin nofile × (Fin nofile → Option (Fin nfile))) :=
  match (List.finRange nofile).find? fun fd => ofile fd = none with
  | some fd => some (fd, update ofile fd (some f))
  | none => none

def kfree (s : State nfile nofile P) (page : Nat) : State nfile nofile P :=
  { s with inUse := update s.inUse page false, kfrees := update s.kfrees page (s.kfrees page + 1) }

def pipealloc (s : State nfile nofile P) (page : Nat) (f0 f1 : Fin nfile) : State nfile nofile P :=
  let s := { s with
    inUse := update s.inUse page true
    kallocs := update s.kallocs page (s.kallocs page + 1)
    pipe := update s.pipe page ⟨true, true⟩ }
  let s := s.setFile f0 fun g => { g with type := .pipe, readable := true, writable := false, pipe := page }
  s.setFile f1 fun g => { g with type := .pipe, readable := false, writable := true, pipe := page }

def pipeclose (s : State nfile nofile P) (page : Nat) (writable : Bool) : State nfile nofile P :=
  let p := if writable then { s.pipe page with writeopen := false } else { s.pipe page with readopen := false }
  let s := { s with pipe := update s.pipe page p }
  if p.readopen = false ∧ p.writeopen = false then kfree s page else s

variable [DecidableEq P]

/-- The next step of a process that is in a call. `page` is what `kalloc` gives if it is asked, in `pipealloc` and in the
copying of the memory by `fork`. -/
def run (s : State nfile nofile P) (p : P) (page : Option Nat) : Option (Except Halt (State nfile nofile P)) :=
  match (s.proc p).work with
  | .fileclose f :: rest =>
    match fileclose s f with
    | .ok (s, more) => some (.ok (s.setProc p fun q => { q with work := more ++ rest }))
    | .error e => some (.error e)
  | .pipeclose a writable :: rest => some (.ok ((pipeclose s a writable).setProc p fun q => { q with work := rest }))
  | [] =>
    match (s.proc p).pc with
    | .idle => none
    | .filealloc f omode =>
      match fdalloc (s.proc p).ofile f with
      | none => some (.ok (s.setProc p fun q => { q with pc := .idle, work := [.fileclose f] }))
      | some (_, ofile) => some (.ok (s.setProc p fun q => { q with pc := .fdalloc f omode, ofile := ofile }))
    | .fdalloc f omode =>
      let s := s.setFile f fun g => { g with
        type := .inode
        readable := omode &&& Fs.oWronly = 0
        writable := omode &&& Fs.oWronly ≠ 0 ∨ omode &&& Fs.oRdwr ≠ 0 }
      some (.ok (s.setProc p fun q => { q with pc := .idle }))
    | .one f0 =>
      match filealloc s with
      | none => some (.ok (s.setProc p fun q => { q with pc := .idle, work := [.fileclose f0] }))
      | some (f1, s) => some (.ok (s.setProc p fun q => { q with pc := .both f0 f1 }))
    | .both f0 f1 =>
      match page with
      | none => some (.ok (s.setProc p fun q => { q with pc := .idle, work := [.fileclose f0, .fileclose f1] }))
      | some page =>
        if s.inUse page then none
        else some (.ok ((pipealloc s page f0 f1).setProc p fun q => { q with pc := .pipealloc f0 f1 }))
    | .pipealloc f0 f1 =>
      let bad := fun q : Proc nfile nofile P => { q with pc := .idle, work := [.fileclose f0, .fileclose f1] }
      match fdalloc (s.proc p).ofile f0 with
      | none => some (.ok (s.setProc p bad))
      | some (fd0, ofile) =>
        match fdalloc ofile f1 with
        | none => some (.ok (s.setProc p fun q => bad { q with ofile := update ofile fd0 none }))
        | some (_, ofile) => some (.ok (s.setProc p fun q => { q with pc := .idle, ofile := ofile }))
    | .allocproc np =>
      match page with
      | none =>
        let s := s.setProc np fun q => { q with status := .unused }
        some (.ok (s.setProc p fun q => { q with pc := .idle }))
      | some _ => some (.ok (s.setProc p fun q => { q with pc := .pass np 0 }))
    | .pass np i =>
      if h : i < nofile then
        match (s.proc p).ofile ⟨i, h⟩ with
        | none => some (.ok (s.setProc p fun q => { q with pc := .pass np (i + 1) }))
        | some f =>
          match filedup s f with
          | .error e => some (.error e)
          | .ok s =>
            let s := s.setProc np fun q => { q with ofile := update q.ofile ⟨i, h⟩ (some f) }
            some (.ok (s.setProc p fun q => { q with pc := .pass np (i + 1) }))
      else
        let s := s.setProc np fun q => { q with status := .used }
        some (.ok (s.setProc p fun q => { q with pc := .idle }))
    | .exit fd =>
      if h : fd < nofile then
        match (s.proc p).ofile ⟨fd, h⟩ with
        | none => some (.ok (s.setProc p fun q => { q with pc := .exit (fd + 1) }))
        | some f => some (.ok (s.setProc p fun q => { q with pc := .closing fd, work := [.fileclose f] }))
      else some (.ok (s.setProc p fun q => { q with pc := .idle, status := .zombie }))
    | .closing fd =>
      if h : fd < nofile then
        some (.ok (s.setProc p fun q => { q with pc := .exit (fd + 1), ofile := update q.ofile ⟨fd, h⟩ none }))
      else none

inductive Action (nofile : Nat) (P : Type)
  | open (p : P) (omode : Nat)
  | dup (p : P) (fd : Fin nofile)
  | close (p : P) (fd : Fin nofile)
  | pipe (p : P)
  | fork (p np : P)
  | exit (p : P)
  | wait (q : P)
  | run (p : P) (page : Option Nat)

def Proc.free (q : Proc nfile nofile P) : Bool :=
  match q.status, q.work, q.pc with
  | .used, [], .idle => true
  | _, _, _ => false

/-- A call starts with its first section; one that returns at once changes nothing. -/
def step (s : State nfile nofile P) : Action nofile P → Option (Except Halt (State nfile nofile P))
  | .open p omode =>
    if (s.proc p).free then
      match filealloc s with
      | none => some (.ok s)
      | some (f, s) => some (.ok (s.setProc p fun q => { q with pc := .filealloc f omode }))
    else none
  | .dup p fd =>
    if (s.proc p).free then
      match (s.proc p).ofile fd with
      | none => some (.ok s)
      | some f =>
        match fdalloc (s.proc p).ofile f with
        | none => some (.ok s)
        | some (_, ofile) =>
          match filedup (s.setProc p fun q => { q with ofile := ofile }) f with
          | .ok s => some (.ok s)
          | .error e => some (.error e)
    else none
  | .close p fd =>
    if (s.proc p).free then
      match (s.proc p).ofile fd with
      | none => some (.ok s)
      | some f => some (.ok (s.setProc p fun q => { q with ofile := update q.ofile fd none, work := [.fileclose f] }))
    else none
  | .pipe p =>
    if (s.proc p).free then
      match filealloc s with
      | none => some (.ok s)
      | some (f, s) => some (.ok (s.setProc p fun q => { q with pc := .one f }))
    else none
  | .fork p np =>
    if (s.proc p).free ∧ (s.proc np).status = .unused then
      let s := s.setProc np fun q => { q with status := .embryo }
      some (.ok (s.setProc p fun q => { q with pc := .allocproc np }))
    else none
  | .exit p => if (s.proc p).free then some (.ok (s.setProc p fun q => { q with pc := .exit 0 })) else none
  | .wait q =>
    if (s.proc q).status = .zombie then some (.ok (s.setProc q fun r => { r with status := .unused })) else none
  | .run p page => run s p page

def userinit (nfile nofile : Nat) (first : P) : State nfile nofile P where
  ftable _ := ⟨.none, 0, false, false, 0⟩
  pipe _ := ⟨false, false⟩
  proc p := ⟨if p = first then .used else .unused, fun _ => none, [], .idle⟩
  inUse _ := false
  kallocs _ := 0
  kfrees _ := 0

def system (nfile nofile : Nat) (first : P) : System (State nfile nofile P) (Action nofile P) :=
  System.ofStep (userinit nfile nofile first) step

end RainOS.Ftable
