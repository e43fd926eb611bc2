import RainOS.Sched.Kill

/-!
# What a forked child depends on

`fork` gives a child the memory, the registers, the open files and the directory of its parent. Of the rest of the
slot it writes nothing, so the child has the `killed` and the `type` that were left there, and it is like its parent
only if these are.
-/

namespace RainOS.Sched

open Function
open Process (Slot nproc)

variable {x : Cause} {t t' : Table} {p q np : Slot}

/-! ### A free slot has no open files -/

def Proc.Closed (q : Proc) : Prop :=
  q.state = .unused ∨ q.state = .zombie ∨ q.state = .embryo ∧ q.parent = none → q.ofile = fun _ => none

theorem Proc.Closed.of_alive {q : Proc} (h : q.state.Alive) : q.Closed := by
  rintro (hq | hq | ⟨hq, -⟩)
  · exact absurd hq (h.ne (.inl rfl))
  · exact absurd hq (h.ne (.inr (.inr rfl)))
  · exact absurd hq (h.ne (.inr (.inl rfl)))

def Closed (t : Table) : Prop := ∀ p, (t.procs p).Closed

theorem Closed.update (h : Closed t) {new : Proc} (hprocs : t'.procs = update t.procs p new)
    (hnew : new.Closed) : Closed t' := fun q => by
  rw [hprocs, update_apply]
  split
  · exact hnew
  · exact h q

theorem Proc.Closed.roused {q q' : Proc} (h : q.Closed) (hroused : Roused q q') (hofile : q'.ofile = q.ofile) :
    q'.Closed := by
  obtain heq | ⟨-, hr⟩ := hroused.state
  · unfold Proc.Closed
    rw [heq, hroused.parent, hofile]
    exact h
  · exact .of_alive (.inr (.inl hr))

theorem ofile_wakeup1 (procs : Slot → Proc) (chan : Option Chan) (p : Slot) :
    (wakeup1 procs chan p).ofile = (procs p).ofile := by
  unfold wakeup1
  split
  · rfl
  · rfl

theorem ofile_kill (t : Table) (pid : Int) (q : Slot) : ((kill t pid).1.procs q).ofile = (t.procs q).ofile := by
  unfold kill
  split
  · rw [procs_setProc, update_apply]
    split
    · rename_i heq
      rw [heq]
    · rfl
  · rfl

theorem ofile_reparent (procs : Slot → Proc) (p init q : Slot) :
    (reparent procs p init q).ofile = (procs q).ofile := by
  have hadopt : (adopt p init (procs q)).ofile = (procs q).ofile := by
    unfold adopt
    split
    · rfl
    · rfl
  unfold reparent
  dsimp only
  split
  · exact (ofile_wakeup1 (fun q => adopt p init (procs q)) _ q).trans hadopt
  · exact hadopt

theorem Closed.exit (h : Closed t) (p : Slot) : Closed (exited t p) := by
  have hwoken : ∀ q, ((woken t p).procs q).ofile = ((closeFiles t p).procs q).ofile := ofile_wakeup1 _ _
  intro q
  by_cases hq : q = p
  · rw [hq, exited_self]
    intro _
    change (reparent (woken t p).procs p t.initproc p).ofile = fun _ => none
    rw [ofile_reparent, hwoken, closeFiles, procs_setProc, update_self]
  · have hclosed : (closeFiles t p).procs q = t.procs q := update_of_ne hq _ _
    have hold : ((woken t p).procs q).Closed := by
      refine (h q).roused (roused_woken t p q) ?_
      rw [hwoken, hclosed]
    rw [exited_other t hq]
    have hadopted : (adopt p t.initproc ((woken t p).procs q)).Closed := by
      unfold adopt
      split
      · rename_i hparent
        rintro (hs | hs | ⟨-, hnone⟩)
        · exact hold (.inl hs)
        · exact hold (.inr (.inl hs))
        · cases hnone
      · exact hold
    refine hadopted.roused (roused_reparent _ p t.initproc q) ?_
    rw [ofile_reparent]
    unfold adopt
    split
    · rfl
    · rfl

theorem Closed.change (h : Closed t) (hf : Family t) (hc : Change x t t') : Closed t' := by
  have hembryo : ∀ {p np}, (t.doing p).child = some np → t.doing p ≠ .ready np → (t.procs np).ofile = fun _ => none :=
    fun {p np} hchild hnot =>
      h np (.inr (.inr ⟨(hf.forker p np hchild).2, (hf.adopted p np hchild).trans (if_neg hnot)⟩))
  cases hc with
  | run p hp => exact h.update rfl (.of_alive (.inr (.inr rfl)))
  | awake p hp => exact h.update rfl (.of_alive (.inr (.inr hp)))
  | work p own hp => exact h.update rfl (.of_alive (.inr (.inr hp)))
  | yield p hp => exact h.update rfl (.of_alive (.inr (.inl rfl)))
  | sleep p a hp =>
    unfold fallAsleep
    rw [setProc_setProc]
    exact h.update rfl (.of_alive (.inl rfl))
  | wait p hp hnone =>
    unfold fallAsleep
    rw [setProc_setProc]
    exact h.update rfl (.of_alive (.inl rfl))
  | wakeup a => exact fun q => (h q).roused (roused_wakeup1 _ _ q) (ofile_wakeup1 _ _ q)
  | kill pid hpid => exact fun q => (h q).roused (roused_kill t pid q) (ofile_kill t pid q)
  | fault p hfault hp => exact h.update rfl (.of_alive (.inr (.inr hp)))
  | allocproc p hp hidle =>
    unfold Sched.allocproc
    split
    · exact h
    · rename_i np hfound
      exact h.update rfl fun _ => h np (.inl (findUnused_some hfound))
  | kstack p np page hpage hdoing =>
    have hnone := hembryo (congrArg Doing.child hdoing) (by rw [hdoing]; exact nofun)
    unfold Sched.kstack
    split
    · exact h.update rfl fun _ => hnone
    · exact h.update rfl fun _ => hnone
  | copyuvm p np pgdir hpage hdoing =>
    have hnone := hembryo (congrArg Doing.child hdoing) (by rw [hdoing]; exact nofun)
    have hstate := (hf.forker p np (congrArg Doing.child hdoing)).2
    unfold Sched.copyuvm
    dsimp only
    split
    · exact h.update rfl fun _ => hnone
    · refine h.update rfl ?_
      rintro (hs | hs | ⟨-, hs⟩)
      · exact nomatch hstate.symm.trans hs
      · exact nomatch hstate.symm.trans hs
      · cases hs
  | forked p np hdoing => exact h.update rfl (.of_alive (.inr (.inl rfl)))
  | exit p hexit hp hidle hne => exact h.exit p
  | reap p q hq => exact h.update rfl fun _ => h q (.inr (.inl (findZombie_some hq).2))

theorem closed_boot (C : Type) (first : First) : Closed (boot C first).table := fun p => by
  rw [procs_boot, update_apply]
  split
  · exact .of_alive (.inr (.inl rfl))
  · exact fun _ => rfl

variable {C : Type} [DecidableEq C] {first : First} {s s' : State C} {c : C} {page pgdir : Nat}

theorem closed_of_reachable (h : (system C first).Reachable s) : Switched s ∧ Family s.table ∧ Closed s.table :=
  table_invariant (fun _ => True) (closed_boot C first) (fun _ _ _ _ hf h hc => h.change hf hc)
    (fun _ _ _ _ hnot => absurd trivial hnot) h.restrict_true

/-! ### A fork -/

/-- The four parts of `fork`, one after the other; `kalloc` and `copyuvm` return the two addresses. -/
def fork (s : State C) (c : C) (page pgdir : Nat) : Option (State C) :=
  System.follow (fun _ _ => True) step s [.allocproc c, .kstack c page, .copyuvm c pgdir, .forked c]

/-- What `fork` makes of the slot it is given. -/
def child (parent old : Proc) (p : Slot) (pid : Int) (page pgdir : Nat) : Proc :=
  { old with
    sz := parent.sz
    pgdir := pgdir
    mem := parent.mem
    kstack := page
    state := .runnable
    pid := pid
    parent := some p
    tf := { parent.tf with eax := 0 }
    context := .forkret
    ofile := fun fd => if (parent.ofile fd).isSome then parent.ofile fd else old.ofile fd
    cwd := parent.cwd
    name := parent.name.take 15 }

theorem doing_allocproc (hnp : findUnused t.procs = some np) (p : Slot) : (allocproc t p).doing p = .slot np := by
  rw [allocproc, hnp]
  exact update_self p _ _

theorem doing_kstack (t : Table) (p np : Slot) (page : Nat) :
    (kstack t p np page).doing p = if page = 0 then .idle else .stack np := by
  unfold kstack
  split
  · exact update_self p _ _
  · exact update_self p _ _

theorem doing_copyuvm (t : Table) (p np : Slot) (pgdir : Nat) :
    (copyuvm t p np pgdir).doing p = if pgdir = 0 then .idle else .ready np := by
  unfold copyuvm
  dsimp only
  split
  · exact update_self p _ _
  · exact update_self p _ _

theorem procs_fork (hnp : findUnused t.procs = some np) (hne : p ≠ np) (hpage : page ≠ 0)
    (hpgdir : pgdir ≠ 0) : (forked (copyuvm (kstack (allocproc t p) p np page) p np pgdir) p np).procs =
      update t.procs np (child (t.procs p) (t.procs np) p t.nextpid page pgdir) := by
  simp only [forked, copyuvm, kstack, allocproc, hnp, if_neg hpage, if_neg hpgdir, Table.setDoing, procs_setProc,
    update_self, update_idem, update_of_ne hne, child]

theorem fork_some (hp : s.current c = some p) (hnp : findUnused s.table.procs = some np) (hne : p ≠ np)
    (h : fork s c page pgdir = some s') : s'.table.procs = update s.table.procs np
      (child (s.table.procs p) (s.table.procs np) p s.table.nextpid page pgdir) := by
  have hproc := (current_some hp).1
  obtain ⟨s₁, -, h₁, h⟩ := System.follow_cons h
  obtain ⟨s₂, -, h₂, h⟩ := System.follow_cons h
  obtain ⟨s₃, -, h₃, h⟩ := System.follow_cons h
  obtain ⟨s₄, -, h₄, h⟩ := System.follow_cons h
  cases h
  have hforking : ∀ {t : Table} {q : Slot} {d : Doing}, (State.mk t s.lock s.cpus).forking c = some (q, d) →
      q = p ∧ t.doing p = d := fun hf => by
    obtain ⟨hq, hd⟩ := forking_some hf
    cases hproc.symm.trans hq
    exact ⟨rfl, hd⟩
  obtain ⟨q₁, hq₁, rfl⟩ := step_allocproc h₁
  obtain rfl : p = q₁ := Option.some.inj (hp.symm.trans hq₁)
  obtain ⟨q₂, np₂, hf₂, ⟨⟩⟩ := step_kstack h₂
  obtain ⟨hq₂, hd₂⟩ := hforking hf₂
  cases (doing_allocproc hnp p).symm.trans hd₂
  obtain ⟨q₃, np₃, hf₃, ⟨⟩⟩ := step_copyuvm h₃
  obtain ⟨hq₃, hd₃⟩ := hforking hf₃
  obtain ⟨q₄, np₄, hf₄, -, ⟨⟩⟩ := step_forked h₄
  obtain ⟨hq₄, hd₄⟩ := hforking hf₄
  rw [hq₂, hq₃, hq₄] at *
  rw [doing_kstack] at hd₃
  rw [doing_copyuvm] at hd₄
  split at hd₃
  · cases hd₃
  · rename_i hpage
    cases hd₃
    split at hd₄
    · cases hd₄
    · rename_i hpgdir
      cases hd₄
      exact procs_fork hnp hne hpage hpgdir

theorem fork_total (hp : s.current c = some p) (hlock : s.lock = none) (hncli : (s.cpus c).ncli = 0)
    (hnp : findUnused s.table.procs = some np) (hpage : page ≠ 0) (hpgdir : pgdir ≠ 0) :
    ∃ s', fork s c page pgdir = some s' := by
  have hproc := (current_some hp).1
  simp [fork, System.follow, step, locked, hp, hlock, hncli, under_eq, State.forking, hproc, doing_allocproc hnp,
    doing_kstack, doing_copyuvm, hpage, hpgdir]

/-! ### Two forks -/

/-- What `fork` reads of the parent, and its `type`. -/
structure SameParent (p q : Proc) : Prop where
  mem : p.mem = q.mem
  sz : p.sz = q.sz
  tf : p.tf = q.tf
  ofile : p.ofile = q.ofile
  cwd : p.cwd = q.cwd
  name : p.name = q.name
  type : p.type = q.type

/-- Two children that differ at most in slot, pid, and page addresses. -/
structure Alike (p q : Proc) : Prop where
  mem : p.mem = q.mem
  sz : p.sz = q.sz
  tf : p.tf = q.tf
  ofile : p.ofile = q.ofile
  cwd : p.cwd = q.cwd
  name : p.name = q.name
  state : p.state = q.state
  context : p.context = q.context
  killed : p.killed = q.killed
  type : p.type = q.type

theorem ofile_child {parent old : Proc} (hold : old.ofile = fun _ => none) (p : Slot) (pid : Int) (page pgdir : Nat) :
    (child parent old p pid page pgdir).ofile = parent.ofile := by
  funext fd
  simp only [child, hold]
  split
  · rfl
  · rename_i hnone
    exact (Option.not_isSome_iff_eq_none.mp hnone).symm

theorem fork_child (h : (system C first).Reachable s) (hp : s.current c = some p)
    (hnp : findUnused s.table.procs = some np) (hfork : fork s c page pgdir = some s') :
    s'.table.procs np = child (s.table.procs p) (s.table.procs np) p s.table.nextpid page pgdir ∧
      (s.table.procs np).ofile = fun _ => none := by
  obtain ⟨hs, -, hclosed⟩ := closed_of_reachable h
  have hrun : s.table.state p = .running := (hs.running p).mpr ⟨c, (current_some hp).1⟩
  have hunused : s.table.state np = .unused := findUnused_some hnp
  have hne : p ≠ np := by
    rintro rfl
    exact nomatch hrun.symm.trans hunused
  refine ⟨?_, hclosed np (.inl hunused)⟩
  rw [fork_some hp hnp hne hfork, update_self]

variable {s₁ s₂ s₁' s₂' : State C} {c₁ c₂ : C} {p₁ p₂ np₁ np₂ : Slot} {page₁ page₂ pgdir₁ pgdir₂ : Nat}

/-- Two forks of parents that agree make children that agree, and have their parent's `type`, exactly if the slots
were left with the same `killed` and with that `type`. -/
theorem forked_children_alike_iff (h₁ : (system C first).Reachable s₁) (h₂ : (system C first).Reachable s₂)
    (hp₁ : s₁.current c₁ = some p₁) (hp₂ : s₂.current c₂ = some p₂)
    (hsame : SameParent (s₁.table.procs p₁) (s₂.table.procs p₂))
    (hnp₁ : findUnused s₁.table.procs = some np₁) (hnp₂ : findUnused s₂.table.procs = some np₂)
    (hfork₁ : fork s₁ c₁ page₁ pgdir₁ = some s₁') (hfork₂ : fork s₂ c₂ page₂ pgdir₂ = some s₂') :
    (Alike (s₁'.table.procs np₁) (s₂'.table.procs np₂) ∧
      (s₁'.table.procs np₁).type = (s₁.table.procs p₁).type) ↔
    (s₁.table.procs np₁).killed = (s₂.table.procs np₂).killed ∧
      (s₁.table.procs np₁).type = (s₁.table.procs p₁).type ∧ (s₂.table.procs np₂).type = (s₂.table.procs p₂).type := by
  obtain ⟨hchild₁, hclosed₁⟩ := fork_child h₁ hp₁ hnp₁ hfork₁
  obtain ⟨hchild₂, hclosed₂⟩ := fork_child h₂ hp₂ hnp₂ hfork₂
  rw [hchild₁, hchild₂]
  constructor
  · rintro ⟨halike, htype⟩
    exact ⟨halike.killed, htype, halike.type.symm.trans (htype.trans hsame.type)⟩
  · rintro ⟨hkilled, htype₁, htype₂⟩
    refine ⟨⟨hsame.mem, hsame.sz, ?_, ?_, hsame.cwd, ?_, rfl, rfl, hkilled, ?_⟩, htype₁⟩
    · simp only [child, hsame.tf]
    · rw [ofile_child hclosed₁, ofile_child hclosed₂, hsame.ofile]
    · simp only [child, hsame.name]
    · exact htype₁.trans (hsame.type.trans htype₂.symm)

/-! ### Exokernel processes leave their type

The parent sets its own fields to the same values in two runs, so all that differs is who had the slot before. -/

def monolithic : Proc := { fresh with sz := 4096, cwd := some 1 }

theorem work_then_fork (h : (system C first).Reachable s) (own : Proc) (hp : s.current c = some p) (hlock : s.lock = none)
    (hncli : (s.cpus c).ncli = 0) (hnp : findUnused s.table.procs = some np) :
    ∃ s₁ s₂, (system C first).Reachable s₁ ∧ s₁.current c = some p ∧ findUnused s₁.table.procs = some np ∧
      s₁.table.procs p = work own (s.table.procs p) ∧ (∀ q, q ≠ p → s₁.table.procs q = s.table.procs q) ∧
      fork s₁ c 12288 16384 = some s₂ := by
  let s₁ : State C := { s with table := s.table.setProc p (work own) }
  have hstep : step s (.work c own) = some (.ok s₁) := by
    rw [step, hp]
    rfl
  have hstate : ∀ q, s₁.table.state q = s.table.state q := fun q => by
    rw [state_setProc]
    split
    · rename_i heq
      rw [heq]
      rfl
    · rfl
  have hnp₁ : findUnused s₁.table.procs = some np := by
    rw [← hnp]
    refine congrArg (List.find? · (List.finRange nproc)) (funext fun q => ?_)
    exact decide_eq_decide.mpr (iff_of_eq (congrArg (· = ProcState.unused) (hstate q)))
  obtain ⟨s₂, hfork⟩ := fork_total (s := s₁) hp hlock hncli hnp₁ (by decide : 12288 ≠ 0)
    (by decide : 16384 ≠ 0)
  exact ⟨s₁, s₂, h.step hstep, hp, hnp₁, update_self p _ _, fun q hq => update_of_ne hq _ _, hfork⟩

theorem sameParent_work (own q r : Proc) : SameParent (work own q) (work own r) := ⟨rfl, rfl, rfl, rfl, rfl, rfl, rfl⟩

def secondSlot : Slot := ⟨1, by decide⟩

/-- The first process can fork, and what the last process in the slot left there. -/
def atFork (killed : Bool) (type : Int) (s : State Bool) : Prop :=
  s.current true = some Process.initproc ∧ s.lock = none ∧ (s.cpus true).ncli = 0 ∧
    findUnused s.table.procs = some secondSlot ∧ (s.table.procs secondSlot).killed = killed ∧
    (s.table.procs secondSlot).type = type

instance (killed : Bool) (type : Int) (s : State Bool) : Decidable (atFork killed type s) :=
  inferInstanceAs (Decidable (_ ∧ _))

def firstRuns : List (Action Bool) := [.scheduler true, .scheduler true]

def exokernelThenExit : List (Action Bool) :=
  [.scheduler true, .scheduler true, .allocproc true, .kstack true 12288, .copyuvm true 16384, .forked true,
    .scheduler false, .scheduler false, .scheduler false, .work false { fresh with type := 1 }, .exit false] ++
    List.replicate 63 (.scheduler false) ++ [.wait true]

theorem exists_atFork {killed : Bool} {type : Int} {as : List (Action Bool)}
    (hrun : (System.follow (fun _ _ => True) step (boot Bool firstProc) as).any (fun s => atFork killed type s) = true) :
    ∃ s₁ s₂, (system Bool firstProc).Reachable s₁ ∧ s₁.current true = some Process.initproc ∧
      findUnused s₁.table.procs = some secondSlot ∧
      (∃ q, s₁.table.procs Process.initproc = work monolithic q) ∧ (s₁.table.procs secondSlot).killed = killed ∧
      (s₁.table.procs secondSlot).type = type ∧ fork s₁ true 12288 16384 = some s₂ := by
  obtain ⟨s, hs, htest⟩ := System.exists_reachable_of_follow (fun _ _ => True) step (boot Bool firstProc) as _ hrun
  obtain ⟨hp, hlock, hncli, hnp, hkilled, htype⟩ := of_decide_eq_true htest
  obtain ⟨s₁, s₂, h, hp₁, hnp₁, hself, hother, hfork⟩ := work_then_fork hs.of_restrict monolithic hp hlock hncli hnp
  refine ⟨s₁, s₂, h, hp₁, hnp₁, ⟨_, hself⟩, ?_, ?_, hfork⟩
  · rw [hother secondSlot (by decide), hkilled]
  · rw [hother secondSlot (by decide), htype]

theorem firstRuns_atFork : (System.follow (fun _ _ => True) step (boot Bool firstProc) firstRuns).any
    (fun s => atFork false 0 s) = true := by decide +kernel

theorem forkAndExit_atFork : (System.follow (fun _ _ => True) step (boot Bool firstProc) forkAndExit).any
    (fun s => atFork false 0 s) = true := by decide +kernel

theorem exokernelThenExit_atFork : (System.follow (fun _ _ => True) step (boot Bool firstProc) exokernelThenExit).any
    (fun s => atFork false 1 s) = true := by decide +kernel

theorem forked_children_alike_iff_run : ∃ s₁ s₂ s₁' s₂' : State Bool,
    (system Bool firstProc).Reachable s₁ ∧ (system Bool firstProc).Reachable s₂ ∧
    fork s₁ true 12288 16384 = some s₁' ∧ fork s₂ true 12288 16384 = some s₂' ∧
    Alike (s₁'.table.procs secondSlot) (s₂'.table.procs secondSlot) := by
  obtain ⟨s₁, s₁', h₁, hp₁, hnp₁, ⟨q₁, hself₁⟩, hkilled₁, htype₁, hfork₁⟩ := exists_atFork firstRuns_atFork
  obtain ⟨s₂, s₂', h₂, hp₂, hnp₂, ⟨q₂, hself₂⟩, hkilled₂, htype₂, hfork₂⟩ := exists_atFork forkAndExit_atFork
  have hsame : SameParent (s₁.table.procs Process.initproc) (s₂.table.procs Process.initproc) := by
    rw [hself₁, hself₂]
    exact sameParent_work _ _ _
  have halike := forked_children_alike_iff h₁ h₂ hp₁ hp₂ hsame hnp₁ hnp₂ hfork₁ hfork₂
  refine ⟨s₁, s₂, s₁', s₂', h₁, h₂, hfork₁, hfork₂, (halike.mpr ⟨hkilled₁.trans hkilled₂.symm, ?_, ?_⟩).1⟩
  · rw [htype₁, hself₁]
    rfl
  · rw [htype₂, hself₂]
    rfl

/-- A monolithic process forks into a slot that an exokernel process has left: its child is an exokernel process. -/
theorem fork_keeps_stale_type : ∃ s₁ s₂ s₁' s₂' : State Bool,
    (system Bool firstProc).Reachable s₁ ∧ (system Bool firstProc).Reachable s₂ ∧
    s₁.current true = some Process.initproc ∧ s₂.current true = some Process.initproc ∧
    SameParent (s₁.table.procs Process.initproc) (s₂.table.procs Process.initproc) ∧
    findUnused s₁.table.procs = some secondSlot ∧ findUnused s₂.table.procs = some secondSlot ∧
    fork s₁ true 12288 16384 = some s₁' ∧ fork s₂ true 12288 16384 = some s₂' ∧
    (s₂.table.procs Process.initproc).type = 0 ∧ (s₁'.table.procs secondSlot).type = 0 ∧
    (s₂'.table.procs secondSlot).type = 1 := by
  obtain ⟨s₁, s₁', h₁, hp₁, hnp₁, ⟨q₁, hself₁⟩, -, htype₁, hfork₁⟩ := exists_atFork firstRuns_atFork
  obtain ⟨s₂, s₂', h₂, hp₂, hnp₂, ⟨q₂, hself₂⟩, -, htype₂, hfork₂⟩ := exists_atFork exokernelThenExit_atFork
  have hsame : SameParent (s₁.table.procs Process.initproc) (s₂.table.procs Process.initproc) := by
    rw [hself₁, hself₂]
    exact sameParent_work _ _ _
  refine ⟨s₁, s₂, s₁', s₂', h₁, h₂, hp₁, hp₂, hsame, hnp₁, hnp₂, hfork₁, hfork₂, ?_, ?_, ?_⟩
  · rw [hself₂]
    rfl
  · rw [(fork_child h₁ hp₁ hnp₁ hfork₁).1]
    exact htype₁
  · rw [(fork_child h₂ hp₂ hnp₂ hfork₂).1]
    exact htype₂

end RainOS.Sched
