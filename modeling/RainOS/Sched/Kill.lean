import RainOS.Sched.Ledger

/-!
# Killing processes

`kill` looks for a pid in all slots, and a slot that is not in use has the pid 0 or the pid of a process whose `fork`
failed. With such a pid it marks a slot that no process has, and the next process in the slot is killed at birth.
With all others it does what it should. A `fork` that fails after its child was killed leaves the mark as well.
-/

namespace RainOS.Sched

open Function Option
open Process (Slot nproc)

def Table.pid (t : Table) (p : Slot) : Int := (t.procs p).pid

def Table.killed (t : Table) (p : Slot) : Bool := (t.procs p).killed

/-! ### Pids -/

/-- While pids have not wrapped around, they number the processes. -/
structure Numbered (t : Table) : Prop where
  next : t.nextpid = t.born + 1
  serials : ∀ p, t.serials p < t.born
  pid : ∀ p, t.state p = .unused ∧ t.pid p = 0 ∨ t.pid p = t.serials p + 1
  distinct : ∀ p q, t.pid p = t.pid q → t.pid p ≠ 0 → p = q

def Pids (t : Table) : Prop := t.born < 2 ^ 31 - 1 → Numbered t

variable {x : Cause} {t t' : Table} {p q np : Slot} {new : Proc}

structure SamePids (t t' : Table) : Prop where
  nextpid : t'.nextpid = t.nextpid
  born : t'.born = t.born
  serials : t'.serials = t.serials
  pid : ∀ p, t'.pid p = t.pid p
  unused : ∀ p, t.state p = .unused → t'.state p = .unused

theorem Pids.same (h : Pids t) (hs : SamePids t t') : Pids t' := fun hborn => by
  rw [hs.born] at hborn
  have hold := h hborn
  refine ⟨?_, fun p => ?_, fun p => ?_, fun p q hpq hne => ?_⟩
  · rw [hs.nextpid, hs.born, hold.next]
  · rw [hs.serials, hs.born]
    exact hold.serials p
  · rw [hs.pid, hs.serials]
    exact (hold.pid p).imp_left fun hp => ⟨hs.unused p hp.1, hp.2⟩
  · rw [hs.pid, hs.pid] at hpq
    rw [hs.pid] at hne
    exact hold.distinct p q hpq hne

theorem samePids_update (hprocs : t'.procs = update t.procs p new) (hnextpid : t'.nextpid = t.nextpid)
    (hborn : t'.born = t.born) (hserials : t'.serials = t.serials) (hp : t.state p ≠ .unused)
    (hpid : new.pid = t.pid p) : SamePids t t' := by
  refine ⟨hnextpid, hborn, hserials, fun q => ?_, fun q hq => ?_⟩
  · rw [Table.pid, hprocs, update_apply]
    split
    · rename_i heq
      rw [heq, hpid]
    · rfl
  · rw [state_update hprocs, if_neg, hq]
    rintro rfl
    exact hp hq

theorem pid_wakeup1 (procs : Slot → Proc) (chan : Option Chan) (p : Slot) :
    (wakeup1 procs chan p).pid = (procs p).pid ∧ (wakeup1 procs chan p).killed = (procs p).killed := by
  unfold wakeup1
  split
  · exact ⟨rfl, rfl⟩
  · exact ⟨rfl, rfl⟩

theorem pid_reparent (procs : Slot → Proc) (p init q : Slot) :
    (reparent procs p init q).pid = (procs q).pid ∧ (reparent procs p init q).killed = (procs q).killed := by
  have hadopt : (adopt p init (procs q)).pid = (procs q).pid ∧ (adopt p init (procs q)).killed = (procs q).killed := by
    unfold adopt
    split
    · exact ⟨rfl, rfl⟩
    · exact ⟨rfl, rfl⟩
  unfold reparent
  dsimp only
  split
  · obtain ⟨hpid, hkilled⟩ := pid_wakeup1 (fun q => adopt p init (procs q)) (some (.proc init)) q
    exact ⟨hpid.trans hadopt.1, hkilled.trans hadopt.2⟩
  · exact hadopt

theorem pid_exited (t : Table) (p q : Slot) : (exited t p).pid q = t.pid q ∧ (exited t p).killed q = t.killed q := by
  have hclosed : ((closeFiles t p).procs q).pid = t.pid q ∧ ((closeFiles t p).procs q).killed = t.killed q := by
    unfold closeFiles
    rw [procs_setProc, update_apply]
    split
    · rename_i heq
      rw [heq]
      exact ⟨rfl, rfl⟩
    · exact ⟨rfl, rfl⟩
  have hwoken := pid_wakeup1 (closeFiles t p).procs (((closeFiles t p).procs p).parent.map .proc) q
  have hgiven := pid_reparent (woken t p).procs p t.initproc q
  have hall : ((exited t p).procs q).pid = (reparent (woken t p).procs p t.initproc q).pid ∧
      ((exited t p).procs q).killed = (reparent (woken t p).procs p t.initproc q).killed := by
    by_cases hq : q = p
    · rw [hq, exited_self]
      exact ⟨rfl, rfl⟩
    · rw [exited_other t hq]
      exact ⟨rfl, rfl⟩
  exact ⟨hall.1.trans (hgiven.1.trans (hwoken.1.trans hclosed.1)), hall.2.trans (hgiven.2.trans (hwoken.2.trans hclosed.2))⟩

theorem Pids.allocproc (h : Pids t) (p : Slot) : Pids (allocproc t p) := by
  unfold Sched.allocproc
  split
  · exact h
  · rename_i np hfound
    intro hborn
    have hborn : t.born + 1 < 2 ^ 31 - 1 := hborn
    have hold := h (by omega)
    let t' : Table := { t.setProc np fun q => { q with state := .embryo, pid := t.nextpid } with
      nextpid := next t.nextpid
      doing := update t.doing p (.slot np)
      born := t.born + 1
      serials := update t.serials np t.born }
    have hself : t'.pid np = t.born + 1 := by
      rw [← hold.next]
      exact congrArg Proc.pid (update_self np _ t.procs)
    have hother : ∀ q, q ≠ np → t'.pid q = t.pid q := fun q hq => congrArg Proc.pid (update_of_ne hq _ t.procs)
    have hserial : ∀ q, t'.serials q = if q = np then t.born else t.serials q := fun q => update_apply _ _ _ _
    have hsmall : ∀ q, t.pid q ≠ t.born + 1 := fun q heq => by
      have hlt := hold.serials q
      obtain ⟨-, hz⟩ | hn := hold.pid q
      · omega
      · omega
    refine ⟨?_, fun q => ?_, fun q => ?_, fun q r hqr hne => ?_⟩
    · change next t.nextpid = ((t.born + 1 : Nat) : Int) + 1
      rw [hold.next, next, if_neg (by omega)]
      omega
    · change t'.serials q < t.born + 1
      have hlt := hold.serials q
      rw [hserial]
      split
      · omega
      · omega
    · change t'.state q = .unused ∧ t'.pid q = 0 ∨ t'.pid q = t'.serials q + 1
      by_cases hq : q = np
      · rw [hq, hself, hserial, if_pos rfl]
        exact .inr rfl
      · have hstate : t'.state q = t.state q := congrArg Proc.state (update_of_ne hq _ t.procs)
        rw [hother q hq, hserial, if_neg hq, hstate]
        exact hold.pid q
    · change t'.pid q = t'.pid r at hqr
      change t'.pid q ≠ 0 at hne
      by_cases hq : q = np
      · by_cases hr : r = np
        · rw [hq, hr]
        · rw [hq, hself, hother r hr] at hqr
          exact absurd hqr.symm (hsmall r)
      · by_cases hr : r = np
        · rw [hr, hself, hother q hq] at hqr
          exact absurd hqr (hsmall q)
        · rw [hother q hq, hother r hr] at hqr
          rw [hother q hq] at hne
          exact hold.distinct q r hqr hne

theorem Pids.reap (h : Pids t) (p q : Slot) : Pids (reap t p q) := fun hborn => by
  have hold := h hborn
  have hprocs : (Sched.reap t p q).procs = update t.procs q { t.procs q with
    kstack := 0, state := .unused, pid := 0, parent := none, name := [], killed := false } := rfl
  have hself : (Sched.reap t p q).pid q = 0 := by rw [Table.pid, hprocs, update_self]
  have hother : ∀ r, r ≠ q → (Sched.reap t p q).pid r = t.pid r := fun r hr => by
    rw [Table.pid, hprocs, update_of_ne hr, Table.pid]
  refine ⟨hold.next, hold.serials, fun r => ?_, fun r r' hpid hne => ?_⟩
  · by_cases hr : r = q
    · rw [hr, state_update hprocs, if_pos rfl]
      exact .inl ⟨rfl, hself⟩
    · rw [state_update hprocs, if_neg hr, hother r hr]
      exact hold.pid r
  · by_cases hr : r = q
    · rw [hr, hself] at hne
      exact absurd rfl hne
    · by_cases hr' : r' = q
      · rw [hpid, hr', hself] at hne
        exact absurd rfl hne
      · rw [hother r hr, hother r' hr'] at hpid
        rw [hother r hr] at hne
        exact hold.distinct r r' hpid hne

theorem pid_kill (t : Table) (pid : Int) (q : Slot) : (kill t pid).1.pid q = t.pid q := by
  unfold kill
  split
  · rw [Table.pid, procs_setProc, update_apply]
    split
    · rename_i heq
      rw [heq]
      rfl
    · rfl
  · rfl

theorem samePids_kill (t : Table) (pid : Int) : SamePids t (kill t pid).1 := by
  have hquiet := quiet_kill t pid
  refine ⟨?_, hquiet.born, hquiet.serials, pid_kill t pid, fun p hp => ?_⟩
  · unfold kill
    split
    · rfl
    · rfl
  · obtain heq | ⟨hs, -⟩ := (roused_kill t pid p).state
    · exact heq.trans hp
    · exact nomatch hp.symm.trans hs

theorem Pids.change (h : Pids t) (hf : Family t) (hc : Change x t t') : Pids t' := by
  have hembryo : ∀ {p np}, (t.doing p).child = some np → t.state np ≠ .unused := fun hchild => by
    rw [(hf.forker _ _ hchild).2]
    exact nofun
  have hrun : ∀ {p}, t.state p = .running → t.state p ≠ .unused := fun hp => by
    rw [hp]
    exact nofun
  cases hc with
  | run p hp => exact h.same (samePids_update rfl rfl rfl rfl (by simp [hp]) rfl)
  | awake p hp => exact h.same (samePids_update rfl rfl rfl rfl (hrun hp) rfl)
  | work p own hp => exact h.same (samePids_update rfl rfl rfl rfl (hrun hp) rfl)
  | yield p hp => exact h.same (samePids_update rfl rfl rfl rfl (hrun hp) rfl)
  | sleep p a hp =>
    unfold fallAsleep
    rw [setProc_setProc]
    exact h.same (samePids_update rfl rfl rfl rfl (hrun hp) rfl)
  | wait p hp hnone =>
    unfold fallAsleep
    rw [setProc_setProc]
    exact h.same (samePids_update rfl rfl rfl rfl (hrun hp) rfl)
  | wakeup a =>
    refine h.same ⟨rfl, rfl, rfl, fun q => (pid_wakeup1 t.procs _ q).1, fun q hq => ?_⟩
    obtain heq | ⟨hs, -⟩ := (roused_wakeup1 t.procs (some (.addr a)) q).state
    · exact heq.trans hq
    · exact nomatch hq.symm.trans hs
  | kill pid hpid => exact h.same (samePids_kill t pid)
  | fault p hfault hp => exact h.same (samePids_update rfl rfl rfl rfl (hrun hp) rfl)
  | allocproc p hp hidle => exact h.allocproc p
  | kstack p np page hpage hdoing =>
    have hnp := hembryo (congrArg Doing.child hdoing)
    unfold kstack
    split
    · exact h.same (samePids_update rfl rfl rfl rfl hnp rfl)
    · exact h.same (samePids_update rfl rfl rfl rfl hnp rfl)
  | copyuvm p np pgdir hpage hdoing =>
    have hnp := hembryo (congrArg Doing.child hdoing)
    unfold copyuvm
    dsimp only
    split
    · exact h.same (samePids_update rfl rfl rfl rfl hnp rfl)
    · exact h.same (samePids_update rfl rfl rfl rfl hnp rfl)
  | forked p np hdoing =>
    exact h.same (samePids_update rfl rfl rfl rfl (hembryo (congrArg Doing.child hdoing)) rfl)
  | exit p hexit hp hidle hne =>
    refine h.same ⟨rfl, rfl, rfl, fun q => (pid_exited t p q).1, fun q hq => ?_⟩
    have hqp : q ≠ p := by
      rintro rfl
      exact hrun hp hq
    obtain heq | ⟨hs, -⟩ := state_exited_other t hqp
    · exact heq.trans hq
    · exact nomatch hq.symm.trans hs
  | reap p q hq => exact h.reap p q

theorem Change.born_le (hc : Change x t t') : t.born ≤ t'.born := by
  cases hc with
  | kill pid hpid => exact (quiet_kill t pid).born.ge
  | allocproc p hp hidle =>
    unfold Sched.allocproc
    split
    · exact le_rfl
    · exact Nat.le_succ _
  | kstack p np page hpage hdoing =>
    unfold Sched.kstack
    split
    · exact le_rfl
    · exact le_rfl
  | copyuvm p np pgdir hpage hdoing =>
    unfold Sched.copyuvm
    dsimp only
    split
    · exact le_rfl
    · exact le_rfl
  | _ => exact le_rfl

theorem pids_boot (C : Type) (first : First) : Pids (boot C first).table := fun _ => by
  have hself : (boot C first).table.pid Process.initproc = 1 := by
    rw [Table.pid, procs_boot, update_self]
    rfl
  have hother : ∀ p, p ≠ Process.initproc → (boot C first).table.pid p = 0 := fun p hp => by
    rw [Table.pid, procs_boot, update_of_ne hp]
    rfl
  refine ⟨rfl, fun _ => Nat.one_pos, fun p => ?_, fun p q hpq hne => ?_⟩
  · by_cases hp : p = Process.initproc
    · rw [hp, hself]
      exact .inr rfl
    · refine .inl ⟨?_, hother p hp⟩
      rw [state_eq, procs_boot, update_of_ne hp]
      rfl
  · by_contra hpq'
    by_cases hp : p = Process.initproc
    · have hq : q ≠ Process.initproc := fun heq => hpq' (hp.trans heq.symm)
      rw [hpq, hother q hq] at hne
      exact hne rfl
    · exact hne (hother p hp)

/-! ### The mark -/

/-- What a change that kills by no pid does to the mark of a slot. -/
structure Marks (x : Cause) (t t' : Table) (q : Slot) : Prop where
  killed : t'.killed q = true → t.killed q = true ∨ x.fault = some q ∧ t.state q = .running
  unused : t'.state q = .unused → t.state q = .unused ∨ x.page = some 0 ∨ t'.killed q = false

theorem marks_update (hprocs : t'.procs = update t.procs p new)
    (hnew : new.killed = t.killed p ∧ (new.state = .unused → t.state p = .unused ∨ x.page = some 0)) : Marks x t t' q := by
  obtain ⟨hkilled, hstate⟩ := hnew
  refine ⟨fun hq => ?_, fun hq => ?_⟩
  · rw [Table.killed, hprocs, update_apply] at hq
    split at hq
    · rename_i heq
      rw [heq, ← hkilled]
      exact .inl hq
    · exact .inl hq
  · rw [state_update hprocs] at hq
    split at hq
    · rename_i heq
      rw [heq]
      exact (hstate hq).imp_right .inl
    · exact .inl hq

theorem Change.marks (hc : Change x t t') (hf : Family t) (hpid : x.pid = none) (q : Slot) : Marks x t t' q := by
  have hembryo : ∀ {p np}, (t.doing p).child = some np → t.state np = .embryo := fun hchild => (hf.forker _ _ hchild).2
  cases hc with
  | run p hp => exact marks_update rfl ⟨rfl, nofun⟩
  | awake p hp => exact marks_update rfl ⟨rfl, .inl⟩
  | work p own hp => exact marks_update rfl ⟨rfl, .inl⟩
  | yield p hp => exact marks_update rfl ⟨rfl, nofun⟩
  | sleep p a hp =>
    unfold fallAsleep
    rw [setProc_setProc]
    exact marks_update rfl ⟨rfl, nofun⟩
  | wait p hp hnone =>
    unfold fallAsleep
    rw [setProc_setProc]
    exact marks_update rfl ⟨rfl, nofun⟩
  | wakeup a =>
    refine ⟨fun hq => .inl ((pid_wakeup1 t.procs _ q).2.symm.trans hq), fun hq => ?_⟩
    obtain heq | ⟨-, hr⟩ := (roused_wakeup1 t.procs (some (.addr a)) q).state
    · exact .inl (heq.symm.trans hq)
    · exact nomatch hr.symm.trans hq
  | kill pid hkill => exact nomatch hpid.symm.trans hkill
  | fault p hfault hp =>
    refine ⟨fun hq => ?_, fun hq => ?_⟩
    · rw [Table.killed, procs_setProc, update_apply] at hq
      split at hq
      · rename_i heq
        rw [heq]
        exact .inr ⟨hfault, hp⟩
      · exact .inl hq
    · rw [state_setProc] at hq
      split at hq
      · exact nomatch hp.symm.trans hq
      · exact .inl hq
  | allocproc p hp hidle =>
    unfold Sched.allocproc
    split
    · exact ⟨.inl, .inl⟩
    · exact marks_update rfl ⟨rfl, nofun⟩
  | kstack p np page hpage hdoing =>
    unfold Sched.kstack
    split
    · rename_i hzero
      rw [hzero] at hpage
      exact marks_update rfl ⟨rfl, fun _ => .inr hpage⟩
    · exact marks_update rfl ⟨rfl, .inl⟩
  | copyuvm p np pgdir hpage hdoing =>
    unfold Sched.copyuvm
    dsimp only
    split
    · rename_i hzero
      rw [hzero] at hpage
      exact marks_update rfl ⟨rfl, fun _ => .inr hpage⟩
    · exact marks_update rfl ⟨rfl, .inl⟩
  | forked p np hdoing => exact marks_update rfl ⟨rfl, nofun⟩
  | exit p hexit hp hidle hne =>
    refine ⟨fun hq => .inl ((pid_exited t p q).2.symm.trans hq), fun hq => ?_⟩
    by_cases hqp : q = p
    · rw [hqp, state_exited_self] at hq
      cases hq
    · obtain heq | ⟨-, hr⟩ := state_exited_other t hqp
      · exact .inl (heq.symm.trans hq)
      · exact nomatch hr.symm.trans hq
  | reap p r hr =>
    have hprocs : (Sched.reap t p r).procs = update t.procs r { t.procs r with
      kstack := 0, state := .unused, pid := 0, parent := none, name := [], killed := false } := rfl
    by_cases hq : q = r
    · have hkilled : (Sched.reap t p r).killed q = false := by rw [Table.killed, hprocs, hq, update_self]
      exact ⟨fun h => (nomatch hkilled.symm.trans h), fun _ => .inr (.inr hkilled)⟩
    · refine ⟨fun h => .inl ?_, fun h => .inl ?_⟩
      · rwa [Table.killed, hprocs, update_of_ne hq] at h
      · rwa [state_update hprocs, if_neg hq] at h

def Unmarked (t : Table) : Prop := ∀ p, t.state p = .unused → t.killed p = false

theorem Unmarked.change (h : Unmarked t) (hf : Family t) (hpid : x.pid = none) (hpage : x.page ≠ some 0)
    (hc : Change x t t') : Unmarked t' := fun q hq => by
  obtain ⟨hkilled, hunused⟩ := hc.marks hf hpid q
  rw [Bool.eq_false_iff]
  intro hmark
  obtain hold | hzero | hclear := hunused hq
  · obtain hmark' | ⟨-, hrun⟩ := hkilled hmark
    · exact nomatch (h q hold).symm.trans hmark'
    · exact nomatch hold.symm.trans hrun
  · exact hpage hzero
  · exact nomatch hclear.symm.trans hmark

/-! ### Whom kill finds -/

/-- `kill` returns 0 for the pids of processes, and for any other it returns -1 and changes nothing. -/
def KillsRight (t : Table) (pid : Int) : Prop :=
  ((kill t pid).2 = 0 ↔ ∃ p, t.state p ≠ .unused ∧ t.pid p = pid) ∧
    ((∀ p, t.state p ≠ .unused → t.pid p ≠ pid) → kill t pid = (t, -1))

theorem killsRight_iff (h : Numbered t) (pid : Int) : KillsRight t pid ↔ ∀ p, t.state p = .unused → t.pid p ≠ pid := by
  constructor
  · rintro ⟨hzero, -⟩ q hq hpid
    obtain ⟨r, hr⟩ : ∃ r, findPid t.procs pid = some r := by
      by_contra hnone
      exact findPid_none (eq_none_iff_forall_ne_some.mpr fun r hr => hnone ⟨r, hr⟩) q hpid
    have hreturn : (kill t pid).2 = 0 := by rw [kill, hr]
    obtain ⟨p, hp, hpp⟩ := hzero.mp hreturn
    obtain ⟨hunused, -⟩ | hserial := h.pid p
    · exact hp hunused
    · have hne : t.pid p ≠ 0 := by omega
      exact hp (h.distinct p q (hpp.trans hpid.symm) hne ▸ hq)
  · intro hnot
    unfold KillsRight kill
    split
    · rename_i q hq
      have hpid : t.pid q = pid := findPid_some hq
      have hused : t.state q ≠ .unused := fun hunused => hnot q hunused hpid
      exact ⟨iff_of_true rfl ⟨q, hused, hpid⟩, fun hall => absurd hpid (hall q hused)⟩
    · rename_i hnone
      refine ⟨iff_of_false (fun hreturn => absurd hreturn (by simp)) ?_, fun _ => rfl⟩
      rintro ⟨p, -, hp⟩
      exact findPid_none hnone p hp

theorem killed_kill (t : Table) (pid : Int) (q : Slot) (h : (kill t pid).1.killed q = true) :
    t.killed q = true ∨ t.pid q = pid := by
  unfold kill at h
  split at h
  · rename_i r hr
    rw [Table.killed, procs_setProc, update_apply] at h
    split at h
    · rename_i heq
      rw [heq]
      exact .inr (findPid_some hr)
    · exact .inl h
  · exact .inl h

theorem state_kill_unused (t : Table) (pid : Int) (q : Slot) :
    (kill t pid).1.state q = .unused ↔ t.state q = .unused := by
  obtain heq | ⟨hs, hr⟩ := (roused_kill t pid q).state
  · rw [state_eq, heq]
    rfl
  · rw [state_eq, hr, state_eq, hs]
    exact iff_of_false nofun nofun

theorem unmarked_kill (h : Unmarked t) (hn : Numbered t) (pid : Int) :
    Unmarked (kill t pid).1 ↔ ∀ p, t.state p = .unused → t.pid p ≠ pid := by
  constructor
  · intro h' p hp hpid
    obtain ⟨q, hq⟩ : ∃ q, findPid t.procs pid = some q := by
      by_contra hnone
      exact findPid_none (eq_none_iff_forall_ne_some.mpr fun q hq => hnone ⟨q, hq⟩) p hpid
    have hqpid : t.pid q = pid := findPid_some hq
    have hunused : t.state q = .unused := by
      obtain ⟨hunused, -⟩ | hserial := hn.pid q
      · exact hunused
      · have hne : t.pid q ≠ 0 := by omega
        rw [hn.distinct q p (hqpid.trans hpid.symm) hne]
        exact hp
    have hmark : (kill t pid).1.killed q = true := by
      rw [Table.killed, kill, hq, procs_setProc, update_self]
    exact nomatch (h' q ((state_kill_unused t pid q).mpr hunused)).symm.trans hmark
  · intro hnot q hq
    have hunused := (state_kill_unused t pid q).mp hq
    rw [Bool.eq_false_iff]
    intro hmark
    obtain hold | hpid := killed_kill t pid q hmark
    · exact nomatch (h q hunused).symm.trans hold
    · exact hnot q hunused hpid

theorem unmarked_fail (h : Unmarked t) (hprocs : t'.procs = update t.procs np new)
    (hnew : new.state = .unused ∧ new.killed = t.killed np) : Unmarked t' ↔ t.killed np = false := by
  obtain ⟨hunused, hkilled⟩ := hnew
  constructor
  · intro h'
    have hclear := h' np (by rw [state_update hprocs, if_pos rfl, hunused])
    rwa [Table.killed, hprocs, update_self, hkilled] at hclear
  · intro hclear q hq
    rw [state_update hprocs] at hq
    rw [Table.killed, hprocs, update_apply]
    split
    · rw [hkilled, hclear]
    · rename_i hne
      rw [if_neg hne] at hq
      exact h q hq

/-! ### Steps -/

variable {C : Type} [DecidableEq C] {first : First} {s s' : State C} {c : C} {a : Action C}

def Unstale (s : State C) : Action C → Prop
  | .kill _ pid => ∀ p, s.table.state p = .unused → s.table.pid p ≠ pid
  | .kstack c page => page = 0 → ∀ p np, s.forking c = some (p, .slot np) → s.table.killed np = false
  | .copyuvm c pgdir => pgdir = 0 → ∀ p np, s.forking c = some (p, .stack np) → s.table.killed np = false
  | _ => True

instance (s : State C) : (a : Action C) → Decidable (Unstale s a)
  | .kill _ pid => inferInstanceAs (Decidable (∀ p, s.table.state p = .unused → s.table.pid p ≠ pid))
  | .kstack c page => inferInstanceAs (Decidable (page = 0 → ∀ p np, s.forking c = some (p, .slot np) →
      s.table.killed np = false))
  | .copyuvm c pgdir => inferInstanceAs (Decidable (pgdir = 0 → ∀ p np, s.forking c = some (p, .stack np) →
      s.table.killed np = false))
  | .scheduler _ | .work _ _ | .acquire _ | .release _ | .yield _ | .sleep _ _ | .wakeup _ _ | .fault _ | .allocproc _
  | .forked _ | .exit _ | .wait _ => inferInstanceAs (Decidable True)

/-- A step leaves a mark on no free slot exactly if it is not stale. -/
theorem unstale_iff (hs : Switched s) (hf : Family s.table) (hn : Numbered s.table) (h : Unmarked s.table) (hstep : step s a = some (.ok s')) : Unstale s a ↔ Unmarked s'.table := by
  have hplain : (a.cause s).pid = none → (a.cause s).page ≠ some 0 → Unmarked s'.table := fun hpid hpage => by
    obtain ⟨c, -, -, hr⟩ | ⟨s₂, heq, -, hchanges⟩ := step_spec hs hf hstep
    · cases hr
    · cases heq
      exact (hf.changes (fun t t' hf h hc => h.change hf hpid hpage hc) h hchanges).2
  cases a with
  | kill c pid =>
    rw [step_kill hstep]
    exact (unmarked_kill h hn pid).symm
  | kstack c page =>
    obtain ⟨p, np, hforking, heq⟩ := step_kstack hstep
    by_cases hzero : page = 0
    · have hfail : Unmarked s'.table ↔ s.table.killed np = false := by
        rw [Except.ok.inj heq, kstack, if_pos hzero]
        exact unmarked_fail h rfl ⟨rfl, rfl⟩
      rw [hfail]
      constructor
      · exact fun hok => hok hzero p np hforking
      · intro hclear _ p' np' hforking'
        cases hforking.symm.trans hforking'
        exact hclear
    · exact iff_of_true (fun h => absurd h hzero) (hplain rfl fun heq => hzero (some.inj heq))
  | copyuvm c pgdir =>
    obtain ⟨p, np, hforking, heq⟩ := step_copyuvm hstep
    by_cases hzero : pgdir = 0
    · have hfail : Unmarked s'.table ↔ s.table.killed np = false := by
        rw [Except.ok.inj heq]
        dsimp only [copyuvm]
        rw [if_pos hzero]
        exact unmarked_fail h rfl ⟨rfl, rfl⟩
      rw [hfail]
      constructor
      · exact fun hok => hok hzero p np hforking
      · intro hclear _ p' np' hforking'
        cases hforking.symm.trans hforking'
        exact hclear
    · exact iff_of_true (fun h => absurd h hzero) (hplain rfl fun heq => hzero (some.inj heq))
  | _ => exact iff_of_true trivial (hplain rfl nofun)

theorem step_killed (hs : Switched s) (hf : Family s.table) (hm : Unmarked s.table) (hok : Unstale s a)
    (hstep : step s a = some (.ok s')) (hp : s'.table.killed p = true) :
    s.table.state p ≠ .unused ∧
      (s.table.killed p = true ∨ (∃ c, a = .kill c (s.table.pid p)) ∨ ∃ c, a = .fault c ∧ s.current c = some p) := by
  have hlive : s.table.killed p = true → s.table.state p ≠ .unused := fun hmark hunused =>
    nomatch (hm p hunused).symm.trans hmark
  by_cases hpid : (a.cause s).pid = none
  · obtain ⟨c, -, -, hr⟩ | ⟨s₂, heq, -, hchanges⟩ := step_spec hs hf hstep
    · cases hr
    cases heq
    have hmarks := hf.changes (I := fun t => t.killed p = true → s.table.killed p = true ∨ (a.cause s).fault = some p)
      (fun t t' hf h hc hmark => ((hc.marks hf hpid p).killed hmark).elim h fun hfault => .inr hfault.1)
      .inl hchanges
    obtain hmark | hfault := hmarks.2 hp
    · exact ⟨hlive hmark, .inl hmark⟩
    · cases a with
      | fault c =>
        have hcurrent : s.current c = some p := hfault
        have hrun := (hs.running p).mpr ⟨c, (current_some hcurrent).1⟩
        exact ⟨by simp [hrun], .inr (.inr ⟨c, rfl, hcurrent⟩)⟩
      | _ => cases hfault
  · cases a with
    | kill c pid =>
      rw [step_kill hstep] at hp
      obtain hmark | hpid' := killed_kill s.table pid p hp
      · exact ⟨hlive hmark, .inl hmark⟩
      · exact ⟨fun hunused => hok p hunused hpid', .inr (.inl ⟨c, by rw [hpid']⟩)⟩
    | _ => exact absurd rfl hpid

theorem unmarked_boot (C : Type) (first : First) : Unmarked (boot C first).table := fun p _ => by
  rw [Table.killed, procs_boot, update_apply]
  split
  · rfl
  · rfl

theorem numbered_of_reachable (h : ((system C first).restrict Unstale).Reachable s) (hborn : s.table.born < 2 ^ 31 - 1) :
    Switched s ∧ Family s.table ∧ Numbered s.table ∧ Unmarked s.table := by
  have hgood := h.invariant (I := fun s => Switched s ∧ Family s.table ∧ Pids s.table ∧
    (s.table.born < 2 ^ 31 - 1 → Unmarked s.table)) (fun s hs => ?_) fun s a s' hs hstep => ?_
  · obtain ⟨hs, hf, hpids, hm⟩ := hgood
    exact ⟨hs, hf, hpids hborn, hm hborn⟩
  · rw [hs]
    exact ⟨switched_boot C first, family_boot C first, pids_boot C first, fun _ => unmarked_boot C first⟩
  · obtain ⟨hs, hf, hpids, hm⟩ := hs
    obtain ⟨hok, hstep⟩ := hstep
    obtain ⟨c, -, -, hr⟩ | ⟨s₂, heq, hshift, hchanges⟩ := step_spec hs hf hstep
    · cases hr
    · cases heq
      have hkept := hf.changes (I := fun t => Pids t ∧ s.table.born ≤ t.born)
        (fun t t' hf h hc => ⟨h.1.change hf hc, h.2.trans hc.born_le⟩) ⟨hpids, le_rfl⟩ hchanges
      refine ⟨hs.shift hshift, hkept.1, hkept.2.1, fun hborn => ?_⟩
      have hold : s.table.born < 2 ^ 31 - 1 := hkept.2.2.trans_lt hborn
      exact (unstale_iff hs hf (hpids hold) (hm hold) hstep).mp hok

/-! ### Every run -/

/-- `kill` reaches only live processes, as long as it is given no pid that a free slot has. -/
theorem kill_reaches_only_live (h : ((system C first).restrict Unstale).Reachable s)
    (hborn : s.table.born < 2 ^ 31 - 1) :
    (∀ p q, s.table.state p ≠ .unused → s.table.state q ≠ .unused → s.table.pid p = s.table.pid q → p = q) ∧
    (∀ pid, KillsRight s.table pid ↔ ∀ p, s.table.state p = .unused → s.table.pid p ≠ pid) ∧
    (∀ p, s.table.state p = .unused → s.table.killed p = false) ∧
    ∀ a s', step s a = some (.ok s') →
      (Unstale s a ↔ ∀ p, s'.table.state p = .unused → s'.table.killed p = false) ∧
      (Unstale s a → ∀ p, s'.table.killed p = true → s.table.state p ≠ .unused ∧
        (s.table.killed p = true ∨ (∃ c, a = .kill c (s.table.pid p)) ∨ ∃ c, a = .fault c ∧ s.current c = some p)) := by
  obtain ⟨hs, hf, hn, hm⟩ := numbered_of_reachable h hborn
  refine ⟨fun p q hp hq hpq => ?_, killsRight_iff hn, hm, fun a s' hstep =>
    ⟨unstale_iff hs hf hn hm hstep, fun hok p => step_killed hs hf hm hok hstep⟩⟩
  obtain ⟨hunused, -⟩ | hserial := hn.pid p
  · exact absurd hunused hp
  · exact hn.distinct p q hpq (by omega)

theorem kill_reaches_only_live_run : ∃ s, ((system Bool firstProc).restrict Unstale).Reachable s ∧
    s.table.reaped.length = 1 ∧ KillsRight s.table 1 ∧ ¬KillsRight s.table 0 := by
  obtain ⟨s, hs, htest⟩ := System.exists_reachable_of_follow Unstale step (boot Bool firstProc) forkAndExit
    (fun s => s.table.reaped.length = 1 ∧ s.table.born < 2 ^ 31 - 1 ∧
      (∀ p, s.table.state p = .unused → s.table.pid p ≠ 1) ∧ ∃ p, s.table.state p = .unused ∧ s.table.pid p = 0)
    (by decide +kernel)
  obtain ⟨hreaped, hborn, hone, p, hp, hzero⟩ := of_decide_eq_true htest
  obtain ⟨-, hright, -⟩ := kill_reaches_only_live hs hborn
  exact ⟨s, hs, hreaped, (hright 1).mpr hone, fun h => (hright 0).mp h p hp hzero⟩

/-- The first process kills the pid 0 and forks: the call succeeds, and the child is born killed. -/
theorem kill_zero_marks_child : ∃ s, (system Bool firstProc).Reachable s ∧ s.table.born = 1 ∧
    (∀ p, s.table.state p ≠ .unused → s.table.pid p ≠ 0) ∧ (kill s.table 0).2 = 0 ∧
    ∃ s', (system Bool firstProc).Reachable s' ∧ s'.table.born = 2 ∧
      ∃ p, s'.table.state p = .runnable ∧ s'.table.pid p = 2 ∧ s'.table.killed p = true := by
  obtain ⟨s, hs, htest⟩ := System.exists_reachable_of_follow (fun _ _ => True) step (boot Bool firstProc)
    [.scheduler true, .scheduler true]
    (fun s => s.table.born = 1 ∧ (∀ p, s.table.state p ≠ .unused → s.table.pid p ≠ 0) ∧ (kill s.table 0).2 = 0)
    (by decide +kernel)
  obtain ⟨s', hs', htest'⟩ := System.exists_reachable_of_follow (fun _ _ => True) step (boot Bool firstProc)
    [.scheduler true, .scheduler true, .kill true 0, .allocproc true, .kstack true 12288, .copyuvm true 16384, .forked true]
    (fun s => s.table.born = 2 ∧ ∃ p, s.table.state p = .runnable ∧ s.table.pid p = 2 ∧ s.table.killed p = true)
    (by decide +kernel)
  obtain ⟨hborn, hnone, hreturn⟩ := of_decide_eq_true htest
  exact ⟨s, hs.of_restrict, hborn, hnone, hreturn, s', hs'.of_restrict, of_decide_eq_true htest'⟩

end RainOS.Sched
