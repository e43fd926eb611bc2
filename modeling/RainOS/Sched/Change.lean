import Mathlib.Logic.Relation
import RainOS.Sched.Code

/-!
# Changes of the process table

What the code does to the table, apart from locks and processors, is a sequence of the changes below. A change
is made by a running process, or it switches to one, or it only wakes sleepers. In all of them a process that is
not the first has a live parent, and no process sleeps in `wait` next to a child that has exited.
-/

namespace RainOS.Sched

open Function List Option
open Process (Slot nproc)

/-- What a step is given: the pid it kills, the process that misbehaves, the one that exits, and the page or page
directory `fork` gets. -/
structure Cause where
  pid : Option Int
  fault : Option Slot
  exit : Option Slot
  page : Option Nat

def Table.state (t : Table) (p : Slot) : ProcState := (t.procs p).state

def Table.parent (t : Table) (p : Slot) : Option Slot := (t.procs p).parent

/-- The table when a process that exits has given up its processor. -/
def exited (t : Table) (p : Slot) : Table :=
  (becomeZombie (closeFiles t p) p).setProc p fun q => { q with context := .exit }

inductive Change (x : Cause) (t : Table) : Table → Prop
  | run (p : Slot) (hp : t.state p = .runnable) : Change x t (t.setProc p fun q => { q with state := .running })
  | awake (p : Slot) (hp : t.state p = .running) : Change x t (t.setProc p fun q => { q with chan := none })
  | work (p : Slot) (own : Proc) (hp : t.state p = .running) : Change x t (t.setProc p (work own))
  | yield (p : Slot) (hp : t.state p = .running) :
      Change x t (t.setProc p fun q => { q with state := .runnable, context := .yield })
  | sleep (p : Slot) (a : Nat) (hp : t.state p = .running) :
      Change x t ((fallAsleep t p (.addr a)).setProc p fun q => { q with context := .sleep })
  | wait (p : Slot) (hp : t.state p = .running) (hnone : findZombie t.procs p = none) :
      Change x t ((fallAsleep t p (.proc p)).setProc p fun q => { q with context := .wait })
  | wakeup (a : Nat) : Change x t (wakeAll t (some (.addr a)))
  | kill (pid : Int) (hpid : x.pid = some pid) : Change x t (kill t pid).1
  | fault (p : Slot) (hfault : x.fault = some p) (hp : t.state p = .running) :
      Change x t (t.setProc p fun q => { q with killed := true })
  | allocproc (p : Slot) (hp : t.state p = .running) (hidle : t.doing p = .idle) : Change x t (allocproc t p)
  | kstack (p np : Slot) (page : Nat) (hpage : x.page = some page) (hdoing : t.doing p = .slot np) :
      Change x t (kstack t p np page)
  | copyuvm (p np : Slot) (pgdir : Nat) (hpage : x.page = some pgdir) (hdoing : t.doing p = .stack np) :
      Change x t (copyuvm t p np pgdir)
  | forked (p np : Slot) (hdoing : t.doing p = .ready np) : Change x t (forked t p np)
  | exit (p : Slot) (hexit : x.exit = some p) (hp : t.state p = .running) (hidle : t.doing p = .idle)
      (hne : p ≠ t.initproc) :
      Change x t (exited t p)
  | reap (p q : Slot) (hq : findZombie t.procs p = some q) : Change x t (reap t p q)

/-! ### Searching the table -/

theorem state_eq (t : Table) (p : Slot) : t.state p = (t.procs p).state := rfl

theorem parent_eq (t : Table) (p : Slot) : t.parent p = (t.procs p).parent := rfl

variable {x : Cause} {t t' : Table} {p q np init : Slot} {procs : Slot → Proc} {pid : Int} {a b : ProcState}

theorem findZombie_some (h : findZombie procs p = some q) :
    (procs q).parent = some p ∧ (procs q).state = .zombie := by
  have hfound := find?_some h
  exact of_decide_eq_true hfound

theorem findZombie_none (h : findZombie procs p = none) (q : Slot) (hq : (procs q).parent = some p) :
    (procs q).state ≠ .zombie := fun hz =>
  find?_eq_none.mp h q (mem_finRange q) (decide_eq_true ⟨hq, hz⟩)

theorem findUnused_some (h : findUnused procs = some np) : (procs np).state = .unused := by
  have hfound := find?_some h
  exact of_decide_eq_true hfound

theorem findPid_some (h : findPid procs pid = some q) : (procs q).pid = pid := by
  have hfound := find?_some h
  exact of_decide_eq_true hfound

theorem findPid_none (h : findPid procs pid = none) (q : Slot) : (procs q).pid ≠ pid := fun hq =>
  find?_eq_none.mp h q (mem_finRange q) (decide_eq_true hq)

/-! ### Families -/

def ProcState.Alive (s : ProcState) : Prop := s = .sleeping ∨ s = .runnable ∨ s = .running

def Doing.child : Doing → Option Slot
  | .idle => none
  | .slot np | .stack np | .ready np => some np

theorem Doing.child_of_built {d : Doing} (h : d = .stack np ∨ d = .ready np) : d.child = some np := by
  obtain rfl | rfl := h
  · rfl
  · rfl

structure Family (t : Table) : Prop where
  init : (t.state t.initproc).Alive
  root : t.parent t.initproc = none
  parent : ∀ p, (t.state p).Alive ∨ t.state p = .zombie → p ≠ t.initproc →
    ∃ q, t.parent p = some q ∧ (t.state q).Alive
  self : ∀ p, t.parent p ≠ some p
  unused : ∀ p, t.state p = .unused → t.parent p = none
  forker : ∀ p np, (t.doing p).child = some np → (t.state p).Alive ∧ t.state np = .embryo
  one : ∀ p q np, (t.doing p).child = some np → (t.doing q).child = some np → p = q
  embryo : ∀ np, t.state np = .embryo → ∃ p, (t.doing p).child = some np
  adopted : ∀ p np, (t.doing p).child = some np → t.parent np = if t.doing p = .ready np then some p else none
  built : ∀ p np, t.doing p = .stack np ∨ t.doing p = .ready np → (t.procs np).context = .forkret
  context : ∀ p, t.state p = .sleeping ∨ t.state p = .runnable → (t.procs p).context ≠ .exit
  asleep : ∀ p q, t.state p = .sleeping → (t.procs p).chan = some (.proc p) → t.parent q = some p →
    t.state q ≠ .zombie

theorem ProcState.Alive.ne (h : a.Alive) (hb : b = .unused ∨ b = .embryo ∨ b = .zombie) : a ≠ b := by
  rintro rfl
  obtain rfl | rfl | rfl := h
  · simp at hb
  · simp at hb
  · simp at hb

/-- A live process may change state and the rest of it stay as it was. -/
structure Steady (t t' : Table) : Prop where
  initproc : t'.initproc = t.initproc
  doing : t'.doing = t.doing
  parent : ∀ p, t'.parent p = t.parent p
  state : ∀ p, t'.state p = t.state p ∨ (t.state p).Alive ∧ (t'.state p).Alive
  embryo : ∀ p, t.state p = .embryo → (t'.procs p).context = (t.procs p).context

theorem Steady.alive_iff (h : Steady t t') (p : Slot) : (t'.state p).Alive ↔ (t.state p).Alive := by
  obtain heq | ⟨h₁, h₂⟩ := h.state p
  · rw [heq]
  · exact iff_of_true h₂ h₁

theorem Steady.state_iff (h : Steady t t') (p : Slot) (hb : b = .unused ∨ b = .embryo ∨ b = .zombie) :
    t'.state p = b ↔ t.state p = b := by
  obtain heq | ⟨h₁, h₂⟩ := h.state p
  · rw [heq]
  · exact iff_of_false (h₂.ne hb) (h₁.ne hb)

theorem Family.steady (h : Family t) (hs : Steady t t')
    (hcontext : ∀ p, t'.state p = .sleeping ∨ t'.state p = .runnable → (t'.procs p).context ≠ .exit)
    (hasleep : ∀ p, t'.state p = .sleeping → (t'.procs p).chan = some (.proc p) → ∀ q, t.parent q = some p →
      t.state q ≠ .zombie) : Family t' where
  init := by
    rw [hs.initproc, hs.alive_iff]
    exact h.init
  root := by
    rw [hs.initproc, hs.parent]
    exact h.root
  parent := by
    intro p hp hne
    rw [hs.initproc] at hne
    rw [hs.alive_iff, hs.state_iff p (.inr (.inr rfl))] at hp
    obtain ⟨q, hq, halive⟩ := h.parent p hp hne
    exact ⟨q, by rw [hs.parent, hq], (hs.alive_iff q).mpr halive⟩
  self := by
    intro p
    rw [hs.parent]
    exact h.self p
  unused := by
    intro p hp
    rw [hs.parent]
    exact h.unused p ((hs.state_iff p (.inl rfl)).mp hp)
  forker := by
    intro p np hp
    rw [hs.doing] at hp
    obtain ⟨halive, hembryo⟩ := h.forker p np hp
    exact ⟨(hs.alive_iff p).mpr halive, (hs.state_iff np (.inr (.inl rfl))).mpr hembryo⟩
  one := by
    rw [hs.doing]
    exact h.one
  embryo := by
    intro np hnp
    rw [hs.doing]
    exact h.embryo np ((hs.state_iff np (.inr (.inl rfl))).mp hnp)
  adopted := by
    intro p np hp
    rw [hs.doing] at hp
    rw [hs.parent, hs.doing]
    exact h.adopted p np hp
  built := by
    intro p np hp
    rw [hs.doing] at hp
    rw [hs.embryo np (h.forker p np (Doing.child_of_built hp)).2]
    exact h.built p np hp
  context := hcontext
  asleep := by
    intro p q hp hchan hq
    rw [hs.parent] at hq
    rw [Ne, hs.state_iff q (.inr (.inr rfl))]
    exact hasleep p hp hchan q hq

/-! ### One process changes -/

@[simp] theorem procs_setProc (t : Table) (p : Slot) (f : Proc → Proc) :
    (t.setProc p f).procs = update t.procs p (f (t.procs p)) := rfl

theorem state_update {new : Proc} (h : t'.procs = update t.procs p new) (q : Slot) :
    t'.state q = if q = p then new.state else t.state q := by
  unfold Table.state
  rw [h, update_apply]
  split <;> rfl

theorem parent_update {new : Proc} (h : t'.procs = update t.procs p new) (q : Slot) :
    t'.parent q = if q = p then new.parent else t.parent q := by
  unfold Table.parent
  rw [h, update_apply]
  split <;> rfl

theorem state_setProc (t : Table) (p q : Slot) (f : Proc → Proc) :
    (t.setProc p f).state q = if q = p then (f (t.procs p)).state else t.state q :=
  state_update (procs_setProc t p f) q

theorem parent_setProc (t : Table) (p q : Slot) (f : Proc → Proc) :
    (t.setProc p f).parent q = if q = p then (f (t.procs p)).parent else t.parent q :=
  parent_update (procs_setProc t p f) q

theorem setProc_setProc (t : Table) (p : Slot) (f g : Proc → Proc) :
    (t.setProc p f).setProc p g = t.setProc p fun q => g (f q) := by
  unfold Table.setProc
  simp

theorem Family.setProc (h : Family t) {f : Proc → Proc} (hp : (t.state p).Alive)
    (halive : ((f (t.procs p)).state).Alive) (hparent : (f (t.procs p)).parent = t.parent p)
    (hcontext : (f (t.procs p)).state = .sleeping ∨ (f (t.procs p)).state = .runnable →
      (f (t.procs p)).context ≠ .exit)
    (hasleep : (f (t.procs p)).state = .sleeping → (f (t.procs p)).chan = some (.proc p) →
      ∀ q, t.parent q = some p → t.state q ≠ .zombie) : Family (t.setProc p f) := by
  refine h.steady ⟨rfl, rfl, fun q => ?_, fun q => ?_, fun q hq => ?_⟩ (fun q hq => ?_) fun q hq hchan r hr => ?_
  · rw [parent_setProc]
    split
    · rename_i heq
      rw [heq, hparent]
    · rfl
  · rw [state_setProc]
    split
    · rename_i heq
      rw [heq]
      exact .inr ⟨hp, halive⟩
    · exact .inl rfl
  · have hne : q ≠ p := by
      rintro rfl
      exact hp.ne (.inr (.inl rfl)) hq
    rw [procs_setProc, update_of_ne hne]
  · rw [state_setProc] at hq
    rw [procs_setProc, update_apply]
    split
    · rename_i heq
      rw [if_pos heq] at hq
      exact hcontext hq
    · rename_i hne
      rw [if_neg hne] at hq
      exact h.context q hq
  · rw [state_setProc] at hq
    rw [procs_setProc, update_apply] at hchan
    split at hq
    · rename_i heq
      rw [if_pos heq] at hchan
      subst heq
      exact hasleep hq hchan r hr
    · rename_i hne
      rw [if_neg hne] at hchan
      exact h.asleep q r hq hchan hr

structure Roused (q q' : Proc) : Prop where
  parent : q'.parent = q.parent
  context : q'.context = q.context
  chan : q'.chan = q.chan
  state : q'.state = q.state ∨ q.state = .sleeping ∧ q'.state = .runnable

theorem Roused.refl (q : Proc) : Roused q q := ⟨rfl, rfl, rfl, .inl rfl⟩

theorem Family.roused (h : Family t) (hinit : t'.initproc = t.initproc) (hdoing : t'.doing = t.doing)
    (hroused : ∀ p, Roused (t.procs p) (t'.procs p)) : Family t' := by
  refine h.steady ⟨hinit, hdoing, fun p => (hroused p).parent, fun p => ?_, fun p _ => (hroused p).context⟩
    (fun p hp => ?_) fun p hp hchan q hq => ?_
  · refine (hroused p).state.imp_right fun hwoken => ⟨.inl hwoken.1, .inr (.inl hwoken.2)⟩
  · rw [(hroused p).context]
    obtain heq | ⟨hs, -⟩ := (hroused p).state
    · exact h.context p (by rwa [state_eq, heq] at hp)
    · exact h.context p (.inl hs)
  · obtain heq | ⟨-, hr⟩ := (hroused p).state
    · rw [(hroused p).chan] at hchan
      exact h.asleep p q (by rwa [state_eq, heq] at hp) hchan hq
    · rw [state_eq, hr] at hp
      cases hp

theorem roused_wakeup1 (procs : Slot → Proc) (chan : Option Chan) (p : Slot) :
    Roused (procs p) (wakeup1 procs chan p) := by
  unfold wakeup1
  split
  · rename_i hp
    exact ⟨rfl, rfl, rfl, .inr ⟨hp.1, rfl⟩⟩
  · exact .refl _

theorem initproc_kill (t : Table) (pid : Int) : (kill t pid).1.initproc = t.initproc := by
  unfold kill
  split
  · rfl
  · rfl

theorem doing_kill (t : Table) (pid : Int) : (kill t pid).1.doing = t.doing := by
  unfold kill
  split
  · rfl
  · rfl

theorem roused_kill (t : Table) (pid : Int) (p : Slot) : Roused (t.procs p) ((kill t pid).1.procs p) := by
  unfold kill
  split
  · rw [procs_setProc, update_apply]
    split
    · rename_i heq
      rw [heq]
      refine ⟨rfl, rfl, rfl, ?_⟩
      dsimp only
      split
      · rename_i hs
        exact .inr ⟨hs, rfl⟩
      · exact .inl rfl
    · exact .refl _
  · exact .refl _

/-! ### fork -/

/-- What `fork` makes of its slot: it goes on with it, gives it up, or is done. -/
inductive Forked (p np : Slot) (new : Proc) : Doing → Prop
  | more (d : Doing) (hchild : d.child = some np) (hstate : new.state = .embryo)
      (hparent : new.parent = if d = .ready np then some p else none)
      (hcontext : d = .stack np ∨ d = .ready np → new.context = .forkret) : Forked p np new d
  | failed (hstate : new.state = .unused) (hparent : new.parent = none) : Forked p np new .idle
  | done (hstate : new.state = .runnable) (hparent : new.parent = some p) (hcontext : new.context ≠ .exit) :
      Forked p np new .idle

namespace Forked

variable {new : Proc} {d : Doing}

section

variable (h : Forked p np new d)
include h

theorem child (hq : d.child = some q) :
    q = np ∧ new.state = .embryo ∧ new.parent = if d = .ready q then some p else none := by
  cases h with
  | more _ hchild hstate hparent _ =>
    obtain rfl : np = q := some.inj (hchild.symm.trans hq)
    exact ⟨rfl, hstate, hparent⟩
  | failed _ _ => cases hq
  | done _ _ _ => cases hq

theorem embryo (hs : new.state = .embryo) : d.child = some np := by
  cases h with
  | more _ hchild _ _ _ => exact hchild
  | failed hstate _ => exact nomatch hstate.symm.trans hs
  | done hstate _ _ => exact nomatch hstate.symm.trans hs

theorem runnable (hs : new.state ≠ .unused ∧ new.state ≠ .embryo) :
    new.state = .runnable ∧ new.parent = some p ∧ new.context ≠ .exit := by
  cases h with
  | more _ _ hstate _ _ => exact absurd hstate hs.2
  | failed hstate _ => exact absurd hstate hs.1
  | done hstate hparent hcontext => exact ⟨hstate, hparent, hcontext⟩

theorem unused (hs : new.state = .unused) : new.parent = none := by
  cases h with
  | more _ _ hstate _ _ => exact nomatch hstate.symm.trans hs
  | failed _ hparent => exact hparent
  | done hstate _ _ => exact nomatch hstate.symm.trans hs

theorem parent (hq : new.parent = some q) : q = p := by
  cases h with
  | more _ _ _ hparent _ =>
    rw [hparent] at hq
    split at hq
    · exact (some.inj hq).symm
    · cases hq
  | failed _ hparent => exact nomatch hparent.symm.trans hq
  | done _ hparent _ => exact some.inj (hq.symm.trans hparent)

theorem context (hd : d = .stack q ∨ d = .ready q) : q = np ∧ new.context = .forkret := by
  have hq := Doing.child_of_built hd
  obtain ⟨rfl, -, -⟩ := h.child hq
  cases h with
  | more _ _ _ _ hcontext => exact ⟨rfl, hcontext hd⟩
  | failed _ _ => cases hq
  | done _ _ _ => cases hq

end

end Forked

theorem Family.refill (h : Family t) {new : Proc} (hdead : ¬(t.state np).Alive) (hinit : t'.initproc = t.initproc)
    (hprocs : t'.procs = update t.procs np new)
    (helse : ∀ q r, r ≠ np → (t'.doing q).child = some r ∨ (t.doing q).child = some r → t'.doing q = t.doing q)
    (hforker : ∀ q, (t'.doing q).child = some np → q = p ∧ (t.state q).Alive ∧ new.state = .embryo ∧
      new.parent = if t'.doing q = .ready np then some q else none)
    (hembryo : new.state = .embryo → (t'.doing p).child = some np)
    (hbuilt : ∀ q, t'.doing q = .stack np ∨ t'.doing q = .ready np → new.context = .forkret)
    (hparent : ∀ q, new.parent = some q → (t.state q).Alive) (hunused : new.state = .unused → new.parent = none)
    (hrunnable : new.state ≠ .unused ∧ new.state ≠ .embryo →
      new.state = .runnable ∧ new.parent = some p ∧ new.context ≠ .exit) : Family t' := by
  have hself : t'.procs np = new := by rw [hprocs, update_self]
  have hother : ∀ q, q ≠ np → t'.procs q = t.procs q := fun q hq => by rw [hprocs, update_of_ne hq]
  have halive : ∀ q, (t.state q).Alive → (t'.state q).Alive := fun q hq => by
    rw [state_eq, hother q fun heq => hdead (heq ▸ hq)]
    exact hq
  -- Every field is about the slot, or about slots and processes that stay as they are.
  refine ⟨?_, ?_, fun q hq hne => ?_, fun q hq => ?_, fun q hq => ?_, fun q r hr => ?_, fun q q' r hr hr' => ?_,
    fun r hr => ?_, fun q r hr => ?_, fun q r hr => ?_, fun q hq => ?_, fun q r hq hchan hr => ?_⟩
  · rw [hinit]
    exact halive _ h.init
  · rw [hinit, parent_eq, hother t.initproc fun heq => hdead (heq ▸ h.init)]
    exact h.root
  · rw [hinit] at hne
    by_cases hqn : q = np
    · subst hqn
      rw [state_eq, hself] at hq
      have hs : new.state ≠ .unused ∧ new.state ≠ .embryo :=
        hq.elim (fun hq => ⟨hq.ne (.inl rfl), hq.ne (.inr (.inl rfl))⟩) fun hq => by simp [hq]
      obtain ⟨-, hp, -⟩ := hrunnable hs
      exact ⟨p, by rw [parent_eq, hself, hp], halive p (hparent p hp)⟩
    · rw [state_eq, hother q hqn] at hq
      obtain ⟨r, hr, hlive⟩ := h.parent q hq hne
      exact ⟨r, by rw [parent_eq, hother q hqn]; exact hr, halive r hlive⟩
  · by_cases hqn : q = np
    · subst hqn
      rw [parent_eq, hself] at hq
      exact hdead (hparent q hq)
    · rw [parent_eq, hother q hqn] at hq
      exact h.self q hq
  · by_cases hqn : q = np
    · subst hqn
      rw [state_eq, hself] at hq
      rw [parent_eq, hself]
      exact hunused hq
    · rw [state_eq, hother q hqn] at hq
      rw [parent_eq, hother q hqn]
      exact h.unused q hq
  · by_cases hrn : r = np
    · subst hrn
      obtain ⟨-, hlive, hstate, -⟩ := hforker q hr
      exact ⟨halive q hlive, by rw [state_eq, hself, hstate]⟩
    · rw [helse q r hrn (.inl hr)] at hr
      obtain ⟨hlive, hstate⟩ := h.forker q r hr
      exact ⟨halive q hlive, by rw [state_eq, hother r hrn]; exact hstate⟩
  · by_cases hrn : r = np
    · subst hrn
      rw [(hforker q hr).1, (hforker q' hr').1]
    · rw [helse q r hrn (.inl hr)] at hr
      rw [helse q' r hrn (.inl hr')] at hr'
      exact h.one q q' r hr hr'
  · by_cases hrn : r = np
    · subst hrn
      rw [state_eq, hself] at hr
      exact ⟨p, hembryo hr⟩
    · rw [state_eq, hother r hrn] at hr
      obtain ⟨q, hq⟩ := h.embryo r hr
      exact ⟨q, by rw [helse q r hrn (.inr hq), hq]⟩
  · by_cases hrn : r = np
    · subst hrn
      rw [parent_eq, hself]
      exact (hforker q hr).2.2.2
    · have heq := helse q r hrn (.inl hr)
      rw [heq] at hr ⊢
      rw [parent_eq, hother r hrn]
      exact h.adopted q r hr
  · by_cases hrn : r = np
    · subst hrn
      rw [hself]
      exact hbuilt q hr
    · rw [helse q r hrn (.inl (Doing.child_of_built hr))] at hr
      rw [hother r hrn]
      exact h.built q r hr
  · by_cases hqn : q = np
    · subst hqn
      rw [state_eq, hself] at hq
      have hs : new.state ≠ .unused ∧ new.state ≠ .embryo := by
        obtain hq | hq := hq
        · simp [hq]
        · simp [hq]
      rw [hself]
      exact (hrunnable hs).2.2
    · rw [state_eq, hother q hqn] at hq
      rw [hother q hqn]
      exact h.context q hq
  · have hqn : q ≠ np := by
      rintro rfl
      rw [state_eq, hself] at hq
      exact nomatch hq.symm.trans (hrunnable (by simp [hq])).1
    by_cases hrn : r = np
    · subst hrn
      rw [state_eq, hself]
      intro hz
      exact nomatch hz.symm.trans (hrunnable (by simp [hz])).1
    · rw [state_eq, hother q hqn] at hq
      rw [hother q hqn] at hchan
      rw [parent_eq, hother r hrn] at hr
      rw [state_eq, hother r hrn]
      exact h.asleep q r hq hchan hr

theorem Family.fork (h : Family t) {new : Proc} {d : Doing} (hp : (t.state p).Alive)
    (hnp : t.state np = .unused ∧ t.doing p = .idle ∨ (t.doing p).child = some np)
    (hprocs : t'.procs = update t.procs np new) (hdoing : t'.doing = update t.doing p d)
    (hinit : t'.initproc = t.initproc) (hnew : Forked p np new d) : Family t' := by
  have hsole : ∀ q, (t.doing q).child = some np → q = p := fun q hq => by
    obtain ⟨hu, -⟩ | hc := hnp
    · exact nomatch hu.symm.trans (h.forker q np hq).2
    · exact h.one q p np hq hc
  have hdead : ¬(t.state np).Alive := fun halive => by
    obtain ⟨hu, -⟩ | hc := hnp
    · exact halive.ne (.inl rfl) hu
    · exact halive.ne (.inr (.inl rfl)) (h.forker p np hc).2
  have hmine : t'.doing p = d := by rw [hdoing, update_self]
  have helse : ∀ q, q ≠ p → t'.doing q = t.doing q := fun q hq => by rw [hdoing, update_of_ne hq]
  have honly : ∀ q, (t'.doing q).child = some np → q = p := fun q hq => by
    by_contra hqp
    exact hqp (hsole q (helse q hqp ▸ hq))
  refine h.refill (p := p) hdead hinit hprocs (fun q r hr hq => ?_) (fun q hq => ?_)
    (fun hs => hmine ▸ hnew.embryo hs) (fun q hq => ?_) (fun q hq => hnew.parent hq ▸ hp) hnew.unused hnew.runnable
  · by_cases hqp : q = p
    · subst hqp
      rw [hmine] at hq
      obtain hq | hq := hq
      · exact absurd (hnew.child hq).1 hr
      · obtain ⟨-, hidle⟩ | hc := hnp
        · rw [hidle] at hq
          cases hq
        · exact absurd (some.inj (hq.symm.trans hc)) hr
    · exact helse q hqp
  · obtain rfl := honly q hq
    rw [hmine] at hq ⊢
    exact ⟨rfl, hp, (hnew.child hq).2⟩
  · obtain rfl := honly q (Doing.child_of_built hq)
    exact (hnew.context (hmine ▸ hq)).2

theorem Family.allocproc (h : Family t) (hp : t.state p = .running) (hidle : t.doing p = .idle) :
    Family (allocproc t p) := by
  unfold Sched.allocproc
  split
  · exact h
  · rename_i np hfound
    have hunused : t.state np = .unused := findUnused_some hfound
    refine h.fork (.inr (.inr hp)) (.inl ⟨hunused, hidle⟩) rfl rfl rfl (.more (.slot np) rfl rfl ?_ nofun)
    rw [if_neg nofun]
    exact h.unused np hunused

theorem Family.kstack (h : Family t) (page : Nat) (hdoing : t.doing p = .slot np) : Family (kstack t p np page) := by
  have hchild : (t.doing p).child = some np := by rw [hdoing]; rfl
  obtain ⟨halive, hembryo⟩ := h.forker p np hchild
  have hparent : t.parent np = none := by
    rw [h.adopted p np hchild, hdoing]
    exact if_neg nofun
  unfold Sched.kstack
  split
  · exact h.fork halive (.inr hchild) rfl rfl rfl (.failed rfl hparent)
  · refine h.fork halive (.inr hchild) rfl rfl rfl (.more (.stack np) rfl hembryo ?_ fun _ => rfl)
    rw [if_neg nofun]
    exact hparent

theorem Family.copyuvm (h : Family t) (pgdir : Nat) (hdoing : t.doing p = .stack np) :
    Family (copyuvm t p np pgdir) := by
  have hchild : (t.doing p).child = some np := by rw [hdoing]; rfl
  obtain ⟨halive, hembryo⟩ := h.forker p np hchild
  have hparent : t.parent np = none := by
    rw [h.adopted p np hchild, hdoing]
    exact if_neg nofun
  unfold Sched.copyuvm
  dsimp only
  split
  · exact h.fork halive (.inr hchild) rfl rfl rfl (.failed rfl hparent)
  · refine h.fork halive (.inr hchild) rfl rfl rfl (.more (.ready np) rfl hembryo ?_ fun _ => ?_)
    · rw [if_pos rfl]
    · exact h.built p np (.inl hdoing)

theorem Family.forked (h : Family t) (hdoing : t.doing p = .ready np) : Family (forked t p np) := by
  have hchild : (t.doing p).child = some np := by rw [hdoing]; rfl
  refine h.fork (h.forker p np hchild).1 (.inr hchild) rfl rfl rfl (.done rfl ?_ ?_)
  · exact (h.adopted p np hchild).trans (if_pos hdoing)
  · have hcontext := h.built p np (.inr hdoing)
    simp [hcontext]

/-! ### exit and wait -/

/-- The children of a process that exits are given to the first process. -/
def adopt (p init : Slot) (q : Proc) : Proc := if q.parent = some p then { q with parent := some init } else q

theorem parent_adopt (p init : Slot) (q : Proc) :
    (adopt p init q).parent = if q.parent = some p then some init else q.parent := by
  unfold adopt
  split
  · rfl
  · rfl

theorem adopt_same (p init : Slot) (q : Proc) :
    (adopt p init q).state = q.state ∧ (adopt p init q).context = q.context ∧ (adopt p init q).chan = q.chan := by
  unfold adopt
  split
  · exact ⟨rfl, rfl, rfl⟩
  · exact ⟨rfl, rfl, rfl⟩

theorem roused_reparent (procs : Slot → Proc) (p init q : Slot) :
    Roused (adopt p init (procs q)) (reparent procs p init q) := by
  unfold reparent
  dsimp only
  split
  · exact roused_wakeup1 (fun q => adopt p init (procs q)) _ q
  · exact .refl _

theorem reparent_wakes (hq : (procs q).parent = some p) (hz : (procs q).state = .zombie)
    (hs : (reparent procs p init init).state = .sleeping) : (procs init).chan ≠ some (.proc init) := by
  intro hchan
  have hany : (finRange nproc).any (fun q => (procs q).parent = some p ∧ (procs q).state = .zombie) = true :=
    any_eq_true.mpr ⟨q, mem_finRange q, decide_eq_true ⟨hq, hz⟩⟩
  unfold reparent at hs
  dsimp only at hs
  rw [if_pos hany] at hs
  change (wakeup1 (fun q => adopt p init (procs q)) (some (.proc init)) init).state = .sleeping at hs
  obtain ⟨hstate, -, hkept⟩ := adopt_same p init (procs init)
  unfold wakeup1 at hs
  rw [hkept, hchan] at hs
  split at hs
  · cases hs
  · rename_i hne
    exact hne ⟨hs, rfl⟩

theorem Family.zombie (h : Family t) (hp : t.state p = .running) (hidle : t.doing p = .idle) (hne : p ≠ t.initproc)
    (hawake : ∀ r, t.parent p = some r → t.state r = .sleeping → (t.procs r).chan ≠ some (.proc r))
    (hinit : t'.initproc = t.initproc) (hdoing : t'.doing = t.doing) (hself : t'.state p = .zombie)
    (hparent : t'.parent p = (reparent t.procs p t.initproc p).parent)
    (hother : ∀ q, q ≠ p → t'.procs q = reparent t.procs p t.initproc q) : Family t' := by
  have hpar : ∀ q, t'.parent q = if t.parent q = some p then some t.initproc else t.parent q := fun q => by
    have hall : t'.parent q = (reparent t.procs p t.initproc q).parent := by
      by_cases hq : q = p
      · rw [hq, hparent]
      · rw [parent_eq, hother q hq]
    rw [hall, (roused_reparent t.procs p t.initproc q).parent, parent_adopt]
    rfl
  have hstate : ∀ q, q ≠ p → t'.state q = t.state q ∨ t.state q = .sleeping ∧ t'.state q = .runnable := fun q hq => by
    have hroused := (roused_reparent t.procs p t.initproc q).state
    rw [(adopt_same p t.initproc (t.procs q)).1] at hroused
    rw [state_eq, hother q hq]
    exact hroused
  have hcontext : ∀ q, q ≠ p → (t'.procs q).context = (t.procs q).context := fun q hq => by
    rw [hother q hq, (roused_reparent t.procs p t.initproc q).context, (adopt_same p t.initproc (t.procs q)).2.1]
  have hchan : ∀ q, q ≠ p → (t'.procs q).chan = (t.procs q).chan := fun q hq => by
    rw [hother q hq, (roused_reparent t.procs p t.initproc q).chan, (adopt_same p t.initproc (t.procs q)).2.2]
  have halive : ∀ q, q ≠ p → (t.state q).Alive → (t'.state q).Alive := fun q hq hlive => by
    obtain heq | ⟨-, heq⟩ := hstate q hq
    · rw [heq]
      exact hlive
    · exact .inr (.inl heq)
  have hsame : ∀ {b : ProcState} q, b = .unused ∨ b = .embryo → (t'.state q = b ↔ t.state q = b) := fun {b} q hb => by
    by_cases hq : q = p
    · rw [hq, hself, hp]
      obtain rfl | rfl := hb
      · exact iff_of_false nofun nofun
      · exact iff_of_false nofun nofun
    · obtain heq | ⟨h₁, h₂⟩ := hstate q hq
      · rw [heq]
      · rw [h₁, h₂]
        obtain rfl | rfl := hb
        · exact iff_of_false nofun nofun
        · exact iff_of_false nofun nofun
  have hsleep : ∀ q, t'.state q = .sleeping → q ≠ p ∧ t.state q = .sleeping := fun q hq => by
    have hqp : q ≠ p := by
      rintro rfl
      exact nomatch hself.symm.trans hq
    obtain heq | ⟨h₁, -⟩ := hstate q hqp
    · exact ⟨hqp, heq.symm.trans hq⟩
    · exact ⟨hqp, h₁⟩
  have hforker : ∀ q r, (t.doing q).child = some r → q ≠ p ∧ r ≠ p := fun q r hr => by
    constructor
    · rintro rfl
      rw [hidle] at hr
      cases hr
    · rintro rfl
      exact nomatch hp.symm.trans (h.forker q r hr).2
  refine ⟨?_, ?_, fun q hq hqi => ?_, fun q hq => ?_, fun q hq => ?_, fun q r hr => ?_, ?_,
    fun r hr => ?_, fun q r hr => ?_, fun q r hr => ?_, fun q hq => ?_, fun q r hq hc hr => ?_⟩
  · rw [hinit]
    exact halive _ hne.symm h.init
  · rw [hinit, hpar, h.root]
    exact if_neg nofun
  · rw [hinit] at hqi
    have hold : (t.state q).Alive ∨ t.state q = .zombie := by
      by_cases hqp : q = p
      · rw [hqp]
        exact .inl (.inr (.inr hp))
      · obtain heq | ⟨h₁, -⟩ := hstate q hqp
        · rwa [heq] at hq
        · exact .inl (.inl h₁)
    obtain ⟨r, hr, hlive⟩ := h.parent q hold hqi
    rw [hpar, hr]
    split
    · exact ⟨_, rfl, halive _ hne.symm h.init⟩
    · rename_i hrp
      exact ⟨r, rfl, halive r (fun heq => hrp (congrArg some heq)) hlive⟩
  · rw [hpar] at hq
    split at hq
    · rename_i hqp
      rw [← some.inj hq, h.root] at hqp
      cases hqp
    · exact h.self q hq
  · rw [hpar, h.unused q ((hsame q (.inl rfl)).mp hq)]
    exact if_neg nofun
  · rw [hdoing] at hr
    obtain ⟨hlive, hembryo⟩ := h.forker q r hr
    exact ⟨halive q (hforker q r hr).1 hlive, (hsame r (.inr rfl)).mpr hembryo⟩
  · rw [hdoing]
    exact h.one
  · rw [hdoing]
    exact h.embryo r ((hsame r (.inr rfl)).mp hr)
  · rw [hdoing] at hr ⊢
    have hold := h.adopted q r hr
    rw [hpar, hold]
    refine if_neg fun heq => ?_
    split at heq
    · exact (hforker q r hr).1 (some.inj heq)
    · cases heq
  · rw [hdoing] at hr
    rw [hcontext r (hforker q r (Doing.child_of_built hr)).2]
    exact h.built q r hr
  · have hqp : q ≠ p := by
      rintro rfl
      rw [hself] at hq
      simp at hq
    rw [hcontext q hqp]
    obtain heq | ⟨h₁, -⟩ := hstate q hqp
    · rw [heq] at hq
      exact h.context q hq
    · exact h.context q (.inl h₁)
  · obtain ⟨hqp, hold⟩ := hsleep q hq
    rw [hchan q hqp] at hc
    rw [hpar] at hr
    by_cases hrp : r = p
    · subst hrp
      rw [if_neg (h.self r)] at hr
      exact absurd hc (hawake q hr hold)
    · intro hz
      have hzold : t.state r = .zombie := by
        obtain heq | ⟨-, h₂⟩ := hstate r hrp
        · exact heq.symm.trans hz
        · exact nomatch h₂.symm.trans hz
      split at hr
      · rename_i hchild
        obtain rfl := some.inj hr
        rw [state_eq, hother _ hqp] at hq
        exact reparent_wakes hchild hzold hq hc
      · exact h.asleep q r hold hc hr hzold

theorem roused_closeFiles (t : Table) (p q : Slot) : Roused (t.procs q) ((closeFiles t p).procs q) := by
  unfold closeFiles
  rw [procs_setProc, update_apply]
  split
  · rename_i heq
    rw [heq]
    exact ⟨rfl, rfl, rfl, .inl rfl⟩
  · exact .refl _

theorem Roused.trans {q q' q'' : Proc} (h : Roused q q') (h' : Roused q' q'') : Roused q q'' where
  parent := h'.parent.trans h.parent
  context := h'.context.trans h.context
  chan := h'.chan.trans h.chan
  state := by
    obtain heq | ⟨hs, hr⟩ := h.state
    · rw [← heq]
      exact h'.state
    · obtain heq' | ⟨hs', -⟩ := h'.state
      · exact .inr ⟨hs, heq'.trans hr⟩
      · exact nomatch hr.symm.trans hs'

def woken (t : Table) (p : Slot) : Table :=
  wakeAll (closeFiles t p) (((closeFiles t p).procs p).parent.map .proc)

theorem roused_woken (t : Table) (p q : Slot) : Roused (t.procs q) ((woken t p).procs q) :=
  (roused_closeFiles t p q).trans (roused_wakeup1 _ _ q)

theorem exited_self (t : Table) (p : Slot) : (exited t p).procs p =
    { reparent (woken t p).procs p t.initproc p with state := .zombie, context := .exit } := by
  have hzombie : (becomeZombie (closeFiles t p) p).procs p =
      { reparent (woken t p).procs p t.initproc p with state := .zombie } := update_self p _ _
  unfold exited
  rw [procs_setProc, update_self, hzombie]

theorem exited_other (t : Table) (hq : q ≠ p) : (exited t p).procs q = reparent (woken t p).procs p t.initproc q := by
  unfold exited
  rw [procs_setProc, update_of_ne hq]
  exact update_of_ne hq _ _

theorem state_exited_self (t : Table) (p : Slot) : (exited t p).state p = .zombie := by
  rw [state_eq, exited_self]

theorem state_exited_other (t : Table) (hq : q ≠ p) :
    (exited t p).state q = t.state q ∨ t.state q = .sleeping ∧ (exited t p).state q = .runnable := by
  have hgiven := (roused_reparent (woken t p).procs p t.initproc q).state
  rw [(adopt_same p t.initproc ((woken t p).procs q)).1, ← exited_other t hq] at hgiven
  obtain heq | ⟨hs, hr⟩ := (roused_woken t p q).state
  · rw [heq] at hgiven
    exact hgiven
  · obtain heq' | ⟨hs', -⟩ := hgiven
    · exact .inr ⟨hs, heq'.trans hr⟩
    · exact nomatch hr.symm.trans hs'

theorem Family.exit (h : Family t) (hp : t.state p = .running) (hidle : t.doing p = .idle) (hne : p ≠ t.initproc) :
    Family (exited t p) := by
  have hwoken : Family (woken t p) := h.roused rfl rfl (roused_woken t p)
  have hup : (woken t p).state p = .running := by
    obtain heq | ⟨hs, -⟩ := (roused_woken t p p).state
    · exact heq.trans hp
    · exact nomatch hp.symm.trans hs
  -- The parent was woken, so it does not sleep on its children now.
  have hawake : ∀ r, (woken t p).parent p = some r → (woken t p).state r = .sleeping →
      ((woken t p).procs r).chan ≠ some (.proc r) := by
    intro r hr hs hchan
    have hparent : ((closeFiles t p).procs p).parent = some r :=
      (roused_wakeup1 (closeFiles t p).procs _ p).parent.symm.trans hr
    have hchan' : ((closeFiles t p).procs r).chan = some (.proc r) :=
      (roused_wakeup1 (closeFiles t p).procs _ r).chan.symm.trans hchan
    have hs' : (wakeup1 (closeFiles t p).procs (((closeFiles t p).procs p).parent.map .proc) r).state = .sleeping := hs
    unfold wakeup1 at hs'
    rw [hparent, hchan'] at hs'
    split at hs'
    · cases hs'
    · rename_i hnot
      exact hnot ⟨hs', rfl⟩
  refine hwoken.zombie hup hidle hne hawake rfl rfl (state_exited_self t p) ?_ fun q hq => exited_other t hq
  rw [parent_eq, exited_self]
  rfl

theorem Family.reap (h : Family t) (hq : findZombie t.procs p = some q) : Family (reap t p q) := by
  obtain ⟨-, hzombie⟩ := findZombie_some hq
  have hforker : ∀ r, (t.doing r).child ≠ some q := fun r hr => nomatch hzombie.symm.trans (h.forker r q hr).2
  exact h.refill (p := p) (fun halive => halive.ne (.inr (.inr rfl)) hzombie) rfl rfl (fun _ _ _ _ => rfl)
    (fun r hr => absurd hr (hforker r)) nofun (fun r hr => absurd (Doing.child_of_built hr) (hforker r)) nofun
    (fun _ => rfl) fun hs => absurd rfl hs.1

theorem Family.change (h : Family t) (hc : Change x t t') : Family t' := by
  cases hc with
  | run p hp =>
    have hcontext := h.context p (.inr hp)
    exact h.setProc (.inr (.inl hp)) (.inr (.inr rfl)) rfl (fun _ => hcontext) nofun
  | awake p hp =>
    have hlive : (t.state p).Alive := .inr (.inr hp)
    refine h.setProc hlive hlive rfl (fun hs => ?_) fun hs => ?_
    · exact h.context p hs
    · exact nomatch hp.symm.trans hs
  | work p own hp =>
    have hlive : (t.state p).Alive := .inr (.inr hp)
    refine h.setProc hlive hlive rfl (fun hs => ?_) fun hs => ?_
    · exact h.context p hs
    · exact nomatch hp.symm.trans hs
  | yield p hp => exact h.setProc (.inr (.inr hp)) (.inr (.inl rfl)) rfl nofun nofun
  | sleep p a hp =>
    unfold fallAsleep
    rw [setProc_setProc]
    exact h.setProc (.inr (.inr hp)) (.inl rfl) rfl nofun nofun
  | wait p hp hnone =>
    unfold fallAsleep
    rw [setProc_setProc]
    exact h.setProc (.inr (.inr hp)) (.inl rfl) rfl nofun fun _ _ q hq => findZombie_none hnone q hq
  | wakeup a => exact h.roused rfl rfl fun q => roused_wakeup1 _ _ q
  | kill pid hpid => exact h.roused (initproc_kill t pid) (doing_kill t pid) (roused_kill t pid)
  | fault p hfault hp =>
    have hlive : (t.state p).Alive := .inr (.inr hp)
    refine h.setProc hlive hlive rfl (fun hs => ?_) fun hs => ?_
    · exact h.context p hs
    · exact nomatch hp.symm.trans hs
  | allocproc p hp hidle => exact h.allocproc hp hidle
  | kstack p np page hpage hdoing => exact h.kstack page hdoing
  | copyuvm p np pgdir hpage hdoing => exact h.copyuvm pgdir hdoing
  | forked p np hdoing => exact h.forked hdoing
  | exit p hexit hp hidle hne => exact h.exit hp hidle hne
  | reap p q hq => exact h.reap hq

/-- What every change keeps, any number of changes keep. -/
theorem Family.changes (h : Family t) {I : Table → Prop} (hstep : ∀ t t', Family t → I t → Change x t t' → I t')
    (hi : I t) (hc : Relation.ReflTransGen (Change x) t t') : Family t' ∧ I t' := by
  induction hc with
  | refl => exact ⟨h, hi⟩
  | tail _ hchange ih => exact ⟨ih.1.change hchange, hstep _ _ ih.1 ih.2 hchange⟩

end RainOS.Sched
