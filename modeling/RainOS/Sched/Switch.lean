import RainOS.Sched.Change

/-!
# Switching between processes

What a step does to the processors is one of a few shifts: a processor takes the lock and enters its loop over the
table, passes a slot, switches to a process and leaves it the lock to release, or is switched to by a process that
took the lock. The processes that are running are those the processors are at, each on one of them, and the lock is
held between steps by a processor inside its loop and by no other.
-/

namespace RainOS.Sched

open Function Option
open Process (Slot nproc)

/-! ### Who is running -/

def SameRunning (t t' : Table) : Prop := ∀ q, t'.state q = .running ↔ t.state q = .running

def Stopped (p : Slot) (t t' : Table) : Prop := ∀ q, t'.state q = .running ↔ q ≠ p ∧ t.state q = .running

variable {x : Cause} {t t' t'' : Table} {p q np : Slot} {new : Proc}

theorem SameRunning.refl (t : Table) : SameRunning t t := fun _ => .rfl

theorem sameRunning_roused (h : ∀ q, Roused (t.procs q) (t'.procs q)) : SameRunning t t' := fun q => by
  obtain heq | ⟨h₁, h₂⟩ := (h q).state
  · rw [state_eq, heq]
    rfl
  · rw [state_eq, h₂, state_eq, h₁]
    exact iff_of_false nofun nofun

theorem sameRunning_update (hprocs : t'.procs = update t.procs p new)
    (hnew : new.state = .running ↔ t.state p = .running) : SameRunning t t' := fun q => by
  rw [state_eq, hprocs, update_apply]
  split
  · rename_i heq
    rw [heq]
    exact hnew
  · rfl

theorem stopped_update (hprocs : t'.procs = update t.procs p new) (hnew : new.state ≠ .running) :
    Stopped p t t' := fun q => by
  rw [state_eq, hprocs, update_apply]
  split
  · rename_i heq
    exact iff_of_false hnew fun h => h.1 heq
  · rename_i hne
    exact (and_iff_right hne).symm

theorem SameRunning.stopped (h : SameRunning t t') (hs : Stopped p t' t'') : Stopped p t t'' := fun q => by
  rw [hs q, h q]

theorem sameRunning_allocproc (t : Table) (p : Slot) : SameRunning t (allocproc t p) := by
  unfold allocproc
  split
  · exact .refl t
  · rename_i np hfound
    have hunused : t.state np = .unused := findUnused_some hfound
    exact sameRunning_update rfl (by simp [hunused])

theorem sameRunning_kstack (page : Nat) (hnp : t.state np = .embryo) : SameRunning t (kstack t p np page) := by
  unfold kstack
  split
  · exact sameRunning_update rfl (by simp [hnp])
  · exact sameRunning_update rfl .rfl

theorem sameRunning_copyuvm (pgdir : Nat) (hnp : t.state np = .embryo) : SameRunning t (copyuvm t p np pgdir) := by
  unfold copyuvm
  dsimp only
  split
  · exact sameRunning_update rfl (by simp [hnp])
  · exact sameRunning_update rfl .rfl

theorem sameRunning_forked (hnp : t.state np = .embryo) : SameRunning t (forked t p np) :=
  sameRunning_update rfl (by simp [hnp])

theorem sameRunning_reap (hq : findZombie t.procs p = some q) : SameRunning t (reap t p q) := by
  have hzombie : t.state q = .zombie := (findZombie_some hq).2
  exact sameRunning_update rfl (by simp [hzombie])

theorem stopped_exited (t : Table) (p : Slot) : Stopped p t (exited t p) := fun q => by
  by_cases hq : q = p
  · rw [hq, state_exited_self]
    exact iff_of_false nofun fun h => h.1 rfl
  · rw [and_iff_right hq]
    obtain heq | ⟨hs, hr⟩ := state_exited_other t hq
    · rw [heq]
    · rw [hs, hr]
      exact iff_of_false nofun nofun

/-! ### Processors -/

variable {C : Type} {s s' : State C} {c : C} {i n page pgdir : Nat}

theorem current_some (h : s.current c = some p) : (s.cpus c).proc = some p ∧ s.table.doing p = .idle := by
  obtain ⟨hp, hidle⟩ := filter_eq_some_iff.mp h
  exact ⟨hp, of_decide_eq_true hidle⟩

theorem forking_some {d : Doing} (h : s.forking c = some (p, d)) : (s.cpus c).proc = some p ∧ s.table.doing p = d := by
  obtain ⟨q, hq, heq⟩ := map_eq_some_iff.mp h
  cases heq
  exact ⟨hq, rfl⟩

theorem locked_some {f : Slot → Except Halt (State C)} {r : Except Halt (State C)} (h : locked s c n f = some r) :
    ∃ p, s.current c = some p ∧ s.lock = none ∧ (s.cpus c).ncli = n ∧ r = f p := by
  unfold locked at h
  split at h
  · rename_i p hp
    split at h
    · rename_i hfree
      exact ⟨p, hp, hfree.1, hfree.2, (some.inj h).symm⟩
    · cases h
  · cases h

/-- What a processor is like between steps, by the place of its scheduler. -/
def Cpu.Fits (cpu : Cpu) (holds : Prop) : Prop :=
  match cpu.phase with
  | .idle => ¬holds ∧ cpu.proc = none ∧ cpu.ncli = 0
  | .scan _ => holds ∧ cpu.proc = none ∧ cpu.ncli = 1
  | .away _ => ¬holds ∧ ∃ p, cpu.proc = some p

structure Switched (s : State C) : Prop where
  cpu : ∀ c, (s.cpus c).Fits (s.lock = some c)
  running : ∀ p, s.table.state p = .running ↔ ∃ c, (s.cpus c).proc = some p
  unique : ∀ c c' p, (s.cpus c).proc = some p → (s.cpus c').proc = some p → c = c'

namespace Switched

theorem idle (h : Switched s) (hc : (s.cpus c).phase = .idle) :
    s.lock ≠ some c ∧ (s.cpus c).proc = none ∧ (s.cpus c).ncli = 0 := by
  have hfits := h.cpu c
  rw [Cpu.Fits, hc] at hfits
  exact hfits

theorem scan (h : Switched s) (hc : (s.cpus c).phase = .scan i) :
    s.lock = some c ∧ (s.cpus c).proc = none ∧ (s.cpus c).ncli = 1 := by
  have hfits := h.cpu c
  rw [Cpu.Fits, hc] at hfits
  exact hfits

theorem away (h : Switched s) (hp : (s.cpus c).proc = some p) : ∃ i, (s.cpus c).phase = .away i ∧ s.lock ≠ some c := by
  have hfits := h.cpu c
  rw [Cpu.Fits] at hfits
  split at hfits
  · exact nomatch hfits.2.1.symm.trans hp
  · exact nomatch hfits.2.1.symm.trans hp
  · rename_i i hi
    exact ⟨i, hi, hfits.1⟩

theorem cpu_eq (h : Switched s) (hproc : (s.cpus c).proc = some p) (hncli : (s.cpus c).ncli = n) :
    ∃ i, s.cpus c = ⟨some p, n, .away i⟩ ∧ (s.cpus c).phase = .away i := by
  obtain ⟨i, hi, -⟩ := h.away hproc
  refine ⟨i, ?_, hi⟩
  rw [← hproc, ← hncli, ← hi]

theorem others (h : Switched s) (c : C) (q : Slot) :
    (∃ c', c' ≠ c ∧ (s.cpus c').proc = some q) ↔ s.table.state q = .running ∧ (s.cpus c).proc ≠ some q := by
  rw [h.running]
  constructor
  · rintro ⟨c', hne, hq⟩
    exact ⟨⟨c', hq⟩, fun hc => hne (h.unique c' c q hq hc)⟩
  · rintro ⟨⟨c', hq⟩, hc⟩
    exact ⟨c', fun heq => hc (heq ▸ hq), hq⟩

variable [DecidableEq C]

theorem update (h : Switched s) {cpu : Cpu} {lock : Option C}
    (hlock : ∀ c', c' ≠ c → (lock = some c' ↔ s.lock = some c')) (hcpu : cpu.Fits (lock = some c))
    (hrunning : ∀ q, t.state q = .running ↔
      (s.table.state q = .running ∧ (s.cpus c).proc ≠ some q) ∨ cpu.proc = some q)
    (hnew : ∀ q, cpu.proc = some q → s.table.state q = .running → (s.cpus c).proc = some q) :
    Switched ⟨t, lock, Function.update s.cpus c cpu⟩ := by
  have hself : Function.update s.cpus c cpu c = cpu := update_self c cpu s.cpus
  have hother : ∀ c', c' ≠ c → Function.update s.cpus c cpu c' = s.cpus c' := fun c' hc' =>
    update_of_ne hc' cpu s.cpus
  have halone : ∀ q c', c' ≠ c → cpu.proc = some q → (s.cpus c').proc ≠ some q := fun q c' hc' hq hc => by
    have hs := (h.running q).mpr ⟨c', hc⟩
    exact hc' (h.unique c' c q hc (hnew q hq hs))
  refine ⟨fun c' => ?_, fun q => ?_, fun c₁ c₂ q h₁ h₂ => ?_⟩
  · dsimp only
    by_cases hc' : c' = c
    · rw [hc', hself]
      exact hcpu
    · rw [hother c' hc', hlock c' hc']
      exact h.cpu c'
  · dsimp only
    rw [hrunning, ← h.others c q]
    constructor
    · rintro (⟨c', hc', hq⟩ | hq)
      · exact ⟨c', by rw [hother c' hc', hq]⟩
      · exact ⟨c, by rw [hself, hq]⟩
    · rintro ⟨c', hq⟩
      by_cases hc' : c' = c
      · rw [hc', hself] at hq
        exact .inr hq
      · rw [hother c' hc'] at hq
        exact .inl ⟨c', hc', hq⟩
  · dsimp only at h₁ h₂
    by_cases hc₁ : c₁ = c
    · by_cases hc₂ : c₂ = c
      · rw [hc₁, hc₂]
      · rw [hc₁, hself] at h₁
        rw [hother c₂ hc₂] at h₂
        exact absurd h₂ (halone q c₂ hc₂ h₁)
    · rw [hother c₁ hc₁] at h₁
      by_cases hc₂ : c₂ = c
      · rw [hc₂, hself] at h₂
        exact absurd h₁ (halone q c₁ hc₁ h₂)
      · rw [hother c₂ hc₂] at h₂
        exact h.unique c₁ c₂ q h₁ h₂

end Switched

/-! ### Shifts -/

variable [DecidableEq C] {f : Table → Table}

/-- What a step does to the lock and the processors, and to which processes run. -/
inductive Shift (s : State C) (t : Table) : State C → Prop
  | same (h : SameRunning s.table t) : Shift s t { s with table := t }
  | spin (c : C) (p : Slot) (n : Nat) (hp : (s.cpus c).proc = some p) (h : SameRunning s.table t) :
      Shift s t ⟨t, s.lock, Function.update s.cpus c { s.cpus c with ncli := n }⟩
  | enter (c : C) (hc : (s.cpus c).phase = .idle) (hlock : s.lock = none) (h : SameRunning s.table t) :
      Shift s t ⟨t, some c, Function.update s.cpus c ⟨none, 1, .scan 0⟩⟩
  | pass (c : C) (i : Nat) (hc : (s.cpus c).phase = .scan i) (h : SameRunning s.table t) :
      Shift s t ⟨t, some c, Function.update s.cpus c ⟨none, 1, .scan (i + 1)⟩⟩
  | leave (c : C) (i : Nat) (hc : (s.cpus c).phase = .scan i) (h : SameRunning s.table t) :
      Shift s t ⟨t, none, Function.update s.cpus c ⟨none, 0, .idle⟩⟩
  | take (c : C) (i : Nat) (p : Slot) (hc : (s.cpus c).phase = .scan i) (hp : s.table.state p ≠ .running)
      (h : ∀ q, t.state q = .running ↔ s.table.state q = .running ∨ q = p) :
      Shift s t ⟨t, none, Function.update s.cpus c ⟨some p, 0, .away i⟩⟩
  | drop (c : C) (i : Nat) (p : Slot) (hp : (s.cpus c).proc = some p) (hc : (s.cpus c).phase = .away i)
      (hlock : s.lock = none) (h : Stopped p s.table t) : Shift s t ⟨t, some c, Function.update s.cpus c ⟨none, 1, .scan (i + 1)⟩⟩

theorem Switched.shift (h : Switched s) (hs : Shift s t s') : Switched s' := by
  cases hs with
  | same hsame =>
    refine ⟨h.cpu, fun q => ?_, h.unique⟩
    rw [hsame q]
    exact h.running q
  | spin c p n hp hsame =>
    obtain ⟨i, hi, hlock⟩ := h.away hp
    refine h.update (fun _ _ => .rfl) ?_ (fun q => ?_) fun q hq _ => hq
    · rw [Cpu.Fits]
      dsimp only
      rw [hi]
      exact ⟨hlock, p, hp⟩
    · dsimp only
      rw [hsame q, hp]
      constructor
      · intro hq
        by_cases heq : some p = some q
        · exact .inr heq
        · exact .inl ⟨hq, heq⟩
      · rintro (⟨hq, -⟩ | heq)
        · exact hq
        · rw [← some.inj heq]
          exact (h.running p).mpr ⟨c, hp⟩
  | enter c hc hlock hsame =>
    obtain ⟨-, hnone, -⟩ := h.idle hc
    refine h.update (fun c' hc' => ?_) ⟨rfl, rfl, rfl⟩ (fun q => ?_) nofun
    · rw [hlock]
      exact iff_of_false (fun heq => hc' (some.inj heq).symm) nofun
    · rw [hsame q, hnone]
      simp
  | pass c i hc hsame =>
    obtain ⟨hlock, hnone, -⟩ := h.scan hc
    refine h.update (fun c' hc' => ?_) ⟨rfl, rfl, rfl⟩ (fun q => ?_) nofun
    · rw [hlock]
    · rw [hsame q, hnone]
      simp
  | leave c i hc hsame =>
    obtain ⟨hlock, hnone, -⟩ := h.scan hc
    refine h.update (fun c' hc' => ?_) ⟨nofun, rfl, rfl⟩ (fun q => ?_) nofun
    · rw [hlock]
      exact iff_of_false nofun fun heq => hc' (some.inj heq).symm
    · rw [hsame q, hnone]
      simp
  | take c i p hc hp hrunning =>
    obtain ⟨hlock, hnone, -⟩ := h.scan hc
    refine h.update (fun c' hc' => ?_) ⟨nofun, p, rfl⟩ (fun q => ?_) fun q hq hs => ?_
    · rw [hlock]
      exact iff_of_false nofun fun heq => hc' (some.inj heq).symm
    · rw [hrunning q, hnone]
      simp [eq_comm]
    · rw [← some.inj hq] at hs
      exact absurd hs hp
  | drop c i p hp hc hlock hstopped =>
    refine h.update (fun c' hc' => ?_) ⟨rfl, rfl, rfl⟩ (fun q => ?_) nofun
    · rw [hlock]
      exact iff_of_false (fun heq => hc' (some.inj heq).symm) nofun
    · rw [hstopped q, hp]
      simp [and_comm, eq_comm]

/-! ### Sections under the lock -/

theorem under_eq (hlock : s.lock = none) (c : C) (f : Table → Table) :
    under s c f = .ok { s with table := f s.table } := by
  simp [under, acquire, release, popcli, pushcli, State.setCpu, hlock, bind, Except.bind]

theorem acquire_eq (hlock : s.lock = none) (c : C) :
    acquire s c = .ok ⟨s.table, some c, update s.cpus c { s.cpus c with ncli := (s.cpus c).ncli + 1 }⟩ := by
  simp [acquire, pushcli, State.setCpu, hlock]

theorem release_eq {cpu : Cpu} (hlock : s.lock = some c) (hcpu : s.cpus c = cpu) (hncli : cpu.ncli = 1) :
    release s c = .ok ⟨s.table, none, update s.cpus c { cpu with ncli := 0 }⟩ := by
  simp [release, popcli, State.setCpu, hlock, hcpu, hncli]

theorem sched_eq (hlock : s.lock = some c) (hcpu : s.cpus c = ⟨some q, 1, .away i⟩) (hp : s.table.state p ≠ .running)
    (context : Context) : sched s c p context =
      .ok ⟨s.table.setProc p fun q => { q with context := context }, some c,
        update s.cpus c ⟨none, 1, .scan (i + 1)⟩⟩ := by
  have hne : ¬(s.table.procs p).state = .running := hp
  simp [sched, State.setCpu, hlock, hcpu, hne]

open Relation (ReflTransGen)

theorem acquire_sched (hlock : s.lock = none) (hcpu : s.cpus c = ⟨some p, 0, .away i⟩) (hf : (f s.table).state p ≠ .running) (context : Context) :
    (do let s ← acquire s c; sched { s with table := f s.table } c p context) =
      .ok ⟨(f s.table).setProc p fun q => { q with context := context }, some c,
        update s.cpus c ⟨none, 1, .scan (i + 1)⟩⟩ := by
  rw [acquire_eq hlock, hcpu]
  simp only [bind, Except.bind]
  rw [sched_eq rfl (update_self c _ _) hf]
  simp

theorem yield_eq (hlock : s.lock = none) (hcpu : s.cpus c = ⟨some p, 0, .away i⟩) : yield s c p =
    .ok ⟨s.table.setProc p fun q => { q with state := .runnable, context := .yield }, some c,
      update s.cpus c ⟨none, 1, .scan (i + 1)⟩⟩ := by
  have hstate : (s.table.setProc p fun q => { q with state := .runnable }).state p ≠ .running := by
    rw [state_setProc, if_pos rfl]
    exact nofun
  have heq := acquire_sched (f := fun t => t.setProc p fun q => { q with state := .runnable }) hlock hcpu hstate .yield
  rw [setProc_setProc] at heq
  exact heq

theorem sleep_eq (hlock : s.lock = none) (hcpu : s.cpus c = ⟨some p, 1, .away i⟩) (a : Nat) : sleep s c p a =
    .ok ⟨(fallAsleep s.table p (.addr a)).setProc p fun q => { q with context := .sleep }, some c,
      update s.cpus c ⟨none, 1, .scan (i + 1)⟩⟩ := by
  have hstate : (fallAsleep s.table p (.addr a)).state p ≠ .running := by
    rw [fallAsleep, state_setProc, if_pos rfl]
    exact nofun
  unfold sleep
  rw [acquire_eq hlock, hcpu]
  simp only [bind, Except.bind, popcli, update_self]
  rw [if_neg (by decide)]
  simp only [State.setCpu, update_self, update_idem]
  rw [sched_eq rfl (update_self c _ _) hstate]
  simp

theorem exit_eq (hlock : s.lock = none) (hcpu : s.cpus c = ⟨some p, 0, .away i⟩) (hne : p ≠ s.table.initproc) :
    exit s c p = .ok ⟨exited s.table p, some c, update s.cpus c ⟨none, 1, .scan (i + 1)⟩⟩ := by
  have hstate : (becomeZombie (closeFiles s.table p) p).state p ≠ .running := by
    unfold Table.state becomeZombie
    dsimp only
    rw [update_self]
    exact nofun
  unfold exit
  rw [if_neg hne]
  have hclosed : ({ s with table := closeFiles s.table p } : State C).lock = none := hlock
  have hcpu' : ({ s with table := closeFiles s.table p } : State C).cpus c = ⟨some p, 0, .away i⟩ := hcpu
  exact acquire_sched (f := fun t => becomeZombie t p) hclosed hcpu' hstate .exit

theorem waitLoop_spec (x : Cause) (hlock : s.lock = some c) (hcpu : s.cpus c = ⟨some p, 1, .away i⟩)
    (hp : s.table.state p = .running) :
    (∃ t, waitLoop s c p = .ok ⟨t, none, update s.cpus c ⟨some p, 0, .away i⟩⟩ ∧
      ReflTransGen (Change x) s.table t ∧ SameRunning s.table t) ∨
    ∃ t, waitLoop s c p = .ok ⟨t, some c, update s.cpus c ⟨none, 1, .scan (i + 1)⟩⟩ ∧
      ReflTransGen (Change x) s.table t ∧ Stopped p s.table t := by
  unfold waitLoop
  split
  · rename_i q hq
    refine .inl ⟨reap s.table p q, ?_, .single (.reap p q hq), sameRunning_reap hq⟩
    exact release_eq (s := { s with table := reap s.table p q }) hlock hcpu rfl
  · rename_i hnone
    split
    · exact .inl ⟨s.table, release_eq hlock hcpu rfl, .refl, .refl _⟩
    · have hstate : (fallAsleep s.table p (.proc p)).state p ≠ .running := by
        rw [fallAsleep, state_setProc, if_pos rfl]
        exact nofun
      refine .inr ⟨_, sched_eq (s := { s with table := fallAsleep s.table p (.proc p) }) hlock hcpu hstate .wait,
        .single (.wait p hp hnone), ?_⟩
      unfold fallAsleep
      rw [setProc_setProc]
      exact stopped_update rfl nofun

theorem resume_spec (x : Cause) (hlock : s.lock = some c) (hcpu : s.cpus c = ⟨some p, 1, .away i⟩)
    (hp : s.table.state p = .running) (hcontext : (s.table.procs p).context ≠ .exit) :
    (∃ t, resume s c p = .ok ⟨t, none, update s.cpus c ⟨some p, 0, .away i⟩⟩ ∧
      ReflTransGen (Change x) s.table t ∧ SameRunning s.table t) ∨
    ∃ t, resume s c p = .ok ⟨t, some c, update s.cpus c ⟨none, 1, .scan (i + 1)⟩⟩ ∧
      ReflTransGen (Change x) s.table t ∧ Stopped p s.table t := by
  let awake := s.table.setProc p fun q => { q with chan := none }
  have hawake : Change x s.table awake := .awake p hp
  have hsame : SameRunning s.table awake := sameRunning_update rfl .rfl
  unfold resume
  split
  · exact .inl ⟨s.table, release_eq hlock hcpu rfl, .refl, .refl _⟩
  · exact .inl ⟨s.table, release_eq hlock hcpu rfl, .refl, .refl _⟩
  · exact .inl ⟨awake, release_eq (s := { s with table := awake }) hlock hcpu rfl, .single hawake, hsame⟩
  · have hrun : awake.state p = .running := (hsame p).mpr hp
    have hwait := waitLoop_spec (s := { s with table := awake }) x hlock hcpu hrun
    obtain ⟨t, heq, hchanges, hsame'⟩ | ⟨t, heq, hchanges, hstopped⟩ := hwait
    · exact .inl ⟨t, heq, .head hawake hchanges, fun q => (hsame' q).trans (hsame q)⟩
    · exact .inr ⟨t, heq, .head hawake hchanges, hsame.stopped hstopped⟩
  · rename_i hexit
    exact absurd hexit hcontext

/-! ### Steps -/

def Action.cause (s : State C) : Action C → Cause
  | .kill _ pid => ⟨some pid, none, none, none⟩
  | .fault c => ⟨none, s.current c, none, none⟩
  | .exit c => ⟨none, none, s.current c, none⟩
  | .kstack _ page => ⟨none, none, none, some page⟩
  | .copyuvm _ pgdir => ⟨none, none, none, some pgdir⟩
  | _ => ⟨none, none, none, none⟩

def Moves (x : Cause) (s : State C) (r : Except Halt (State C)) : Prop :=
  ∃ s', r = .ok s' ∧ Shift s s'.table s' ∧ ReflTransGen (Change x) s.table s'.table

theorem moves_same (hsame : SameRunning s.table t) (hchange : ReflTransGen (Change x) s.table t) :
    Moves x s (.ok { s with table := t }) :=
  ⟨{ s with table := t }, rfl, .same hsame, hchange⟩

theorem moves_under (hlock : s.lock = none) (hsame : SameRunning s.table (f s.table))
    (hchange : Change x s.table (f s.table)) : Moves x s (under s c f) := by
  rw [under_eq hlock]
  exact moves_same hsame (.single hchange)

theorem moves_drop (hlock : s.lock = none) (hproc : (s.cpus c).proc = some p) (haway : (s.cpus c).phase = .away i)
    (hstopped : Stopped p s.table t) (hchange : Change x s.table t) :
    Moves x s (.ok ⟨t, some c, update s.cpus c ⟨none, 1, .scan (i + 1)⟩⟩) :=
  ⟨_, rfl, .drop c i p hproc haway hlock hstopped, .single hchange⟩

variable {r : Except Halt (State C)}

theorem scheduler_spec (h : Switched s) (hf : Family s.table) (x : Cause) (hstep : scheduler s c = some r) :
    Moves x s r := by
  unfold scheduler at hstep
  split at hstep
  · rename_i hidle
    split at hstep
    · rename_i hlock
      obtain rfl := some.inj hstep
      obtain ⟨-, hnone, hncli⟩ := h.idle hidle
      rw [acquire_eq (s := s.setCpu c _) hlock]
      simp only [State.setCpu, update_self, update_idem, hnone, hncli]
      exact ⟨_, rfl, .enter c hidle hlock (.refl _), .refl⟩
    · cases hstep
  · rename_i i hscan
    obtain ⟨hlock, hnone, hncli⟩ := h.scan hscan
    obtain rfl := some.inj hstep
    unfold scanSlot
    split
    · rename_i hi
      dsimp only
      split
      · rename_i hp
        let p : Slot := ⟨i, hi⟩
        let run := s.table.setProc p fun q => { q with state := .running }
        let cpus := update s.cpus c ⟨some p, 1, .away i⟩
        have hstart : Change x s.table run := .run p hp
        have hrun : run.state p = .running := by
          rw [state_setProc, if_pos rfl]
        have hcontext : (run.procs p).context ≠ .exit := by
          rw [procs_setProc, update_self]
          exact hf.context p (.inr hp)
        have hnot : s.table.state p ≠ .running := fun heq => nomatch hp.symm.trans heq
        have hset : s.setCpu c (fun cpu => { cpu with proc := some p, phase := .away i }) = ⟨s.table, s.lock, cpus⟩ := by
          simp only [State.setCpu, hncli]
          rfl
        change Moves x s (resume { s.setCpu c (fun cpu => { cpu with proc := some p, phase := .away i }) with
          table := run } c p)
        rw [hset]
        have hresume := resume_spec (s := ⟨run, s.lock, cpus⟩) x hlock (update_self c _ _) hrun hcontext
        have hidem : ∀ cpu, update cpus c cpu = update s.cpus c cpu := fun cpu =>
          update_idem _ _ _
        have hstarted : ∀ q, run.state q = .running ↔ s.table.state q = .running ∨ q = p := fun q => by
          rw [state_setProc]
          split
          · rename_i heq
            exact iff_of_true rfl (.inr heq)
          · rename_i hne
            exact ⟨.inl, fun hq => hq.resolve_right hne⟩
        obtain ⟨t, heq, hchanges, hsame⟩ | ⟨t, heq, hchanges, hstopped⟩ := hresume
        · rw [heq, hidem]
          exact ⟨_, rfl, .take c i p hscan hnot fun q => (hsame q).trans (hstarted q), .head hstart hchanges⟩
        · rw [heq, hidem]
          refine ⟨_, rfl, .pass c i hscan fun q => ?_, .head hstart hchanges⟩
          rw [hstopped q, hstarted q]
          constructor
          · rintro ⟨hne, hq⟩
            exact hq.resolve_right hne
          · intro hq
            exact ⟨fun heq => hnot (heq ▸ hq), .inl hq⟩
      · rw [State.setCpu, hnone, hncli, hlock]
        exact ⟨_, rfl, .pass c i hscan (.refl _), .refl⟩
    · have hcpu : (s.setCpu c fun cpu => { cpu with phase := .idle }).cpus c = ⟨none, 1, .idle⟩ := by
        simp only [State.setCpu, update_self, hnone, hncli]
      rw [release_eq (s := s.setCpu c _) hlock hcpu rfl]
      simp only [State.setCpu, update_idem]
      exact ⟨_, rfl, .leave c i hscan (.refl _), .refl⟩
  · cases hstep

theorem wait_spec (h : Switched s) (x : Cause) (hlock : s.lock = none) (hproc : (s.cpus c).proc = some p)
    (hncli : (s.cpus c).ncli = 0) : Moves x s (wait s c p) := by
  obtain ⟨i, hcpu, haway⟩ := h.cpu_eq hproc hncli
  have hrun : s.table.state p = .running := (h.running p).mpr ⟨c, hproc⟩
  unfold wait
  rw [acquire_eq hlock, hcpu]
  simp only [bind, Except.bind]
  have hwait := waitLoop_spec (s := ⟨s.table, some c, update s.cpus c ⟨some p, 1, .away i⟩⟩) x rfl
    (update_self c _ _) hrun
  obtain ⟨t, heq, hchanges, hsame⟩ | ⟨t, heq, hchanges, hstopped⟩ := hwait
  · rw [heq, update_idem, ← hcpu, update_eq_self, ← hlock]
    exact moves_same hsame hchanges
  · rw [heq, update_idem]
    exact ⟨_, rfl, .drop c i p hproc haway hlock hstopped, hchanges⟩

theorem step_kstack (h : step s (.kstack c page) = some r) :
    ∃ p np, s.forking c = some (p, .slot np) ∧ r = .ok { s with table := kstack s.table p np page } := by
  rw [step] at h
  split at h
  · rename_i p np hforking
    exact ⟨p, np, hforking, (some.inj h).symm⟩
  · cases h

theorem step_copyuvm (h : step s (.copyuvm c pgdir) = some r) :
    ∃ p np, s.forking c = some (p, .stack np) ∧ r = .ok { s with table := copyuvm s.table p np pgdir } := by
  rw [step] at h
  split at h
  · rename_i p np hforking
    exact ⟨p, np, hforking, (some.inj h).symm⟩
  · cases h

theorem step_forked (h : step s (.forked c) = some r) :
    ∃ p np, s.forking c = some (p, .ready np) ∧ s.lock = none ∧ r = .ok { s with table := forked s.table p np } := by
  rw [step] at h
  split at h
  · rename_i p np hforking
    split at h
    · rename_i hlock
      rw [under_eq hlock] at h
      exact ⟨p, np, hforking, hlock, (some.inj h).symm⟩
    · cases h
  · cases h

/-- A step stops the kernel only when the first process exits. -/
theorem step_spec (h : Switched s) (hf : Family s.table) {a : Action C} (hstep : step s a = some r) :
    (∃ c, a = .exit c ∧ s.current c = some s.table.initproc ∧ r = .error (.panic "init exiting")) ∨
      Moves (a.cause s) s r := by
  have hrunning : ∀ {c p}, (s.cpus c).proc = some p → s.table.state p = .running := fun {c p} hp =>
    (h.running p).mpr ⟨c, hp⟩
  have hembryo : ∀ {p np}, (s.table.doing p).child = some np → s.table.state np = .embryo := fun hchild =>
    (hf.forker _ _ hchild).2
  cases a with
  | scheduler c => exact .inr (scheduler_spec h hf _ hstep)
  | work c own =>
    obtain ⟨p, hp, rfl⟩ := map_eq_some_iff.mp hstep
    have hrun := hrunning (current_some hp).1
    exact .inr (moves_same (sameRunning_update rfl .rfl) (.single (.work p own hrun)))
  | acquire c =>
    obtain ⟨p, hp, rfl⟩ := map_eq_some_iff.mp hstep
    exact .inr ⟨_, rfl, .spin c p _ (current_some hp).1 (.refl _), .refl⟩
  | release c =>
    rw [step] at hstep
    split at hstep
    · rename_i hncli
      obtain ⟨p, hp, rfl⟩ := map_eq_some_iff.mp hstep
      unfold popcli
      rw [if_neg hncli]
      exact .inr ⟨_, rfl, .spin c p _ (current_some hp).1 (.refl _), .refl⟩
    · cases hstep
  | yield c =>
    rw [step] at hstep
    split at hstep
    · rename_i p hp
      split at hstep
      · rename_i hfree
        obtain rfl := some.inj hstep
        obtain ⟨i, hcpu, haway⟩ := h.cpu_eq hp hfree.2
        rw [yield_eq hfree.1 hcpu]
        exact .inr (moves_drop hfree.1 hp haway (stopped_update rfl nofun) (.yield p (hrunning hp)))
      · cases hstep
    · cases hstep
  | sleep c a =>
    obtain ⟨p, hp, hlock, hncli, rfl⟩ := locked_some hstep
    obtain ⟨hproc, -⟩ := current_some hp
    obtain ⟨i, hcpu, haway⟩ := h.cpu_eq hproc hncli
    rw [sleep_eq hlock hcpu]
    refine .inr (moves_drop hlock hproc haway ?_ (.sleep p a (hrunning hproc)))
    unfold fallAsleep
    rw [setProc_setProc]
    exact stopped_update rfl nofun
  | wakeup c a =>
    rw [step] at hstep
    split at hstep
    · rename_i hlock
      obtain rfl := some.inj hstep
      exact .inr (moves_under hlock (sameRunning_roused fun q => roused_wakeup1 _ _ q) (.wakeup a))
    · cases hstep
  | kill c pid =>
    obtain ⟨p, hp, hlock, hncli, rfl⟩ := locked_some hstep
    exact .inr (moves_under hlock (sameRunning_roused (roused_kill _ pid)) (.kill pid rfl))
  | fault c =>
    obtain ⟨p, hp, rfl⟩ := map_eq_some_iff.mp hstep
    have hrun := hrunning (current_some hp).1
    exact .inr (moves_same (sameRunning_update rfl .rfl) (.single (.fault p hp hrun)))
  | allocproc c =>
    obtain ⟨p, hp, hlock, hncli, rfl⟩ := locked_some hstep
    obtain ⟨hproc, hidle⟩ := current_some hp
    exact .inr (moves_under hlock (sameRunning_allocproc _ p) (.allocproc p (hrunning hproc) hidle))
  | kstack c page =>
    obtain ⟨p, np, hforking, rfl⟩ := step_kstack hstep
    have hdoing := (forking_some hforking).2
    have hnp := hembryo (congrArg Doing.child hdoing)
    exact .inr (moves_same (sameRunning_kstack page hnp) (.single (.kstack p np page rfl hdoing)))
  | copyuvm c pgdir =>
    obtain ⟨p, np, hforking, rfl⟩ := step_copyuvm hstep
    have hdoing := (forking_some hforking).2
    have hnp := hembryo (congrArg Doing.child hdoing)
    exact .inr (moves_same (sameRunning_copyuvm pgdir hnp) (.single (.copyuvm p np pgdir rfl hdoing)))
  | forked c =>
    obtain ⟨p, np, hforking, hlock, rfl⟩ := step_forked hstep
    have hdoing := (forking_some hforking).2
    have hnp := hembryo (congrArg Doing.child hdoing)
    exact .inr (moves_same (sameRunning_forked hnp) (.single (.forked p np hdoing)))
  | exit c =>
    obtain ⟨p, hp, hlock, hncli, rfl⟩ := locked_some hstep
    obtain ⟨hproc, hidle⟩ := current_some hp
    by_cases hinit : p = s.table.initproc
    · rw [hinit] at hp
      exact .inl ⟨c, rfl, hp, if_pos hinit⟩
    · obtain ⟨i, hcpu, haway⟩ := h.cpu_eq hproc hncli
      rw [exit_eq hlock hcpu hinit]
      exact .inr (moves_drop hlock hproc haway (stopped_exited _ p) (.exit p hp (hrunning hproc) hidle hinit))
  | wait c =>
    obtain ⟨p, hp, hlock, hncli, rfl⟩ := locked_some hstep
    exact .inr (wait_spec h _ hlock (current_some hp).1 hncli)

/-! ### Runs -/

theorem procs_boot (C : Type) (first : First) : (boot C first).table.procs =
    update (fun _ => fresh) Process.initproc (userinit first) := rfl

theorem switched_boot (C : Type) (first : First) : Switched (boot C first) where
  cpu _ := ⟨nofun, rfl, rfl⟩
  running p := by
    refine iff_of_false ?_ nofun
    rw [state_eq, procs_boot, update_apply]
    split
    · exact nofun
    · exact nofun
  unique := nofun

theorem family_boot (C : Type) (first : First) : Family (boot C first).table := by
  let t := (boot C first).table
  have hself : t.procs Process.initproc = userinit first := by rw [procs_boot, update_self]
  have hother : ∀ p, p ≠ Process.initproc → t.procs p = fresh := fun p hp => by
    rw [procs_boot, update_of_ne hp]
  have hparent : ∀ p, t.parent p = none := fun p => by
    rw [parent_eq]
    by_cases hp : p = Process.initproc
    · rw [hp, hself]
      rfl
    · rw [hother p hp]
      rfl
  have hstate : ∀ p, p ≠ Process.initproc → t.state p = .unused := fun p hp => by
    rw [state_eq, hother p hp]
    rfl
  have hinit : t.state Process.initproc = .runnable := by
    rw [state_eq, hself]
    rfl
  refine ⟨.inr (.inl hinit), hparent _, fun p hp hne => ?_, fun p hp => ?_, fun p _ => hparent p, nofun, nofun,
    fun p hp => ?_, nofun, nofun, fun p _ => ?_, fun p q _ _ hq => ?_⟩
  · have hu := hstate p hne
    rw [hu] at hp
    obtain hp | hp := hp
    · exact absurd rfl (hp.ne (.inl rfl))
    · cases hp
  · exact nomatch (hparent p).symm.trans hp
  · by_cases heq : p = Process.initproc
    · rw [heq] at hp
      exact nomatch hinit.symm.trans hp
    · exact nomatch (hstate p heq).symm.trans hp
  · by_cases heq : p = Process.initproc
    · rw [heq]
      change (t.procs Process.initproc).context ≠ .exit
      rw [hself]
      exact nofun
    · change (t.procs p).context ≠ .exit
      rw [hother p heq]
      exact nofun
  · exact nomatch (hparent q).symm.trans hq

variable {first : First}

/-- A fact about the table that holds at the start and is kept by every plain change holds in every run, if it is
kept by the other steps that the run takes. -/
theorem table_invariant {I : Table → Prop} {ok : State C → Action C → Prop} (plain : Cause → Prop)
    (hboot : I (boot C first).table) (hchange : ∀ x t t', plain x → Family t → I t → Change x t t' → I t')
    (hother : ∀ s a s', ok s a → ¬plain (a.cause s) → Family s.table → I s.table → step s a = some (.ok s') → I s'.table)
    (h : ((system C first).restrict ok).Reachable s) : Switched s ∧ Family s.table ∧ I s.table := by
  refine h.invariant (I := fun s => Switched s ∧ Family s.table ∧ I s.table) (fun s hs => ?_) fun s a s' hs hstep => ?_
  · rw [hs]
    exact ⟨switched_boot C first, family_boot C first, hboot⟩
  · obtain ⟨hswitched, hfamily, hi⟩ := hs
    obtain ⟨hok, hstep⟩ := hstep
    obtain ⟨c, -, -, hr⟩ | ⟨s₂, heq, hshift, hchanges⟩ := step_spec hswitched hfamily hstep
    · cases hr
    · cases heq
      have hkept : Family s'.table ∧ True := hfamily.changes (fun _ _ _ _ _ => trivial) trivial hchanges
      refine ⟨hswitched.shift hshift, hkept.1, ?_⟩
      by_cases hplain : plain (a.cause s)
      · exact (hfamily.changes (fun t t' => hchange _ t t' hplain) hi hchanges).2
      · exact hother s a s' hok hplain hfamily hi hstep

theorem step_kill {pid : Int} (h : step s (.kill c pid) = some (.ok s')) :
    s' = { s with table := (kill s.table pid).1 } := by
  obtain ⟨p, hp, hlock, hncli, heq⟩ := locked_some h
  rw [under_eq hlock] at heq
  exact Except.ok.inj heq

theorem step_allocproc (h : step s (.allocproc c) = some (.ok s')) :
    ∃ p, s.current c = some p ∧ s' = { s with table := allocproc s.table p } := by
  obtain ⟨p, hp, hlock, hncli, heq⟩ := locked_some h
  rw [under_eq hlock] at heq
  exact ⟨p, hp, Except.ok.inj heq⟩

end RainOS.Sched
