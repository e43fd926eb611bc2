import RainOS.Sched.Switch

/-!
# Exits and waits

The history of the process table: a process that exited is in the table until `wait` returns it, and `wait` returns
it once, to its parent. Its kernel stack and its page directory are freed by that `wait`, and by nothing else.
-/

namespace RainOS.Sched

open Function List
open Process (Slot nproc)

structure Ledger (t : Table) : Prop where
  serials : ∀ p, t.serials p < t.born
  distinct : ∀ p q, t.state p ≠ .unused → t.state q ≠ .unused → t.serials p = t.serials q → p = q
  exits : t.exits.Nodup
  old : ∀ n ∈ t.exits, n < t.born
  zombie : ∀ p, t.state p ≠ .unused → (t.serials p ∈ t.exits ↔ t.state p = .zombie)
  reaped : ∀ n, n ∈ t.reaped.map Reaped.serial ↔ n ∈ t.exits ∧ ∀ p, t.state p = .zombie → t.serials p ≠ n
  once : (t.reaped.map Reaped.serial).Nodup
  waiter : ∀ r ∈ t.reaped, r.parent = some r.waiter
  pgdirs : t.pgdirFrees = t.reaped.map Reaped.serial
  kstacks : t.kstackFrees.Nodup
  gone : ∀ n ∈ t.kstackFrees, n < t.born ∧ ∀ p, t.state p ≠ .unused → t.serials p ≠ n
  freed : ∀ n ∈ t.exits, n ∈ t.kstackFrees ↔ n ∈ t.reaped.map Reaped.serial

variable {x : Cause} {t t' : Table} {p q np : Slot} {f : Proc → Proc}

/-- Nothing is added to the history: no process begins or exits, and no zombie is freed. -/
structure Quiet (t t' : Table) : Prop where
  born : t'.born = t.born
  serials : t'.serials = t.serials
  exits : t'.exits = t.exits
  reaped : t'.reaped = t.reaped
  pgdirs : t'.pgdirFrees = t.pgdirFrees
  kstacks : t'.kstackFrees = t.kstackFrees
  used : ∀ p, t'.state p ≠ .unused → t.state p ≠ .unused
  zombie : ∀ p, t'.state p = .zombie ↔ t.state p = .zombie

theorem Ledger.quiet (h : Ledger t) (hq : Quiet t t') : Ledger t' where
  serials p := by
    rw [hq.serials, hq.born]
    exact h.serials p
  distinct p q hp hq' heq := by
    rw [hq.serials] at heq
    exact h.distinct p q (hq.used p hp) (hq.used q hq') heq
  exits := by
    rw [hq.exits]
    exact h.exits
  old := by
    rw [hq.exits, hq.born]
    exact h.old
  zombie p hp := by
    rw [hq.serials, hq.exits, hq.zombie]
    exact h.zombie p (hq.used p hp)
  reaped n := by
    rw [hq.reaped, hq.exits, hq.serials, h.reaped n]
    simp only [hq.zombie]
  once := by
    rw [hq.reaped]
    exact h.once
  waiter := by
    rw [hq.reaped]
    exact h.waiter
  pgdirs := by
    rw [hq.pgdirs, hq.reaped]
    exact h.pgdirs
  kstacks := by
    rw [hq.kstacks]
    exact h.kstacks
  gone n hn := by
    rw [hq.kstacks] at hn
    rw [hq.born, hq.serials]
    exact ⟨(h.gone n hn).1, fun p hp => (h.gone n hn).2 p (hq.used p hp)⟩
  freed := by
    rw [hq.exits, hq.kstacks, hq.reaped]
    exact h.freed

theorem quiet_roused (hroused : ∀ q, Roused (t.procs q) (t'.procs q)) (hborn : t'.born = t.born)
    (hserials : t'.serials = t.serials) (hexits : t'.exits = t.exits) (hreaped : t'.reaped = t.reaped)
    (hpgdirs : t'.pgdirFrees = t.pgdirFrees) (hkstacks : t'.kstackFrees = t.kstackFrees) : Quiet t t' := by
  refine ⟨hborn, hserials, hexits, hreaped, hpgdirs, hkstacks, fun q hq hold => ?_, fun q => ?_⟩
  · obtain heq | ⟨hs, -⟩ := (hroused q).state
    · exact hq (heq.trans hold)
    · exact nomatch hs.symm.trans hold
  · obtain heq | ⟨hs, hr⟩ := (hroused q).state
    · rw [state_eq, heq]
      rfl
    · rw [state_eq, hr, state_eq, hs]
      exact iff_of_false nofun nofun

theorem quiet_setProc (hp : t.state p ≠ .unused)
    (hz : (f (t.procs p)).state = .zombie ↔ t.state p = .zombie) : Quiet t (t.setProc p f) := by
  refine ⟨rfl, rfl, rfl, rfl, rfl, rfl, fun q hq => ?_, fun q => ?_⟩
  · rw [state_setProc] at hq
    split at hq
    · rename_i heq
      rw [heq]
      exact hp
    · exact hq
  · rw [state_setProc]
    split
    · rename_i heq
      rw [heq, hz]
    · rfl

theorem quiet_setDoing (h : Quiet t t') (p : Slot) (d : Doing) : Quiet t (t'.setDoing p d) :=
  ⟨h.born, h.serials, h.exits, h.reaped, h.pgdirs, h.kstacks, h.used, h.zombie⟩

theorem quiet_kill (t : Table) (pid : Int) : Quiet t (kill t pid).1 := by
  have hroused := roused_kill t pid
  revert hroused
  unfold kill
  split
  · exact fun hroused => quiet_roused hroused rfl rfl rfl rfl rfl rfl
  · exact fun hroused => quiet_roused hroused rfl rfl rfl rfl rfl rfl

/-! ### What is added to the history -/

theorem Ledger.allocproc (h : Ledger t) (p : Slot) : Ledger (allocproc t p) := by
  unfold Sched.allocproc
  split
  · exact h
  · rename_i np hfound
    have hunused : t.state np = .unused := findUnused_some hfound
    let t' : Table := { t.setProc np fun q => { q with state := .embryo, pid := t.nextpid } with
      nextpid := next t.nextpid
      doing := update t.doing p (.slot np)
      born := t.born + 1
      serials := update t.serials np t.born }
    have hprocs : t'.procs = update t.procs np { t.procs np with state := .embryo, pid := t.nextpid } := rfl
    have hstate : ∀ q, t'.state q = if q = np then .embryo else t.state q := state_update hprocs
    have hserial : ∀ q, t'.serials q = if q = np then t.born else t.serials q := fun q => update_apply _ _ _ _
    have hzombie : ∀ q, t'.state q = .zombie → q ≠ np ∧ t.state q = .zombie := fun q hq => by
      rw [hstate] at hq
      split at hq
      · cases hq
      · rename_i hne
        exact ⟨hne, hq⟩
    refine ⟨fun q => ?_, fun q r hq hr heq => ?_, h.exits, fun n hn => ?_, fun q hq => ?_, fun n => ?_, h.once, h.waiter,
      h.pgdirs, h.kstacks, fun n hn => ⟨?_, fun q hq => ?_⟩, h.freed⟩
    · change t'.serials q < t.born + 1
      rw [hserial]
      split
      · exact Nat.lt_succ_self _
      · exact Nat.lt_succ_of_lt (h.serials q)
    · change t'.serials q = t'.serials r at heq
      change t'.state q ≠ .unused at hq
      change t'.state r ≠ .unused at hr
      rw [hserial, hserial] at heq
      rw [hstate] at hq hr
      by_cases hqn : q = np
      · by_cases hrn : r = np
        · rw [hqn, hrn]
        · rw [if_pos hqn, if_neg hrn] at heq
          exact absurd heq (h.serials r).ne'
      · by_cases hrn : r = np
        · rw [if_neg hqn, if_pos hrn] at heq
          exact absurd heq (h.serials q).ne
        · rw [if_neg hqn, if_neg hrn] at heq
          rw [if_neg hqn] at hq
          rw [if_neg hrn] at hr
          exact h.distinct q r hq hr heq
    · exact Nat.lt_succ_of_lt (h.old n hn)
    · change t'.serials q ∈ t.exits ↔ t'.state q = .zombie
      change t'.state q ≠ .unused at hq
      rw [hstate] at hq
      rw [hserial, hstate]
      split
      · exact iff_of_false (fun hmem => (h.old _ hmem).ne rfl) nofun
      · rename_i hne
        rw [if_neg hne] at hq
        exact h.zombie q hq
    · change n ∈ t.reaped.map Reaped.serial ↔ n ∈ t.exits ∧ ∀ q, t'.state q = .zombie → t'.serials q ≠ n
      rw [h.reaped n]
      refine and_congr_right fun _ => ⟨fun hall q hq => ?_, fun hall q hq => ?_⟩
      · obtain ⟨hne, hold⟩ := hzombie q hq
        rw [hserial, if_neg hne]
        exact hall q hold
      · have hne : q ≠ np := by
          rintro rfl
          exact nomatch hunused.symm.trans hq
        have hnew := hall q (by rw [hstate, if_neg hne, hq])
        rwa [hserial, if_neg hne] at hnew
    · exact Nat.lt_succ_of_lt (h.gone n hn).1
    · change t'.serials q ≠ n
      change t'.state q ≠ .unused at hq
      rw [hstate] at hq
      rw [hserial]
      split
      · exact (h.gone n hn).1.ne'
      · rename_i hne
        rw [if_neg hne] at hq
        exact (h.gone n hn).2 q hq

theorem Ledger.freeStack (h : Ledger t) (hnp : t.state np = .embryo) (hf : (f (t.procs np)).state = .unused) {d : Slot → Doing} : Ledger { t.setProc np f with
      doing := d, kstackFrees := t.kstackFrees ++ [t.serials np] } := by
  have hused : t.state np ≠ .unused := by simp [hnp]
  have hquiet : Quiet t (t.setProc np f) := quiet_setProc hused (by simp [hf, hnp])
  have hkept := h.quiet hquiet
  have hnot : t.serials np ∉ t.kstackFrees := fun hmem => (h.gone _ hmem).2 np hused rfl
  have hrun : t.serials np ∉ t.exits := fun hmem => nomatch hnp.symm.trans ((h.zombie np hused).mp hmem)
  refine ⟨hkept.serials, hkept.distinct, h.exits, h.old, hkept.zombie, hkept.reaped, h.once, h.waiter, h.pgdirs,
    ?_, fun n hn => ?_, fun n hn => ?_⟩
  · exact h.kstacks.append (nodup_singleton _) (by simpa using hnot)
  · obtain hn | hn := mem_append.mp hn
    · exact hkept.gone n hn
    · rw [mem_singleton.mp hn]
      refine ⟨h.serials np, fun q hq heq => ?_⟩
      change (t.setProc np f).state q ≠ .unused at hq
      have hqn : q = np := h.distinct q np (hquiet.used q hq) hused heq
      rw [hqn, state_setProc, if_pos rfl, hf] at hq
      exact hq rfl
  · change n ∈ t.kstackFrees ++ [t.serials np] ↔ n ∈ t.reaped.map Reaped.serial
    rw [mem_append, mem_singleton, ← h.freed n hn]
    refine or_iff_left ?_
    rintro rfl
    exact hrun hn

theorem Ledger.exit (h : Ledger t) (hp : t.state p = .running) : Ledger (exited t p) := by
  have hused : t.state p ≠ .unused := by simp [hp]
  have hself := state_exited_self t p
  have hother : ∀ q, q ≠ p → ((exited t p).state q = .unused ↔ t.state q = .unused) ∧
      ((exited t p).state q = .zombie ↔ t.state q = .zombie) := fun q hq => by
    obtain heq | ⟨hs, hr⟩ := state_exited_other t hq
    · rw [heq]
      exact ⟨.rfl, .rfl⟩
    · rw [hs, hr]
      exact ⟨iff_of_false nofun nofun, iff_of_false nofun nofun⟩
  have hused' : ∀ q, (exited t p).state q ≠ .unused → t.state q ≠ .unused := fun q hq => by
    by_cases heq : q = p
    · rw [heq]
      exact hused
    · rwa [Ne, (hother q heq).1] at hq
  have hnot : t.serials p ∉ t.exits := fun hmem => nomatch hp.symm.trans ((h.zombie p hused).mp hmem)
  refine ⟨h.serials, fun q r hq hr => h.distinct q r (hused' q hq) (hused' r hr), ?_, fun n hn => ?_, fun q hq => ?_,
    fun n => ?_, h.once, h.waiter, h.pgdirs, h.kstacks, fun n hn => ⟨(h.gone n hn).1, fun q hq => ?_⟩, fun n hn => ?_⟩
  · change (t.exits ++ [t.serials p]).Nodup
    exact h.exits.append (nodup_singleton _) (by simpa using hnot)
  · obtain hn | hn := mem_append.mp hn
    · exact h.old n hn
    · rw [mem_singleton.mp hn]
      exact h.serials p
  · change t.serials q ∈ t.exits ++ [t.serials p] ↔ _
    rw [mem_append, mem_singleton]
    by_cases heq : q = p
    · rw [heq, hself]
      exact iff_of_true (.inr rfl) rfl
    · rw [(hother q heq).2, ← h.zombie q (hused' q hq)]
      exact or_iff_left fun hs => heq (h.distinct q p (hused' q hq) hused hs)
  · change n ∈ t.reaped.map Reaped.serial ↔ n ∈ t.exits ++ [t.serials p] ∧ _
    rw [h.reaped n, mem_append, mem_singleton]
    constructor
    · rintro ⟨hn, hall⟩
      refine ⟨.inl hn, fun q hq heq => ?_⟩
      by_cases hqp : q = p
      · rw [hqp] at heq
        exact hnot (heq ▸ hn)
      · exact hall q ((hother q hqp).2.mp hq) heq
    · rintro ⟨hn, hall⟩
      have hne : n ≠ t.serials p := fun heq => hall p hself heq.symm
      refine ⟨hn.resolve_right hne, fun q hq => ?_⟩
      have hqp : q ≠ p := by
        rintro rfl
        exact nomatch hp.symm.trans hq
      exact hall q ((hother q hqp).2.mpr hq)
  · exact (h.gone n hn).2 q (hused' q hq)
  · obtain hn | hn := mem_append.mp hn
    · exact h.freed n hn
    · rw [mem_singleton.mp hn]
      refine iff_of_false (fun hmem => (h.gone _ hmem).2 p hused rfl) fun hmem => hnot ?_
      exact ((h.reaped _).mp hmem).1

theorem Ledger.reap (h : Ledger t) (hq : findZombie t.procs p = some q) : Ledger (reap t p q) := by
  obtain ⟨hparent, hzombie⟩ : t.parent q = some p ∧ t.state q = .zombie := findZombie_some hq
  have hused : t.state q ≠ .unused := by simp [hzombie]
  have hexited : t.serials q ∈ t.exits := (h.zombie q hused).mpr hzombie
  have hleft : t.serials q ∉ t.reaped.map Reaped.serial := fun hmem => ((h.reaped _).mp hmem).2 q hzombie rfl
  have hheld : t.serials q ∉ t.kstackFrees := fun hmem => (h.gone _ hmem).2 q hused rfl
  have hprocs : (Sched.reap t p q).procs = update t.procs q { t.procs q with
    kstack := 0, state := .unused, pid := 0, parent := none, name := [], killed := false } := rfl
  have hstate : ∀ r, (Sched.reap t p q).state r = if r = q then .unused else t.state r := state_update hprocs
  have hused' : ∀ r, (Sched.reap t p q).state r ≠ .unused → r ≠ q ∧ t.state r ≠ .unused := fun r hr => by
    rw [hstate] at hr
    split at hr
    · exact absurd rfl hr
    · rename_i hne
      exact ⟨hne, hr⟩
  have hmap : (Sched.reap t p q).reaped.map Reaped.serial = t.reaped.map Reaped.serial ++ [t.serials q] :=
    map_append
  refine ⟨h.serials, fun r r' hr hr' => h.distinct r r' (hused' r hr).2 (hused' r' hr').2, h.exits, h.old,
    fun r hr => ?_, fun n => ?_, ?_, fun r hr => ?_, ?_, ?_, fun n hn => ?_, fun n hn => ?_⟩
  · obtain ⟨hne, hold⟩ := hused' r hr
    rw [hstate, if_neg hne]
    exact h.zombie r hold
  · change _ ↔ n ∈ t.exits ∧ ∀ r, (Sched.reap t p q).state r = .zombie → t.serials r ≠ n
    rw [hmap, mem_append, mem_singleton, h.reaped n]
    constructor
    · rintro (⟨hn, hall⟩ | rfl)
      · refine ⟨hn, fun r hr => ?_⟩
        rw [hstate] at hr
        split at hr
        · cases hr
        · exact hall r hr
      · refine ⟨hexited, fun r hr heq => ?_⟩
        have hr' : (Sched.reap t p q).state r ≠ .unused := by simp [hr]
        obtain ⟨hne, hold⟩ := hused' r hr'
        exact hne (h.distinct r q hold hused heq)
    · rintro ⟨hn, hall⟩
      by_cases heq : n = t.serials q
      · exact .inr heq
      · refine .inl ⟨hn, fun r hr => ?_⟩
        by_cases hrq : r = q
        · rw [hrq]
          exact fun hs => heq hs.symm
        · exact hall r (by rw [hstate, if_neg hrq, hr])
  · rw [hmap]
    exact h.once.append (nodup_singleton _) (by simpa using hleft)
  · obtain hr | hr := mem_append.mp hr
    · exact h.waiter r hr
    · rw [mem_singleton.mp hr]
      exact hparent
  · rw [hmap, ← h.pgdirs]
    rfl
  · exact h.kstacks.append (nodup_singleton _) (by simpa using hheld)
  · obtain hn | hn := mem_append.mp hn
    · exact ⟨(h.gone n hn).1, fun r hr => (h.gone n hn).2 r (hused' r hr).2⟩
    · rw [mem_singleton.mp hn]
      refine ⟨h.serials q, fun r hr heq => ?_⟩
      obtain ⟨hne, hold⟩ := hused' r hr
      exact hne (h.distinct r q hold hused heq)
  · change n ∈ t.kstackFrees ++ [t.serials q] ↔ _
    rw [hmap, mem_append, mem_append, h.freed n hn]

theorem Ledger.change (h : Ledger t) (hf : Family t) (hc : Change x t t') : Ledger t' := by
  have hembryo : ∀ {p np}, (t.doing p).child = some np → t.state np = .embryo := fun hchild => (hf.forker _ _ hchild).2
  cases hc with
  | run p hp => exact h.quiet (quiet_setProc (by simp [hp]) (by simp [hp]))
  | awake p hp => exact h.quiet (quiet_setProc (by simp [hp]) .rfl)
  | work p own hp => exact h.quiet (quiet_setProc (by simp [hp]) .rfl)
  | yield p hp => exact h.quiet (quiet_setProc (by simp [hp]) (by simp [hp]))
  | sleep p a hp =>
    unfold fallAsleep
    rw [setProc_setProc]
    exact h.quiet (quiet_setProc (by simp [hp]) (by simp [hp]))
  | wait p hp hnone =>
    unfold fallAsleep
    rw [setProc_setProc]
    exact h.quiet (quiet_setProc (by simp [hp]) (by simp [hp]))
  | wakeup a => exact h.quiet (quiet_roused (fun q => roused_wakeup1 _ _ q) rfl rfl rfl rfl rfl rfl)
  | kill pid hpid => exact h.quiet (quiet_kill t pid)
  | fault p hfault hp => exact h.quiet (quiet_setProc (by simp [hp]) .rfl)
  | allocproc p hp hidle => exact h.allocproc p
  | kstack p np page hpage hdoing =>
    have hnp := hembryo (congrArg Doing.child hdoing)
    unfold Sched.kstack
    split
    · exact h.quiet (quiet_setDoing (quiet_setProc (by simp [hnp]) (by simp [hnp])) p _)
    · exact h.quiet (quiet_setDoing (quiet_setProc (by simp [hnp]) .rfl) p _)
  | copyuvm p np pgdir hpage hdoing =>
    have hnp := hembryo (congrArg Doing.child hdoing)
    unfold Sched.copyuvm
    dsimp only
    split
    · exact h.freeStack (f := fun q => { q with pgdir := pgdir, kstack := 0, state := .unused }) hnp rfl
    · exact h.quiet (quiet_setDoing (quiet_setProc (by simp [hnp]) .rfl) p _)
  | forked p np hdoing =>
    have hnp := hembryo (congrArg Doing.child hdoing)
    exact h.quiet (quiet_setDoing (quiet_setProc (by simp [hnp]) (by simp [hnp])) p _)
  | exit p hexit hp hidle hne => exact h.exit hp
  | reap p q hq => exact h.reap hq

theorem ledger_boot (C : Type) (first : First) : Ledger (boot C first).table := by
  have hused : ∀ p, (boot C first).table.state p ≠ .unused → p = Process.initproc := fun p hp => by
    by_contra hne
    rw [state_eq, procs_boot, update_of_ne hne] at hp
    exact hp rfl
  have hzombie : ∀ p, (boot C first).table.state p ≠ .zombie := fun p => by
    rw [state_eq, procs_boot, update_apply]
    split
    · exact nofun
    · exact nofun
  refine ⟨fun _ => Nat.one_pos, fun p q hp hq _ => (hused p hp).trans (hused q hq).symm, nodup_nil, nofun,
    fun p _ => iff_of_false nofun (hzombie p), fun n => iff_of_false nofun (fun h => nomatch h.1), nodup_nil, nofun,
    rfl, nodup_nil, nofun, nofun⟩

/-! ### What a step leaves alone -/

theorem Change.alive (hc : Change x t t') (hf : Family t) (hexit : x.exit = none) (hq : (t.state q).Alive) :
    (t'.state q).Alive ∧ t'.serials q = t.serials q := by
  have hset : ∀ {t₂ : Table} {p : Slot} {new : Proc}, t₂.procs = update t.procs p new →
      new.state.Alive ∨ ¬(t.state p).Alive → (t₂.state q).Alive := fun {t₂ p new} hprocs hp => by
    rw [state_update hprocs]
    split
    · rename_i heq
      rw [heq] at hq
      exact hp.resolve_right (not_not_intro hq)
    · exact hq
  have hroused : (∀ q, Roused (t.procs q) (t'.procs q)) → (t'.state q).Alive := fun h => by
    obtain heq | ⟨-, hr⟩ := (h q).state
    · rw [state_eq, heq]
      exact hq
    · exact .inr (.inl hr)
  have hembryo : ∀ {p np}, (t.doing p).child = some np → ¬(t.state np).Alive := fun hchild hlive =>
    hlive.ne (.inr (.inl rfl)) (hf.forker _ _ hchild).2
  cases hc with
  | run p hp => exact ⟨hset rfl (.inl (.inr (.inr rfl))), rfl⟩
  | awake p hp => exact ⟨hset rfl (.inl (.inr (.inr hp))), rfl⟩
  | work p own hp => exact ⟨hset rfl (.inl (.inr (.inr hp))), rfl⟩
  | yield p hp => exact ⟨hset rfl (.inl (.inr (.inl rfl))), rfl⟩
  | sleep p a hp =>
    unfold fallAsleep
    rw [setProc_setProc]
    exact ⟨hset rfl (.inl (.inl rfl)), rfl⟩
  | wait p hp hnone =>
    unfold fallAsleep
    rw [setProc_setProc]
    exact ⟨hset rfl (.inl (.inl rfl)), rfl⟩
  | wakeup a => exact ⟨hroused fun q => roused_wakeup1 _ _ q, rfl⟩
  | kill pid hpid => exact ⟨hroused (roused_kill t pid), by rw [(quiet_kill t pid).serials]⟩
  | fault p hfault hp => exact ⟨hset rfl (.inl (.inr (.inr hp))), rfl⟩
  | allocproc p hp hidle =>
    unfold Sched.allocproc
    split
    · exact ⟨hq, rfl⟩
    · rename_i np hfound
      have hdead : ¬(t.state np).Alive := fun hlive => hlive.ne (.inl rfl) (findUnused_some hfound)
      refine ⟨hset rfl (.inr hdead), update_of_ne (fun heq => ?_) _ _⟩
      rw [heq] at hq
      exact hdead hq
  | kstack p np page hpage hdoing =>
    have hnp := hembryo (congrArg Doing.child hdoing)
    unfold Sched.kstack
    split
    · exact ⟨hset rfl (.inr hnp), rfl⟩
    · exact ⟨hset rfl (.inr hnp), rfl⟩
  | copyuvm p np pgdir hpage hdoing =>
    have hnp := hembryo (congrArg Doing.child hdoing)
    unfold Sched.copyuvm
    dsimp only
    split
    · exact ⟨hset rfl (.inr hnp), rfl⟩
    · exact ⟨hset rfl (.inr hnp), rfl⟩
  | forked p np hdoing => exact ⟨hset rfl (.inr (hembryo (congrArg Doing.child hdoing))), rfl⟩
  | exit p hexit' hp hidle hne => exact nomatch hexit.symm.trans hexit'
  | reap p r hr =>
    have hdead : ¬(t.state r).Alive := fun hlive => hlive.ne (.inr (.inr rfl)) (findZombie_some hr).2
    exact ⟨hset rfl (.inr hdead), rfl⟩

theorem Ledger.not_freed (h : Ledger t) (hq : t.state q ≠ .unused) :
    t.serials q ∉ t.kstackFrees ∧ t.serials q ∉ t.pgdirFrees := by
  refine ⟨fun hmem => (h.gone _ hmem).2 q hq rfl, fun hmem => ?_⟩
  rw [h.pgdirs] at hmem
  obtain ⟨hexited, hall⟩ := (h.reaped _).mp hmem
  exact hall q ((h.zombie q hq).mp hexited) rfl

/-! ### Every run -/

variable {C : Type} [DecidableEq C] {first : First} {s s' : State C} {c : C}

theorem ledger_of_reachable (h : (system C first).Reachable s) : Switched s ∧ Family s.table ∧ Ledger s.table :=
  table_invariant (fun _ => True) (ledger_boot C first) (fun _ _ _ _ hf h hc => h.change hf hc)
    (fun _ _ _ _ hnot => absurd trivial hnot) h.restrict_true

theorem step_running (hs : Switched s) (hf : Family s.table) {a : Action C} (hstep : step s a = some (.ok s'))
    (hq : s.table.state q = .running) : s'.table.state q ≠ .unused ∧ s'.table.serials q = s.table.serials q := by
  obtain ⟨c, -, -, hr⟩ | ⟨s₂, heq, hshift, hchanges⟩ := step_spec hs hf hstep
  · cases hr
  cases heq
  by_cases hexit : (a.cause s).exit = none
  · have hlive := hf.changes (I := fun t => (t.state q).Alive ∧ t.serials q = s.table.serials q)
      (fun t t' hf h hc => ⟨(hc.alive hf hexit h.1).1, (hc.alive hf hexit h.1).2.trans h.2⟩)
      ⟨.inr (.inr hq), rfl⟩ hchanges
    exact ⟨hlive.2.1.ne (.inl rfl), hlive.2.2⟩
  · cases a with
    | exit c =>
      obtain ⟨p, hp, hlock, hncli, heq⟩ := locked_some hstep
      obtain ⟨i, hcpu, -⟩ := hs.cpu_eq (current_some hp).1 hncli
      by_cases hinit : p = s.table.initproc
      · rw [exit, if_pos hinit] at heq
        cases heq
      · rw [exit_eq hlock hcpu hinit] at heq
        cases heq
        refine ⟨?_, rfl⟩
        by_cases hqp : q = p
        · rw [hqp, state_exited_self]
          exact nofun
        · obtain heq | ⟨-, hr⟩ := state_exited_other s.table hqp
          · rw [heq, hq]
            exact nofun
          · rw [hr]
            exact nofun
    | _ => exact absurd rfl hexit

theorem step_wait (hlock : s.lock = none) (hp : s.current c = some p) (hncli : (s.cpus c).ncli = 0)
    (hparent : s.table.parent q = some p) (hzombie : s.table.state q = .zombie) :
    ∃ r, findZombie s.table.procs p = some r ∧ step s (.wait c) = some (.ok { s with table := reap s.table p r }) := by
  have hfound : (findZombie s.table.procs p).isSome := find?_isSome.mpr
    ⟨q, mem_finRange q, decide_eq_true ⟨hparent, hzombie⟩⟩
  obtain ⟨r, hr⟩ := Option.isSome_iff_exists.mp hfound
  refine ⟨r, hr, ?_⟩
  have hcpus : update s.cpus c { s.cpus c with ncli := 0 } = s.cpus := by
    rw [← hncli, update_eq_self]
  simp only [step, locked, hp, hlock, hncli, and_self, if_true, wait, bind, Except.bind, acquire_eq hlock, waitLoop, hr]
  rw [release_eq (s := ⟨reap s.table p r, some c, _⟩) rfl (update_self c _ _) rfl, update_idem, hcpus]

/-- `wait` returns every child that has exited once, and to its parent. -/
theorem exited_children_reaped_once (h : (system C first).Reachable s) :
    (∀ p, s.table.state p ∈ [.runnable, .running, .sleeping, .zombie] → p ≠ s.table.initproc →
      ∃ q, s.table.parent p = some q ∧ s.table.state q ≠ .unused ∧ s.table.state q ≠ .zombie) ∧
    (∀ p q, s.table.state p = .sleeping → (s.table.procs p).chan = some (.proc p) → s.table.parent q = some p →
      s.table.state q ≠ .zombie) ∧
    s.table.exits.Nodup ∧
    (∀ n ∈ s.table.exits,
      (s.table.reaped.map Reaped.serial).count n = 1 ∧ s.table.kstackFrees.count n = 1 ∧
        s.table.pgdirFrees.count n = 1 ∨
      (∃ p, s.table.state p = .zombie ∧ s.table.serials p = n) ∧ (s.table.reaped.map Reaped.serial).count n = 0 ∧
        s.table.kstackFrees.count n = 0 ∧ s.table.pgdirFrees.count n = 0) ∧
    (∀ r ∈ s.table.reaped, r.serial ∈ s.table.exits ∧ r.parent = some r.waiter) ∧
    ∀ c p q, s.lock = none → s.current c = some p → (s.cpus c).ncli = 0 → s.table.parent q = some p →
      s.table.state q = .zombie → ∃ s' r, step s (.wait c) = some (.ok s') ∧
        s'.table.reaped = s.table.reaped ++ [⟨s.table.serials r, p, some p⟩] ∧ s.table.state r = .zombie := by
  obtain ⟨-, hf, hl⟩ := ledger_of_reachable h
  refine ⟨fun p hp hne => ?_, hf.asleep, hl.exits, fun n hn => ?_, fun r hr => ⟨?_, hl.waiter r hr⟩,
    fun c p q hlock hp hncli hparent hzombie => ?_⟩
  · have hstate : (s.table.state p).Alive ∨ s.table.state p = .zombie := by
      simp only [mem_cons, not_mem_nil, or_false] at hp
      unfold ProcState.Alive
      tauto
    obtain ⟨q, hq, hlive⟩ := hf.parent p hstate hne
    exact ⟨q, hq, hlive.ne (.inl rfl), hlive.ne (.inr (.inr rfl))⟩
  · rw [hl.pgdirs]
    by_cases hmem : n ∈ s.table.reaped.map Reaped.serial
    · have honce := count_eq_one_of_mem hl.once hmem
      exact .inl ⟨honce, count_eq_one_of_mem hl.kstacks ((hl.freed n hn).mpr hmem), honce⟩
    · have hleft := count_eq_zero_of_not_mem hmem
      have hkstack : n ∉ s.table.kstackFrees := fun hk => hmem ((hl.freed n hn).mp hk)
      refine .inr ⟨?_, hleft, count_eq_zero_of_not_mem hkstack, hleft⟩
      by_contra hnone
      push Not at hnone
      exact hmem ((hl.reaped n).mpr ⟨hn, hnone⟩)
  · exact ((hl.reaped _).mp (mem_map_of_mem hr)).1
  · obtain ⟨r, hr, hstep⟩ := step_wait hlock hp hncli hparent hzombie
    obtain ⟨hr₁, hr₂⟩ := findZombie_some hr
    refine ⟨_, r, hstep, ?_, hr₂⟩
    unfold reap
    dsimp only
    rw [hr₁]

/-- A slot is RUNNING if one processor is at it, and only then is any. -/
theorem process_runs_on_one_cpu (h : (system C first).Reachable s) :
    (s.lock = none → ∀ p, (s.table.state p = .running ↔ ∃! c, (s.cpus c).proc = some p) ∧
      (s.table.state p ≠ .running → ∀ c, (s.cpus c).proc ≠ some p)) ∧
    (∀ a s' p c, step s a = some (.ok s') → (s.cpus c).proc = some p →
      s.table.serials p ∉ s'.table.kstackFrees ∧ s.table.serials p ∉ s'.table.pgdirFrees) ∧
    ∀ a m, step s a = some (.error (.panic m)) → m ∉ ["sched ptable.lock", "sched locks", "sched running"] := by
  obtain ⟨hs, hf, hl⟩ := ledger_of_reachable h
  refine ⟨fun _ p => ⟨?_, fun hp c hc => hp ((hs.running p).mpr ⟨c, hc⟩)⟩, fun a s' p c hstep hp => ?_, fun a m hstep => ?_⟩
  · rw [hs.running p]
    constructor
    · rintro ⟨c, hc⟩
      exact ⟨c, hc, fun c' hc' => hs.unique c' c p hc' hc⟩
    · rintro ⟨c, hc, -⟩
      exact ⟨c, hc⟩
  · obtain ⟨hused, hserial⟩ := step_running hs hf hstep ((hs.running p).mpr ⟨c, hp⟩)
    obtain ⟨-, -, hl'⟩ := ledger_of_reachable (h.step hstep)
    rw [← hserial]
    exact hl'.not_freed hused
  · obtain ⟨c, -, -, hr⟩ | ⟨s₂, heq, -, -⟩ := step_spec hs hf hstep
    · cases hr
      decide
    · cases heq

/-! ### A run

On two processors the first process forks, its child exits on the other one, and `wait` returns it. -/

def firstProc : First := ⟨4096, 8192, fun _ => 0, ⟨0, []⟩, 1⟩

def forkAndExit : List (Action Bool) :=
  [.scheduler true, .scheduler true, .allocproc true, .kstack true 12288, .copyuvm true 16384, .forked true,
    .scheduler false, .scheduler false, .scheduler false, .exit false] ++ List.replicate 63 (.scheduler false) ++
    [.wait true]

theorem exited_children_reaped_once_run : ∃ s, (system Bool firstProc).Reachable s ∧
    s.table.reaped = [⟨1, Process.initproc, some Process.initproc⟩] ∧
    s.table.kstackFrees.count 1 = 1 ∧ s.table.pgdirFrees.count 1 = 1 := by
  obtain ⟨s, hs, htest⟩ := System.exists_reachable_of_follow (fun _ _ => True) step (boot Bool firstProc) forkAndExit
    (fun s => s.table.reaped = [⟨1, Process.initproc, some Process.initproc⟩] ∧ s.table.exits = [1])
    (by decide +kernel)
  obtain ⟨hreaped, hexits⟩ := of_decide_eq_true htest
  have hs : (system Bool firstProc).Reachable s := hs.of_restrict
  obtain ⟨-, -, -, honce, -⟩ := exited_children_reaped_once hs
  refine ⟨s, hs, hreaped, ?_⟩
  obtain ⟨-, hfreed⟩ | ⟨-, hleft, -⟩ := honce 1 (by rw [hexits]; exact mem_singleton_self 1)
  · exact hfreed
  · rw [hreaped] at hleft
    simp at hleft

theorem process_runs_on_one_cpu_run : ∃ s, (system Bool firstProc).Reachable s ∧ s.lock = none ∧
    ∃! c, (s.cpus c).proc = some Process.initproc := by
  obtain ⟨s, hs, htest⟩ := System.exists_reachable_of_follow (fun _ _ => True) step (boot Bool firstProc) forkAndExit
    (fun s => s.lock = none ∧ s.table.state Process.initproc = .running) (by decide +kernel)
  obtain ⟨hlock, hrunning⟩ := of_decide_eq_true htest
  have hs : (system Bool firstProc).Reachable s := hs.of_restrict
  exact ⟨s, hs, hlock, (((process_runs_on_one_cpu hs).1 hlock Process.initproc).1).mp hrunning⟩

end RainOS.Sched
