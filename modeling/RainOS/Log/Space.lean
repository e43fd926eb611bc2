import RainOS.Log.GroupInvariant
import Mathlib.Algebra.Order.BigOperators.Group.Finset
import Mathlib.Data.List.Dedup

/-!
# Log space

`begin_op` lets an operation in when `lh.n + (outstanding + 1) * MAXOPBLOCKS` does not exceed
`LOGSIZE`. `mkfs` gives the log `LOGSIZE` blocks, and one of them is the header, so `log_write`
gives up one block earlier than `begin_op` counts: it stops at `log.size - 1 = LOGSIZE - 1` sectors,
and looks at the count before it looks for the sector among those already logged.

What the admission test does guarantee is one block less for each operation. The argument is the
reservation: the sectors logged, and what the operations still inside may add, stay below the limit.
-/

namespace RainOS.GroupCommit

open List

variable {P : Type} {op b : Nat}

/-- The sectors an operation has `log_write`n. -/
def opSectors (s : State P) (op : Nat) : Finset Nat :=
  ((s.history.filter (·.op = op)).map (·.sector)).toFinset

/-- The sectors the operations of the current transaction have `log_write`n. -/
def openSectors (s : State P) : Finset Nat :=
  (s.pending.map (·.sector)).toFinset

/-- No operation `log_write`s more than `budget` distinct sectors. -/
def Within (budget : Nat) (s : State P) : Action P → Prop
  | .logWrite p sector =>
    match s.stage p with
    | .inside op => (insert sector (opSectors s op)).card ≤ budget
    | _ => True
  | _ => True

instance (budget : Nat) (s : State P) (a : Action P) : Decidable (Within budget s a) := by
  unfold Within
  split
  · split <;> infer_instance
  · infer_instance

theorem mem_opSectors {s : State P} :
    b ∈ opSectors s op ↔ ∃ w ∈ s.history, w.op = op ∧ w.sector = b := by
  simp [opSectors, and_assoc]

theorem Ledger.length_lh {s : State P} (hl : Ledger s) : s.lh.length = (openSectors s).card := by
  rw [← toFinset_card_of_nodup hl.lh_nodup]
  congr 1
  ext b
  simp [openSectors, hl.mem_lh b]

theorem Ledger.opSectors_subset {s : State P} (hl : Ledger s) {p : P} (hp : s.stage p = .inside op) : opSectors s op ⊆ s.lh.toFinset := by
  intro b hb
  obtain ⟨w, hw, hop, rfl⟩ := mem_opSectors.mp hb
  rw [mem_toFinset, hl.mem_lh]
  rw [hl.history_eq] at hw
  rcases mem_append.mp hw with hw | hw
  · obtain ⟨t, ht, hw⟩ := mem_flatMap.mp hw
    exact absurd (hop ▸ hp) (hl.ended t ht w hw p)
  · exact ⟨w, hw, rfl⟩

variable [DecidableEq P]

/-- The group commit on the log `mkfs` lays out, every operation within a budget. -/
def budgeted (budget : Nat) : System (State P) (Action P) := (system logSize).restrict (Within budget)

/-- What the operation a process is in may still add to the header. -/
def spare (budget : Nat) (s : State P) (p : P) : Nat :=
  match s.stage p with
  | .inside op => budget - (opSectors s op).card
  | _ => 0

def reserved [Fintype P] (budget : Nat) (s : State P) : Nat :=
  s.lh.length + ∑ p, spare budget s p

section Reservation

variable [Fintype P] {budget sector : Nat} {s s' : State P} {p : P}

omit [DecidableEq P] [Fintype P] in
theorem spare_le (p : P) : spare budget s p ≤ if (s.stage p).isInside = true then budget else 0 := by
  rw [spare]
  split
  · rename_i op hp
    simp [hp, Stage.isInside]
  · exact Nat.zero_le _

omit [DecidableEq P] in
theorem sum_spare_le (budget : Nat) (s : State P) :
    ∑ p, spare budget s p ≤ budget * (active s.stage).card := by
  calc ∑ p, spare budget s p
      ≤ ∑ p, if (s.stage p).isInside = true then budget else 0 :=
        Finset.sum_le_sum fun p _ => spare_le p
    _ = budget * (active s.stage).card := by
        rw [← Finset.sum_filter, Finset.sum_const, Nat.nsmul_eq_mul, Nat.mul_comm]
        rfl

theorem sum_spare_eq (p : P) (hother : ∀ q, q ≠ p → spare budget s' q = spare budget s q) :
    ∑ q, spare budget s' q + spare budget s p = ∑ q, spare budget s q + spare budget s' p := by
  have hs := Finset.add_sum_erase Finset.univ (spare budget s) (Finset.mem_univ p)
  have hs' := Finset.add_sum_erase Finset.univ (spare budget s') (Finset.mem_univ p)
  have herase : ∑ q ∈ Finset.univ.erase p, spare budget s' q =
      ∑ q ∈ Finset.univ.erase p, spare budget s q :=
    Finset.sum_congr rfl fun q hq => hother q (Finset.ne_of_mem_erase hq)
  omega

omit [DecidableEq P] in
theorem reserved_le_of_leave (hhistory : s'.history = s.history) (hlh : s'.lh.length ≤ s.lh.length)
    (hstage : ∀ p op, s'.stage p = .inside op → s.stage p = .inside op) :
    reserved budget s' ≤ reserved budget s := by
  refine Nat.add_le_add hlh (Finset.sum_le_sum fun p _ => ?_)
  rw [spare]
  split
  · rename_i op hp
    rw [spare, hstage p op hp]
    simp [opSectors, hhistory]
  · exact Nat.zero_le _

/-- The operation `begin_op` lets in reserves its whole budget, and the test it passed leaves room for
a budget below `MAXOPBLOCKS`. -/
theorem reserved_beginOp (hw : Words s) (hbudget : budget < maxOpBlocks)
    (hp : s.stage p = .out ∨ s.stage p = .woken) (h : reserved budget s < logSize - 1) :
    reserved budget (beginOp s p) < logSize - 1 := by
  have hmax : maxOpBlocks = 10 := rfl
  have hsize : logSize = 30 := rfl
  have hsleep : reserved budget { s with stage := Function.update s.stage p .asleep } < logSize - 1 := by
    refine Nat.lt_of_le_of_lt ?_ h
    exact reserved_le_of_leave rfl (Nat.le_refl _) fun q op hq => (update_eq hq (by simp)).2
  rw [beginOp]
  split
  · exact hsleep
  · split
    · exact hsleep
    · rename_i hcommitting hroom
      have hnew : p ∉ active s.stage := by
        rcases hp with hp | hp <;> simp [mem_active, hp, Stage.isInside]
      have hsum := sum_spare_le budget { s with
        outstanding := s.outstanding + 1
        stage := Function.update s.stage p (.inside s.nextOp)
        nextOp := s.nextOp + 1 }
      simp only [active_update_inside, Finset.card_insert_of_notMem hnew] at hsum
      have hmul : budget * ((active s.stage).card + 1) ≤ 9 * ((active s.stage).card + 1) :=
        Nat.mul_le_mul_right _ (by omega)
      have hout := hw.outstanding_eq
      -- the test is passed with nobody inside only on an empty log
      have hidle : (active s.stage).card = 0 → s.lh.length = 0 := by
        intro hzero
        rw [hw.lh_of_idle (Finset.card_eq_zero.mp hzero) (by simpa using hcommitting)]
        rfl
      rw [hmax, hsize] at hroom
      rw [reserved]
      change s.lh.length + _ < _
      omega

omit [DecidableEq P] [Fintype P] in
theorem spare_inside (hp : s.stage p = .inside op) :
    spare budget s p = budget - (opSectors s op).card := by
  rw [spare, hp]

theorem reserved_logWrite (hl : Ledger s) {size : Int} (hp : s.stage p = .inside op) (hbudget : (insert sector (opSectors s op)).card ≤ budget)
    (h : logWrite size s op sector = .ok s') : reserved budget s' ≤ reserved budget s := by
  obtain ⟨-, -, -, hs'⟩ := logWrite_ok h
  have hstage : s'.stage = s.stage := by rw [hs']
  have hop : opSectors s' op = insert sector (opSectors s op) := by
    ext b
    rw [Finset.mem_insert, mem_opSectors, mem_opSectors]
    simp only [hs', mem_append, mem_singleton]
    constructor
    · rintro ⟨w, hw | rfl, hwop, rfl⟩
      · exact Or.inr ⟨w, hw, hwop, rfl⟩
      · exact Or.inl rfl
    · rintro (rfl | ⟨w, hw, hwop, rfl⟩)
      · exact ⟨⟨op, b⟩, Or.inr rfl, rfl, rfl⟩
      · exact ⟨w, Or.inl hw, hwop, rfl⟩
  have hother : ∀ q, q ≠ p → spare budget s' q = spare budget s q := by
    intro q hq
    rw [spare, spare, hstage]
    split
    · rename_i op' hq'
      have hne : op ≠ op' := by
        rintro rfl
        exact hq (hl.inside_unique q p op hq' hp)
      simp [opSectors, hs', hne]
    · rfl
  have hsum := sum_spare_eq p hother
  rw [spare_inside hp, spare_inside (s := s') (hstage ▸ hp), hop] at hsum
  have hlh : s'.lh = absorb s.lh sector := by rw [hs']
  have hnodup := nodup_absorb hl.lh_nodup sector
  have hset : (absorb s.lh sector).toFinset = insert sector s.lh.toFinset := by
    ext b
    simp [mem_absorb, or_comm]
  have hlen : s'.lh.length = (insert sector s.lh.toFinset).card := by
    rw [hlh, ← toFinset_card_of_nodup hnodup, hset]
  have hlen' : s.lh.length = s.lh.toFinset.card := (toFinset_card_of_nodup hl.lh_nodup).symm
  rw [reserved, reserved, hlen, hlen']
  by_cases hmem : sector ∈ s.lh.toFinset
  · have hmono := Finset.card_le_card (Finset.subset_insert sector (opSectors s op))
    rw [Finset.insert_eq_of_mem hmem]
    omega
  · have hfresh : sector ∉ opSectors s op := fun hsub => hmem (hl.opSectors_subset hp hsub)
    rw [Finset.card_insert_of_notMem hmem]
    rw [Finset.card_insert_of_notMem hfresh] at hsum hbudget
    omega

theorem reserved_step (hw : Words s) (hl : Ledger s) {a : Action P} (hbudget : budget < maxOpBlocks)
    (hwithin : Within budget s a) (h : reserved budget s < logSize - 1)
    (hstep : step logSize s a = some (.ok s')) : reserved budget s' < logSize - 1 := by
  cases a with
  | beginOp p =>
    cases hp : s.stage p <;> simp [step, hp] at hstep
    · subst hstep
      exact reserved_beginOp hw hbudget (Or.inl hp) h
    · subst hstep
      exact reserved_beginOp hw hbudget (Or.inr hp) h
  | logWrite p sector =>
    cases hp : s.stage p <;> simp only [step, hp, reduceCtorEq, Option.some.injEq] at hstep
    simp only [Within, hp] at hwithin
    exact Nat.lt_of_le_of_lt (reserved_logWrite hl hp hwithin hstep) h
  | endOp p =>
    cases hp : s.stage p <;> simp only [step, hp, reduceCtorEq, Option.some.injEq] at hstep
    refine Nat.lt_of_le_of_lt ?_ h
    rw [endOp] at hstep
    split at hstep
    · cases hstep
    · split at hstep <;> obtain rfl := Except.ok.inj hstep <;>
        refine reserved_le_of_leave rfl (Nat.le_refl _) fun q op hq => ?_
      · exact (update_eq hq (by simp)).2
      · exact wakeup_eq_inside.mp (update_eq hq (by simp)).2
  | commit p =>
    cases hp : s.stage p <;> simp [step, hp] at hstep
    subst hstep
    refine Nat.lt_of_le_of_lt ?_ h
    rw [commit]
    split <;> exact reserved_le_of_leave rfl (by simp) fun q op hq => (update_eq hq (by simp)).2
  | endCommit p =>
    cases hp : s.stage p <;> simp [step, hp] at hstep
    subst hstep
    refine Nat.lt_of_le_of_lt ?_ h
    exact reserved_le_of_leave rfl (Nat.le_refl _) fun q op hq => wakeup_eq_inside.mp (update_eq hq (by simp)).2

theorem reserved_reachable (hbudget : budget < maxOpBlocks)
    (h : (budgeted budget : System (State P) (Action P)).Reachable s) :
    reserved budget s < logSize - 1 := by
  refine (h.invariant (I := fun s => (Words s ∧ Ledger s) ∧ reserved budget s < logSize - 1) ?_ ?_).2
  · rintro _ rfl
    refine ⟨⟨words_initlog, ledger_initlog⟩, ?_⟩
    simp [reserved, spare, initlog, logSize, maxOpBlocks]
  · rintro t a t' ⟨⟨hw, hl⟩, hres⟩ ⟨hwithin, hstep⟩
    exact ⟨⟨hw.step hstep, hl.step hw hstep⟩, reserved_step hw hl hbudget hwithin hres hstep⟩

end Reservation

theorem logWrite_tooBig_iff [Fintype P] {s : State P} (hw : Words s) (hl : Ledger s) {p : P}
    {op : Nat} (sector : Nat) (hp : s.stage p = .inside op) :
    step logSize s (.logWrite p sector) = some (.error .tooBigATransaction) ↔
      logSize - 1 ≤ (openSectors s).card := by
  have hlen := hl.length_lh
  have hmem : p ∈ active s.stage := mem_active.mpr (by simp [hp, Stage.isInside])
  have hpos := Finset.card_pos.mpr ⟨p, hmem⟩
  have hout := hw.outstanding_eq
  have hsize : logSize = 30 := rfl
  simp only [step, hp, logWrite]
  split
  · rename_i hfull
    simp only [true_iff]
    omega
  · rename_i hroom
    push Not at hroom
    rw [if_neg (by omega)]
    simp only [Option.some.injEq, reduceCtorEq, false_iff, not_le]
    omega

/-- With every operation within its `MAXOPBLOCKS`, a `log_write` panics with `"too big a transaction"`
exactly when the operations of the current transaction have already logged `LOGSIZE - 1` distinct
sectors, whether or not the sector is one of them; with every operation one block below
`MAXOPBLOCKS`, the admission test of `begin_op` keeps them from getting there. -/
theorem logWrite_admitted [Fintype P] :
    (∀ s : State P, (budgeted maxOpBlocks).Reachable s → ∀ p op sector, s.stage p = .inside op →
      (step logSize s (.logWrite p sector) ≠ some (.error .tooBigATransaction) ↔
        (openSectors s).card < logSize - 1)) ∧
    (∀ s : State P, (budgeted (maxOpBlocks - 1)).Reachable s → ∀ p op, s.stage p = .inside op →
      (openSectors s).card < logSize - 1) := by
  constructor
  · intro s hs p op sector hp
    obtain ⟨hw, hl⟩ := reachable_invariant hs.of_restrict
    rw [ne_eq, logWrite_tooBig_iff hw hl sector hp, not_le]
  · intro s hs p op _
    have hres := reserved_reachable (by decide) hs
    have hlen := (reachable_invariant hs.of_restrict).2.length_lh
    rw [reserved] at hres
    omega

theorem logWrite_admitted_first : ∃ s : State (Fin 3), (budgeted maxOpBlocks).Reachable s ∧
    s.stage 0 = .inside 0 ∧ (openSectors s).card < logSize - 1 ∧
      step logSize s (.logWrite 0 6) ≠ some (.error .tooBigATransaction) := by
  obtain ⟨s, hs, htest⟩ := System.exists_reachable_of_follow (Within maxOpBlocks)
    (step logSize) (initlog (Fin 3)) [.beginOp 0, .logWrite 0 5]
    (fun s => decide (s.stage 0 = .inside 0 ∧ (openSectors s).card < logSize - 1)) (by decide)
  rw [decide_eq_true_eq] at htest
  exact ⟨s, hs, htest.1, htest.2, (logWrite_admitted.1 s hs 0 0 6 htest.1).mpr htest.2⟩

/-- Three operations enter and log their full ten sectors each, but for the last one's last. -/
def threeFull : List (Action (Fin 3)) :=
  [.beginOp 0, .beginOp 1, .beginOp 2] ++
    (List.range 10).map (.logWrite 0 ·) ++ (List.range 10).map (.logWrite 1 <| 10 + ·) ++
    (List.range 9).map (.logWrite 2 <| 20 + ·)

theorem logWrite_too_big_within_budget : ∃ s : State (Fin 3), (budgeted maxOpBlocks).Reachable s ∧
    Within maxOpBlocks s (.logWrite 2 29) ∧
      step logSize s (.logWrite 2 29) = some (.error .tooBigATransaction) := by
  obtain ⟨s, hs, htest⟩ := System.exists_reachable_of_follow (Within maxOpBlocks)
    (step logSize) (initlog (Fin 3)) threeFull
    (fun s => decide (Within maxOpBlocks s (.logWrite 2 29)) &&
      decide (s.stage 2 = .inside 2 ∧ s.lh.length = 29)) (by decide +kernel)
  rw [Bool.and_eq_true, decide_eq_true_eq, decide_eq_true_eq] at htest
  obtain ⟨hbudget, hstage, hlen⟩ := htest
  refine ⟨s, hs, hbudget, ?_⟩
  simp [step, hstage, logWrite, hlen, logSize, maxOpBlocks]

end RainOS.GroupCommit
