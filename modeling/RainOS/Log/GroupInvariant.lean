import RainOS.Lib.Store
import RainOS.Log.Group
import Mathlib.Data.List.Pairwise

/-!
# The invariant of the group commit

One step lemma for each step of the system, and from them the invariant in every reachable state.
The operations of two transactions never meet: an operation is over before the transaction it wrote
into is committed, and it writes into no other.
-/

namespace RainOS.GroupCommit

open Function List

variable {P : Type} {sector b op : Nat} {slots : List Nat}

theorem mem_absorb :
    b ∈ absorb slots sector ↔ b ∈ slots ∨ b = sector := by
  induction slots with
  | nil => simp [absorb]
  | cons slot slots ih =>
    rw [absorb]
    split
    · rename_i heq
      subst heq
      simp only [mem_cons]
      tauto
    · simp only [mem_cons, ih]
      tauto

theorem nodup_absorb (h : slots.Nodup) (sector : Nat) :
    (absorb slots sector).Nodup := by
  induction slots with
  | nil => simp [absorb]
  | cons slot slots ih =>
    rw [absorb]
    rw [nodup_cons] at h
    split
    · rename_i heq
      rw [← heq]
      exact nodup_cons.mpr h
    · rename_i hne
      refine nodup_cons.mpr ⟨?_, ih h.2⟩
      rw [mem_absorb]
      rintro (hmem | heq)
      · exact h.1 hmem
      · exact hne heq

def active [Fintype P] (stage : P → Stage) : Finset P :=
  Finset.univ.filter fun p => (stage p).isInside = true

section Active

variable [Fintype P] {stage : P → Stage} {p : P}

theorem mem_active : p ∈ active stage ↔ (stage p).isInside = true := by
  simp [active]

theorem active_wakeup : active (wakeup stage) = active stage := by
  ext q
  simp only [mem_active, wakeup]
  split
  · rename_i hq
    simp [hq, Stage.isInside]
  · rfl

variable [DecidableEq P]

theorem active_update_inside (op : Nat) :
    active (update stage p (.inside op)) = insert p (active stage) := by
  ext q
  simp only [mem_active, Finset.mem_insert]
  by_cases hq : q = p
  · subst hq
    simp [Stage.isInside]
  · simp [hq]

theorem active_update_of_not_inside {place : Stage} (hplace : place.isInside = false) :
    active (update stage p place) = (active stage).erase p := by
  ext q
  simp only [mem_active, Finset.mem_erase]
  by_cases hq : q = p
  · subst hq
    simp [hplace]
  · simp [hq]

end Active

theorem ne_committed {place : Stage} (h : place.isCommitter = false) : place ≠ .committed := by
  rintro rfl
  cases h

theorem isCommitter_wakeup (stage : P → Stage) (p : P) :
    (wakeup stage p).isCommitter = (stage p).isCommitter := by
  rw [wakeup]
  split
  · rename_i hp
    simp [hp, Stage.isCommitter]
  · rfl

theorem wakeup_eq_inside {stage : P → Stage} {p : P} :
    wakeup stage p = .inside op ↔ stage p = .inside op := by
  rw [wakeup]
  split
  · rename_i hp
    simp [hp]
  · rfl

theorem wakeup_ne_asleep (stage : P → Stage) (p : P) : wakeup stage p ≠ .asleep := by
  rw [wakeup]
  split
  · simp
  · assumption

/-- What the words of `struct log` say about the processes. -/
structure Words [Fintype P] (s : State P) : Prop where
  outstanding_eq : s.outstanding = (active s.stage).card
  committer_of_committing : s.committing = true → ∃ p, (s.stage p).isCommitter = true
  committing_of_committer : ∀ p, (s.stage p).isCommitter = true → s.committing = true
  quiet : s.committing = true → active s.stage = ∅
  committer_unique : ∀ p q, (s.stage p).isCommitter = true → (s.stage q).isCommitter = true → p = q
  lh_of_idle : active s.stage = ∅ → s.committing = false → s.lh = []
  lh_of_committed : ∀ p, s.stage p = .committed → s.lh = []
  asleep_waits : ∀ p, s.stage p = .asleep → (active s.stage).Nonempty ∨ s.committing = true

/-- What the header and the recorded transactions say about the `log_write`s so far. -/
structure Ledger (s : State P) : Prop where
  lh_nodup : s.lh.Nodup
  mem_lh : ∀ b, b ∈ s.lh ↔ ∃ w ∈ s.pending, w.sector = b
  history_eq : s.history = s.transactions.flatMap (·.writes) ++ s.pending
  sectors_eq : ∀ t ∈ s.transactions, ∀ b, b ∈ t.sectors ↔ ∃ w ∈ t.writes, w.sector = b
  op_lt : ∀ w ∈ s.history, w.op < s.nextOp
  inside_lt : ∀ p op, s.stage p = .inside op → op < s.nextOp
  inside_unique : ∀ p q op, s.stage p = .inside op → s.stage q = .inside op → p = q
  ended : ∀ t ∈ s.transactions, ∀ w ∈ t.writes, ∀ p, s.stage p ≠ .inside w.op
  apart : ∀ t ∈ s.transactions, ∀ w ∈ t.writes, ∀ w' ∈ s.pending, w'.op ≠ w.op
  apart_pairwise : s.transactions.Pairwise fun t t' => ∀ w ∈ t.writes, ∀ w' ∈ t'.writes, w'.op ≠ w.op

section Steps

variable {size : Int} {s s' : State P}

theorem step_cases [DecidableEq P] {a : Action P} (h : step size s a = some (.ok s')) :
    (∃ p, (s.stage p = .out ∨ s.stage p = .woken) ∧ s' = beginOp s p) ∨
    (∃ p op sector, s.stage p = .inside op ∧ logWrite size s op sector = .ok s') ∨
    (∃ p op, s.stage p = .inside op ∧ endOp s p = .ok s') ∨
    (∃ p, s.stage p = .mustCommit ∧ s' = commit s p) ∨
    (∃ p, s.stage p = .committed ∧ s' = endCommit s p) := by
  cases a with
  | beginOp p =>
    refine Or.inl ⟨p, ?_⟩
    cases hp : s.stage p <;> simp_all [step]
  | logWrite p sector =>
    refine Or.inr (Or.inl ⟨p, ?_⟩)
    cases hp : s.stage p <;> simp_all [step]
    exact ⟨sector, h⟩
  | endOp p =>
    refine Or.inr (Or.inr (Or.inl ⟨p, ?_⟩))
    cases hp : s.stage p <;> simp_all [step]
  | commit p =>
    refine Or.inr (Or.inr (Or.inr (Or.inl ⟨p, ?_⟩)))
    cases hp : s.stage p <;> simp_all [step]
  | endCommit p =>
    refine Or.inr (Or.inr (Or.inr (Or.inr ⟨p, ?_⟩)))
    cases hp : s.stage p <;> simp_all [step]

theorem logWrite_ok (h : logWrite size s op sector = .ok s') :
    0 < s.outstanding ∧ s.lh.length < logSize ∧ (s.lh.length : Int) < size - 1 ∧
    s' = { s with
      lh := absorb s.lh sector
      pending := s.pending ++ [⟨op, sector⟩]
      history := s.history ++ [⟨op, sector⟩] } := by
  rw [logWrite] at h
  split at h
  · cases h
  · split at h
    · cases h
    · rename_i hroom hinside
      have hs' := Except.ok.inj h
      push Not at hroom
      exact ⟨by omega, by omega, by omega, hs'.symm⟩

end Steps

section Preserved

variable [Fintype P] {size : Int} {s s' : State P}

theorem Words.not_committing (hw : Words s) {p : P} (hp : s.stage p = .inside op) :
    s.committing = false := by
  by_contra hcommitting
  have hempty := hw.quiet (by simpa using hcommitting)
  have hmem : p ∈ active s.stage := mem_active.mpr (by simp [hp, Stage.isInside])
  simp [hempty] at hmem

theorem words_initlog : Words (initlog P) := by
  constructor <;> simp [initlog, active, Stage.isInside, Stage.isCommitter]

theorem Words.logWrite (hw : Words s) {p : P} (hp : s.stage p = .inside op)
    (h : logWrite size s op sector = .ok s') : Words s' := by
  obtain ⟨-, -, -, rfl⟩ := logWrite_ok h
  have hmem : p ∈ active s.stage := mem_active.mpr (by simp [hp, Stage.isInside])
  have hcommitting := hw.not_committing hp
  refine ⟨hw.outstanding_eq, hw.committer_of_committing, hw.committing_of_committer, hw.quiet,
    hw.committer_unique, ?_, ?_, hw.asleep_waits⟩
  · intro hempty
    change active s.stage = ∅ at hempty
    simp [hempty] at hmem
  · intro q hq
    change s.stage q = .committed at hq
    have := hw.committing_of_committer q (by simp [hq, Stage.isCommitter])
    simp [hcommitting] at this

variable [DecidableEq P]

section

variable (hw : Words s) {p : P} (hp : s.stage p = .out ∨ s.stage p = .woken)
include hw hp

theorem Words.sleep (hwait : (active s.stage).Nonempty ∨ s.committing = true) :
    Words { s with stage := update s.stage p .asleep } := by
  have hinside : (s.stage p).isInside = false := by rcases hp with hp | hp <;> simp [hp, Stage.isInside]
  have hcommitter : (s.stage p).isCommitter = false := by
    rcases hp with hp | hp <;> simp [hp, Stage.isCommitter]
  have hactive : active (update s.stage p .asleep) = active s.stage := by
    rw [active_update_of_not_inside (by rfl)]
    exact Finset.erase_eq_of_notMem (by simp [mem_active, hinside])
  have hother : ∀ q, (update s.stage p .asleep q).isCommitter = true → (s.stage q).isCommitter = true := by
    intro q hq
    by_cases hqp : q = p
    · subst hqp
      simp [Stage.isCommitter] at hq
    · simpa [update_of_ne hqp] using hq
  constructor
  · simpa only [hactive] using hw.outstanding_eq
  · intro hcommitting
    obtain ⟨q, hq⟩ := hw.committer_of_committing hcommitting
    have hqp : q ≠ p := by
      rintro rfl
      simp [hcommitter] at hq
    exact ⟨q, by simpa [update_of_ne hqp] using hq⟩
  · exact fun q hq => hw.committing_of_committer q (hother q hq)
  · simpa only [hactive] using hw.quiet
  · exact fun q r hq hr => hw.committer_unique q r (hother q hq) (hother r hr)
  · simpa only [hactive] using hw.lh_of_idle
  · exact fun q hq => hw.lh_of_committed q (update_eq hq (by simp)).2
  · intro q _
    simpa only [hactive] using hwait

theorem Words.enter (hcommitting : s.committing = false) :
    Words { s with
      outstanding := s.outstanding + 1
      stage := update s.stage p (.inside s.nextOp)
      nextOp := s.nextOp + 1 } := by
  have hnew : p ∉ active s.stage := by
    rcases hp with hp | hp <;> simp [mem_active, hp, Stage.isInside]
  have hnone : ∀ q, (s.stage q).isCommitter = false := by
    intro q
    by_contra hq
    simp [hw.committing_of_committer q (by simpa using hq)] at hcommitting
  have hnone' : ∀ q, (update s.stage p (.inside s.nextOp) q).isCommitter = false := by
    intro q
    by_cases hqp : q = p
    · subst hqp
      simp [Stage.isCommitter]
    · simpa [update_of_ne hqp] using hnone q
  constructor
  · simp [active_update_inside, Finset.card_insert_of_notMem hnew, hw.outstanding_eq]
  · simp [hcommitting]
  · intro q hq
    simp [hnone' q] at hq
  · simp [hcommitting]
  · intro q r hq
    simp [hnone' q] at hq
  · simp [active_update_inside]
  · exact fun q hq => absurd hq (ne_committed (hnone' q))
  · intro q _
    simp [active_update_inside]

theorem Words.beginOp :
    Words (beginOp s p) := by
  rw [GroupCommit.beginOp]
  split
  · rename_i hcommitting
    exact hw.sleep hp (Or.inr hcommitting)
  · rename_i hcommitting
    split
    · rename_i hfull
      refine hw.sleep hp (Or.inl ?_)
      by_contra hidle
      have hempty := Finset.not_nonempty_iff_eq_empty.mp hidle
      have hlh := hw.lh_of_idle hempty (by simpa using hcommitting)
      simp [hw.outstanding_eq, hempty, hlh, maxOpBlocks, logSize] at hfull
    · exact hw.enter hp (by simpa using hcommitting)

end

theorem Words.endOp (hw : Words s) {p : P} {op : Nat} (hp : s.stage p = .inside op)
    (h : endOp s p = .ok s') : Words s' := by
  have hcommitting := hw.not_committing hp
  have hmem : p ∈ active s.stage := mem_active.mpr (by simp [hp, Stage.isInside])
  have hcard := Finset.card_erase_add_one hmem
  have hout := hw.outstanding_eq
  have hnone : ∀ q, (s.stage q).isCommitter = false := by
    intro q
    by_contra hq
    simp [hw.committing_of_committer q (by simpa using hq)] at hcommitting
  simp only [GroupCommit.endOp, hcommitting, Bool.false_eq_true, if_false] at h
  split at h
  · rename_i hlast
    obtain rfl := Except.ok.inj h
    have hactive : active (update s.stage p .mustCommit) = ∅ := by
      rw [active_update_of_not_inside (by rfl), ← Finset.card_eq_zero]
      omega
    have hself : ∀ q, (update s.stage p .mustCommit q).isCommitter = true → q = p := by
      intro q hq
      by_contra hqp
      simp [update_of_ne hqp, hnone q] at hq
    constructor
    · simp only [hactive, Finset.card_empty]
      exact hlast
    · exact fun _ => ⟨p, by simp [Stage.isCommitter]⟩
    · exact fun _ _ => rfl
    · exact fun _ => hactive
    · exact fun q r hq hr => (hself q hq).trans (hself r hr).symm
    · simp
    · intro q hq
      change update s.stage p .mustCommit q = .committed at hq
      have hqp := hself q (by simp [hq, Stage.isCommitter])
      subst hqp
      simp at hq
    · exact fun _ _ => Or.inr rfl
  · rename_i hmore
    obtain rfl := Except.ok.inj h
    have hactive : active (update (wakeup s.stage) p .out) = (active s.stage).erase p := by
      rw [active_update_of_not_inside (by rfl), active_wakeup]
    have hnone' : ∀ q, (update (wakeup s.stage) p .out q).isCommitter = false := by
      intro q
      by_cases hqp : q = p
      · subst hqp
        simp [Stage.isCommitter]
      · simpa [update_of_ne hqp, isCommitter_wakeup] using hnone q
    constructor
    · simp only [hactive]
      omega
    · simp
    · intro q hq
      simp [hnone' q] at hq
    · simp
    · intro q r hq
      simp [hnone' q] at hq
    · intro hempty
      simp only [hactive] at hempty
      simp [hempty] at hcard
      omega
    · exact fun q hq => absurd hq (ne_committed (hnone' q))
    · exact fun q hq => absurd (update_eq hq (by simp)).2 (wakeup_ne_asleep _ q)

theorem Words.commit (hw : Words s) {p : P} (hp : s.stage p = .mustCommit) : Words (commit s p) := by
  have hcommitting := hw.committing_of_committer p (by simp [hp, Stage.isCommitter])
  have hempty := hw.quiet hcommitting
  have hactive : active (update s.stage p .committed) = ∅ := by
    rw [active_update_of_not_inside (by rfl), hempty, Finset.erase_empty]
  have hself : ∀ q, (update s.stage p .committed q).isCommitter = true → q = p := by
    intro q hq
    by_contra hqp
    rw [update_of_ne hqp] at hq
    exact hqp (hw.committer_unique q p hq (by simp [hp, Stage.isCommitter]))
  have hwords : ∀ (pending : List Write) (transactions : List Transaction), Words { s with
      lh := [], stage := update s.stage p .committed, pending := pending,
      transactions := transactions } := by
    intro pending transactions
    constructor
    · simp only [hactive, hw.outstanding_eq, hempty]
    · exact fun _ => ⟨p, by simp [Stage.isCommitter]⟩
    · exact fun _ _ => hcommitting
    · exact fun _ => hactive
    · exact fun q r hq hr => (hself q hq).trans (hself r hr).symm
    · exact fun _ _ => rfl
    · exact fun _ _ => rfl
    · exact fun _ _ => Or.inr hcommitting
  rw [GroupCommit.commit]
  split
  · exact hwords _ _
  · rename_i hnil
    have hlh : s.lh = [] := length_eq_zero_iff.mp (by omega)
    have := hwords s.pending s.transactions
    rwa [← hlh] at this

theorem Words.endCommit (hw : Words s) {p : P} (hp : s.stage p = .committed) :
    Words (endCommit s p) := by
  have hcommitting := hw.committing_of_committer p (by simp [hp, Stage.isCommitter])
  have hempty := hw.quiet hcommitting
  have hactive : active (update (wakeup s.stage) p .out) = ∅ := by
    rw [active_update_of_not_inside (by rfl), active_wakeup, hempty, Finset.erase_empty]
  have hnone : ∀ q, (update (wakeup s.stage) p .out q).isCommitter = false := by
    intro q
    by_cases hqp : q = p
    · subst hqp
      simp [Stage.isCommitter]
    · rw [update_of_ne hqp, isCommitter_wakeup]
      by_contra hq
      exact hqp (hw.committer_unique q p (by simpa using hq) (by simp [hp, Stage.isCommitter]))
  constructor
  · simp only [GroupCommit.endCommit, hactive, hw.outstanding_eq, hempty]
  · simp [GroupCommit.endCommit]
  · intro q hq
    simp [GroupCommit.endCommit, hnone q] at hq
  · simp [GroupCommit.endCommit]
  · intro q r hq
    simp [GroupCommit.endCommit, hnone q] at hq
  · exact fun _ _ => hw.lh_of_committed p hp
  · exact fun _ _ => hw.lh_of_committed p hp
  · exact fun q hq => absurd (update_eq hq (by simp)).2 (wakeup_ne_asleep _ q)

theorem Words.step {a : Action P} (hw : Words s) (h : step size s a = some (.ok s')) : Words s' := by
  rcases step_cases h with ⟨p, hp, rfl⟩ | ⟨p, op, sector, hp, hok⟩ | ⟨p, op, hp, hok⟩ |
    ⟨p, hp, rfl⟩ | ⟨p, hp, rfl⟩
  · exact hw.beginOp hp
  · exact hw.logWrite hp hok
  · exact hw.endOp hp hok
  · exact hw.commit hp
  · exact hw.endCommit hp

end Preserved

section Recorded

variable {size outstanding : Int} {s s' : State P}

theorem ledger_initlog : Ledger (initlog P) := by
  constructor <;> simp [initlog]

theorem Ledger.move (hl : Ledger s) {stage : P → Stage} {committing : Bool}
    (hstage : ∀ p op, stage p = .inside op → s.stage p = .inside op) :
    Ledger { s with outstanding := outstanding, committing := committing, stage := stage } := by
  refine ⟨hl.lh_nodup, hl.mem_lh, hl.history_eq, hl.sectors_eq, hl.op_lt, ?_, ?_, ?_, hl.apart,
    hl.apart_pairwise⟩
  · exact fun p op hp => hl.inside_lt p op (hstage p op hp)
  · exact fun p q op hp hq => hl.inside_unique p q op (hstage p op hp) (hstage q op hq)
  · exact fun t ht w hw p hp => hl.ended t ht w hw p (hstage p w.op hp)

theorem Ledger.logWrite (hl : Ledger s) {p : P} (hp : s.stage p = .inside op)
    (h : logWrite size s op sector = .ok s') : Ledger s' := by
  obtain ⟨-, -, -, rfl⟩ := logWrite_ok h
  constructor
  · exact nodup_absorb hl.lh_nodup sector
  · intro b
    simp only [mem_absorb, hl.mem_lh b, mem_append, mem_singleton]
    constructor
    · rintro (⟨w, hw, rfl⟩ | rfl)
      · exact ⟨w, Or.inl hw, rfl⟩
      · exact ⟨⟨op, b⟩, Or.inr rfl, rfl⟩
    · rintro ⟨w, hw | rfl, rfl⟩
      · exact Or.inl ⟨w, hw, rfl⟩
      · exact Or.inr rfl
  · simp only [hl.history_eq, append_assoc]
  · exact hl.sectors_eq
  · intro w hw
    rcases mem_append.mp hw with hw | hw
    · exact hl.op_lt w hw
    · rw [mem_singleton] at hw
      subst hw
      exact hl.inside_lt p op hp
  · exact hl.inside_lt
  · exact hl.inside_unique
  · exact hl.ended
  · intro t ht w hw w' hw'
    rcases mem_append.mp hw' with hw' | hw'
    · exact hl.apart t ht w hw w' hw'
    · rw [mem_singleton] at hw'
      subst hw'
      rintro rfl
      exact hl.ended t ht w hw p hp
  · exact hl.apart_pairwise

variable [DecidableEq P] {p : P}

theorem Ledger.beginOp (hl : Ledger s) : Ledger (beginOp s p) := by
  have hsleep : Ledger { s with stage := update s.stage p .asleep } := by
    exact hl.move fun q op hq => (update_eq hq (by simp)).2
  rw [GroupCommit.beginOp]
  split
  · exact hsleep
  · split
    · exact hsleep
    · have hcases : ∀ q op, update s.stage p (.inside s.nextOp) q = .inside op →
          (q = p ∧ op = s.nextOp) ∨ s.stage q = .inside op := by
        intro q op hq
        by_cases hqp : q = p
        · subst hqp
          rw [update_self, Stage.inside.injEq] at hq
          exact Or.inl ⟨rfl, hq.symm⟩
        · exact Or.inr (by rwa [update_of_ne hqp] at hq)
      refine ⟨hl.lh_nodup, hl.mem_lh, hl.history_eq, hl.sectors_eq, ?_, ?_, ?_, ?_, hl.apart,
        hl.apart_pairwise⟩
      · exact fun w hw => Nat.lt_succ_of_lt (hl.op_lt w hw)
      · intro q op hq
        rcases hcases q op hq with ⟨-, rfl⟩ | hq
        · exact Nat.lt_succ_self _
        · exact Nat.lt_succ_of_lt (hl.inside_lt q op hq)
      · intro q r op hq hr
        rcases hcases q op hq with ⟨hqp, hop⟩ | hq <;> rcases hcases r op hr with ⟨hrp, hop'⟩ | hr
        · exact hqp.trans hrp.symm
        · have := hl.inside_lt r op hr
          omega
        · have := hl.inside_lt q op hq
          omega
        · exact hl.inside_unique q r op hq hr
      · intro t ht w hw q hq
        rcases hcases q w.op hq with ⟨-, hop⟩ | hq
        · have hlt := hl.op_lt w (by
            rw [hl.history_eq]
            exact mem_append_left _ (mem_flatMap.mpr ⟨t, ht, hw⟩))
          omega
        · exact hl.ended t ht w hw q hq

theorem Ledger.endOp (hl : Ledger s) (h : endOp s p = .ok s') : Ledger s' := by
  rw [GroupCommit.endOp] at h
  split at h
  · cases h
  · split at h
    · obtain rfl := Except.ok.inj h
      exact hl.move fun q op hq => (update_eq hq (by simp)).2
    · obtain rfl := Except.ok.inj h
      exact hl.move fun q op hq => wakeup_eq_inside.mp (update_eq hq (by simp)).2

theorem Ledger.commit (hl : Ledger s) (hquiet : ∀ q op, s.stage q ≠ .inside op) :
    Ledger (commit s p) := by
  have hquiet' : ∀ q op, update s.stage p .committed q ≠ .inside op := by
    intro q op hq
    exact hquiet q op (update_eq hq (by simp)).2
  rw [GroupCommit.commit]
  split
  · constructor
    · exact nodup_nil
    · simp
    · simp [hl.history_eq]
    · intro t ht
      rcases mem_append.mp ht with ht | ht
      · exact hl.sectors_eq t ht
      · rw [mem_singleton] at ht
        subst ht
        exact hl.mem_lh
    · exact hl.op_lt
    · exact fun q op hq => absurd hq (hquiet' q op)
    · exact fun q r op hq => absurd hq (hquiet' q op)
    · exact fun t _ w _ q => hquiet' q w.op
    · simp
    · refine pairwise_append.mpr ⟨hl.apart_pairwise, pairwise_singleton _ _, ?_⟩
      intro t ht t' ht'
      rw [mem_singleton] at ht'
      subst ht'
      exact hl.apart t ht
  · exact hl.move fun q op hq => absurd hq (hquiet' q op)

theorem Ledger.endCommit (hl : Ledger s) : Ledger (endCommit s p) :=
  hl.move fun q op hq => wakeup_eq_inside.mp (update_eq hq (by simp)).2

theorem Ledger.step [Fintype P] {a : Action P} (hw : Words s) (hl : Ledger s)
    (h : step size s a = some (.ok s')) : Ledger s' := by
  rcases step_cases h with ⟨p, -, rfl⟩ | ⟨p, op, sector, hp, hok⟩ | ⟨p, op, -, hok⟩ |
    ⟨p, hp, rfl⟩ | ⟨p, -, rfl⟩
  · exact hl.beginOp
  · exact hl.logWrite hp hok
  · exact hl.endOp hok
  · refine hl.commit fun q op hq => ?_
    have hempty := hw.quiet (hw.committing_of_committer p (by simp [hp, Stage.isCommitter]))
    have hmem : q ∈ active s.stage := mem_active.mpr (by simp [hq, Stage.isInside])
    simp [hempty] at hmem
  · exact hl.endCommit

omit [DecidableEq P] in
theorem Ledger.whole (hl : Ledger s) {t : Transaction} (ht : t ∈ s.transactions) {w w' : Write}
    (hw : w ∈ t.writes) (hw' : w' ∈ s.history) (hop : w'.op = w.op) : w' ∈ t.writes := by
  rw [hl.history_eq] at hw'
  rcases mem_append.mp hw' with hw' | hw'
  · obtain ⟨t', ht', hw'⟩ := mem_flatMap.mp hw'
    by_cases htt : t' = t
    · rwa [htt] at hw'
    · have : Std.Symm fun u u' : Transaction => ∀ x ∈ u.writes, ∀ x' ∈ u'.writes, x'.op ≠ x.op :=
        ⟨fun _ _ h x hx x' hx' heq => h x' hx' x hx heq.symm⟩
      exact absurd hop (hl.apart_pairwise.forall ht ht' (Ne.symm htt) w hw w' hw')
  · exact absurd hop (hl.apart t ht w hw w' hw')

end Recorded

section Runs

variable [DecidableEq P] [Fintype P] {size : Int} {s s' : State P} {p : P}

theorem reachable_invariant (h : (system size : System (State P) (Action P)).Reachable s) :
    Words s ∧ Ledger s := by
  refine h.invariant (I := fun s => Words s ∧ Ledger s) ?_ ?_
  · rintro _ rfl
    exact ⟨words_initlog, ledger_initlog⟩
  · exact fun t a t' ⟨hw, hl⟩ hstep => ⟨hw.step hstep, hl.step hw hstep⟩

structure NeverSplits (size : Int) (s : State P) : Prop where
  outstanding_eq : s.outstanding = (active s.stage).card
  /-- `log.committing` is set for as long as a process is in the commit part of `end_op`. -/
  committing_iff : s.committing = true ↔ ∃ p, (s.stage p).isCommitter = true
  commit_alone : ∀ p r, step size s (.commit p) = some r → active s.stage = ∅
  no_beginOp : s.committing = true →
    ∀ p s', step size s (.beginOp p) = some (.ok s') → s'.stage p = .asleep
  no_logWrite : s.committing = true → ∀ p sector, step size s (.logWrite p sector) = none
  /-- A transaction has all `log_write`s of every operation it has one of. -/
  whole : ∀ t ∈ s.transactions, ∀ w ∈ t.writes, ∀ w' ∈ s.history, w'.op = w.op →
    w' ∈ t.writes ∧ w'.sector ∈ t.sectors
  no_panic : ∀ a, step size s a ≠ some (.error .logCommitting) ∧
    step size s a ≠ some (.error .logWriteOutsideOfTrans)
  lh_of_idle : s.outstanding = 0 → s.committing = false → s.lh = []
  /-- A sleeper has somebody to wait for, -/
  asleep_waits : ∀ p, s.stage p = .asleep →
    (active s.stage).Nonempty ∨ ∃ q, (s.stage q).isCommitter = true
  /-- and is woken when the last of them is done. -/
  endOp_wakes : ∀ p s', step size s (.endOp p) = some (.ok s') →
    s'.committing = true ∨ ∀ q, s'.stage q ≠ .asleep
  endCommit_wakes : ∀ p s', step size s (.endCommit p) = some (.ok s') → ∀ q, s'.stage q ≠ .asleep

theorem Words.no_panic (hw : Words s) (a : Action P) :
    GroupCommit.step size s a ≠ some (.error .logCommitting) ∧
      GroupCommit.step size s a ≠ some (.error .logWriteOutsideOfTrans) := by
  cases a with
  | beginOp p => cases hp : s.stage p <;> simp [GroupCommit.step, hp]
  | commit p => cases hp : s.stage p <;> simp [GroupCommit.step, hp]
  | endCommit p => cases hp : s.stage p <;> simp [GroupCommit.step, hp]
  | endOp p =>
    cases hp : s.stage p with
    | inside op =>
      simp only [GroupCommit.step, hp, GroupCommit.endOp, hw.not_committing hp, Bool.false_eq_true, if_false]
      split <;> simp
    | _ => simp [GroupCommit.step, hp]
  | logWrite p sector =>
    cases hp : s.stage p with
    | inside op =>
      have hmem : p ∈ active s.stage := mem_active.mpr (by simp [hp, Stage.isInside])
      have hpos := Finset.card_pos.mpr ⟨p, hmem⟩
      have hout := hw.outstanding_eq
      simp only [GroupCommit.step, hp, GroupCommit.logWrite]
      split
      · simp
      · rw [if_neg (by omega)]
        simp
    | _ => simp [GroupCommit.step, hp]

omit [DecidableEq P] in
theorem Words.committing_iff (hw : Words s) :
    s.committing = true ↔ ∃ p, (s.stage p).isCommitter = true :=
  ⟨hw.committer_of_committing, fun ⟨p, hp⟩ => hw.committing_of_committer p hp⟩

theorem Words.no_logWrite (hw : Words s) (hcommitting : s.committing = true) (p : P) (sector : Nat) :
    GroupCommit.step size s (.logWrite p sector) = none := by
  cases hp : s.stage p with
  | inside op => simp [hw.not_committing hp] at hcommitting
  | _ => simp [GroupCommit.step, hp]

omit [Fintype P] in
theorem endCommit_wakes (h : step size s (.endCommit p) = some (.ok s')) (q : P) : s'.stage q ≠ .asleep := by
  cases hp : s.stage p <;> simp [step, hp] at h
  subst h
  by_cases hq : q = p
  · subst hq
    simp [endCommit]
  · simp [endCommit, update_of_ne hq, wakeup_ne_asleep]

omit [Fintype P] in
theorem endOp_wakes (h : step size s (.endOp p) = some (.ok s')) :
    s'.committing = true ∨ ∀ q, s'.stage q ≠ .asleep := by
  cases hp : s.stage p <;> simp only [step, hp, reduceCtorEq, Option.some.injEq] at h
  rw [endOp] at h
  split at h
  · cases h
  · split at h
    · obtain rfl := Except.ok.inj h
      exact Or.inl rfl
    · obtain rfl := Except.ok.inj h
      refine Or.inr fun q => ?_
      by_cases hq : q = p
      · subst hq
        simp
      · simp [update_of_ne hq, wakeup_ne_asleep]

/-- **Group commit never splits an operation**, in any interleaving of any number of processes. -/
theorem group_commit_never_splits (size : Int)
    (h : (system size : System (State P) (Action P)).Reachable s) : NeverSplits size s := by
  obtain ⟨hw, hl⟩ := reachable_invariant h
  refine ⟨hw.outstanding_eq, hw.committing_iff, ?_, ?_, hw.no_logWrite, ?_, hw.no_panic, ?_, ?_,
    fun p s' => endOp_wakes, fun p s' => endCommit_wakes⟩
  · intro p r hcommit
    cases hp : s.stage p <;> simp [step, hp] at hcommit
    exact hw.quiet (hw.committing_of_committer p (by simp [hp, Stage.isCommitter]))
  · intro hcommitting p s' hbegin
    cases hp : s.stage p <;> simp [step, hp] at hbegin <;> subst hbegin <;>
      simp [beginOp, hcommitting]
  · intro t ht w hwt w' hw' hop
    have hmem := hl.whole ht hwt hw' hop
    exact ⟨hmem, (hl.sectors_eq t ht w'.sector).mpr ⟨w', hmem, rfl⟩⟩
  · intro hout hcommitting
    refine hw.lh_of_idle ?_ hcommitting
    have := hw.outstanding_eq
    exact Finset.card_eq_zero.mp (by omega)
  · intro p hp
    rcases hw.asleep_waits p hp with hactive | hcommitting
    · exact Or.inl hactive
    · exact Or.inr (hw.committer_of_committing hcommitting)

end Runs

/-- Two overlapping operations, committed together by the second to end. -/
theorem group_commit_never_splits_overlap : ∃ s : State (Fin 2),
    (system 30 : System (State (Fin 2)) (Action (Fin 2))).Reachable s ∧
      s.transactions = [⟨[5, 7], [⟨0, 5⟩, ⟨1, 7⟩, ⟨0, 5⟩]⟩] ∧ NeverSplits 30 s := by
  obtain ⟨s, hs, htest⟩ := System.exists_reachable_of_follow (fun _ _ => True)
    (step 30) (initlog (Fin 2))
    [.beginOp 0, .logWrite 0 5, .beginOp 1, .logWrite 1 7, .logWrite 0 5, .endOp 0, .endOp 1, .commit 1]
    (fun s => decide (s.transactions = [⟨[5, 7], [⟨0, 5⟩, ⟨1, 7⟩, ⟨0, 5⟩]⟩])) (by decide)
  exact ⟨s, hs.of_restrict, by simpa using htest, group_commit_never_splits 30 hs.of_restrict⟩

end RainOS.GroupCommit
