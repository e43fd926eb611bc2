import RainOS.Lib.Store
import RainOS.Lib.System
import RainOS.Log.Code
import Mathlib.Data.Fintype.Basic
import Mathlib.Data.List.Nodup

/-!
# Calls of log_write at the same time

`log_write` takes no lock. A call is two atomic steps: the scan, which finds the slot of the sector or the end of
the header, and the recording in that slot. Between the two, any number of other calls may scan and record. Two
calls that scan for new sectors before either records have found the same slot, and the second overwrites what
the first recorded.
-/

namespace RainOS.LogWrites

open Function List

variable {P : Type} [DecidableEq P] {x i y j : Nat} {p q : P} {lh : List Nat}

/-- The log, the sector and the slot of each call between its two steps, and the sectors that calls were given. -/
structure State (P : Type) where
  log : Log
  calls : P → Option (Nat × Nat)
  passed : List Nat

inductive Action (P : Type)
  | scan (p : P) (sector : Nat)
  | record (p : P)

/-- The slot the scan ends at: the first entry for the sector, or `lh.n`. -/
def slot (lh : List Nat) (sector : Nat) : Nat := lh.idxOf sector

/-- Store a sector in a slot, and count the slot if it is the one behind the last. -/
def store (lh : List Nat) (i sector : Nat) : List Nat := if i = lh.length then lh ++ [sector] else lh.set i sector

def step (s : State P) : Action P → Option (Except Halt (State P))
  | .scan p sector =>
    if s.calls p ≠ none then none
    else if s.log.lh.length ≥ logSize ∨ (s.log.lh.length : Int) ≥ s.log.size - 1 then
      some (.error (.panic "too big a transaction"))
    else if s.log.outstanding < 1 then some (.error (.panic "log_write outside of trans"))
    else some (.ok { s with
      calls := Function.update s.calls p (some (sector, slot s.log.lh sector))
      passed := sector :: s.passed })
  | .record p =>
    match s.calls p with
    | none => none
    | some (sector, i) => some (.ok { s with
        log := { s.log with lh := store s.log.lh i sector }
        calls := Function.update s.calls p none })

def quiet (log : Log) : State P := ⟨log, fun _ => none, []⟩

def system (log : Log) : System (State P) (Action P) := System.ofStep (quiet log) step

/-- A call that scans for a sector that is not in the log does so while no call for another sector is about to
record at the end. -/
def Alone (s : State P) : Action P → Prop
  | .scan _ sector => sector ∈ s.log.lh ∨ ∀ q, ∀ call ∈ s.calls q, call.2 = s.log.lh.length → call.1 = sector
  | .record _ => True

instance [Fintype P] (s : State P) (a : Action P) : Decidable (Alone s a) :=
  match a with
  | .scan _ _ => inferInstanceAs (Decidable (_ ∨ _))
  | .record _ => .isTrue trivial

theorem slot_of_mem (h : x ∈ lh) : slot lh x < lh.length ∧ lh[slot lh x]? = some x := by
  have hlt : slot lh x < lh.length := idxOf_lt_length_of_mem h
  exact ⟨hlt, List.getElem?_eq_some_iff.mpr ⟨hlt, List.getElem_idxOf hlt⟩⟩

theorem slot_of_not_mem (h : x ∉ lh) : slot lh x = lh.length := idxOf_of_notMem h

theorem store_end (lh : List Nat) (x : Nat) : store lh lh.length x = lh ++ [x] := if_pos rfl

theorem store_same (h : lh[i]? = some x) : store lh i x = lh := by
  obtain ⟨hlt, hget⟩ := List.getElem?_eq_some_iff.mp h
  rw [store, if_neg (Nat.ne_of_lt hlt), ← hget, set_getElem_self]

/-- A call between its steps has found its sector, or the end of a log without it. -/
def Found (lh : List Nat) (x i : Nat) : Prop := lh[i]? = some x ∨ i = lh.length ∧ x ∉ lh

structure Inv (s : State P) : Prop where
  nodup : s.log.lh.Nodup
  found : ∀ p x i, s.calls p = some (x, i) → Found s.log.lh x i
  same : ∀ p q x y, s.calls p = some (x, s.log.lh.length) → s.calls q = some (y, s.log.lh.length) → x = y
  given : ∀ p x i, s.calls p = some (x, i) → x ∈ s.passed
  kept : ∀ x ∈ s.passed, x ∈ s.log.lh ∨ ∃ p i, s.calls p = some (x, i)

theorem scan_cases {s s' : State P} (h : step s (.scan p x) = some (.ok s')) :
    s.calls p = none ∧ s' = { s with
      calls := update s.calls p (some (x, slot s.log.lh x)), passed := x :: s.passed } := by
  rw [step] at h
  split at h
  · cases h
  rename_i hnone
  split at h
  · cases h
  split at h
  · cases h
  cases h
  exact ⟨not_not.mp hnone, rfl⟩

def recorded (s : State P) (p : P) (x i : Nat) : State P :=
  { s with log := { s.log with lh := store s.log.lh i x }, calls := Function.update s.calls p none }

theorem record_run {s : State P} (h : s.calls p = some (x, i)) :
    step s (.record p) = some (.ok (recorded s p x i)) := by
  rw [step, h]
  rfl

theorem record_cases {s s' : State P} (h : step s (.record p) = some (.ok s')) :
    ∃ x i, s.calls p = some (x, i) ∧ s' = recorded s p x i := by
  cases hcall : s.calls p with
  | none =>
    rw [step, hcall] at h
    cases h
  | some call =>
    rw [record_run hcall] at h
    cases h
    exact ⟨call.1, call.2, rfl, rfl⟩

theorem Found.slot (lh : List Nat) (x : Nat) : Found lh x (slot lh x) := by
  by_cases h : x ∈ lh
  · exact .inl (slot_of_mem h).2
  · exact .inr ⟨slot_of_not_mem h, h⟩

theorem calls_scan {calls : P → Option (Nat × Nat)} (h : update calls p (some (x, i)) q = some (y, j)) : y = x ∧ j = i ∨ calls q = some (y, j) := by
  by_cases hqp : q = p
  · rw [hqp, update_self] at h
    cases h
    exact .inl ⟨rfl, rfl⟩
  · rw [update_of_ne hqp] at h
    exact .inr h

theorem Inv.scan {s s' : State P} (h : Inv s) (halone : Alone s (.scan p x))
    (hstep : step s (.scan p x) = some (.ok s')) : Inv s' := by
  obtain ⟨hnone, rfl⟩ := scan_cases hstep
  -- A call that is about to record at the end has the sector of the new one, if that is to record there too.
  have hend : ∀ q y, s.calls q = some (y, s.log.lh.length) → s.log.lh.length = slot s.log.lh x → y = x := by
    intro q y hq hslot
    obtain hin | hsame := halone
    · exact absurd hslot.symm (Nat.ne_of_lt (slot_of_mem hin).1)
    · exact hsame q _ hq rfl
  refine ⟨h.nodup, ?_, ?_, ?_, ?_⟩
  · intro q y i hq
    obtain ⟨rfl, rfl⟩ | hq := calls_scan hq
    · exact .slot s.log.lh y
    · exact h.found q y i hq
  · intro q r y z hq hr
    obtain ⟨rfl, hslot⟩ | hq := calls_scan hq <;> obtain ⟨rfl, hslot'⟩ | hr := calls_scan hr
    · rfl
    · exact (hend r z hr hslot).symm
    · exact hend q y hq hslot'
    · exact h.same q r y z hq hr
  · intro q y i hq
    obtain ⟨rfl, -⟩ | hq := calls_scan hq
    · exact mem_cons_self
    · exact mem_cons_of_mem x (h.given q y i hq)
  · intro y hy
    obtain rfl | hy := mem_cons.mp hy
    · exact .inr ⟨p, _, update_self ..⟩
    · refine (h.kept y hy).imp_right fun ⟨q, i, hq⟩ => ⟨q, i, ?_⟩
      have hqp : q ≠ p := fun heq => by
        rw [heq, hnone] at hq
        cases hq
      exact (update_of_ne hqp ..).trans hq

theorem store_spec (hnodup : lh.Nodup) (h : Found lh x i) :
    (store lh i x).Nodup ∧ (∀ y, y ∈ store lh i x ↔ y ∈ lh ∨ y = x) ∧
      (store lh i x = lh ∧ lh[i]? = some x ∨ i = lh.length ∧ x ∉ lh ∧ store lh i x = lh ++ [x]) := by
  obtain hget | ⟨rfl, hnew⟩ := h
  · have hin : x ∈ lh := mem_of_getElem? hget
    refine ⟨by rwa [store_same hget], fun y => ?_, .inl ⟨store_same hget, hget⟩⟩
    rw [store_same hget]
    refine ⟨.inl, fun hy => hy.elim id fun heq => ?_⟩
    rwa [heq]
  · refine ⟨?_, fun y => ?_, .inr ⟨rfl, hnew, store_end lh x⟩⟩
    · rw [store_end]
      exact concat_eq_append ▸ hnodup.concat hnew
    · rw [store_end, mem_append, mem_singleton]

theorem Inv.record {s s' : State P} (h : Inv s) (hstep : step s (.record p) = some (.ok s')) : Inv s' := by
  obtain ⟨x, i, hcall, rfl⟩ := record_cases hstep
  obtain ⟨hnodup, hmem, hcases⟩ := store_spec h.nodup (h.found p x i hcall)
  have hothers : ∀ q y j, update s.calls p none q = some (y, j) → s.calls q = some (y, j) := by
    intro q y j hq
    exact (update_eq hq nofun).2
  -- A call for another sector keeps what it has found; no such call was to record at the end.
  have hfound : ∀ q y j, s.calls q = some (y, j) → Found (store s.log.lh i x) y j ∧
      (j = (store s.log.lh i x).length → store s.log.lh i x = s.log.lh) := by
    intro q y j hq
    obtain ⟨hkeep, -⟩ | ⟨rfl, hnew, happend⟩ := hcases
    · rw [hkeep]
      exact ⟨h.found q y j hq, fun _ => rfl⟩
    · rw [happend, length_append]
      obtain hget | ⟨rfl, -⟩ := h.found q y j hq
      · obtain ⟨hlt, -⟩ := List.getElem?_eq_some_iff.mp hget
        refine ⟨.inl ?_, fun hj => absurd hj (Nat.ne_of_lt (Nat.lt_add_right 1 hlt))⟩
        rwa [getElem?_append_left hlt]
      · obtain rfl := h.same q p y x hq hcall
        refine ⟨.inl getElem?_concat_length, fun hj => ?_⟩
        rw [length_singleton] at hj
        omega
  refine ⟨hnodup, fun q y j hq => (hfound q y j (hothers q y j hq)).1, ?_,
    fun q y j hq => h.given q y j (hothers q y j hq), ?_⟩
  · intro q r y z hq hr
    have hq' := hothers q y _ hq
    have hr' := hothers r z _ hr
    have hkeep := (hfound q y _ hq').2 rfl
    change s.calls q = some (y, (store s.log.lh i x).length) at hq'
    change s.calls r = some (z, (store s.log.lh i x).length) at hr'
    rw [hkeep] at hq' hr'
    exact h.same q r y z hq' hr'
  · intro y hy
    change y ∈ store s.log.lh i x ∨ _
    rw [hmem]
    obtain hin | ⟨q, j, hq⟩ := h.kept y hy
    · exact .inl (.inl hin)
    · by_cases hqp : q = p
      · rw [hqp, hcall] at hq
        cases hq
        exact .inl (.inr rfl)
      · exact .inr ⟨q, j, (update_of_ne hqp ..).trans hq⟩

theorem inv_of_reachable {log : Log} (hlog : log.lh.Nodup) {s : State P} (h : ((system log).restrict Alone).Reachable s) :
    Inv s := by
  refine h.invariant ?_ ?_
  · rintro s rfl
    exact ⟨hlog, nofun, nofun, nofun, nofun⟩
  · rintro s a s' hs ⟨halone, hstep⟩
    cases a with
    | scan p x => exact hs.scan halone hstep
    | record p => exact hs.record hstep

theorem overwritten {s : State P} (hne : y ≠ x) (hnew : y ∉ s.log.lh) (hpq : p ≠ q)
    (hp : s.calls p = some (x, s.log.lh.length)) (hq : s.calls q = some (y, s.log.lh.length)) :
    ∃ s₁ s₂, step s (.record q) = some (.ok s₁) ∧ step s₁ (.record p) = some (.ok s₂) ∧ y ∉ s₂.log.lh := by
  have hp' : update s.calls q none p = some (x, s.log.lh.length) := (update_of_ne hpq ..).trans hp
  have hlast : store (s.log.lh ++ [y]) s.log.lh.length x = s.log.lh ++ [x] := by
    rw [store, if_neg (by simp), set_append_right _ _ (Nat.le_refl _), Nat.sub_self]
    rfl
  refine ⟨_, _, record_run hq, record_run hp', ?_⟩
  change y ∉ store (store s.log.lh s.log.lh.length y) s.log.lh.length x
  rw [store_end, hlast, mem_append, mem_singleton]
  exact fun h => h.elim hnew hne

/-- In a run in which every call that scans for a new sector finds no call for another sector about to record at
the end, the log has every sector once when all calls have finished. A scan that breaks this leaves a call whose
sector is lost when the other one records after it. -/
theorem logWrite_loses_no_block {log : Log} (hlog : log.lh.Nodup) {s : State P}
    (h : ((system log).restrict Alone).Reachable s) :
    ((∀ p, s.calls p = none) → ∀ x ∈ s.passed, s.log.lh.count x = 1) ∧
      ∀ p x t, step s (.scan p x) = some (.ok t) → ¬Alone s (.scan p x) →
        ∃ q y t₁ t₂, y ∈ t.passed ∧ step t (.record q) = some (.ok t₁) ∧ step t₁ (.record p) = some (.ok t₂) ∧
          y ∉ t₂.log.lh := by
  have hinv := inv_of_reachable hlog h
  constructor
  · intro hdone x hx
    obtain hin | ⟨p, i, hcall⟩ := hinv.kept x hx
    · exact count_eq_one_of_mem hinv.nodup hin
    · rw [hdone p] at hcall
      cases hcall
  · intro p x t hstep hnot
    obtain ⟨hnone, rfl⟩ := scan_cases hstep
    obtain ⟨hx, hother⟩ := not_or.mp hnot
    push Not at hother
    obtain ⟨q, ⟨y, i⟩, hq, rfl, hne⟩ := hother
    have hpq : p ≠ q := fun heq => by
      rw [heq, hq] at hnone
      cases hnone
    have hq' : update s.calls p (some (x, slot s.log.lh x)) q = some (y, s.log.lh.length) :=
      (update_of_ne hpq.symm ..).trans hq
    have hp' : update s.calls p (some (x, slot s.log.lh x)) p = some (x, s.log.lh.length) := by
      rw [update_self, slot_of_not_mem hx]
    obtain hget | ⟨-, hy⟩ := hinv.found q y _ hq
    · simp at hget
    · obtain ⟨t₁, t₂, h₁, h₂, hlost⟩ := overwritten (s := { s with
        calls := update s.calls p (some (x, slot s.log.lh x)), passed := x :: s.passed }) hne hy hpq hp' hq'
      exact ⟨q, y, t₁, t₂, mem_cons_of_mem x (hinv.given q y _ hq), h₁, h₂, hlost⟩

def sampleLog : Log := ⟨⟨994, 30⟩, 1, false, []⟩

theorem logWrite_loses_no_block_two : ∃ s : State (Fin 2), ((system sampleLog).restrict Alone).Reachable s ∧
    (∀ p, s.calls p = none) ∧ s.passed = [6, 5] ∧ s.log.lh.count 5 = 1 := by
  obtain ⟨s, hs, htest⟩ := System.exists_reachable_of_follow Alone step (quiet (P := Fin 2) sampleLog)
    [.scan 0 5, .record 0, .scan 1 6, .record 1] (fun s => decide ((∀ p, s.calls p = none) ∧ s.passed = [6, 5]))
    (by decide)
  obtain ⟨hdone, hpassed⟩ := of_decide_eq_true htest
  exact ⟨s, hs, hdone, hpassed, (logWrite_loses_no_block nodup_nil hs).1 hdone 5 (by rw [hpassed]; decide)⟩

/-- Both calls scan before either records: the first sector is lost. -/
theorem logWrite_overwrites : ∃ s : State (Fin 2), (system sampleLog).Reachable s ∧ (∀ p, s.calls p = none) ∧
    s.passed = [6, 5] ∧ s.log.lh = [6] := by
  obtain ⟨s, hs, htest⟩ := System.exists_reachable_of_follow (fun _ _ => True) step (quiet (P := Fin 2) sampleLog)
    [.scan 0 5, .scan 1 6, .record 0, .record 1]
    (fun s => decide ((∀ p, s.calls p = none) ∧ s.passed = [6, 5] ∧ s.log.lh = [6])) (by decide)
  exact ⟨s, hs.of_restrict, of_decide_eq_true htest⟩

end RainOS.LogWrites
