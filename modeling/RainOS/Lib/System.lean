import Mathlib.Data.List.Basic

/-!
# Transition systems

A labelled transition system, the states it can reach, and the two ways an invariant is carried
along a run: from one step to every reachable state, and from a run of the system to a run of a
system whose steps must meet an extra condition. A functional step, which may refuse a label or
fail, is read as a system by `ofStep`, and an explicit schedule then witnesses that a state is
reachable.
-/

namespace RainOS

structure System (σ α : Type*) where
  Init : σ → Prop
  Step : σ → α → σ → Prop

namespace System

variable {σ α ε ρ : Type*} {s s' init : σ} {S T : System σ α} {ok : σ → α → Prop} {step : σ → α → Option (Except ε σ)}
  {as : List α}

inductive Reachable (S : System σ α) : σ → Prop
  | init {s : σ} : S.Init s → S.Reachable s
  | step {s s' : σ} {a : α} : S.Reachable s → S.Step s a s' → S.Reachable s'

/-- The system whose steps must also meet a condition on the state they start from. -/
def restrict (S : System σ α) (ok : σ → α → Prop) : System σ α where
  Init := S.Init
  Step s a s' := ok s a ∧ S.Step s a s'

theorem Reachable.invariant {I : σ → Prop} (hinit : ∀ s, S.Init s → I s)
    (hstep : ∀ s a s', I s → S.Step s a s' → I s') {s : σ} (h : S.Reachable s) : I s := by
  induction h with
  | init hs => exact hinit _ hs
  | step _ hstep' ih => exact hstep _ _ _ ih hstep'

theorem Reachable.of_restrict (h : (S.restrict ok).Reachable s) : S.Reachable s := by
  induction h with
  | init hs => exact .init hs
  | step _ hstep ih => exact .step ih hstep.2

theorem Reachable.mono (hinit : ∀ s, S.Init s → T.Init s)
    (hstep : ∀ s a s', S.Step s a s' → T.Step s a s') {s : σ} (h : S.Reachable s) : T.Reachable s := by
  induction h with
  | init hs => exact .init (hinit _ hs)
  | step _ hstep' ih => exact .step ih (hstep _ _ _ hstep')

theorem Reachable.restrict_true (h : S.Reachable s) :
    (S.restrict fun _ _ => True).Reachable s := by
  induction h with
  | init hs => exact .init hs
  | step _ hstep ih => exact .step ih ⟨trivial, hstep⟩

/-- The system that also keeps a record of what was done. -/
def record {ρ : Type*} (S : System σ α) (start : ρ) (note : σ → α → ρ → ρ) : System (σ × ρ) α where
  Init t := S.Init t.1 ∧ t.2 = start
  Step t a t' := S.Step t.1 a t'.1 ∧ t'.2 = note t.1 a t.2

theorem Reachable.exists_record (h : S.Reachable s) (start : ρ)
    (note : σ → α → ρ → ρ) : ∃ r, (S.record start note).Reachable (s, r) := by
  induction h with
  | init hs => exact ⟨start, .init ⟨hs, rfl⟩⟩
  | step _ hstep ih =>
    obtain ⟨r, hr⟩ := ih
    exact ⟨_, hr.step ⟨hstep, rfl⟩⟩

/-- A step function that refuses a label with `none` and fails on it with `error`. -/
def ofStep (init : σ) (step : σ → α → Option (Except ε σ)) : System σ α where
  Init s := s = init
  Step s a s' := step s a = some (.ok s')

/-- Follow a schedule for as long as every step meets the condition and none is refused or fails. -/
def follow (ok : σ → α → Prop) [∀ s a, Decidable (ok s a)] (step : σ → α → Option (Except ε σ)) :
    σ → List α → Option σ
  | s, [] => some s
  | s, a :: as =>
    if ok s a then
      match step s a with
      | some (.ok s') => follow ok step s' as
      | _ => none
    else none

theorem follow_cons [∀ s a, Decidable (ok s a)] {a : α} (h : follow ok step s (a :: as) = some s') :
    ∃ t, ok s a ∧ step s a = some (.ok t) ∧ follow ok step t as = some s' := by
  rw [follow] at h
  split at h
  · rename_i hok
    split at h
    · rename_i t ht
      exact ⟨t, hok, ht, h⟩
    · cases h
  · cases h

theorem Reachable.follow [∀ s a, Decidable (ok s a)] (h : ((ofStep init step).restrict ok).Reachable s)
    (hrun : System.follow ok step s as = some s') :
    ((ofStep init step).restrict ok).Reachable s' := by
  induction as generalizing s with
  | nil =>
    cases hrun
    exact h
  | cons a as ih =>
    obtain ⟨t, hok, ht, hrest⟩ := follow_cons hrun
    exact ih (h.step ⟨hok, ht⟩) hrest

/-- A schedule whose end passes a test shows that some reachable state does. -/
theorem exists_reachable_of_follow (ok : σ → α → Prop) [∀ s a, Decidable (ok s a)]
    (step : σ → α → Option (Except ε σ)) (init : σ) (as : List α) (test : σ → Bool)
    (hrun : (System.follow ok step init as).any test = true) :
    ∃ s, ((ofStep init step).restrict ok).Reachable s ∧ test s = true := by
  obtain ⟨s, hs, htest⟩ := (Option.any_eq_true _ _).mp hrun
  exact ⟨s, (Reachable.init rfl : ((ofStep init step).restrict ok).Reachable init).follow hs, htest⟩

end System

end RainOS
