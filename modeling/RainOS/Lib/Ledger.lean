import Mathlib.Data.List.Basic

/-!
# Logs of numbered calls

Calls that run in turns append what they did to one log, each entry under the number of its call. The log as a whole is
one sequence, and so is the part of it that belongs to a call.
-/

namespace RainOS

open List

variable {α : Type*}

/-- Everything in the log, in order. -/
def logged (log : List (Nat × List α)) : List α := log.flatMap Prod.snd

/-- What one call has put there. -/
def loggedBy (id : Nat) (log : List (Nat × List α)) : List α := logged (log.filter (·.1 = id))

theorem logged_append (log : List (Nat × List α)) (id : Nat) (xs : List α) :
    logged (log ++ [(id, xs)]) = logged log ++ xs := by
  rw [logged, logged, flatMap_append, flatMap_singleton]

theorem loggedBy_append (log : List (Nat × List α)) (id id' : Nat) (xs : List α) :
    loggedBy id' (log ++ [(id, xs)]) = loggedBy id' log ++ if id = id' then xs else [] := by
  rw [loggedBy, loggedBy, filter_append]
  split
  · rename_i heq
    rw [filter_singleton, decide_eq_true heq, cond_true, logged_append]
  · rename_i hne
    rw [filter_singleton, decide_eq_false hne, cond_false, append_nil, append_nil]

theorem loggedBy_eq_nil {log : List (Nat × List α)} {id : Nat} (h : ∀ x ∈ log, x.1 < id) : loggedBy id log = [] := by
  have hnone : log.filter (·.1 = id) = [] := by
    rw [filter_eq_nil_iff]
    intro x hx heq
    have hlt := h x hx
    rw [decide_eq_true_eq] at heq
    omega
  rw [loggedBy, hnone]
  rfl

end RainOS
