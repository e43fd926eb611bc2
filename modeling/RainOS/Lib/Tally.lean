import Mathlib.Algebra.BigOperators.Group.Finset.Piecewise
import Mathlib.Algebra.Order.BigOperators.Group.Finset
import Mathlib.Data.Fintype.Basic

/-!
# Counting in a finite table

How many entries of a table satisfy a predicate, and what replacing one entry does to that number.
-/

namespace RainOS

open Function Finset

variable {ι β : Type*} [Fintype ι] (p : β → Prop) [DecidablePred p]

def tally (f : ι → β) : Nat := ∑ i, if p (f i) then 1 else 0

/-- What replacing one entry does to a sum over the table. -/
theorem sum_update_add [DecidableEq ι] (w : β → Nat) (f : ι → β) (i : ι) (v : β) :
    ∑ j, w (update f i v j) + w (f i) = ∑ j, w (f j) + w v := by
  have hcomp : (fun j => w (update f i v j)) = update (fun j => w (f j)) i (w v) := comp_update w f i v
  have hnew : ∑ j, w (update f i v j) = w v + ∑ j ∈ univ \ {i}, w (f j) := by
    rw [hcomp, sum_update_of_mem (mem_univ i)]
  have hold : ∑ j, w (f j) = w (f i) + ∑ j ∈ univ \ {i}, w (f j) := by
    rw [sdiff_singleton_eq_erase]
    exact (add_sum_erase univ (fun j => w (f j)) (mem_univ i)).symm
  omega

theorem tally_update [DecidableEq ι] (f : ι → β) (i : ι) (v : β) :
    tally p (update f i v) + (if p (f i) then 1 else 0) = tally p f + if p v then 1 else 0 :=
  sum_update_add (fun b => if p b then 1 else 0) f i v

variable {p}

theorem tally_pos {f : ι → β} {i : ι} (h : p (f i)) : 0 < tally p f := by
  have hle : (if p (f i) then 1 else 0) ≤ tally p f :=
    single_le_sum (f := fun j => if p (f j) then 1 else 0) (fun _ _ => Nat.zero_le _)
      (mem_univ i)
  rwa [if_pos h] at hle

theorem tally_eq_zero {f : ι → β} (h : ∀ i, ¬ p (f i)) : tally p f = 0 := sum_eq_zero fun i _ => if_neg (h i)

theorem exists_of_tally_pos {f : ι → β} (h : 0 < tally p f) : ∃ i, p (f i) := by
  by_contra hnone
  push Not at hnone
  rw [tally_eq_zero hnone] at h
  omega

theorem tally_lt_card_iff {f : ι → β} : tally p f < Fintype.card ι ↔ ∃ i, ¬ p (f i) := by
  rw [← card_univ, card_eq_sum_ones]
  constructor
  · intro hlt
    by_contra hall
    push Not at hall
    rw [tally, sum_congr rfl fun i _ => if_pos (hall i)] at hlt
    exact Nat.lt_irrefl _ hlt
  · rintro ⟨i, hi⟩
    refine sum_lt_sum (fun j _ => ?_) ⟨i, mem_univ i, ?_⟩
    · split
      · exact le_rfl
      · exact Nat.zero_le 1
    · rw [if_neg hi]
      exact Nat.one_pos

end RainOS
