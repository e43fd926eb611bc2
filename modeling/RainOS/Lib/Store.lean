import Mathlib.Logic.Function.Basic

/-!
# Storing into a function

`store f a v` is `Function.update f a v` at a type that does not depend on the argument. It has no cast
along `x = a`, so it evaluates without a proof of the equation. Code is written with `store`, and proofs
rewrite it to `Function.update`.
-/

namespace RainOS

variable {α β : Type*} [DecidableEq α]

def store (f : α → β) (a : α) (v : β) : α → β := fun x => if x = a then v else f x

theorem store_eq_update (f : α → β) (a : α) (v : β) : store f a v = Function.update f a v := by
  funext x
  rw [store, Function.update_apply]

theorem update_eq {f : α → β} {a b : α} {v x : β} (h : Function.update f a v b = x) (hne : v ≠ x) : b ≠ a ∧ f b = x := by
  have hba : b ≠ a := by
    rintro rfl
    exact hne (by rwa [Function.update_self] at h)
  rw [Function.update_of_ne hba] at h
  exact ⟨hba, h⟩

end RainOS
