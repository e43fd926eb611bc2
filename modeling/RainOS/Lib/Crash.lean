import Mathlib.Data.List.Basic
import Mathlib.Logic.Function.Basic

/-!
# Stores that remember their writes

A store of values by address that keeps the writes made to it since it was last opened. A crash
between two writes leaves the store with a prefix of them, so what holds of every prefix holds
wherever the code that made the writes is cut off.
-/

namespace RainOS

variable {α β : Type*} [DecidableEq α]

def replay (d : α → β) : List (α × β) → α → β
  | [] => d
  | (a, v) :: ws => replay (Function.update d a v) ws

theorem replay_append (d : α → β) (ws ws' : List (α × β)) :
    replay d (ws ++ ws') = replay (replay d ws) ws' := by
  induction ws generalizing d with
  | nil => rfl
  | cons w ws ih => exact ih _

structure Recorded (α β : Type*) where
  origin : α → β
  writes : List (α × β)

namespace Recorded

def start (d : α → β) : Recorded α β := ⟨d, []⟩

def now (d : Recorded α β) : α → β := replay d.origin d.writes

/-- The store as a crash after `k` writes leaves it. -/
def after (d : Recorded α β) (k : Nat) : α → β := replay d.origin (d.writes.take k)

def write (d : Recorded α β) (a : α) (v : β) : Recorded α β := { d with writes := d.writes ++ [(a, v)] }

/-- The writes and the store they lead to meet `C` at every point of the history. -/
def Always (C : List (α × β) → (α → β) → Prop) (d : Recorded α β) : Prop :=
  ∀ k, C (d.writes.take k) (d.after k)

@[simp] theorem now_write (d : Recorded α β) (a : α) (v : β) :
    (d.write a v).now = Function.update d.now a v := by
  unfold now write
  rw [replay_append]
  rfl

variable {C : List (α × β) → (α → β) → Prop}

theorem always_start {d : α → β} (h : C [] d) : (start d).Always C := by
  intro k
  simpa [start, after, replay] using h

theorem Always.write {d : Recorded α β} {a : α} {v : β} (h : d.Always C)
    (hnew : C (d.writes ++ [(a, v)]) (Function.update d.now a v)) : (d.write a v).Always C := by
  intro k
  rcases Nat.lt_or_ge d.writes.length k with hk | hk
  · have hlen : (d.write a v).writes.length ≤ k := by
      rw [Recorded.write, List.length_append]
      exact hk
    rw [after, List.take_of_length_le hlen]
    change C (d.writes ++ [(a, v)]) (d.write a v).now
    rwa [now_write]
  · have hpre : (d.write a v).writes.take k = d.writes.take k := List.take_append_of_le_length hk
    rw [after, hpre]
    exact h k

end Recorded

end RainOS
