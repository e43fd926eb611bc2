import Mathlib.Algebra.BigOperators.Ring.Finset
import RainOS.Bio.Coherence
import RainOS.Lib.Tally

/-!
# When the cache runs out of buffers

`bget` for a sector that is not cached needs a buffer that is neither busy nor dirty. Each busy buffer is held by one
process, so those that cannot be taken are the ones that processes hold and the dirty ones that nobody holds. Nothing
keeps their number below `NBUF`: a process holds a buffer while it waits for the disk, also outside of transactions, and
there may be more processes than buffers.
-/

namespace RainOS.Bcache

open Function Finset

variable {n : Nat} {P : Type} {s : State n P} {p : P} {key : Key}

def State.holding (s : State n P) (p : P) : Nat := tally (· = true) (s.held p)

/-- The buffers that wait for the log, with nobody using them. -/
def State.pinned (s : State n P) : Nat := tally (fun c => c.dirty = true ∧ c.busy = false) s.buf

theorem Inv.sum_holding [Fintype P] (h : Inv s) : ∑ q, s.holding q = tally (fun c => c.busy = true) s.buf := by
  have hone : ∀ b, (∑ q, if s.held q b = true then 1 else 0) = if (s.buf b).busy = true then 1 else 0 := by
    intro b
    split
    · rename_i hbusy
      obtain ⟨p, hp⟩ := (h.busy b).mp hbusy
      rw [sum_eq_single p]
      · exact if_pos hp
      · intro q _ hq
        exact if_neg fun hheld => hq (h.one q p b hheld hp)
      · exact fun hp => absurd (mem_univ p) hp
    · rename_i hfree
      exact sum_eq_zero fun q _ => if_neg fun hheld => hfree (h.busy_of_held hheld)
  simp only [State.holding, tally]
  rw [sum_comm]
  exact sum_congr rfl fun b _ => hone b

theorem Inv.taken_eq [Fintype P] (h : Inv s) :
    tally (fun c => c.busy = true ∨ c.dirty = true) s.buf = ∑ q, s.holding q + s.pinned := by
  rw [h.sum_holding, State.pinned, tally, tally, tally, ← sum_add_distrib]
  refine sum_congr rfl fun b _ => ?_
  cases (s.buf b).busy <;> cases (s.buf b).dirty <;> rfl

variable [DecidableEq P]

theorem Inv.bget_uncached (h : Inv s) (p : P) (hnone : ∀ b, (s.buf b).key ≠ key) :
    (∃ s', Bcache.bget s p key = .ok s') ↔ ∃ b, (s.buf b).busy = false ∧ (s.buf b).dirty = false := by
  unfold Bcache.bget
  obtain ⟨b, hkey, -⟩ | ⟨-, hwalk⟩ := h.links.walk fun b => (s.buf b).key = key
  · exact absurd (of_decide_eq_true hkey) (hnone b)
  rw [hwalk]
  dsimp only
  obtain ⟨b, hfree, hwalk⟩ | ⟨hall, hwalk⟩ := h.links.symm.walk fun b => !(s.buf b).busy && !(s.buf b).dirty
  · rw [hwalk]
    simp only [Bool.and_eq_true, Bool.not_eq_true'] at hfree
    exact ⟨fun _ => ⟨b, hfree⟩, fun _ => ⟨_, rfl⟩⟩
  · rw [hwalk]
    refine ⟨fun ⟨_, hok⟩ => (nomatch hok), fun ⟨b, hbusy, hdirty⟩ => ?_⟩
    have hb := hall b
    rw [hbusy, hdirty] at hb
    cases hb

/-- A read of a sector that is not cached, up to the disk request. -/
def startRead (p : Fin 31) : List (Action nbuf (Fin 31)) := [.bread p ⟨1, p.val + 100⟩, .bget p, .check p]

end RainOS.Bcache
