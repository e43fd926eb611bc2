import Mathlib.Data.List.Basic
import Mathlib.Data.List.Nodup
import Mathlib.Logic.Function.Basic

/-!
# Rings

A circular doubly linked list through two pointer fields, with a head that is no entry. `Path` follows one field
from a node over a list of nodes to another; a ring is a path forth and the reverse path back. An entry is unlinked
and a new one is put after the head by two assignments to each field.
-/

namespace RainOS

open Function List

variable {α : Type*} {f g : α → α} {a a' b x : α} {l l' : List α}

/-- From `a` the pointers visit the list and arrive at `b`. -/
def Path (f : α → α) : α → List α → α → Prop
  | a, [], b => f a = b
  | a, x :: l, b => f a = x ∧ Path f x l b

namespace Path

theorem append : Path f a (l ++ x :: l') b ↔ Path f a l x ∧ Path f x l' b := by
  induction l generalizing a with
  | nil => rfl
  | cons y l ih =>
    rw [cons_append, Path, Path, ih, and_assoc]

theorem first (h : Path f a l b) : f a = l.headD b := by
  cases l with
  | nil => exact h
  | cons y l => exact h.1

theorem last (h : Path f a l b) : f (l.getLastD a) = b := by
  induction l generalizing a with
  | nil => exact h
  | cons y l ih =>
    rw [getLastD_cons]
    exact ih h.2

theorem congr (h : Path f a l b) (ha : g a' = f a) (hl : ∀ y ∈ l, g y = f y) : Path g a' l b := by
  induction l generalizing a a' with
  | nil => exact ha.trans h
  | cons y l ih =>
    refine ⟨ha.trans h.1, ih h.2 (hl y mem_cons_self) fun z hz => hl z (mem_cons_of_mem y hz)⟩

variable [DecidableEq α]

theorem update_of_not_mem (h : Path f a l b) (hx : x ∉ a :: l) (y : α) : Path (update f x y) a l b := by
  have hne : ∀ z ∈ a :: l, z ≠ x := fun z hz heq => hx (heq ▸ hz)
  exact h.congr (update_of_ne (hne a mem_cons_self) y f) fun z hz =>
    update_of_ne (hne z (mem_cons_of_mem a hz)) y f

theorem retarget (h : Path f a l b) (hnodup : (a :: l).Nodup) (y : α) : Path (update f (l.getLastD a) y) a l y := by
  induction l generalizing a with
  | nil => exact update_self a y f
  | cons z l ih =>
    obtain ⟨hnot, hnodup⟩ := nodup_cons.mp hnodup
    rw [getLastD_cons]
    have hne : a ≠ l.getLastD z := fun heq => hnot (heq ▸ getLastD_mem_cons)
    exact ⟨(update_of_ne hne y f).trans h.1, ih h.2 hnodup⟩

/-- The pointer to a node is turned to the node after it. -/
theorem skip (h : Path f a l x) (h' : Path f x l' b) (hnodup : (a :: (l ++ l')).Nodup) :
    Path (update f (l.getLastD a) (f x)) a (l ++ l') b := by
  induction l generalizing a with
  | nil =>
    have hnot := (nodup_cons.mp hnodup).1
    refine h'.congr (update_self a _ f) fun y hy => update_of_ne ?_ _ f
    rintro rfl
    exact hnot hy
  | cons z l ih =>
    obtain ⟨hnot, hnodup⟩ := nodup_cons.mp hnodup
    rw [getLastD_cons]
    have hne : a ≠ l.getLastD z := fun heq => by
      have hmem : l.getLastD z ∈ z :: l := getLastD_mem_cons
      rw [← heq] at hmem
      refine hnot ?_
      rw [cons_append]
      exact (mem_cons.mp hmem).elim (fun h => h ▸ mem_cons_self) fun h =>
        mem_cons_of_mem z (mem_append_left l' h)
    exact ⟨(update_of_ne hne _ f).trans h.1, ih h.2 hnodup⟩

end Path

structure Ring (next prev : α → α) (head : α) (l : List α) : Prop where
  nodup : (head :: l).Nodup
  next : Path next head l head
  prev : Path prev head l.reverse head

namespace Ring

variable {next prev : α → α} {head : α}

theorem symm (h : Ring next prev head l) : Ring prev next head l.reverse where
  nodup := by
    obtain ⟨hnot, hnodup⟩ := nodup_cons.mp h.nodup
    exact nodup_cons.mpr ⟨fun hmem => hnot (mem_reverse.mp hmem), nodup_reverse.mpr hnodup⟩
  next := h.prev
  prev := by
    rw [reverse_reverse]
    exact h.next

theorem getLastD_reverse (l : List α) (a : α) : l.reverse.getLastD a = l.headD a := by
  cases l with
  | nil => rfl
  | cons y l => simp

theorem prev_next (h : Ring next prev head l) (ha : a ∈ head :: l) : prev (next a) = a := by
  obtain rfl | ha := mem_cons.mp ha
  · rw [h.next.first, ← getLastD_reverse]
    exact h.prev.last
  · obtain ⟨l₁, l₂, rfl⟩ := append_of_mem ha
    have hprev := h.prev
    rw [reverse_append, reverse_cons, append_assoc, singleton_append, Path.append] at hprev
    rw [(Path.append.mp h.next).2.first, ← getLastD_reverse]
    exact hprev.1.last

theorem next_prev (h : Ring next prev head l) (ha : a ∈ head :: l) : next (prev a) = a := by
  refine h.symm.prev_next ?_
  rw [mem_cons, mem_reverse]
  exact mem_cons.mp ha

variable [DecidableEq α]

theorem unlink (h : Ring next prev head (l ++ x :: l')) :
    Ring (update next (prev x) (next x)) (update prev (next x) (prev x)) head (l ++ l') := by
  have hprev := h.prev
  rw [reverse_append, reverse_cons, append_assoc, singleton_append] at hprev
  obtain ⟨hnext₁, hnext₂⟩ := Path.append.mp h.next
  obtain ⟨hprev₁, hprev₂⟩ := Path.append.mp hprev
  have hsub : (head :: (l ++ l')).Sublist (head :: (l ++ x :: l')) :=
    ((sublist_cons_self x l').append_left l).cons_cons head
  have hnodup := h.nodup.sublist hsub
  have hbefore : prev x = l.getLastD head := by
    rw [hprev₂.first, ← getLastD_reverse, reverse_reverse]
  have hafter : next x = l'.reverse.getLastD head := by
    rw [hnext₂.first, getLastD_reverse]
  have hnodup' : (head :: (l'.reverse ++ l.reverse)).Nodup := by
    rw [← reverse_append]
    obtain ⟨hnot, hnd⟩ := nodup_cons.mp hnodup
    exact nodup_cons.mpr ⟨fun hmem => hnot (mem_reverse.mp hmem), nodup_reverse.mpr hnd⟩
  refine ⟨hnodup, ?_, ?_⟩
  · rw [hbefore]
    exact hnext₁.skip hnext₂ hnodup
  · rw [hafter, reverse_append]
    exact hprev₁.skip hprev₂ hnodup'

theorem push (h : Ring next prev head l) (hx : x ∉ head :: l) :
    Ring (update (update next x (next head)) head x) (update (update prev x head) (next head) x) head (x :: l) := by
  obtain ⟨hne, hxl⟩ : x ≠ head ∧ x ∉ l := by simpa using hx
  obtain ⟨hhead, hnodup⟩ := nodup_cons.mp h.nodup
  refine ⟨?_, ⟨by rw [update_self], ?_⟩, ?_⟩
  · refine nodup_cons.mpr ⟨?_, nodup_cons.mpr ⟨hxl, hnodup⟩⟩
    simpa using ⟨hne.symm, hhead⟩
  · refine h.next.congr ?_ fun y hy => ?_
    · rw [update_of_ne hne, update_self]
    · have hyhead : y ≠ head := fun heq => hhead (heq ▸ hy)
      have hyx : y ≠ x := fun heq => hxl (heq ▸ hy)
      rw [update_of_ne hyhead, update_of_ne hyx]
  · have hfirst : next head = l.reverse.getLastD head := by
      rw [h.next.first, getLastD_reverse]
    have hmem : next head ∈ head :: l := by
      rw [hfirst]
      have hlast : l.reverse.getLastD head ∈ head :: l.reverse := getLastD_mem_cons
      rwa [mem_cons, mem_reverse, ← mem_cons] at hlast
    have hxnext : x ≠ next head := fun heq => hx (heq ▸ hmem)
    have hturn := (h.prev.retarget h.symm.nodup x).update_of_not_mem (x := x) (y := head) (by
      rw [mem_cons, mem_reverse, ← mem_cons]
      exact hx)
    rw [reverse_cons, Path.append, hfirst]
    rw [hfirst] at hxnext
    rw [update_comm hxnext.symm] at hturn
    exact ⟨hturn, by rw [Path, update_of_ne hxnext, update_self]⟩

end Ring

/-- Follow the pointers until the head, or an entry that passes the test; `none` if they were followed too often. -/
def walk [DecidableEq α] (f : α → α) (head : α) (test : α → Bool) : Nat → α → Option (Option α)
  | 0, _ => none
  | n + 1, x => if x = head then some none else if test x then some (some x) else walk f head test n (f x)

theorem Path.walk_eq [DecidableEq α] {head : α} (h : Path f a l head) (hhead : head ∉ l) (test : α → Bool) {n : Nat}
    (hn : l.length < n) : walk f head test n (f a) = some (l.find? test) := by
  induction l generalizing a n with
  | nil =>
    obtain ⟨n, rfl⟩ : ∃ m, n = m + 1 := ⟨n - 1, by omega⟩
    have heq : f a = head := h
    rw [walk, if_pos heq]
    rfl
  | cons y l ih =>
    obtain ⟨n, rfl⟩ : ∃ m, n = m + 1 := ⟨n - 1, by omega⟩
    obtain ⟨hne, hhead⟩ : head ≠ y ∧ head ∉ l := by simpa using hhead
    rw [h.1, walk, if_neg (Ne.symm hne)]
    split
    · rename_i htest
      rw [find?_cons_of_pos htest]
    · rename_i htest
      rw [find?_cons_of_neg htest]
      exact ih h.2 hhead (Nat.lt_of_succ_lt_succ hn)

end RainOS
