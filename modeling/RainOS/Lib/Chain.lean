import Mathlib.Data.List.Nodup
import Mathlib.Logic.Function.Basic

/-!
# Singly linked lists in memory

The nodes of a list that starts at an address, is linked by a map from each node to the next, and
ends at a null address. The map and the start determine the nodes, so no node occurs twice: a list
that ends has no cycle. `search` walks such a list, with a bound on how far it goes.
-/

namespace RainOS

open List

variable {α : Type*}

/-- The nodes from `a` on are `l`. -/
def Chain (next : α → α) (null : α) : α → List α → Prop
  | a, [] => a = null
  | a, b :: l => a = b ∧ a ≠ null ∧ Chain next null (next a) l

/-- The nodes passed on the way from `a` to `b`. -/
def Segment (next : α → α) (null : α) : α → List α → α → Prop
  | a, [], b => a = b
  | a, c :: l, b => a = c ∧ a ≠ null ∧ Segment next null (next a) l b

/-- Walk the list from a node on, looking for `target`, for at most the given number of nodes. -/
def search [DecidableEq α] (next : α → α) (null target : α) : Nat → α → Option Bool
  | 0, _ => none
  | n + 1, a =>
    if a = null then some false
    else if a = target then some true
    else search next null target n (next a)

namespace Chain

variable {next next' : α → α} {null a b c : α} {l l' : List α}

section

variable (h : Chain next null a l)
include h

theorem unique (h' : Chain next null a l') : l = l' := by
  induction l generalizing a l' with
  | nil =>
    cases l' with
    | nil => rfl
    | cons b l' => exact absurd h h'.2.1
  | cons b l ih =>
    cases l' with
    | nil => exact absurd h' h.2.1
    | cons c l' =>
      obtain ⟨rfl, -, h⟩ := h
      obtain ⟨rfl, -, h'⟩ := h'
      rw [ih h h']

theorem suffix (hb : b ∈ l) :
    ∃ l₁ l₂, l = l₁ ++ b :: l₂ ∧ Segment next null a l₁ b ∧ Chain next null b (b :: l₂) := by
  induction l generalizing a with
  | nil => cases hb
  | cons c l ih =>
    obtain ⟨rfl, hne, h⟩ := h
    rcases mem_cons.mp hb with rfl | hb
    · exact ⟨[], l, rfl, rfl, rfl, hne, h⟩
    · obtain ⟨l₁, l₂, rfl, hseg, hchain⟩ := ih h hb
      exact ⟨a :: l₁, l₂, rfl, ⟨rfl, hne, hseg⟩, hchain⟩

theorem nodup : l.Nodup := by
  induction l generalizing a with
  | nil => exact nodup_nil
  | cons b l ih =>
    have hwhole := h
    obtain ⟨rfl, -, h⟩ := h
    apply nodup_cons.mpr ⟨fun hin => ?_, ih h⟩
    -- the list from the second occurrence on is the whole list again, and shorter
    obtain ⟨l₁, l₂, rfl, -, hsuffix⟩ := h.suffix hin
    have hlen := congrArg length (hwhole.unique hsuffix)
    simp only [length_cons, length_append] at hlen
    omega

theorem ne_null (hb : b ∈ l) : b ≠ null := by
  obtain ⟨l₁, l₂, -, -, hchain⟩ := h.suffix hb
  exact hchain.2.1

theorem last_iff (hb : b ∈ l) : l.getLast? = some b ↔ next b = null := by
  obtain ⟨l₁, l₂, rfl, -, hchain⟩ := h.suffix hb
  have hnodup := (nodup_append.mp h.nodup).2.1
  cases l₂ with
  | nil => exact iff_of_true (by simp) hchain.2.2
  | cons c l₂ =>
    refine iff_of_false (fun hlast => ?_) fun hnull => absurd (hchain.2.2.1.symm.trans hnull) ?_
    · rw [getLast?_append_of_ne_nil _ (cons_ne_nil _ _), getLast?_cons_cons] at hlast
      exact (nodup_cons.mp hnodup).1 (mem_of_getLast? hlast)
    · rw [← hchain.2.2.1]
      exact hchain.2.2.2.1

theorem congr (hnext : ∀ b ∈ l, next' b = next b) :
    Chain next' null a l := by
  induction l generalizing a with
  | nil => exact h
  | cons b l ih =>
    obtain ⟨rfl, hne, h⟩ := h
    refine ⟨rfl, hne, ?_⟩
    rw [hnext a mem_cons_self]
    exact ih h fun b hb => hnext b (mem_cons_of_mem _ hb)

theorem nil_iff : l = [] ↔ a = null := by
  cases l with
  | nil => exact ⟨fun _ => h, fun _ => rfl⟩
  | cons b l => exact ⟨fun hl => (nomatch hl), fun ha => absurd ha h.2.1⟩

end

variable [DecidableEq α]

theorem search_eq (h : Chain next null a l) {n : Nat} (hn : l.length < n) (target : α) :
    search next null target n a = some (decide (target ∈ l)) := by
  induction l generalizing a n with
  | nil =>
    cases n with
    | zero => cases hn
    | succ n =>
      rw [search, if_pos (show a = null from h)]
      simp
  | cons b l ih =>
    obtain ⟨rfl, hne, h⟩ := h
    cases n with
    | zero => cases hn
    | succ n =>
      rw [search, if_neg hne]
      rcases eq_or_ne a target with rfl | htarget
      · simp
      · rw [if_neg htarget, ih h (Nat.lt_of_succ_lt_succ hn)]
        simp [htarget.symm]

end Chain

theorem Segment.congr {next next' : α → α} {null a b : α} {l : List α}
    (h : Segment next null a l b) (hnext : ∀ c ∈ l, next' c = next c) :
    Segment next' null a l b := by
  induction l generalizing a with
  | nil => exact h
  | cons c l ih =>
    obtain ⟨rfl, hne, h⟩ := h
    refine ⟨rfl, hne, ?_⟩
    rw [hnext a mem_cons_self]
    exact ih h fun b hb => hnext b (mem_cons_of_mem _ hb)

theorem Segment.mem_chain {next : α → α} {null a b : α} {l l' : List α}
    (h : Segment next null a l b) (h' : Chain next null a l') (hb : b ≠ null) : b ∈ l' := by
  induction l generalizing a l' with
  | nil =>
    cases h
    cases l' with
    | nil => exact absurd h' hb
    | cons c l' =>
      rw [h'.1]
      exact mem_cons_self
  | cons c l ih =>
    cases l' with
    | nil => exact absurd h' h.2.1
    | cons c' l' => exact mem_cons_of_mem _ (ih h.2.2 h'.2.2)

theorem chain_append {next : α → α} {null a : α} {l l' : List α} :
    Chain next null a (l ++ l') ↔ ∃ b, Segment next null a l b ∧ Chain next null b l' := by
  induction l generalizing a with
  | nil => exact ⟨fun h => ⟨a, rfl, h⟩, fun ⟨b, hb, h⟩ => hb ▸ h⟩
  | cons c l ih =>
    constructor
    · intro ⟨heq, hne, h⟩
      obtain ⟨b, hseg, h⟩ := ih.mp h
      exact ⟨b, ⟨heq, hne, hseg⟩, h⟩
    · intro ⟨b, ⟨heq, hne, hseg⟩, h⟩
      exact ⟨heq, hne, ih.mpr ⟨b, hseg, h⟩⟩

end RainOS
