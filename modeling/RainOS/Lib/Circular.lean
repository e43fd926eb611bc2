import Mathlib.Data.List.Basic
import Mathlib.Data.Nat.ModEq
import RainOS.Lib.Store

/-!
# Circular buffers with free-running counters

A stream goes through a buffer of fixed size, its `i`th element at index `i % size`. `Lies` says that the buffer still
has the stream from some position on. The positions are kept as 32-bit words that are never reset: as long as two
positions are less than `2 ^ 32` apart, the words tell how far, and a size that divides `2 ^ 32` gives the right index.
-/

namespace RainOS

open List

variable {α : Type*} {size r r' : Nat} {buf : Nat → α} {l l' : List α}

def Lies (size : Nat) (buf : Nat → α) (r : Nat) (l : List α) : Prop :=
  ∀ i x, r ≤ i → l[i]? = some x → buf (i % size) = x

namespace Lies

theorem nil : Lies size buf r [] := fun _ _ _ h => nomatch h

theorem advance (h : Lies size buf r l) (hle : r ≤ r') : Lies size buf r' l :=
  fun i x hi => h i x (hle.trans hi)

theorem shorten (h : Lies size buf r l) (hl : l' <+: l) : Lies size buf r l' :=
  fun i x hi hx => h i x hi (by
    obtain ⟨rest, rfl⟩ := hl
    exact (List.getElem?_append_left (List.getElem?_eq_some_iff.mp hx).1).trans hx)

theorem push (h : Lies size buf r l) (hroom : l.length < r + size) (x : α) :
    Lies size (store buf (l.length % size) x) r (l ++ [x]) := by
  intro i y hi hy
  rw [store]
  rcases Nat.lt_trichotomy i l.length with hlt | heq | hgt
  · rw [getElem?_append_left hlt] at hy
    have hne : i % size ≠ l.length % size := fun heq => by
      have hsub : (l.length - i) % size = 0 := Nat.sub_mod_eq_zero_of_mod_eq heq.symm
      rw [Nat.mod_eq_of_lt (by omega)] at hsub
      omega
    rw [if_neg hne]
    exact h i y hi hy
  · rw [heq, getElem?_append_right le_rfl, Nat.sub_self] at hy
    rw [heq, if_pos rfl]
    exact Option.some.inj hy
  · rw [getElem?_eq_none (by rw [length_append, length_singleton]; omega)] at hy
    cases hy

end Lies

theorem ofNat_eq_iff {a b : Nat} (hle : a ≤ b) (hlt : b < a + 2 ^ 32) : UInt32.ofNat a = UInt32.ofNat b ↔ a = b := by
  rw [← UInt32.toNat_inj, UInt32.toNat_ofNat', UInt32.toNat_ofNat']
  constructor
  · intro h
    omega
  · rintro rfl
    rfl

theorem toNat_ofNat_sub {a b : Nat} (hle : a ≤ b) (hlt : b < a + 2 ^ 32) :
    (UInt32.ofNat b - UInt32.ofNat a).toNat = b - a := by
  rw [← UInt32.ofNat_sub hle, UInt32.toNat_ofNat_of_lt' (show b - a < 2 ^ 32 by omega)]

theorem toNat_ofNat_mod {size : UInt32} (h : size.toNat ∣ 2 ^ 32) (i : Nat) :
    (UInt32.ofNat i % size).toNat = i % size.toNat := by
  rw [UInt32.toNat_mod, UInt32.toNat_ofNat', Nat.mod_mod_of_dvd i h]

end RainOS
