import RainOS.Lib.Bytes

/-!
# The two memmoves

`memmove` of the kernel, in string.c, and of the user library, in ulib.c, over the bytes of memory. The kernel's copies
backward when the destination starts inside the source. The user library's always copies forward, so that such a
destination gets the first `dst - src` bytes of the source again and again.
-/

namespace RainOS.Memmove

open Function

def forward (m : Mem) (d s : Nat) : Nat → Mem
  | 0 => m
  | n + 1 => forward (update m d (m s)) (d + 1) (s + 1) n

/-- `while(n-- > 0) *--d = *--s;`, with the ends of the ranges at `d + n` and `s + n`. -/
def backward (m : Mem) (d s : Nat) : Nat → Mem
  | 0 => m
  | n + 1 => backward (update m (d + n) (m (s + n))) d s n

def memmove (m : Mem) (dst src n : Nat) : Mem :=
  if src < dst ∧ (src + n) % 2 ^ 32 > dst then backward m dst src n else forward m dst src n

/-- `memmove` of ulib.c; `n` is an `int`. -/
def ulibMemmove (m : Mem) (dst src : Nat) (n : Int) : Mem := forward m dst src n.toNat

/-- What a move should do: the old source is in the destination, and nothing else changes. -/
def moved (m : Mem) (dst src n : Nat) : Mem := m.copyIn dst n fun i => m (src + i)

variable {m : Mem} {d s i n : Nat}

theorem forward_of_lt (h : i < d) : forward m d s n i = m i := by
  induction n generalizing m d s with
  | zero => rfl
  | succ n ih => rw [forward, ih (Nat.lt_succ_of_lt h), update_of_ne (Nat.ne_of_lt h)]

theorem forward_of_ge (h : d + n ≤ i) : forward m d s n i = m i := by
  induction n generalizing m d s with
  | zero => rfl
  | succ n ih => rw [forward, ih (by omega), update_of_ne (by omega)]

theorem forward_apart (h : d ≤ s ∨ s + n ≤ d) (hi : i < n) : forward m d s n (d + i) = m (s + i) := by
  induction n generalizing m d s i with
  | zero => cases hi
  | succ n ih =>
    rw [forward]
    cases i with
    | zero => exact (forward_of_lt (Nat.lt_succ_self d)).trans (update_self ..)
    | succ i =>
      have hcell := ih (m := update m d (m s)) (d := d + 1) (s := s + 1) (by omega) (Nat.lt_of_succ_lt_succ hi)
      rw [Nat.succ_add_eq_add_succ] at hcell
      rw [hcell, update_of_ne (by omega), Nat.succ_add_eq_add_succ]

theorem forward_repeats (h : s < d) (hi : i < n) : forward m d s n (d + i) = m (s + i % (d - s)) := by
  induction n generalizing m d s i with
  | zero => cases hi
  | succ n ih =>
    rw [forward]
    cases i with
    | zero =>
      rw [Nat.zero_mod]
      exact (forward_of_lt (Nat.lt_succ_self d)).trans (update_self ..)
    | succ i =>
      have hcell := ih (m := update m d (m s)) (d := d + 1) (s := s + 1) (by omega) (Nat.lt_of_succ_lt_succ hi)
      have hperiod : d + 1 - (s + 1) = d - s := by omega
      have hlt : i % (d - s) < d - s := Nat.mod_lt i (by omega)
      rw [Nat.succ_add_eq_add_succ, hperiod] at hcell
      rw [hcell]
      -- the byte at `d` was the one at `s`
      by_cases hlast : i % (d - s) + 1 = d - s
      · have hwrap : (i + 1) % (d - s) = 0 := by rw [← Nat.mod_add_mod, hlast, Nat.mod_self]
        have hat : s + 1 + i % (d - s) = d := by omega
        rw [hat, update_self, hwrap, Nat.add_zero]
      · have hnext : (i + 1) % (d - s) = i % (d - s) + 1 := by
          rw [← Nat.mod_add_mod, Nat.mod_eq_of_lt (by omega)]
        rw [update_of_ne (by omega), hnext, Nat.succ_add_eq_add_succ]

theorem backward_eq (h : s ≤ d) (i : Nat) :
    backward m d s n i = if d ≤ i ∧ i < d + n then m (s + (i - d)) else m i := by
  induction n generalizing m with
  | zero => rw [backward, if_neg (by omega)]
  | succ n ih =>
    rw [backward, ih]
    by_cases hlast : i = d + n
    · rw [if_neg (by omega), if_pos (by omega), hlast, update_self, Nat.add_sub_cancel_left]
    · rw [update_of_ne hlast]
      by_cases hin : d ≤ i ∧ i < d + n
      · rw [if_pos hin, if_pos (by omega), update_of_ne (by omega)]
      · rw [if_neg hin, if_neg (by omega)]

/-- A copy forward is a move exactly if it reads the old source. -/
theorem forward_eq_moved_iff :
    forward m d s n = moved m d s n ↔ ∀ i < n, forward m d s n (d + i) = m (s + i) := by
  constructor
  · intro h i hi
    rw [h]
    exact Mem.copyIn_of_lt m (fun i => m (s + i)) hi
  · intro h
    funext i
    by_cases hin : d ≤ i ∧ i < d + n
    · obtain ⟨k, rfl⟩ := Nat.exists_eq_add_of_le hin.1
      exact (h k (by omega)).trans (Mem.copyIn_of_lt m (fun i => m (s + i)) (by omega)).symm
    · rw [moved, Mem.copyIn_of_disjoint m _ (by omega)]
      by_cases hlo : i < d
      · exact forward_of_lt hlo
      · exact forward_of_ge (by omega)

/-- The kernel's `memmove` moves. The user library's does too exactly if the destination does not start inside the
source, or the source is the bytes before the destination over and over. -/
theorem memmove_agree_iff (m : Mem) (dst src n : Nat) (hdst : dst + n ≤ 2 ^ 32) (hsrc : src + n ≤ 2 ^ 32) :
    memmove m dst src n = moved m dst src n ∧ (ulibMemmove m dst src n = memmove m dst src n ↔
      ¬(src < dst ∧ dst < src + n) ∨ ∀ i < n, m (src + i % (dst - src)) = m (src + i)) := by
  have hkernel : memmove m dst src n = moved m dst src n := by
    rw [memmove]
    split
    · rename_i hover
      funext i
      exact backward_eq (by omega) i
    · rename_i hapart
      rw [forward_eq_moved_iff]
      intro i hi
      exact forward_apart (by omega) hi
  refine ⟨hkernel, ?_⟩
  rw [hkernel, ulibMemmove, Int.toNat_natCast, forward_eq_moved_iff]
  by_cases hover : src < dst ∧ dst < src + n
  · rw [or_iff_right (not_not_intro hover)]
    apply forall₂_congr
    intro i hi
    rw [forward_repeats hover.1 hi]
  · rw [iff_true_right (.inl hover)]
    intro i hi
    exact forward_apart (by omega) hi

theorem memmove_agree_iff_bytes : ulibMemmove (fun i => .ofNat i) 0 1 2 = memmove (fun i => .ofNat i) 0 1 2 :=
  (memmove_agree_iff _ 0 1 2 (by decide) (by decide)).2.mpr (.inl (by decide))

/-- Of the bytes 0, 1, 2, ... two are moved up by one: the kernel has 0, 1 and the user library 0, 0. -/
theorem memmove_differs : memmove (fun i => .ofNat i) 1 0 2 2 = 1 ∧ ulibMemmove (fun i => .ofNat i) 1 0 2 2 = 0 := by
  decide

end RainOS.Memmove
