import Mathlib.Data.Nat.Basic
import Mathlib.Tactic.Ring

/-!
# Little-endian words in bytes

A memory of bytes by address, a run of `w` bytes of it read as a little-endian number, such a number
stored, and a run of bytes copied in. A stored word is read back modulo its width, and what does not
overlap a store or a copy does not see it. An array of `n` bytes is read as a memory that is zero past
its end.
-/

namespace RainOS

/-- Bytes by address. -/
abbrev Mem := Nat → UInt8

namespace Mem

variable {m m' : Mem} {w off v w' off' n i j : Nat}

/-- The `w` bytes from `off` on, least significant first. -/
def word (m : Mem) : Nat → Nat → Nat
  | 0, _ => 0
  | w + 1, off => (m off).toNat + 256 * word m w (off + 1)

def setWord (m : Mem) (w off v : Nat) : Mem := fun i =>
  if off ≤ i ∧ i < off + w then UInt8.ofNat (v / 256 ^ (i - off)) else m i

def copyIn (m : Mem) (off n : Nat) (src : Mem) : Mem := fun i =>
  if off ≤ i ∧ i < off + n then src (i - off) else m i

theorem word_lt (m : Mem) (w off : Nat) : word m w off < 256 ^ w := by
  induction w generalizing off with
  | zero => simp [word]
  | succ w ih =>
    have hbyte := (m off).toNat_lt
    have hrest := ih (off + 1)
    rw [word, Nat.pow_succ]
    omega

theorem word_congr (h : ∀ i, off ≤ i → i < off + w → m i = m' i) : word m w off = word m' w off := by
  induction w generalizing off with
  | zero => rfl
  | succ w ih =>
    rw [word, word, h off (by omega) (by omega), ih fun i hlo hhi => h i (by omega) (by omega)]

theorem word_div (m : Mem) (off : Nat) (hi : i < w) : word m w off / 256 ^ i % 256 = (m (off + i)).toNat := by
  induction w generalizing off i with
  | zero => cases hi
  | succ w ih =>
    have hbyte := (m off).toNat_lt
    rw [word]
    cases i with
    | zero =>
      rw [Nat.pow_zero, Nat.div_one, Nat.add_mul_mod_self_left, Nat.mod_eq_of_lt hbyte, Nat.add_zero]
    | succ i =>
      have hrest : ((m off).toNat + 256 * word m w (off + 1)) / 256 = word m w (off + 1) := by omega
      rw [Nat.pow_succ', ← Nat.div_div_eq_div_mul, hrest, ih (off + 1) (by omega), Nat.add_right_comm, Nat.add_assoc]

theorem setWord_of_disjoint (m : Mem) (v : Nat) (h : i < off ∨ off + w ≤ i) :
    setWord m w off v i = m i :=
  if_neg (by omega)

theorem word_setWord_of_disjoint (m : Mem) (v : Nat) (h : off' + w' ≤ off ∨ off + w ≤ off') :
    word (setWord m w off v) w' off' = word m w' off' := by
  apply word_congr
  intro i hlo hhi
  exact setWord_of_disjoint m v (by omega)

theorem word_setWord_suffix (m : Mem) (off v : Nat) (hj : j ≤ w) :
    word (setWord m w off v) (w - j) (off + j) = v / 256 ^ j % 256 ^ (w - j) := by
  generalize hd : w - j = d
  induction d generalizing j with
  | zero => simp [word, Nat.mod_one]
  | succ d ih =>
    have hbyte : (setWord m w off v (off + j)).toNat = v / 256 ^ j % 256 := by
      rw [setWord, if_pos (by omega), Nat.add_sub_cancel_left]
      simp
    have hrest := ih (j := j + 1) (by omega) (by omega)
    rw [word, hbyte, Nat.add_assoc off j 1, hrest, Nat.pow_succ 256 j, ← Nat.div_div_eq_div_mul,
      Nat.pow_succ', Nat.mod_mul]

theorem word_setWord (m : Mem) (w off v : Nat) : word (setWord m w off v) w off = v % 256 ^ w := by
  have hword := word_setWord_suffix m off v (Nat.zero_le w)
  simpa using hword

theorem copyIn_of_disjoint (m src : Mem) (h : i < off ∨ off + n ≤ i) : copyIn m off n src i = m i :=
  if_neg (by omega)

theorem copyIn_of_lt (m src : Mem) (h : i < n) : copyIn m off n src (off + i) = src i := by
  rw [copyIn, if_pos (by omega), Nat.add_sub_cancel_left]

end Mem

abbrev Bytes (n : Nat) := Fin n → UInt8

namespace Bytes

variable {n w off v i w' off' len k : Nat}

/-- The bytes as a memory from address zero on. -/
def mem (b : Bytes n) : Mem := fun i => if h : i < n then b ⟨i, h⟩ else 0

def word (b : Bytes n) (w off : Nat) : Nat := Mem.word b.mem w off

def setWord (b : Bytes n) (w off v : Nat) : Bytes n := fun i => Mem.setWord b.mem w off v i

def copyIn (b : Bytes n) (off len : Nat) (src : Mem) : Bytes n := fun i => Mem.copyIn b.mem off len src i

theorem word_lt (b : Bytes n) (w off : Nat) : b.word w off < 256 ^ w := Mem.word_lt ..

theorem mem_setWord (b : Bytes n) (hi : i < n) :
    (b.setWord w off v).mem i = Mem.setWord b.mem w off v i := by
  rw [mem, dif_pos hi]
  rfl

theorem word_setWord_of_disjoint (b : Bytes n) (h : off' + w' ≤ off ∨ off + w ≤ off') :
    (b.setWord w off v).word w' off' = b.word w' off' := by
  apply Mem.word_congr
  intro i hlo hhi
  by_cases hi : i < n
  · rw [mem_setWord b hi]
    exact Mem.setWord_of_disjoint b.mem v (by omega)
  · rw [mem, mem, dif_neg hi, dif_neg hi]

theorem word_setWord (b : Bytes n) (h : off + w ≤ n) :
    (b.setWord w off v).word w off = v % 256 ^ w := by
  rw [← Mem.word_setWord b.mem w off v]
  apply Mem.word_congr
  intro i hlo hhi
  exact mem_setWord b (by omega)

theorem mem_copyIn (b : Bytes n) (src : Mem) (hi : i < n) :
    (b.copyIn off len src).mem i = Mem.copyIn b.mem off len src i := by
  rw [mem, dif_pos hi]
  rfl

theorem word_copyIn_of_disjoint (b : Bytes n) (src : Mem)
    (h : off' + w ≤ off ∨ off + len ≤ off') : (b.copyIn off len src).word w off' = b.word w off' := by
  apply Mem.word_congr
  intro i hlo hhi
  by_cases hi : i < n
  · rw [mem_copyIn b src hi]
    exact Mem.copyIn_of_disjoint b.mem src (by omega)
  · rw [mem, mem, dif_neg hi, dif_neg hi]

theorem word_copyIn (b : Bytes n) (src : Mem) (h : k + w ≤ len)
    (hn : off + len ≤ n) : (b.copyIn off len src).word w (off + k) = src.word w k := by
  induction w generalizing k with
  | zero => rfl
  | succ w ih =>
    have hrest := ih (k := k + 1) (by omega)
    rw [word] at hrest ⊢
    rw [Mem.word, Mem.word, Nat.add_assoc, hrest, mem_copyIn b src (by omega),
      Mem.copyIn_of_lt b.mem src (by omega)]

end Bytes

end RainOS
