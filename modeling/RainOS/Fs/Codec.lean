import RainOS.Fs.Layout
import Mathlib.Data.Nat.Bitwise

/-!
# What is stored in a block is read back

An inode that was stored is read back, field by field, up to the width of the field, and the other
inodes of the block are left alone. A bit that was set is set, and the others are as they were.
-/

namespace RainOS.Fs

variable {b : Block} {i j k n w off' bi v bj : Nat} {d d' d'' : Dinode}

theorem inodeOffset_le (i : Nat) : inodeOffset i + 64 ≤ bsize := by
  simp only [inodeOffset, ipb, bsize]
  omega

theorem word_putAddrs_of_disjoint (b : Block) (offset : Nat) (addrs : Nat → Nat) (h : off' + w ≤ offset ∨ offset + 4 * n ≤ off') :
    (putAddrs b offset addrs n).word w off' = b.word w off' := by
  induction n with
  | zero => rfl
  | succ n ih =>
    rw [putAddrs, Bytes.word_setWord_of_disjoint _ (by omega), ih (by omega)]

theorem word_putAddrs (b : Block) (offset : Nat) (addrs : Nat → Nat) (hoffset : offset + 4 * n ≤ bsize)
    (hk : k < n) : (putAddrs b offset addrs n).word 4 (offset + 4 * k) = addrs k % 2 ^ 32 := by
  induction n with
  | zero => omega
  | succ n ih =>
    rw [putAddrs]
    by_cases hlast : k = n
    · subst hlast
      exact Bytes.word_setWord _ (by omega)
    · rw [Bytes.word_setWord_of_disjoint _ (by omega), ih (by omega) (by omega)]

theorem word_putDinode_of_disjoint (b : Block) (d : Dinode) (h : off' + w ≤ inodeOffset i ∨ inodeOffset i + 64 ≤ off') :
    (putDinode b i d).word w off' = b.word w off' := by
  rw [putDinode, word_putAddrs_of_disjoint _ _ _ (by simp only [ndirect]; omega),
    Bytes.word_setWord_of_disjoint _ (by omega), Bytes.word_setWord_of_disjoint _ (by omega),
    Bytes.word_setWord_of_disjoint _ (by omega), Bytes.word_setWord_of_disjoint _ (by omega),
    Bytes.word_setWord_of_disjoint _ (by omega)]

/-- The inodes are the same, as far as a disk inode goes. -/
structure Dinode.Agrees (d e : Dinode) : Prop where
  type : d.type = e.type
  major : d.major = e.major
  minor : d.minor = e.minor
  nlink : d.nlink = e.nlink
  size : d.size = e.size
  addrs : ∀ k ≤ ndirect, d.addrs k = e.addrs k

theorem Dinode.Agrees.trans (h : d.Agrees d') (h' : d'.Agrees d'') : d.Agrees d'' :=
  ⟨h.type.trans h'.type, h.major.trans h'.major, h.minor.trans h'.minor, h.nlink.trans h'.nlink,
    h.size.trans h'.size, fun k hk => (h.addrs k hk).trans (h'.addrs k hk)⟩

theorem getDinode_putDinode_of_ne (b : Block) (d : Dinode) (h : i % ipb ≠ j % ipb) :
    (getDinode (putDinode b i d) j).Agrees (getDinode b j) := by
  have hapart : inodeOffset j + 64 ≤ inodeOffset i ∨ inodeOffset i + 64 ≤ inodeOffset j := by
    simp only [inodeOffset]
    omega
  have hword : ∀ w k, k + w ≤ 64 → (putDinode b i d).word w (inodeOffset j + k) =
      b.word w (inodeOffset j + k) :=
    fun w k hk => word_putDinode_of_disjoint b d (by omega)
  refine ⟨hword 2 0 (by omega), hword 2 2 (by omega), hword 2 4 (by omega), hword 2 6 (by omega),
    hword 4 8 (by omega), fun k hk => ?_⟩
  simp only [ndirect] at hk
  exact word_putDinode_of_disjoint b d (by omega)

theorem type_getDinode_putDinode (b : Block) (i : Nat) (d : Dinode) :
    (getDinode (putDinode b i d) i).type = d.type % 2 ^ 16 := by
  have hle := inodeOffset_le i
  simp only [getDinode]
  rw [putDinode, word_putAddrs_of_disjoint _ _ _ (by omega),
    Bytes.word_setWord_of_disjoint _ (by omega), Bytes.word_setWord_of_disjoint _ (by omega),
    Bytes.word_setWord_of_disjoint _ (by omega), Bytes.word_setWord_of_disjoint _ (by omega),
    Bytes.word_setWord _ (by omega)]
  rfl

theorem addrs_getDinode_putDinode (b : Block) (i : Nat) (d : Dinode) (hk : k < ndirect + 1) :
    (getDinode (putDinode b i d) i).addrs k = d.addrs k % 2 ^ 32 := by
  have hle := inodeOffset_le i
  exact word_putAddrs _ _ _ (by simp only [ndirect]; omega) hk

theorem fields_getDinode_putDinode (b : Block) (i : Nat) (d : Dinode) :
    (getDinode (putDinode b i d) i).major = d.major % 2 ^ 16 ∧
      (getDinode (putDinode b i d) i).minor = d.minor % 2 ^ 16 ∧
      (getDinode (putDinode b i d) i).nlink = d.nlink % 2 ^ 16 ∧
      (getDinode (putDinode b i d) i).size = d.size % 2 ^ 32 := by
  have hle := inodeOffset_le i
  simp only [getDinode]
  rw [putDinode]
  refine ⟨?_, ?_, ?_, ?_⟩
  · rw [word_putAddrs_of_disjoint _ _ _ (by omega), Bytes.word_setWord_of_disjoint _ (by omega),
      Bytes.word_setWord_of_disjoint _ (by omega), Bytes.word_setWord_of_disjoint _ (by omega),
      Bytes.word_setWord _ (by omega)]
    rfl
  · rw [word_putAddrs_of_disjoint _ _ _ (by omega), Bytes.word_setWord_of_disjoint _ (by omega),
      Bytes.word_setWord_of_disjoint _ (by omega), Bytes.word_setWord _ (by omega)]
    rfl
  · rw [word_putAddrs_of_disjoint _ _ _ (by omega), Bytes.word_setWord_of_disjoint _ (by omega),
      Bytes.word_setWord _ (by omega)]
    rfl
  · rw [word_putAddrs_of_disjoint _ _ _ (by omega), Bytes.word_setWord _ (by omega)]
    rfl

structure Dinode.Fits (d : Dinode) : Prop where
  type : d.type < 2 ^ 16
  major : d.major < 2 ^ 16
  minor : d.minor < 2 ^ 16
  nlink : d.nlink < 2 ^ 16
  size : d.size < 2 ^ 32
  addrs : ∀ k ≤ ndirect, d.addrs k < 2 ^ 32

theorem getDinode_putDinode (b : Block) (i : Nat) (h : d.Fits) :
    (getDinode (putDinode b i d) i).Agrees d := by
  obtain ⟨hmajor, hminor, hnlink, hsize⟩ := fields_getDinode_putDinode b i d
  exact ⟨(type_getDinode_putDinode b i d).trans (Nat.mod_eq_of_lt h.type),
    hmajor.trans (Nat.mod_eq_of_lt h.major), hminor.trans (Nat.mod_eq_of_lt h.minor),
    hnlink.trans (Nat.mod_eq_of_lt h.nlink), hsize.trans (Nat.mod_eq_of_lt h.size),
    fun k hk => (addrs_getDinode_putDinode b i d (by omega)).trans (Nat.mod_eq_of_lt (h.addrs k hk))⟩

theorem getBit_setByte (b : Block) (bj : Nat) (hbi : bi < bpb) (hv : v < 2 ^ 8) :
    getBit (b.setWord 1 (bi / 8) v) bj = if bi / 8 = bj / 8 then v.testBit (bj % 8) else getBit b bj := by
  rw [bpb, bsize] at hbi
  rw [getBit]
  split
  · rename_i hsame
    rw [← hsame, Bytes.word_setWord b (by simp only [bsize]; omega), Nat.mod_eq_of_lt (show v < 256 ^ 1 from hv)]
  · rw [Bytes.word_setWord_of_disjoint b (by omega), getBit]

theorem getBit_setBit (b : Block) (hbi : bi < bpb) :
    getBit (setBit b bi) bj = (getBit b bj || decide (bi = bj)) := by
  have hbyte : b.word 1 (bi / 8) < 2 ^ 8 := b.word_lt 1 (bi / 8)
  have hfits := Nat.or_lt_two_pow hbyte (Nat.pow_lt_pow_right (by omega) (show bi % 8 < 8 by omega))
  rw [setBit, getBit_setByte b bj hbi hfits]
  split
  · rename_i hsame
    rw [Nat.testBit_or, Nat.testBit_two_pow, getBit, ← hsame]
    congr 1
    exact decide_eq_decide.mpr (by omega)
  · rw [decide_eq_false (by omega), Bool.or_false]

theorem getBit_clearBit (b : Block) (hbi : bi < bpb) :
    getBit (clearBit b bi) bj = (getBit b bj && !decide (bi = bj)) := by
  have hbyte : b.word 1 (bi / 8) < 2 ^ 8 := b.word_lt 1 (bi / 8)
  rw [clearBit, getBit_setByte b bj hbi (Nat.and_lt_two_pow _ (Nat.xor_lt_two_pow (by decide) ?_))]
  · split
    · rename_i hsame
      have hall : (0xff).testBit (bj % 8) = true := by
        rw [show 0xff = 2 ^ 8 - 1 from rfl, Nat.testBit_two_pow_sub_one]
        exact decide_eq_true (by omega)
      rw [Nat.testBit_and, Nat.testBit_xor, hall, Nat.testBit_two_pow, getBit, ← hsame, Bool.true_xor]
      congr 2
      exact decide_eq_decide.mpr (by omega)
    · rw [decide_eq_false (by omega), Bool.not_false, Bool.and_true]
  · exact Nat.pow_lt_pow_right (by omega) (by omega)

end RainOS.Fs
