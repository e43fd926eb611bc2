import RainOS.Fs.Codec
import Mathlib.Logic.Function.Basic

/-!
# A sound disk

The block numbers an inode has are its entries: the twelve direct ones, the number of its indirect
block, and the numbers in that block. A disk is sound when the entries of the inodes in use are all
different blocks of the data region with their bits set, when directories name inodes that exist, and
when the regions before the data blocks are marked as used. The inode table that counts is the one in
memory, which may be ahead of the disk: an address the disk does not have yet is zero there.
-/

namespace RainOS.Fs

open Function

abbrev Table := Nat → Dinode

def Dinode.setAddr (d : Dinode) (k addr : Nat) : Dinode := { d with addrs := update d.addrs k addr }

theorem Dinode.addrs_setAddr (d : Dinode) (k addr n : Nat) :
    (d.setAddr k addr).addrs n = if n = k then addr else d.addrs n := update_apply ..

def dinodeAt (blk : Nat → Block) : Table := fun i => getDinode (blk (iblock i)) i

def used (sb : Superblock) (blk : Nat → Block) (b : Nat) : Bool :=
  getBit (blk (bblock b sb.ninodes)) (b % bpb)

def Alloc (sb : Superblock) (A : Table) (i : Nat) : Prop := i < sb.ninodes ∧ (A i).type ≠ 0

/-- The block numbers of inode `i`: its addresses, then those in its indirect block. -/
def entry (A : Table) (blk : Nat → Block) (i n : Nat) : Nat :=
  if n ≤ ndirect then (A i).addrs n
  else if (A i).addrs ndirect = 0 then 0
  else (blk ((A i).addrs ndirect)).word 4 (4 * (n - (ndirect + 1)))

def entryCount : Nat := ndirect + 1 + nindirect

/-- The entry with the number of the `bn`th block of an inode. -/
def dataIndex (bn : Nat) : Nat := if bn < ndirect then bn else bn + 1

/-- Every entry of a directory block names an inode that exists. -/
def DirBlock (sb : Superblock) (b : Block) : Prop :=
  ∀ e < bsize / direntSize, b.word 2 (direntSize * e) < sb.ninodes

/-- There is a root inode, the regions do not overlap, and sector numbers have 28 bits. -/
structure Geometry (sb : Superblock) : Prop where
  root : rootino < sb.ninodes
  data : sb.firstData ≤ sb.logStart
  size : sb.size ≤ 2 ^ 28

def Stored (sb : Superblock) (A : Table) (blk : Nat → Block) : Prop :=
  ∀ i < sb.ninodes, (dinodeAt blk i).type = (A i).type ∧
    ∀ k ≤ ndirect, (dinodeAt blk i).addrs k = (A i).addrs k ∨ (dinodeAt blk i).addrs k = 0

def Distinct (sb : Superblock) (A : Table) (blk : Nat → Block) : Prop :=
  ∀ i n i' n', Alloc sb A i → Alloc sb A i' → n < entryCount → n' < entryCount →
    entry A blk i n ≠ 0 → entry A blk i n = entry A blk i' n' → i = i' ∧ n = n'

def InData (sb : Superblock) (A : Table) (blk : Nat → Block) : Prop :=
  ∀ i n, Alloc sb A i → n < entryCount → entry A blk i n ≠ 0 →
    sb.firstData ≤ entry A blk i n ∧ entry A blk i n < sb.logStart ∧ used sb blk (entry A blk i n) = true

def Directories (sb : Superblock) (A : Table) (blk : Nat → Block) : Prop :=
  ∀ i n, Alloc sb A i → (A i).type = tDir → n < entryCount → n ≠ ndirect → entry A blk i n ≠ 0 →
    DirBlock sb (blk (entry A blk i n))

structure DiskSound (sb : Superblock) (A : Table) (blk : Nat → Block) : Prop where
  super : getSuperblock (blk 1) = sb
  reserved : ∀ b < sb.firstData, used sb blk b = true
  stored : Stored sb A blk
  distinct : Distinct sb A blk
  inData : InData sb A blk
  directories : Directories sb A blk

/-- A block of the data region that is in use and belongs to no inode. -/
structure Fresh (sb : Superblock) (A : Table) (blk : Nat → Block) (b : Nat) : Prop where
  above : sb.firstData ≤ b
  below : b < sb.logStart
  used : used sb blk b = true
  unlisted : ∀ i n, Alloc sb A i → n < entryCount → entry A blk i n ≠ b

/-! ### The regions -/

variable {sb : Superblock} {A A' : Table} {blk blk' : Nat → Block} {b i n x bn bn' k type : Nat} {d : Block}

theorem iblock_lt_bblock (hi : i < sb.ninodes) (b : Nat) : iblock i < bblock b sb.ninodes := by
  simp only [iblock, bblock, ipb, bpb, bsize]
  omega

theorem bblock_lt_firstData (hb : b < sb.size) : bblock b sb.ninodes < sb.firstData := by
  have hle : b / bpb ≤ sb.size / bpb := Nat.div_le_div_right hb.le
  simp only [bblock, Superblock.firstData]
  omega

theorem iblock_lt_firstData (hi : i < sb.ninodes) : iblock i < sb.firstData := by
  simp only [iblock, Superblock.firstData, ipb, bpb, bsize]
  omega

theorem Geometry.logStart_le (sb : Superblock) : sb.logStart ≤ sb.size := Nat.sub_le ..

theorem bblock_ne_one (b ninodes : Nat) : bblock b ninodes ≠ 1 := by
  simp only [bblock, ipb, bpb, bsize]
  omega

theorem iblock_ne_one (i : Nat) : iblock i ≠ 1 := by
  simp only [iblock, ipb]
  omega

theorem one_lt_firstData (sb : Superblock) : 1 < sb.firstData := by
  simp only [Superblock.firstData, ipb, bpb, bsize]
  omega

theorem eq_of_bblock_eq {b b' : Nat} (h : bblock b sb.ninodes = bblock b' sb.ninodes)
    (hmod : b % bpb = b' % bpb) : b = b' := by
  have hdiv : b / bpb = b' / bpb := by
    simp only [bblock] at h
    omega
  rw [← Nat.div_add_mod b bpb, ← Nat.div_add_mod b' bpb, hdiv, hmod]

/-! ### Entries -/

theorem dataIndex_lt (h : bn < maxfile) : dataIndex bn < entryCount := by
  simp only [dataIndex, entryCount, maxfile] at h ⊢
  split <;> omega

theorem dataIndex_ne (bn : Nat) : dataIndex bn ≠ ndirect := by
  rw [dataIndex]
  split <;> omega

theorem dataIndex_inj (h : dataIndex bn = dataIndex bn') : bn = bn' := by
  simp only [dataIndex] at h
  split at h <;> split at h <;> omega

theorem entry_of_le (A : Table) (blk : Nat → Block) (i : Nat) (h : n ≤ ndirect) :
    entry A blk i n = (A i).addrs n := if_pos h

theorem entry_ndirect (A : Table) (blk : Nat → Block) (i : Nat) :
    entry A blk i ndirect = (A i).addrs ndirect := if_pos le_rfl

theorem entry_of_gt (A : Table) (blk : Nat → Block) (h : ndirect < n)
    (hindirect : (A i).addrs ndirect ≠ 0) :
    entry A blk i n = (blk ((A i).addrs ndirect)).word 4 (4 * (n - (ndirect + 1))) := by
  rw [entry, if_neg (by omega), if_neg hindirect]

theorem entry_congr (haddrs : ∀ k ≤ ndirect, (A' i).addrs k = (A i).addrs k)
    (hblk : (A i).addrs ndirect ≠ 0 → blk' ((A i).addrs ndirect) = blk ((A i).addrs ndirect)) (n : Nat) :
    entry A' blk' i n = entry A blk i n := by
  rw [entry, entry, haddrs ndirect le_rfl]
  split
  · exact haddrs n ‹_›
  · split
    · rfl
    · rw [hblk ‹_›]

theorem entry_update_of_ne (h : (A i).addrs ndirect ≠ x) (d : Block) (n : Nat) :
    entry A (update blk x d) i n = entry A blk i n :=
  entry_congr (fun _ _ => rfl) (fun _ => update_of_ne h d blk) n

/-! ### Preservation -/

namespace DiskSound

theorem shrink (hgeo : Geometry sb) (h : DiskSound sb A blk) (hsuper : blk' 1 = blk 1)
    (hused : ∀ b < sb.size, used sb blk b = true → used sb blk' b = true) (hstored : Stored sb A' blk')
    (hentry : ∀ i n, Alloc sb A' i → n < entryCount → entry A' blk' i n ≠ 0 →
      Alloc sb A i ∧ entry A' blk' i n = entry A blk i n)
    (hdirs : Directories sb A' blk') : DiskSound sb A' blk' where
  super := by rw [hsuper, h.super]
  reserved b hb := hused b (by have hle := Geometry.logStart_le sb; have hdata := hgeo.data; omega)
    (h.reserved b hb)
  stored := hstored
  distinct := by
    intro i n i' n' hi hi' hn hn' hne heq
    obtain ⟨hi₀, he⟩ := hentry i n hi hn hne
    obtain ⟨hi₀', he'⟩ := hentry i' n' hi' hn' (heq ▸ hne)
    exact h.distinct i n i' n' hi₀ hi₀' hn hn' (he ▸ hne) (by rw [← he, ← he', heq])
  inData := by
    intro i n hi hn hne
    obtain ⟨hi₀, he⟩ := hentry i n hi hn hne
    obtain ⟨habove, hbelow, hbit⟩ := h.inData i n hi₀ hn (he ▸ hne)
    rw [he]
    exact ⟨habove, hbelow, hused _ (lt_of_lt_of_le hbelow (Geometry.logStart_le sb)) hbit⟩
  directories := hdirs

theorem grow (hgeo : Geometry sb) (h : DiskSound sb A blk) (hb : Fresh sb A blk b)
    (hsuper : blk' 1 = blk 1) (hused : ∀ b < sb.size, used sb blk' b = used sb blk b) (hstored : Stored sb A' blk')
    (hentry : ∀ i' n', Alloc sb A' i' → n' < entryCount →
      Alloc sb A i' ∧ entry A' blk' i' n' = if i' = i ∧ n' = n then b else entry A blk i' n')
    (hdirs : Directories sb A' blk') : DiskSound sb A' blk' where
  super := by rw [hsuper, h.super]
  reserved b hb := by
    have hle := Geometry.logStart_le sb
    have hdata := hgeo.data
    rw [hused b (by omega), h.reserved b hb]
  stored := hstored
  distinct := by
    intro i₁ n₁ i₂ n₂ hi₁ hi₂ hn₁ hn₂ hne heq
    obtain ⟨ha₁, he₁⟩ := hentry i₁ n₁ hi₁ hn₁
    obtain ⟨ha₂, he₂⟩ := hentry i₂ n₂ hi₂ hn₂
    rw [he₁] at hne heq
    rw [he₂] at heq
    by_cases h₁ : i₁ = i ∧ n₁ = n <;> by_cases h₂ : i₂ = i ∧ n₂ = n
    · exact ⟨h₁.1.trans h₂.1.symm, h₁.2.trans h₂.2.symm⟩
    · rw [if_pos h₁, if_neg h₂] at heq
      exact absurd heq.symm (hb.unlisted i₂ n₂ ha₂ hn₂)
    · rw [if_neg h₁, if_pos h₂] at heq
      exact absurd heq (hb.unlisted i₁ n₁ ha₁ hn₁)
    · rw [if_neg h₁] at hne heq
      rw [if_neg h₂] at heq
      exact h.distinct i₁ n₁ i₂ n₂ ha₁ ha₂ hn₁ hn₂ hne heq
  inData := by
    intro i' n' hi' hn' hne
    obtain ⟨ha, he⟩ := hentry i' n' hi' hn'
    have hle := Geometry.logStart_le sb
    rw [he] at hne ⊢
    split at hne
    · rw [if_pos ‹_›, hused b (hb.below.trans_le hle)]
      exact ⟨hb.above, hb.below, hb.used⟩
    · obtain ⟨habove, hbelow, hbit⟩ := h.inData i' n' ha hn' hne
      rw [if_neg ‹_›, hused _ (hbelow.trans_le hle)]
      exact ⟨habove, hbelow, hbit⟩
  directories := hdirs

theorem indirect (h : DiskSound sb A blk) (hi : Alloc sb A i) (hne : (A i).addrs ndirect ≠ 0) :
    sb.firstData ≤ (A i).addrs ndirect ∧ (A i).addrs ndirect < sb.logStart := by
  rw [← entry_ndirect A blk i] at hne ⊢
  obtain ⟨habove, hbelow, -⟩ := h.inData i ndirect hi (by decide) hne
  exact ⟨habove, hbelow⟩

theorem addrs_lt (hgeo : Geometry sb) (h : DiskSound sb A blk) (hi : Alloc sb A i) (hk : k ≤ ndirect) : (A i).addrs k < 2 ^ 32 := by
  by_cases hzero : (A i).addrs k = 0
  · rw [hzero]
    decide
  · have hcount : ndirect < entryCount := by decide
    rw [← entry_of_le A blk i hk] at hzero ⊢
    obtain ⟨-, hbelow, -⟩ := h.inData i k hi (by omega) hzero
    have hle := Geometry.logStart_le sb
    have hsize := hgeo.size
    omega

theorem type_lt (h : DiskSound sb A blk) (hi : i < sb.ninodes) : (A i).type < 2 ^ 16 := by
  rw [← (h.stored i hi).1]
  exact Bytes.word_lt ..

theorem entry_update_of_lt (h : DiskSound sb A blk) (hi : Alloc sb A i) (hx : x < sb.firstData)
    (d : Block) (n : Nat) : entry A (update blk x d) i n = entry A blk i n := by
  refine entry_congr (fun _ _ => rfl) (fun hne => ?_) n
  have hge := (h.indirect hi hne).1
  exact update_of_ne (by omega) _ _

theorem directories_update_of_lt (h : DiskSound sb A blk) (hx : x < sb.firstData) (d : Block) :
    Directories sb A (update blk x d) := by
  intro i n hi htype hn hdata hne
  rw [h.entry_update_of_lt hi hx d n] at hne ⊢
  have hge := (h.inData i n hi hn hne).1
  rw [update_of_ne (by omega)]
  exact h.directories i n hi htype hn hdata hne

section

variable (sb blk b) (b' : Nat)

theorem used_update_bblock (hd : ∀ bj, bj ≠ b % bpb → getBit d bj = getBit (blk (bblock b sb.ninodes)) bj) :
    used sb (update blk (bblock b sb.ninodes) d) b' = if b = b' then getBit d (b % bpb) else used sb blk b' := by
  split
  · rename_i heq
    rw [← heq, used, update_self]
  · rename_i hne
    by_cases hsame : bblock b' sb.ninodes = bblock b sb.ninodes
    · rw [used, used, hsame, update_self, hd _ fun hmod => hne (eq_of_bblock_eq hsame.symm hmod.symm)]
    · rw [used, used, update_of_ne hsame]

theorem used_setBit :
    used sb (update blk (bblock b sb.ninodes) (setBit (blk (bblock b sb.ninodes)) (b % bpb))) b' =
      (used sb blk b' || decide (b = b')) := by
  have hlt : b % bpb < bpb := Nat.mod_lt b (by decide)
  rw [used_update_bblock sb blk b b' fun bj hne => by simp [getBit_setBit _ hlt, Ne.symm hne], getBit_setBit _ hlt]
  by_cases heq : b = b' <;> simp [heq]

theorem used_clearBit :
    used sb (update blk (bblock b sb.ninodes) (clearBit (blk (bblock b sb.ninodes)) (b % bpb))) b' =
      (used sb blk b' && !decide (b = b')) := by
  have hlt : b % bpb < bpb := Nat.mod_lt b (by decide)
  rw [used_update_bblock sb blk b b' fun bj hne => by simp [getBit_clearBit _ hlt, Ne.symm hne], getBit_clearBit _ hlt]
  by_cases heq : b = b' <;> simp [heq]

end

theorem setUsed (hgeo : Geometry sb) (h : DiskSound sb A blk) (hb : b < sb.size) :
    DiskSound sb A (update blk (bblock b sb.ninodes)
      (setBit (blk (bblock b sb.ninodes)) (b % bpb))) := by
  have hlt := bblock_lt_firstData hb
  refine h.shrink hgeo ?_ ?_ ?_ ?_ (h.directories_update_of_lt hlt _)
  · exact update_of_ne (bblock_ne_one b sb.ninodes).symm _ blk
  · intro b' _ hused
    rw [used_setBit, hused, Bool.true_or]
  · intro i hi
    have hne : iblock i ≠ bblock b sb.ninodes := (iblock_lt_bblock hi b).ne
    rw [dinodeAt, update_of_ne hne]
    exact h.stored i hi
  · intro i n hi _ _
    exact ⟨hi, h.entry_update_of_lt hi hlt _ n⟩

theorem outside_update (h : DiskSound sb A blk) (hx : sb.firstData ≤ x)
    (d : Block) :
    update blk x d 1 = blk 1 ∧ (∀ b < sb.size, used sb (update blk x d) b = used sb blk b) ∧
      Stored sb A (update blk x d) := by
  refine ⟨?_, ?_, ?_⟩
  · have hone := one_lt_firstData sb
    exact update_of_ne (by omega) _ _
  · intro b hb
    have hlt := bblock_lt_firstData hb
    rw [used, update_of_ne (by omega), used]
  · intro i hi
    have hlt := iblock_lt_firstData hi
    rw [dinodeAt, update_of_ne (by omega)]
    exact h.stored i hi

section

variable (hgeo : Geometry sb) (h : DiskSound sb A blk)
include hgeo h

theorem update_unlisted (hx : sb.firstData ≤ x)
    (hunlisted : ∀ i n, Alloc sb A i → n < entryCount → entry A blk i n ≠ x) (d : Block) :
    DiskSound sb A (update blk x d) := by
  obtain ⟨hsuper, hused, hstored⟩ := h.outside_update hx d
  have hentry : ∀ i n, Alloc sb A i → entry A (update blk x d) i n = entry A blk i n := by
    intro i n hi
    have hne := hunlisted i ndirect hi (by decide)
    rw [entry_ndirect] at hne
    exact entry_update_of_ne hne d n
  refine h.shrink hgeo hsuper (fun b hb hbit => by rwa [hused b hb]) hstored
    (fun i n hi _ _ => ⟨hi, hentry i n hi⟩) ?_
  intro i n hi htype hn hdata hne
  rw [hentry i n hi] at hne ⊢
  rw [update_of_ne (hunlisted i n hi hn)]
  exact h.directories i n hi htype hn hdata hne

theorem update_log (hx : sb.logStart ≤ x) (d : Block) :
    DiskSound sb A (update blk x d) := by
  refine h.update_unlisted hgeo (hgeo.data.trans hx) ?_ d
  intro i n hi hn heq
  have hone := one_lt_firstData sb
  have hdata := hgeo.data
  have hbelow := (h.inData i n hi hn (by omega)).2.1
  omega

theorem update_data (hi : Alloc sb A i) (hn : n < entryCount) (hdata : n ≠ ndirect) (hne : entry A blk i n ≠ 0)
    (hd : (A i).type = tDir → DirBlock sb d) : DiskSound sb A (update blk (entry A blk i n) d) := by
  obtain ⟨hsuper, hused, hstored⟩ := h.outside_update (h.inData i n hi hn hne).1 d
  have hentry : ∀ i' n', Alloc sb A i' →
      entry A (update blk (entry A blk i n) d) i' n' = entry A blk i' n' := by
    intro i' n' hi'
    refine entry_congr (fun _ _ => rfl) (fun hne' => ?_) n'
    rw [← entry_ndirect A blk i'] at hne' ⊢
    refine update_of_ne (fun heq => hdata ?_) _ _
    exact (h.distinct i' ndirect i n hi' hi (by decide) hn hne' heq).2.symm
  refine h.shrink hgeo hsuper (fun b hb hbit => by rwa [hused b hb]) hstored
    (fun i' n' hi' _ _ => ⟨hi', hentry i' n' hi'⟩) ?_
  intro i' n' hi' htype hn' hdata' hne'
  rw [hentry i' n' hi'] at hne' ⊢
  by_cases hsame : entry A blk i' n' = entry A blk i n
  · obtain ⟨rfl, rfl⟩ := h.distinct i' n' i n hi' hi hn' hn hne' hsame
    rw [update_self]
    exact hd htype
  · rw [update_of_ne hsame]
    exact h.directories i' n' hi' htype hn' hdata' hne'

end

end DiskSound

/-! ### Inodes on disk -/

theorem dinodeAt_put_of_ne (blk : Nat → Block) {j : Nat} (h : j ≠ i) (e : Dinode) :
    (dinodeAt (update blk (iblock i) (putDinode (blk (iblock i)) i e)) j).Agrees (dinodeAt blk j) := by
  by_cases hblock : iblock j = iblock i
  · have hslot : i % ipb ≠ j % ipb := by
      simp only [iblock, ipb] at hblock ⊢
      omega
    simp only [dinodeAt, hblock, update_self]
    exact getDinode_putDinode_of_ne (blk (iblock i)) e hslot
  · rw [dinodeAt, update_of_ne hblock]
    exact ⟨rfl, rfl, rfl, rfl, rfl, fun _ _ => rfl⟩

theorem dinodeAt_put (blk : Nat → Block) (i : Nat) (e : Dinode) :
    (dinodeAt (update blk (iblock i) (putDinode (blk (iblock i)) i e)) i).type = e.type % 2 ^ 16 ∧
      ∀ k ≤ ndirect, (dinodeAt (update blk (iblock i) (putDinode (blk (iblock i)) i e)) i).addrs k =
        e.addrs k % 2 ^ 32 := by
  simp only [dinodeAt, update_self]
  exact ⟨type_getDinode_putDinode _ i e, fun k hk => addrs_getDinode_putDinode _ i e (by omega)⟩

theorem word_zero (w off : Nat) : Bytes.word (fun _ => 0 : Block) w off = 0 := by
  rw [Bytes.word]
  induction w generalizing off with
  | zero => rfl
  | succ w ih =>
    rw [Mem.word, ih, Bytes.mem]
    split <;> rfl

theorem dirBlock_zero (hgeo : Geometry sb) : DirBlock sb fun _ => 0 := by
  intro e _
  rw [word_zero]
  exact lt_of_le_of_lt (Nat.zero_le _) hgeo.root

theorem entry_fresh (A : Table) (blk : Nat → Block) (i type n : Nat) :
    entry (update A i (.fresh type)) blk i n = 0 := by
  rw [entry, update_self]
  split
  · rfl
  · exact if_pos rfl

theorem entry_update_table_of_ne (A : Table) (blk : Nat → Block) {j : Nat} (h : j ≠ i) (e : Dinode) (n : Nat) :
    entry (update A i e) blk j n = entry A blk j n := by
  refine entry_congr (fun k _ => ?_) (fun _ => rfl) n
  rw [update_of_ne h]

theorem entry_setAddr (hk : k ≤ ndirect) (hnone : (A i).addrs k = 0) (hpos : b ≠ 0)
    (hclear : blk b = fun _ => 0) (j n : Nat) :
    entry (update A i ((A i).setAddr k b)) blk j n = if j = i ∧ n = k then b else entry A blk j n := by
  by_cases hji : j = i
  · subst hji
    by_cases hn : n ≤ ndirect
    · rw [entry_of_le _ _ _ hn, entry_of_le _ _ _ hn, update_self, Dinode.addrs_setAddr]
      simp only [true_and]
    · rw [if_neg (by omega), entry, if_neg hn, entry, if_neg hn, update_self,
        Dinode.addrs_setAddr]
      by_cases hlast : ndirect = k
      · rw [if_pos hlast, if_neg hpos, hclear, word_zero, hlast, hnone, if_pos rfl]
      · rw [if_neg hlast]
  · rw [if_neg (fun hand => hji hand.1)]
    exact entry_update_table_of_ne A blk hji _ n

namespace DiskSound

theorem putInode (hgeo : Geometry sb) (h : DiskSound sb A blk) (hi : Alloc sb A i) {e : Dinode}
    (htype : e.type = (A i).type) (haddrs : ∀ k ≤ ndirect, e.addrs k = (A i).addrs k) :
    DiskSound sb A (update blk (iblock i) (putDinode (blk (iblock i)) i e)) := by
  have hlt := iblock_lt_firstData hi.1
  refine h.shrink hgeo ?_ ?_ ?_ (fun i' n hi' _ _ => ⟨hi', h.entry_update_of_lt hi' hlt _ n⟩)
    (h.directories_update_of_lt hlt _)
  · exact update_of_ne (iblock_ne_one i).symm _ _
  · intro b _ hbit
    rwa [used, update_of_ne (iblock_lt_bblock hi.1 b).ne']
  · intro j hj
    by_cases hji : j = i
    · subst hji
      obtain ⟨ht, ha⟩ := dinodeAt_put blk j e
      refine ⟨?_, fun k hk => .inl ?_⟩
      · rw [ht, htype, Nat.mod_eq_of_lt (h.type_lt hj)]
      · rw [ha k hk, haddrs k hk, Nat.mod_eq_of_lt (h.addrs_lt hgeo hi hk)]
    · have hsame := dinodeAt_put_of_ne blk hji e
      refine ⟨hsame.type.trans (h.stored j hj).1, fun k hk => ?_⟩
      rw [hsame.addrs k hk]
      exact (h.stored j hj).2 k hk

theorem newInode (hgeo : Geometry sb) (h : DiskSound sb A blk) (hi : i < sb.ninodes)
    (hfree : (A i).type = 0) (htype : type < 2 ^ 16) :
    DiskSound sb (update A i (.fresh type))
      (update blk (iblock i) (putDinode (blk (iblock i)) i (.fresh type))) := by
  have hlt := iblock_lt_firstData hi
  have hzero := fun blk' n => entry_fresh A blk' i type n
  have hother := fun j blk' n (hji : j ≠ i) => entry_update_table_of_ne A blk' hji (.fresh type) n
  have halloc : ∀ j, j ≠ i → Alloc sb (update A i (.fresh type)) j → Alloc sb A j := by
    intro j hji hj
    rwa [Alloc, update_of_ne hji] at hj
  refine h.shrink hgeo ?_ ?_ ?_ ?_ ?_
  · exact update_of_ne (iblock_ne_one i).symm _ _
  · intro b _ hbit
    rwa [used, update_of_ne (iblock_lt_bblock hi b).ne']
  · intro j hj
    by_cases hji : j = i
    · subst hji
      obtain ⟨ht, ha⟩ := dinodeAt_put blk j (.fresh type)
      rw [update_self]
      exact ⟨ht.trans (Nat.mod_eq_of_lt htype), fun k hk => .inl (ha k hk)⟩
    · have hsame := dinodeAt_put_of_ne blk hji (.fresh type)
      rw [update_of_ne hji]
      refine ⟨hsame.type.trans (h.stored j hj).1, fun k hk => ?_⟩
      rw [hsame.addrs k hk]
      exact (h.stored j hj).2 k hk
  · intro j n hj _ hne
    have hji : j ≠ i := fun heq => hne (by rw [heq, hzero])
    rw [hother j _ n hji]
    exact ⟨halloc j hji hj, h.entry_update_of_lt (halloc j hji hj) hlt _ n⟩
  · intro j n hj ht hn hdata hne
    have hji : j ≠ i := fun heq => hne (by rw [heq, hzero])
    rw [hother j _ n hji] at hne ⊢
    rw [update_of_ne hji] at ht
    exact h.directories_update_of_lt hlt _ j n (halloc j hji hj) ht hn hdata hne

theorem entry_dinodeAt (h : DiskSound sb A blk) (hi : i < sb.ninodes)
    (hne : entry (dinodeAt blk) blk i n ≠ 0) (blk' : Nat → Block) :
    entry (dinodeAt blk) blk' i n = entry A blk' i n := by
  have hstored := (h.stored i hi).2
  by_cases hn : n ≤ ndirect
  · rw [entry_of_le _ _ _ hn] at hne ⊢
    rw [entry_of_le _ _ _ hn]
    exact (hstored n hn).resolve_right hne
  · have hindirect : (dinodeAt blk i).addrs ndirect ≠ 0 := fun hzero => hne (by
      rw [entry, if_neg hn, if_pos hzero])
    have hsame := (hstored ndirect le_rfl).resolve_right hindirect
    rw [entry_of_gt _ _ (by omega) hindirect, entry_of_gt _ _ (by omega) (hsame ▸ hindirect), hsame]

section

variable (hgeo : Geometry sb) (h : DiskSound sb A blk)
include hgeo h

theorem forget (hA : ∀ i < sb.ninodes, A' i = A i ∨ A' i = dinodeAt blk i) : DiskSound sb A' blk := by
  have htype : ∀ i < sb.ninodes, (A' i).type = (A i).type := by
    intro i hi
    rcases hA i hi with hsame | hdisk
    · rw [hsame]
    · rw [hdisk, (h.stored i hi).1]
  have halloc : ∀ i, Alloc sb A' i → Alloc sb A i := by
    intro i hi
    exact ⟨hi.1, htype i hi.1 ▸ hi.2⟩
  have hentry : ∀ i n, i < sb.ninodes → entry A' blk i n ≠ 0 → entry A' blk i n = entry A blk i n := by
    intro i n hi hne
    rcases hA i hi with hsame | hdisk
    · exact entry_congr (fun _ _ => by rw [hsame]) (fun _ => rfl) n
    · have hsame : entry A' blk i n = entry (dinodeAt blk) blk i n :=
        entry_congr (fun _ _ => by rw [hdisk]) (fun _ => rfl) n
      rw [hsame] at hne ⊢
      exact h.entry_dinodeAt hi hne blk
  refine h.shrink hgeo rfl (fun _ _ hbit => hbit) ?_
    (fun i n hi _ hne => ⟨halloc i hi, hentry i n hi.1 hne⟩) ?_
  · intro i hi
    rcases hA i hi with hsame | hdisk
    · rw [hsame]
      exact h.stored i hi
    · rw [hdisk]
      exact ⟨rfl, fun _ _ => .inl rfl⟩
  · intro i n hi ht hn hdata hne
    rw [htype i hi.1] at ht
    rw [hentry i n hi.1 hne]
    exact h.directories i n (halloc i hi) ht hn hdata (hentry i n hi.1 hne ▸ hne)

theorem forgetOne (i : Nat) :
    DiskSound sb (update A i (dinodeAt blk i)) blk := by
  refine h.forget hgeo fun j _ => ?_
  by_cases hji : j = i
  · rw [hji, update_self]
    exact .inr rfl
  · rw [update_of_ne hji]
    exact .inl rfl

theorem setAddr (hi : Alloc sb A i) (hk : k ≤ ndirect) (hnone : (A i).addrs k = 0) (hb : Fresh sb A blk b) (hclear : blk b = fun _ => 0) :
    DiskSound sb (update A i ((A i).setAddr k b)) blk := by
  have hpos : b ≠ 0 := by
    have hone := one_lt_firstData sb
    have habove := hb.above
    omega
  have htype : ∀ j, (update A i ((A i).setAddr k b) j).type = (A j).type := by
    intro j
    by_cases hji : j = i
    · rw [hji, update_self, Dinode.setAddr]
    · rw [update_of_ne hji]
  have halloc : ∀ j, Alloc sb (update A i ((A i).setAddr k b)) j →
      Alloc sb A j := by
    intro j hj
    rwa [Alloc, htype j] at hj
  have hentry := entry_setAddr (A := A) (i := i) hk hnone hpos hclear
  refine h.grow hgeo hb rfl (fun _ _ => rfl) ?_ (fun j n hj _ => ⟨halloc j hj, hentry j n⟩) ?_
  · intro j hj
    refine ⟨(h.stored j hj).1.trans (htype j).symm, fun k' hk' => ?_⟩
    have hold := (h.stored j hj).2 k' hk'
    by_cases hji : j = i
    · subst hji
      rw [update_self, Dinode.addrs_setAddr]
      split
      · rename_i heq
        rw [heq, hnone, or_self] at hold
        exact .inr (heq ▸ hold)
      · exact hold
    · rwa [update_of_ne hji]
  · intro j n hj ht hn hdata hne
    rw [hentry] at hne ⊢
    rw [htype j] at ht
    split
    · rw [hclear]
      exact dirBlock_zero hgeo
    · rw [if_neg ‹_›] at hne
      exact h.directories j n (halloc j hj) ht hn hdata hne

end

section

variable (hgeo : Geometry sb) (h : DiskSound sb A blk) (hi : Alloc sb A i) {j : Nat} (hj : j < nindirect)
  (hindirect : (A i).addrs ndirect ≠ 0) (hb : Fresh sb A blk b)
include hgeo h hi hj hindirect hb

theorem entry_setIndirect (i' n' : Nat) (hi' : Alloc sb A i') : entry A (update blk ((A i).addrs ndirect)
      ((blk ((A i).addrs ndirect)).setWord 4 (4 * j) b)) i' n' =
        if i' = i ∧ n' = ndirect + 1 + j then b else entry A blk i' n' := by
  have hfits : b % 256 ^ 4 = b := by
    have hle := Geometry.logStart_le sb
    have hbelow := hb.below
    have hsize := hgeo.size
    exact Nat.mod_eq_of_lt (by omega)
  by_cases hii : i' = i
  · subst hii
    by_cases hn : n' ≤ ndirect
    · rw [if_neg (by omega), entry_of_le _ _ _ hn, entry_of_le _ _ _ hn]
    · rw [entry_of_gt _ _ (by omega) hindirect, entry_of_gt _ _ (by omega) hindirect, update_self]
      by_cases hlast : n' = ndirect + 1 + j
      · rw [if_pos ⟨rfl, hlast⟩, hlast, Nat.add_sub_cancel_left, Bytes.word_setWord, hfits]
        simp only [nindirect, bsize] at hj ⊢
        omega
      · rw [if_neg fun hand => hlast hand.2, Bytes.word_setWord_of_disjoint]
        omega
  · rw [if_neg fun hand => hii hand.1]
    refine entry_congr (fun _ _ => rfl) (fun hne => ?_) n'
    refine update_of_ne (fun heq => hii ?_) _ _
    rw [← entry_ndirect A blk i', ← entry_ndirect A blk i] at heq
    rw [← entry_ndirect A blk i'] at hne
    exact (h.distinct i' ndirect i ndirect hi' hi (by decide) (by decide) hne heq).1

theorem setIndirect (hclear : blk b = fun _ => 0) :
    DiskSound sb A (update blk ((A i).addrs ndirect)
      ((blk ((A i).addrs ndirect)).setWord 4 (4 * j) b)) := by
  obtain ⟨hsuper, hused, hstored⟩ := h.outside_update (h.indirect hi hindirect).1
    ((blk ((A i).addrs ndirect)).setWord 4 (4 * j) b)
  have hentry := h.entry_setIndirect hgeo hi hj hindirect hb
  refine h.grow hgeo hb hsuper hused hstored (fun i' n' hi' _ => ⟨hi', hentry i' n' hi'⟩) ?_
  intro i' n' hi' ht hn' hdata hne
  rw [hentry i' n' hi'] at hne ⊢
  split
  · have hother := hb.unlisted i ndirect hi (by decide)
    rw [entry_ndirect] at hother
    rw [update_of_ne hother.symm, hclear]
    exact dirBlock_zero hgeo
  · rw [if_neg ‹_›] at hne
    have hother : entry A blk i' n' ≠ (A i).addrs ndirect := by
      rw [← entry_ndirect A blk i]
      exact fun heq => hdata (h.distinct i' n' i ndirect hi' hi hn' (by decide) hne heq).2
    rw [update_of_ne hother]
    exact h.directories i' n' hi' ht hn' hdata hne

end

end DiskSound

end RainOS.Fs
