import RainOS.Fs.InodeSpec
import Mathlib.Data.Finset.Card
import Mathlib.Data.List.Nodup

/-!
# What a write logs

What a write to a file logs is known before it starts: the blocks of the file it writes, the bitmap blocks
with the bits of the blocks it takes, the indirect block if that gets a new entry, and the block of the
inode if the file grows. The blocks it takes are the first free ones, so their bitmap blocks are known too.
-/

namespace RainOS.Fs

open BlockStore Function List

/-! ### What is known before a chunk starts -/

/-- The number of block `bn` of a file, zero if there is none. -/
def blockAt (d : Dinode) (blk : Nat → Block) (bn : Nat) : Nat :=
  if bn < ndirect then d.addrs bn
  else if d.addrs ndirect = 0 then 0
  else (blk (d.addrs ndirect)).word 4 (4 * (bn - ndirect))

/-- The free blocks, in the order in which `balloc` takes them. -/
def freeBlocks (sb : Superblock) (blk : Nat → Block) : List Nat :=
  (List.range sb.size).filter fun b => !used sb blk b

/-- The blocks of a file that `n` bytes at `off` lie in. -/
def spanned (off n : Nat) : List Nat :=
  List.range' (off / bsize) (if n = 0 then 0 else (off + n - 1) / bsize + 1 - off / bsize)

/-- The block numbers of a file, the number of its indirect block, and the free blocks. -/
structure Plan where
  map : Nat → Nat
  indirect : Nat
  free : List Nat

namespace Plan

variable (p : Plan) (sb : Superblock) (bns : List Nat)

def Extends : Prop := ∃ bn ∈ bns, ndirect ≤ bn ∧ p.map bn = 0

instance : Decidable (p.Extends bns) := inferInstanceAs (Decidable (∃ bn ∈ bns, ndirect ≤ bn ∧ p.map bn = 0))

def needs : Nat := bns.countP (p.map · = 0) + if p.indirect = 0 ∧ p.Extends bns then 1 else 0

/-- The bitmap blocks with the bits of the first `t` free blocks. -/
def bitmaps (t : Nat) : Finset Nat := ((p.free.take t).map (bblock · sb.ninodes)).toFinset

def cost (grows : Bool) : Nat :=
  bns.length + (p.bitmaps sb (p.needs bns)).card + (if p.Extends bns then 1 else 0) + if grows then 1 else 0

variable {p sb bns} {bn t b u : Nat} {rest : List Nat}

theorem extends_append : p.Extends (bns ++ [bn]) ↔ p.Extends bns ∨ ndirect ≤ bn ∧ p.map bn = 0 := by
  simp only [Extends, mem_append, mem_singleton, or_and_right, exists_or, exists_eq_left]

theorem extends_mapped (h : p.map bn ≠ 0) : p.Extends (bns ++ [bn]) ↔ p.Extends bns := by
  rw [extends_append, or_iff_left fun hnew => h hnew.2]

theorem extends_direct (h : bn < ndirect) : p.Extends (bns ++ [bn]) ↔ p.Extends bns := by
  rw [extends_append, or_iff_left fun hnew => absurd hnew.1 (Nat.not_le.mpr h)]

theorem needs_mapped (h : p.map bn ≠ 0) : p.needs (bns ++ [bn]) = p.needs bns := by
  simp only [needs, extends_mapped h, countP_append, countP_singleton, h, decide_false,
    Bool.false_eq_true, ↓reduceIte, Nat.add_zero]

theorem needs_direct (h : p.map bn = 0) (hlt : bn < ndirect) : p.needs (bns ++ [bn]) = p.needs bns + 1 := by
  simp only [needs, extends_direct hlt, countP_append, countP_singleton, h, decide_true, ↓reduceIte]
  omega

theorem needs_indirect (h : p.map bn = 0) (hge : ndirect ≤ bn) :
    p.needs (bns ++ [bn]) = p.needs bns + (if p.indirect = 0 ∧ ¬ p.Extends bns then 1 else 0) + 1 := by
  have hext : p.Extends (bns ++ [bn]) := extends_append.mpr (.inr ⟨hge, h⟩)
  simp only [needs, hext, countP_append, countP_singleton, h, decide_true, ↓reduceIte, and_true]
  by_cases hindirect : p.indirect = 0
  · by_cases hold : p.Extends bns
    · simp only [hindirect, hold, and_self, not_true_eq_false, and_false, ↓reduceIte]
    · simp only [hindirect, hold, and_false, not_false_eq_true, and_self, ↓reduceIte]
  · simp only [hindirect, false_and, ↓reduceIte]

theorem needs_le_append (p : Plan) (bns rest : List Nat) : p.needs bns ≤ p.needs (bns ++ rest) := by
  induction rest generalizing bns with
  | nil => rw [append_nil]
  | cons bn rest ih =>
    have hstep : p.needs bns ≤ p.needs (bns ++ [bn]) := by
      by_cases hmap : p.map bn = 0
      · by_cases hlt : bn < ndirect
        · rw [needs_direct hmap hlt]
          exact Nat.le_succ _
        · rw [needs_indirect hmap (Nat.le_of_not_lt hlt)]
          omega
      · rw [needs_mapped hmap]
    rw [append_cons]
    exact hstep.trans (ih (bns ++ [bn]))

theorem needs_le (p : Plan) (bns : List Nat) : p.needs bns ≤ bns.length + 1 := by
  have hcount : bns.countP (p.map · = 0) ≤ bns.length := countP_le_length
  rw [needs]
  split <;> omega

theorem bitmaps_succ (h : p.free.drop t = b :: rest) :
    p.bitmaps sb (t + 1) = insert (bblock b sb.ninodes) (p.bitmaps sb t) := by
  have hget : p.free[t]? = some b := by rw [← head?_drop, h, head?_cons]
  rw [bitmaps, take_add_one, hget, Option.toList_some, map_append, toFinset_append, bitmaps,
    Finset.union_comm, map_singleton, toFinset_cons, toFinset_nil, insert_empty_eq]
  rfl

theorem bitmaps_mono (p : Plan) (sb : Superblock) (h : t ≤ u) : p.bitmaps sb t ⊆ p.bitmaps sb u := by
  intro x hx
  rw [bitmaps, mem_toFinset] at hx ⊢
  exact (List.IsPrefix.subset ((take_prefix_take_left h).map _)) hx

theorem card_bitmaps_le (p : Plan) (sb : Superblock) (t : Nat) : (p.bitmaps sb t).card ≤ t := by
  refine (toFinset_card_le _).trans ?_
  rw [length_map, length_take]
  exact Nat.min_le_left ..

end Plan

/-! ### Free blocks -/

variable {sb : Superblock} {blk blk' : Nat → Block} {b : Nat}

theorem mem_freeBlocks : b ∈ freeBlocks sb blk ↔ b < sb.size ∧ used sb blk b = false := by
  rw [freeBlocks, mem_filter, mem_range, Bool.not_eq_true']

theorem freeBlocks_congr (h : ∀ b < sb.size, used sb blk' b = used sb blk b) :
    freeBlocks sb blk' = freeBlocks sb blk := by
  refine filter_congr fun b hb => ?_
  rw [h b (mem_range.mp hb)]

theorem FirstFree.freeBlocks_eq (h : FirstFree sb blk b)
    (hused : ∀ x < sb.size, used sb blk' x = (used sb blk x || decide (b = x))) :
    freeBlocks sb blk = b :: freeBlocks sb blk' := by
  have hsplit : range sb.size = range b ++ b :: range' (b + 1) (sb.size - b - 1) := by
    rw [← range'_succ, range_eq_range', range_eq_range', Nat.sub_add_cancel (by have := h.lt; omega)]
    have happend := range'_append_1 (s := 0) (m := b) (n := sb.size - b)
    rw [Nat.zero_add] at happend
    rw [happend, Nat.add_sub_cancel' h.lt.le]
  have hbefore : ∀ q : Nat → Bool, (∀ x < b, q x = true) → (range b).filter (fun x => !q x) = [] := by
    intro q hq
    rw [filter_eq_nil_iff]
    intro x hx
    rw [hq x (mem_range.mp hx)]
    exact Bool.false_ne_true
  have hself : used sb blk' b = true := by
    rw [hused b h.lt, decide_eq_true rfl, Bool.or_true]
  rw [freeBlocks, freeBlocks, hsplit, filter_append, filter_append, hbefore _ h.first,
    hbefore _ fun x hx => by rw [hused x (hx.trans h.lt), h.first x hx, Bool.true_or],
    filter_cons_of_pos (by rw [h.clear]; rfl), filter_cons_of_neg (by rw [hself]; exact Bool.false_ne_true)]
  refine congrArg (b :: ·) (filter_congr fun x hx => ?_)
  obtain ⟨hlt, hle⟩ := mem_range'_1.mp hx
  rw [hused x (by have := h.lt; omega), decide_eq_false (by omega), Bool.or_false]

/-- The superblock is in place, and the free blocks are these. -/
structure Stock (sb : Superblock) (free : List Nat) (blk : Nat → Block) : Prop where
  super : getSuperblock (blk 1) = sb
  free : freeBlocks sb blk = free

namespace Stock

variable {free : List Nat} {s : State} {x : Nat}

theorem update_data (h : Stock sb free blk) (hx : sb.firstData ≤ x) (d : Block) : Stock sb free (update blk x d) := by
  have hone := one_lt_firstData sb
  refine ⟨?_, (freeBlocks_congr fun b hb => ?_).trans h.free⟩
  · rw [update_of_ne (by omega)]
    exact h.super
  · have hlt := bblock_lt_firstData hb
    rw [used, update_of_ne (by omega), used]

theorem allocated (h : Stock sb free s.blk) (hb : FirstFree sb s.blk b) (hge : sb.firstData ≤ b) :
    free = b :: free.tail ∧ Stock sb free.tail (allocated sb s b).blk := by
  have hlist := hb.freeBlocks_eq fun x _ => DiskSound.used_setBit sb s.blk b x
  rw [h.free] at hlist
  rw [hlist, tail_cons]
  refine ⟨rfl, update_data ⟨?_, rfl⟩ hge _⟩
  rw [update_of_ne (bblock_ne_one b sb.ninodes).symm]
  exact h.super

theorem used_eq (h : Stock sb free blk) (hx : x < sb.size) (hfree : x ∉ free) : used sb blk x = true := by
  rw [← Bool.not_eq_false]
  intro hclear
  exact hfree (h.free ▸ mem_freeBlocks.mpr ⟨hx, hclear⟩)

end Stock

theorem blk_allocated {s : State} {x : Nat} (hb : b < sb.size) (hx : sb.firstData ≤ x) (hne : x ≠ b) :
    (allocated sb s b).blk x = s.blk x := by
  have hlt := bblock_lt_firstData hb
  exact (update_of_ne hne ..).trans (update_of_ne (by omega) ..)

/-! ### Logged sectors -/

/-- A transaction is open, in a log of full size, and it has logged these sectors. -/
structure Logs (log : Log) (sectors : Finset Nat) : Prop where
  outstanding : 1 ≤ log.outstanding
  region : logSize ≤ log.size
  nodup : log.lh.Nodup
  sectors : log.lh.toFinset = sectors

theorem length_le_logged (s : State) (x : Nat) (d : Block) : s.log.lh.length ≤ (logged s x d).log.lh.length := by
  change _ ≤ (if x ∉ s.log.lh then s.log.lh ++ [x] else s.log.lh).length
  split
  · rw [length_append]
    exact Nat.le_add_right ..
  · exact le_rfl

namespace Logs

variable {s : State} {sectors : Finset Nat} {x n : Nat}

theorem logged (h : Logs s.log sectors) (x : Nat) (d : Block) : Logs (logged s x d).log (insert x sectors) := by
  refine ⟨h.outstanding, h.region, ?_, ?_⟩
  · change (if x ∉ s.log.lh then s.log.lh ++ [x] else s.log.lh).Nodup
    split
    · rename_i hnew
      rw [← concat_eq_append]
      exact h.nodup.concat hnew
    · exact h.nodup
  · change (if x ∉ s.log.lh then s.log.lh ++ [x] else s.log.lh).toFinset = _
    rw [← h.sectors]
    split
    · rw [toFinset_append, toFinset_cons, toFinset_nil, insert_empty_eq, Finset.union_comm]
      rfl
    · rename_i hold
      rw [Finset.insert_eq_of_mem (mem_toFinset.mpr (not_not.mp hold))]

theorem allocated (h : Logs s.log sectors) (sb : Superblock) (b : Nat) :
    Logs (allocated sb s b).log (insert b (insert (bblock b sb.ninodes) sectors)) := by
  change Logs (marked sb s b).log _
  exact (h.logged _ _).logged b _

theorem length_eq (h : Logs s.log sectors) : s.log.lh.length = sectors.card := by
  rw [← h.sectors, toFinset_card_of_nodup h.nodup]

theorem refused (h : Logs s.log sectors) {e : Halt} (hrefuses : LogRefuses s.log n e) :
    e = .panic "too big a transaction" ∧ logSize ≤ sectors.card + n := by
  refine ⟨hrefuses.panic h.outstanding, ?_⟩
  by_contra hlt
  have hlength := h.length_eq
  have hregion := h.region
  exact hrefuses.short ⟨h.outstanding, by omega, by omega⟩

end Logs

/-! ### Counting the sectors -/

/-- The blocks of the plan lie in the data region, all different and none of the file's free. -/
structure Plan.Sound (p : Plan) (sb : Superblock) : Prop where
  free : ∀ b ∈ p.free, sb.firstData ≤ b ∧ b < sb.size
  nodup : p.free.Nodup
  mapped : ∀ bn < maxfile, p.map bn ≠ 0 → sb.firstData ≤ p.map bn ∧ p.map bn ∉ p.free
  distinct : ∀ bn < maxfile, ∀ bn' < maxfile, p.map bn ≠ 0 → p.map bn = p.map bn' → bn = bn'
  indirect : p.indirect ≠ 0 → sb.firstData ≤ p.indirect ∧ p.indirect < sb.size ∧ p.indirect ∉ p.free ∧
    ∀ bn < maxfile, p.map bn ≠ p.indirect
  flat : p.indirect = 0 → ∀ bn, ndirect ≤ bn → p.map bn = 0

/-- Blocks `done` of the file are the blocks `data`, and `t` free blocks have been taken; the indirect block is
`i`, and `ext` says whether it has a new entry or is new itself. -/
structure Tally (p : Plan) (done : List Nat) (t : Nat) (ext : Bool) (data : Finset Nat) (i : Nat) : Prop where
  range : ∀ bn ∈ done, bn < maxfile
  taken : t ≤ p.free.length
  card : data.card = done.length
  source : ∀ b ∈ data, (∃ bn ∈ done, p.map bn = b) ∧ b ≠ 0 ∨ b ∈ p.free.take t
  indirect : i = p.indirect ∧ (ext = true → i ≠ 0) ∨ p.indirect = 0 ∧ i ∈ p.free.take t ∧ ext = true
  apart : i ∉ data

def sectorsOf (p : Plan) (sb : Superblock) (t : Nat) (ext : Bool) (data : Finset Nat) (i : Nat) : Finset Nat :=
  data ∪ p.bitmaps sb t ∪ if ext then {i} else ∅

namespace Tally

variable {p : Plan} {done rest : List Nat} {t bn i x inum : Nat} {ext : Bool} {data : Finset Nat}

theorem take_succ (h : p.free.drop t = b :: rest) :
    x ∈ p.free.take (t + 1) ↔ x ∈ p.free.take t ∨ x = b := by
  have hget : p.free[t]? = some b := by rw [← head?_drop, h, head?_cons]
  rw [take_add_one, hget, Option.toList_some, mem_append, mem_singleton]

theorem lt_length (h : p.free.drop t = b :: rest) : t < p.free.length := by
  by_contra hge
  rw [drop_eq_nil_of_le (Nat.le_of_not_lt hge)] at h
  cases h

theorem fresh (hp : p.Sound sb) (h : p.free.drop t = b :: rest) : b ∈ p.free ∧ b ∉ p.free.take t := by
  have hmem : b ∈ p.free.drop t := h ▸ mem_cons_self
  refine ⟨mem_of_mem_drop hmem, fun htake => ?_⟩
  exact disjoint_take_drop hp.nodup le_rfl htake hmem

section

variable (h : Tally p done t ext data i) (hp : p.Sound sb)
include h hp

theorem indirect_used (hi : i ≠ 0) :
    sb.firstData ≤ i ∧ i < sb.size ∧ i ∉ p.free.drop t := by
  rcases h.indirect with ⟨rfl, -⟩ | ⟨-, hmem, -⟩
  · obtain ⟨hge, hlt, hfree, -⟩ := hp.indirect hi
    exact ⟨hge, hlt, fun hmem => hfree (mem_of_mem_drop hmem)⟩
  · obtain ⟨hge, hlt⟩ := hp.free i (mem_of_mem_take hmem)
    exact ⟨hge, hlt, fun hdrop => disjoint_take_drop hp.nodup le_rfl hmem hdrop⟩

theorem old (hbn : bn < maxfile) (hnew : bn ∉ done)
    (hmap : p.map bn ≠ 0) : Tally p (done ++ [bn]) t ext (insert (p.map bn) data) i ∧ p.map bn ≠ i := by
  obtain ⟨-, hfree⟩ := hp.mapped bn hbn hmap
  have hdata : p.map bn ∉ data := by
    intro hmem
    rcases h.source _ hmem with ⟨⟨bn', hbn', heq⟩, -⟩ | htake
    · exact hnew (hp.distinct bn hbn bn' (h.range bn' hbn') hmap heq.symm ▸ hbn')
    · exact hfree (mem_of_mem_take htake)
  have hi : p.map bn ≠ i := by
    rcases h.indirect with ⟨rfl, -⟩ | ⟨-, hmem, -⟩
    · by_cases hzero : p.indirect = 0
      · rwa [hzero]
      · exact (hp.indirect hzero).2.2.2 bn hbn
    · exact fun heq => hfree (heq ▸ mem_of_mem_take hmem)
  refine ⟨⟨?_, h.taken, ?_, ?_, h.indirect, ?_⟩, hi⟩
  · simpa [or_imp, forall_and] using ⟨h.range, hbn⟩
  · rw [Finset.card_insert_of_notMem hdata, h.card, length_append, length_singleton]
  · intro b hb
    rcases Finset.mem_insert.mp hb with rfl | hb
    · exact .inl ⟨⟨bn, by simp, rfl⟩, hmap⟩
    · refine (h.source b hb).imp_left ?_
      rintro ⟨⟨bn', hbn', heq⟩, hne⟩
      exact ⟨⟨bn', mem_append_left _ hbn', heq⟩, hne⟩
  · rw [Finset.mem_insert, not_or]
    exact ⟨hi.symm, h.apart⟩

theorem new (hbn : bn < maxfile)
    (hdrop : p.free.drop t = b :: rest) : Tally p (done ++ [bn]) (t + 1) ext (insert b data) i ∧ b ≠ i := by
  obtain ⟨hfree, htake⟩ := fresh hp hdrop
  have hone := one_lt_firstData sb
  have hge := (hp.free b hfree).1
  have hdata : b ∉ data := by
    intro hmem
    rcases h.source _ hmem with ⟨⟨bn', hbn', rfl⟩, hne⟩ | hmem
    · exact (hp.mapped bn' (h.range bn' hbn') hne).2 hfree
    · exact htake hmem
  have hi : b ≠ i := by
    rintro rfl
    exact (h.indirect_used hp (by omega)).2.2 (hdrop ▸ mem_cons_self)
  refine ⟨⟨?_, lt_length hdrop, ?_, ?_, ?_, ?_⟩, hi⟩
  · simpa [or_imp, forall_and] using ⟨h.range, hbn⟩
  · rw [Finset.card_insert_of_notMem hdata, h.card, length_append, length_singleton]
  · intro x hx
    rw [take_succ hdrop]
    rcases Finset.mem_insert.mp hx with rfl | hx
    · exact .inr (.inr rfl)
    · refine (h.source x hx).imp ?_ .inl
      rintro ⟨⟨bn', hbn', heq⟩, hne⟩
      exact ⟨⟨bn', mem_append_left _ hbn', heq⟩, hne⟩
  · rw [take_succ hdrop]
    exact h.indirect.imp_right fun ⟨hnone, hmem, hext⟩ => ⟨hnone, .inl hmem, hext⟩
  · rw [Finset.mem_insert, not_or]
    exact ⟨hi.symm, h.apart⟩

end

theorem extended (h : Tally p done t ext data i) (hi : i ≠ 0) : Tally p done t true data i :=
  ⟨h.range, h.taken, h.card, h.source, h.indirect.imp (fun hold => ⟨hold.1, fun _ => hi⟩)
    fun hnew => ⟨hnew.1, hnew.2.1, rfl⟩, h.apart⟩

theorem newIndirect (h : Tally p done t ext data 0) (hp : p.Sound sb) (hdrop : p.free.drop t = b :: rest) :
    Tally p done (t + 1) true data b ∧ ext = false ∧ p.indirect = 0 := by
  obtain ⟨hfree, htake⟩ := fresh hp hdrop
  have hzero : 0 ∉ p.free := fun hmem => by
    have hone := one_lt_firstData sb
    have hge := (hp.free 0 hmem).1
    omega
  rcases h.indirect with ⟨hnone, hext⟩ | ⟨-, hmem, -⟩
  · refine ⟨⟨h.range, lt_length hdrop, h.card, fun x hx => ?_, .inr ⟨hnone.symm, ?_, rfl⟩, fun hmem => ?_⟩, ?_,
      hnone.symm⟩
    · rw [take_succ hdrop]
      exact (h.source x hx).imp_right .inl
    · rw [take_succ hdrop]
      exact .inr rfl
    · rcases h.source b hmem with ⟨⟨bn, hbn, rfl⟩, hne⟩ | hmem
      · exact (hp.mapped bn (h.range bn hbn) hne).2 hfree
      · exact htake hmem
    · rw [← Bool.not_eq_true]
      exact fun htrue => hext htrue rfl
  · exact absurd (mem_of_mem_take hmem) hzero

theorem card_sectorsOf_le (h : Tally p done t ext data i) (sb : Superblock) :
    (sectorsOf p sb t ext data i).card ≤ done.length + (p.bitmaps sb t).card + 1 := by
  refine (Finset.card_union_le _ _).trans (Nat.add_le_add ((Finset.card_union_le _ _).trans ?_) ?_)
  · rw [h.card]
  · split
    · rw [Finset.card_singleton]
    · exact Nat.zero_le 1

theorem le_of_mem_data (h : Tally p done t ext data i) (hp : p.Sound sb) (hx : x ∈ data) :
    sb.firstData ≤ x := by
  rcases h.source x hx with ⟨⟨bn, hbn, rfl⟩, hne⟩ | htake
  · exact (hp.mapped bn (h.range bn hbn) hne).1
  · exact (hp.free x (mem_of_mem_take htake)).1

theorem mem_bitmaps (hp : p.Sound sb) (hx : x ∈ p.bitmaps sb t) :
    ∃ b < sb.size, x = bblock b sb.ninodes := by
  rw [Plan.bitmaps, mem_toFinset, mem_map] at hx
  obtain ⟨b, hb, rfl⟩ := hx
  exact ⟨b, (hp.free b (mem_of_mem_take hb)).2, rfl⟩

section

variable (h : Tally p done t ext data i) (hp : p.Sound sb)
include h hp

theorem le_of_ext (hext : ext = true) : sb.firstData ≤ i := by
  rcases h.indirect with ⟨rfl, hi⟩ | ⟨-, hmem, -⟩
  · exact (hp.indirect (hi hext)).1
  · exact (hp.free i (mem_of_mem_take hmem)).1

theorem card_sectorsOf :
    (sectorsOf p sb t ext data i).card = done.length + (p.bitmaps sb t).card + if ext then 1 else 0 := by
  have hbitmaps : ∀ x ∈ p.bitmaps sb t, x < sb.firstData := fun x hx => by
    obtain ⟨b, hb, rfl⟩ := mem_bitmaps hp hx
    exact bblock_lt_firstData hb
  have hdisjoint : Disjoint data (p.bitmaps sb t) := Finset.disjoint_left.mpr fun x hx hx' =>
    absurd (h.le_of_mem_data hp hx) (Nat.not_le.mpr (hbitmaps x hx'))
  cases ext with
  | true =>
    have hi : i ∉ data ∪ p.bitmaps sb t := fun hmem => (Finset.mem_union.mp hmem).elim h.apart fun hmem =>
      absurd (h.le_of_ext hp rfl) (Nat.not_le.mpr (hbitmaps i hmem))
    rw [sectorsOf, if_pos rfl, if_pos rfl, Finset.card_union_of_disjoint (Finset.disjoint_singleton_right.mpr hi),
      Finset.card_union_of_disjoint hdisjoint, h.card, Finset.card_singleton]
  | false =>
    rw [sectorsOf, if_neg Bool.false_ne_true, if_neg Bool.false_ne_true, Finset.union_empty,
      Finset.card_union_of_disjoint hdisjoint, h.card, Nat.add_zero]

theorem iblock_notMem (hinum : inum < sb.ninodes) :
    iblock inum ∉ sectorsOf p sb t ext data i := by
  have hlt := iblock_lt_firstData hinum
  intro hmem
  rcases Finset.mem_union.mp hmem with hmem | hmem
  · rcases Finset.mem_union.mp hmem with hmem | hmem
    · have hle := h.le_of_mem_data hp hmem
      omega
    · obtain ⟨b, -, heq⟩ := mem_bitmaps hp hmem
      have hbefore := iblock_lt_bblock hinum b
      omega
  · cases ext with
    | true =>
      have hle := h.le_of_ext hp rfl
      rw [if_pos rfl, Finset.mem_singleton] at hmem
      omega
    | false =>
      rw [if_neg Bool.false_ne_true] at hmem
      exact Finset.notMem_empty _ hmem

end

end Tally

end RainOS.Fs
