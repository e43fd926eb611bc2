import Mathlib.Data.Finset.Card
import RainOS.Fs.Integrity

/-!
# Truncating a file

`itrunc` gives back the direct blocks, the blocks that the indirect block lists, and the indirect block. If the blocks
of the inodes are their own and are marked as used it clears the bits of just these, wherever in the bitmap they lie.
Each bitmap block with one of them goes into the log, and the block of the inode; a file whose blocks lie far apart
may have more of them than the log takes.
-/

namespace RainOS.Fs

open BlockStore Function List

variable {sb : Superblock} {A : Table} {s s' s₀ : State} {ip : Slot} {i n b x k m : Nat} {bs cs : List Nat}

/-! ### Freeing blocks -/

def freed (sb : Superblock) (s : State) (b : Nat) : State :=
  logged s (bblock b sb.ninodes) (clearBit (s.blk (bblock b sb.ninodes)) (b % bpb))

def freedAll (sb : Superblock) (s : State) (bs : List Nat) : State := bs.foldl (freed sb) s

/-- The bitmap blocks with the bits of some blocks that the log does not have yet. -/
def newBlocks (sb : Superblock) (log : Log) (bs : List Nat) : Nat :=
  ((bs.map (bblock · sb.ninodes)).toFinset \ log.lh.toFinset).card

theorem used_freedAll (sb : Superblock) (s : State) (bs : List Nat) (b : Nat) :
    used sb (freedAll sb s bs).blk b = (used sb s.blk b && decide (b ∉ bs)) := by
  induction bs generalizing s with
  | nil => simp [freedAll]
  | cons c bs ih =>
    change used sb (freedAll sb (freed sb s c) bs).blk b = _
    rw [ih, freed, logged, DiskSound.used_clearBit, Bool.and_assoc]
    congr 1
    by_cases hcb : c = b <;> simp [hcb, Ne.symm]

theorem blk_freedAll (sb : Superblock) (s : State) (h : ∀ b ∈ bs, x ≠ bblock b sb.ninodes) :
    (freedAll sb s bs).blk x = s.blk x := by
  induction bs generalizing s with
  | nil => rfl
  | cons c bs ih =>
    obtain ⟨hc, hbs⟩ := forall_mem_cons.mp h
    exact (ih (freed sb s c) hbs).trans (update_of_ne hc ..)

theorem length_note (x : Nat) (lh : List Nat) (S : Finset Nat) :
    (if x ∉ lh then lh ++ [x] else lh).length + (S \ (if x ∉ lh then lh ++ [x] else lh).toFinset).card =
      lh.length + (insert x S \ lh.toFinset).card := by
  split
  · rename_i hnew
    have hcard := Finset.card_erase_add_one (Finset.mem_insert_self x (S \ lh.toFinset))
    rw [Finset.erase_insert_eq_erase, ← Finset.sdiff_insert] at hcard
    rw [length_append, toFinset_append, Finset.union_comm, toFinset_cons, toFinset_nil,
      Finset.insert_union, Finset.empty_union, Finset.insert_sdiff_of_notMem _ (mt mem_toFinset.mp hnew), ← hcard,
      length_singleton]
    omega
  · rename_i hold
    rw [Finset.insert_sdiff_of_mem _ (mem_toFinset.mpr (not_not.mp hold))]

theorem log_freedAll (sb : Superblock) (s : State) (bs : List Nat) :
    (freedAll sb s bs).log.outstanding = s.log.outstanding ∧ (freedAll sb s bs).log.size = s.log.size ∧
      (freedAll sb s bs).log.lh.length = s.log.lh.length + newBlocks sb s.log bs := by
  induction bs generalizing s with
  | nil => exact ⟨rfl, rfl, by simp [freedAll, newBlocks]⟩
  | cons c bs ih =>
    obtain ⟨houtstanding, hsize, hlength⟩ := ih (freed sb s c)
    refine ⟨houtstanding, hsize, hlength.trans ?_⟩
    rw [newBlocks, newBlocks, map_cons, toFinset_cons]
    exact length_note ..

theorem logRoom_freedAll : LogRoom (freedAll sb s bs).log 1 ↔ LogRoom s.log (newBlocks sb s.log bs + 1) := by
  obtain ⟨houtstanding, hsize, hlength⟩ := log_freedAll sb s bs
  constructor
  · rintro ⟨h₁, h₂, h₃⟩
    exact ⟨by omega, by omega, by omega⟩
  · rintro ⟨h₁, h₂, h₃⟩
    exact ⟨by omega, by omega, by omega⟩

theorem newBlocks_mono (sb : Superblock) (log : Log) (h : bs ⊆ cs) :
    newBlocks sb log bs ≤ newBlocks sb log cs := by
  refine Finset.card_le_card (Finset.sdiff_subset_sdiff (fun x hx => ?_) (Finset.Subset.refl _))
  rw [mem_toFinset] at hx ⊢
  exact map_subset _ h hx

theorem bfree_ends (hsuper : getSuperblock (s.blk 1) = sb) (hused : used sb s.blk b = true)
    (hheld : ∀ x ∈ s.held, x ≠ 1 ∧ x ≠ bblock b sb.ninodes) :
    Ends (bfree b) s (fun _ s' => s' = freed sb s b) fun _ _ => ¬LogRoom s.log 1 := by
  unfold bfree
  refine ((readsb_ends s).stop ?_).bind ?_
  · exact fun _ _ h => absurd rfl (hheld 1 h.2.2).1
  rintro _ s ⟨rfl, rfl⟩
  rw [hsuper]
  refine ((bread_ends s _).stop ?_).bind ?_
  · exact fun _ _ h => absurd rfl (hheld _ h.2.2).2
  rintro _ _ ⟨rfl, rfl⟩
  have hbit : ¬getBit (s.blk (bblock b sb.ninodes)) (b % bpb) = false := fun hfree => nomatch hused.symm.trans hfree
  simp only [if_neg hbit]
  refine ((logWrite_ends _ _).stop fun _ _ h => h.2.2.short).bind ?_
  rintro _ _ ⟨rfl, rfl⟩
  exact .of_run_ok (brelse_held_run rfl) rfl

/-- Since `s₀` these blocks have been freed. -/
structure Cleared (sb : Superblock) (s₀ : State) (bs : List Nat) (s : State) : Prop where
  blk : s.blk = (freedAll sb s₀ bs).blk
  log : s.log = (freedAll sb s₀ bs).log

theorem Cleared.bfree (h : Cleared sb s₀ bs s) (hsuper : getSuperblock (s₀.blk 1) = sb)
    (hused : used sb s₀.blk b = true) (hnot : b ∉ bs) (hb : b < sb.size) (hheld : ∀ x ∈ s.held, sb.firstData ≤ x) :
    Ends (bfree b) s (fun _ s' => Cleared sb s₀ (bs ++ [b]) s' ∧ s'.icache = s.icache ∧ s'.held = s.held)
      fun _ _ => ¬LogRoom s₀.log (newBlocks sb s₀.log bs + 1) := by
  have hone := one_lt_firstData sb
  have hbitmap := bblock_lt_firstData hb
  have hfree : Ends (Fs.bfree b) s (fun _ s' => s' = freed sb s b) fun _ _ => ¬LogRoom s.log 1 := by
    refine bfree_ends ?_ ?_ fun x hx => ?_
    · rwa [h.blk, blk_freedAll sb s₀ fun c _ => (bblock_ne_one c _).symm]
    · rw [h.blk, used_freedAll, hused, Bool.true_and]
      exact decide_eq_true hnot
    · have hx := hheld x hx
      omega
  refine hfree.mono ?_ fun _ _ hshort => ?_
  · rintro _ _ rfl
    have hall : freedAll sb s₀ (bs ++ [b]) = freed sb (freedAll sb s₀ bs) b := foldl_append
    refine ⟨⟨?_, ?_⟩, rfl, rfl⟩
    · rw [hall, freed, freed, logged, logged, h.blk]
    · rw [hall, freed, freed, logged, logged, h.log]
  · rwa [h.log, logRoom_freedAll] at hshort

/-! ### The blocks of a file -/

/-- The entries of an inode in the order in which `itrunc` looks at them. -/
def truncOrder : List Nat := List.range ndirect ++ (List.range nindirect).map (ndirect + 1 + ·) ++ [ndirect]

def blocksAt (A : Table) (blk : Nat → Block) (i : Nat) (ns : List Nat) : List Nat :=
  (ns.map (entry A blk i)).filter (· ≠ 0)

def blocksOf (A : Table) (blk : Nat → Block) (i : Nat) : List Nat := blocksAt A blk i truncOrder

/-- The blocks of the inodes in use are different blocks of the disk behind the bitmap, marked as used. -/
structure BlockMap (sb : Superblock) (A : Table) (blk : Nat → Block) : Prop where
  super : getSuperblock (blk 1) = sb
  distinct : Distinct sb A blk
  marked : ∀ i n, Alloc sb A i → n < entryCount → entry A blk i n ≠ 0 →
    used sb blk (entry A blk i n) = true ∧ sb.firstData ≤ entry A blk i n ∧ entry A blk i n < sb.size

theorem mem_blocksAt {ns : List Nat} {blk : Nat → Block} :
    b ∈ blocksAt A blk i ns ↔ (∃ n ∈ ns, entry A blk i n = b) ∧ b ≠ 0 := by
  simp [blocksAt]

theorem lt_of_mem_truncOrder (h : n ∈ truncOrder) : n < entryCount := by
  simp only [truncOrder, mem_append, mem_range, mem_map, mem_singleton, entryCount] at h ⊢
  omega

theorem nodup_truncOrder : truncOrder.Nodup := by
  decide +kernel

section Steps

variable {done rest : List Nat}

theorem blocksAt_append (blk : Nat → Block) :
    blocksAt A blk i (done ++ rest) = blocksAt A blk i done ++ blocksAt A blk i rest := by
  simp [blocksAt]

theorem blocksAt_append_of_zero (h : ∀ n ∈ rest, entry A s₀.blk i n = 0) :
    blocksAt A s₀.blk i (done ++ rest) = blocksAt A s₀.blk i done := by
  have hnil : blocksAt A s₀.blk i rest = [] := eq_nil_iff_forall_not_mem.mpr fun b hb => by
    obtain ⟨⟨n, hn, rfl⟩, hne⟩ := mem_blocksAt.mp hb
    exact hne (h n hn)
  rw [blocksAt_append, hnil, append_nil]

theorem Cleared.next (h : Cleared sb s₀ (blocksAt A s₀.blk i done) s) (hmap : BlockMap sb A s₀.blk)
    (hi : Alloc sb A i) (horder : truncOrder = done ++ n :: rest) (hne : entry A s₀.blk i n ≠ 0)
    (hheld : ∀ x ∈ s.held, sb.firstData ≤ x) :
    Ends (Fs.bfree (entry A s₀.blk i n)) s
      (fun _ s' => Cleared sb s₀ (blocksAt A s₀.blk i (done ++ [n])) s' ∧ s'.icache = s.icache ∧ s'.held = s.held)
      fun _ _ => ¬LogRoom s₀.log (newBlocks sb s₀.log (blocksOf A s₀.blk i) + 1) := by
  have hmem : ∀ m ∈ done ++ n :: rest, m < entryCount := fun m hm => lt_of_mem_truncOrder (horder ▸ hm)
  have hn := hmem n (by simp)
  have hnodup := nodup_truncOrder
  rw [horder] at hnodup
  obtain ⟨hused, -, hlt⟩ := hmap.marked i n hi hn hne
  have hnot : entry A s₀.blk i n ∉ blocksAt A s₀.blk i done := fun hb => by
    obtain ⟨⟨m, hm, heq⟩, -⟩ := mem_blocksAt.mp hb
    have hnm := (hmap.distinct i n i m hi hi hn (hmem m (by simp [hm])) hne heq.symm).2
    exact (nodup_append.mp hnodup).2.2 m hm n mem_cons_self hnm.symm
  refine (h.bfree hmap.super hused hnot hlt hheld).mono (fun _ s' hs' => ?_) fun _ _ hshort hroom => ?_
  · have hlast : blocksAt A s₀.blk i [n] = [entry A s₀.blk i n] := by simp [blocksAt, hne]
    rwa [blocksAt_append, hlast]
  · refine hshort (hroom.mono (Nat.add_le_add_right (newBlocks_mono sb _ fun b hb => ?_) 1))
    obtain ⟨⟨m, hm, heq⟩, hb⟩ := mem_blocksAt.mp hb
    exact mem_blocksAt.mpr ⟨⟨m, horder ▸ by simp [hm], heq⟩, hb⟩

end Steps

/-! ### The code -/

def clearAddrs (addrs : Nat → Nat) (ns : List Nat) (k : Nat) : Nat := if k ∈ ns then 0 else addrs k

theorem update_clearAddrs (addrs : Nat → Nat) (ns : List Nat) (k : Nat) :
    update (clearAddrs addrs ns) k 0 = clearAddrs addrs (ns ++ [k]) := by
  funext m
  by_cases hm : m = k <;> simp [clearAddrs, hm]

theorem clearAddrs_of_zero {addrs : Nat → Nat} (h : addrs k = 0) (ns : List Nat) :
    clearAddrs addrs (ns ++ [k]) = clearAddrs addrs ns := by
  funext m
  by_cases hm : m = k <;> simp [clearAddrs, hm, h]

/-- `itrunc` has looked at the entries in `done`, and cleared the addresses in `ns`. -/
structure Stage (sb : Superblock) (A : Table) (s₀ : State) (ip : Slot) (done ns held : List Nat) (s : State) : Prop where
  cleared : Cleared sb s₀ (blocksAt A s₀.blk (s₀.icache ip).inum done) s
  icache : s.icache = update s₀.icache ip { s₀.icache ip with addrs := clearAddrs (s₀.icache ip).addrs ns }
  held : s.held = held

/-- The log has no room for the bitmap blocks and the block of the inode. -/
def NoRoom (sb : Superblock) (A : Table) (s : State) (ip : Slot) : Prop :=
  ¬LogRoom s.log (newBlocks sb s.log (blocksOf A s.blk (s.icache ip).inum) + 1)

namespace Stage

variable {done ns rest held : List Nat}

theorem copy (h : Stage sb A s₀ ip done ns held s) :
    s.icache ip = { s₀.icache ip with addrs := clearAddrs (s₀.icache ip).addrs ns } := by
  rw [h.icache, update_self]

theorem clearAddr (h : Stage sb A s₀ ip done ns held s) (k : Nat) : Ends
    (modifyInode ip fun e => { e with addrs := store e.addrs k 0 }) s (fun _ => Stage sb A s₀ ip done (ns ++ [k]) held)
    fun _ _ => NoRoom sb A s₀ ip := by
  refine .of_run_ok (modifyInode_run ip _ s) ⟨⟨h.cleared.blk, h.cleared.log⟩, ?_, h.held⟩
  change update s.icache ip _ = _
  rw [h.copy, h.icache, update_idem, store_eq_update, update_clearAddrs]

theorem skip (h : Stage sb A s₀ ip done ns held s) (hzero : ∀ n ∈ rest, entry A s₀.blk (s₀.icache ip).inum n = 0) :
    Stage sb A s₀ ip (done ++ rest) ns held s :=
  ⟨by rw [blocksAt_append_of_zero hzero]; exact h.cleared, h.icache, h.held⟩

variable (hmap : BlockMap sb A s₀.blk) (hi : Alloc sb A (s₀.icache ip).inum)
  (hA : A (s₀.icache ip).inum = (s₀.icache ip).toDinode)

include hmap hi

theorem bfree (h : Stage sb A s₀ ip done ns held s) (horder : truncOrder = done ++ n :: rest)
    (hne : entry A s₀.blk (s₀.icache ip).inum n ≠ 0) (hheld : ∀ x ∈ held, sb.firstData ≤ x) :
    Ends (Fs.bfree (entry A s₀.blk (s₀.icache ip).inum n)) s (fun _ => Stage sb A s₀ ip (done ++ [n]) ns held)
      fun _ _ => NoRoom sb A s₀ ip := by
  refine (h.cleared.next hmap hi horder hne (h.held ▸ hheld)).post fun _ s' hs' => ?_
  obtain ⟨hcleared, hicache, hheld'⟩ := hs'
  exact ⟨hcleared, hicache.trans h.icache, hheld'.trans h.held⟩

include hA

theorem direct (hheld : s₀.held = []) : Ends
    ((range ndirect).forM fun k => do
      let e ← getInode ip
      if e.addrs k ≠ 0 then
        Fs.bfree (e.addrs k)
        modifyInode ip fun e => { e with addrs := store e.addrs k 0 })
    s₀ (fun _ => Stage sb A s₀ ip (range ndirect) (range ndirect) []) fun _ _ => NoRoom sb A s₀ ip := by
  refine .forM (fun done => Stage sb A s₀ ip done done []) ⟨⟨rfl, rfl⟩, ?_, hheld⟩ fun done k rest s hsplit h => ?_
  · exact (update_eq_self ip s₀.icache).symm
  have horder : truncOrder = done ++ k :: (rest ++ (range nindirect).map (ndirect + 1 + ·) ++ [ndirect]) := by
    rw [truncOrder, hsplit]
    simp
  have hnodup := nodup_range (n := ndirect)
  rw [hsplit] at hnodup
  have hk : k < ndirect := mem_range.mp (hsplit ▸ by simp)
  have hentry : entry A s₀.blk (s₀.icache ip).inum k = (s₀.icache ip).addrs k := by
    rw [entry_of_le A _ _ hk.le, hA]
  have haddr : (s.icache ip).addrs k = (s₀.icache ip).addrs k := by
    rw [h.copy]
    exact if_neg fun hmem => (nodup_append.mp hnodup).2.2 k hmem k mem_cons_self rfl
  refine .after_ok (show getInode ip s = .ok (s.icache ip) s from rfl) ?_
  rw [haddr]
  split
  · rename_i hne
    refine (hentry ▸ h.bfree hmap hi horder (hentry ▸ hne) (forall_mem_nil _)).bind fun _ s' h' => h'.clearAddr k
  · rename_i hzero
    have hzero := not_not.mp hzero
    refine .pure ⟨(h.skip (by simpa [hentry] using hzero)).cleared, ?_, h.held⟩
    rw [clearAddrs_of_zero hzero]
    exact h.icache

theorem indirect (h : Stage sb A s₀ ip (range ndirect) ns held s) (hne : (s₀.icache ip).addrs ndirect ≠ 0)
    (hheld : held = [(s₀.icache ip).addrs ndirect]) : Ends
    ((range nindirect).forM fun j => do
      if (s₀.blk ((s₀.icache ip).addrs ndirect)).word 4 (4 * j) ≠ 0 then
        Fs.bfree ((s₀.blk ((s₀.icache ip).addrs ndirect)).word 4 (4 * j)))
    s (fun _ => Stage sb A s₀ ip (range ndirect ++ (range nindirect).map (ndirect + 1 + ·)) ns held)
    fun _ _ => NoRoom sb A s₀ ip := by
  refine .forM (fun js => Stage sb A s₀ ip (range ndirect ++ js.map (ndirect + 1 + ·)) ns held)
    (by simpa using h) fun js j rest s hsplit h => ?_
  have horder : truncOrder = range ndirect ++ js.map (ndirect + 1 + ·) ++
      (ndirect + 1 + j) :: (rest.map (ndirect + 1 + ·) ++ [ndirect]) := by
    rw [truncOrder, hsplit]
    simp
  have hentry : entry A s₀.blk (s₀.icache ip).inum (ndirect + 1 + j) =
      (s₀.blk ((s₀.icache ip).addrs ndirect)).word 4 (4 * j) := by
    rw [entry_of_gt A _ (by omega) (hA ▸ hne), hA, Nat.add_sub_cancel_left]
  have hfirst : ∀ x ∈ held, sb.firstData ≤ x := by
    rw [hheld, forall_mem_singleton]
    have hindirect := entry_ndirect A s₀.blk (s₀.icache ip).inum
    rw [hA] at hindirect
    exact hindirect ▸ (hmap.marked _ ndirect hi (by decide) (hindirect ▸ hne)).2.1
  rw [← hentry, map_append, ← append_assoc]
  split
  · rename_i hne
    exact h.bfree hmap hi horder hne hfirst
  · rename_i hzero
    exact .pure (h.skip (by simpa using hzero))

end Stage

/-- The blocks of the inode are free, it has no content in memory and on disk, and nothing else has changed. -/
structure Truncated (sb : Superblock) (A : Table) (ip : Slot) (s s' : State) : Prop where
  bits : ∀ b, used sb s'.blk b = (used sb s.blk b && decide (b ∉ blocksOf A s.blk (s.icache ip).inum))
  icache : s'.icache = update s.icache ip
    { s.icache ip with size := 0, addrs := clearAddrs (s.icache ip).addrs (List.range (ndirect + 1)) }
  size : (dinodeAt s'.blk (s.icache ip).inum).size = 0
  addrs : ∀ k ≤ ndirect, (dinodeAt s'.blk (s.icache ip).inum).addrs k = 0
  rest : (dinodeAt s'.blk (s.icache ip).inum).type = (s.icache ip).type % 2 ^ 16 ∧
    (dinodeAt s'.blk (s.icache ip).inum).major = (s.icache ip).major % 2 ^ 16 ∧
    (dinodeAt s'.blk (s.icache ip).inum).minor = (s.icache ip).minor % 2 ^ 16 ∧
    (dinodeAt s'.blk (s.icache ip).inum).nlink = (s.icache ip).nlink % 2 ^ 16
  others : ∀ i ≠ (s.icache ip).inum, i < sb.ninodes → (dinodeAt s'.blk i).Agrees (dinodeAt s.blk i)
  data : ∀ x, sb.firstData ≤ x → s'.blk x = s.blk x

theorem logWrite_room (s : State) (bp : Buf) :
    Ends (logWrite bp : M Buf) s (fun _ _ => LogRoom s.log 1) fun _ _ => True := by
  unfold logWrite
  refine .after_ok (show (getLog : M Log) s = .ok s.log s from rfl) ?_
  dsimp only
  split
  · exact .after_error rfl trivial
  split
  · exact Ends.after_error rfl trivial
  refine Ends.always.post fun _ _ _ => ⟨by omega, by omega, by omega⟩

theorem iupdate_room (s : State) (ip : Slot) :
    Ends (iupdate ip) s (fun _ _ => LogRoom s.log 1) fun _ _ => True := by
  unfold iupdate
  refine .after_ok (show getInode ip s = .ok (s.icache ip) s from rfl) ?_
  refine ((bread_ends s _).stop fun _ _ _ => trivial).bind ?_
  rintro bp _ ⟨-, rfl⟩
  exact (logWrite_room _ _).bind fun _ _ hroom => Ends.always.post fun _ _ _ => hroom

section Itrunc

variable (hmap : BlockMap sb A s₀.blk) (hi : Alloc sb A (s₀.icache ip).inum)

include hmap hi

theorem Stage.truncated (h : Stage sb A s₀ ip truncOrder (range (ndirect + 1)) [] s) {e : Inode}
    (he : e = { s₀.icache ip with size := 0, addrs := clearAddrs (s₀.icache ip).addrs (range (ndirect + 1)) })
    (hicache : s'.icache = update s.icache ip e)
    (hblk' : s'.blk = update s.blk (iblock e.inum) (putDinode (s.blk (iblock e.inum)) e.inum e.toDinode)) :
    Truncated sb A ip s₀ s' := by
  have hinum : e.inum = (s₀.icache ip).inum := by rw [he]
  have hzero : ∀ k ≤ ndirect, e.addrs k = 0 := fun k hk => by
    rw [he]
    exact if_pos (mem_range.mpr (by omega))
  have hblk : ∀ x, (∀ b ∈ blocksOf A s₀.blk (s₀.icache ip).inum, x ≠ bblock b sb.ninodes) → s.blk x = s₀.blk x :=
    fun x hx => by
      rw [h.cleared.blk]
      exact blk_freedAll sb s₀ hx
  obtain ⟨hmajor, hminor, hnlink, hsize⟩ := fields_getDinode_putDinode (s.blk (iblock e.inum)) e.inum e.toDinode
  obtain ⟨htype, haddrs⟩ := dinodeAt_put s.blk e.inum e.toDinode
  refine ⟨fun b => ?_, ?_, ?_, fun k hk => ?_, ?_, fun j hj hlt => ?_, fun x hx => ?_⟩
  · have hne : bblock b sb.ninodes ≠ iblock e.inum := (iblock_lt_bblock (hinum ▸ hi.1) b).ne'
    rw [hblk', used, update_of_ne hne, h.cleared.blk]
    exact used_freedAll sb s₀ _ b
  · rw [hicache, h.icache, update_idem, he]
  · rw [← hinum, hblk', dinodeAt, update_self, hsize, he]
    exact Nat.zero_mod _
  · rw [← hinum, hblk', haddrs k hk, hzero k hk, Nat.zero_mod]
  · rw [← hinum, hblk', htype, dinodeAt, update_self, hmajor, hminor, hnlink, he]
    exact ⟨rfl, rfl, rfl, rfl⟩
  · have hkept : dinodeAt s.blk j = dinodeAt s₀.blk j := by
      rw [dinodeAt, dinodeAt, hblk _ fun b _ => (iblock_lt_bblock hlt b).ne]
    rw [hblk', ← hkept]
    exact dinodeAt_put_of_ne s.blk (hinum ▸ hj) e.toDinode
  · have hne : x ≠ iblock e.inum := (Nat.lt_of_lt_of_le (iblock_lt_firstData (hinum ▸ hi.1)) hx).ne'
    rw [hblk', update_of_ne hne]
    refine hblk x fun b hb => ?_
    obtain ⟨⟨n, hn, rfl⟩, hb⟩ := mem_blocksAt.mp hb
    have hlt := (hmap.marked _ n hi (lt_of_mem_truncOrder hn) hb).2.2
    exact (Nat.lt_of_lt_of_le (bblock_lt_firstData hlt) hx).ne'

theorem Stage.finish (h : Stage sb A s₀ ip truncOrder (range (ndirect + 1)) [] s) : Ends
    (do
      modifyInode ip fun e => { e with size := 0 }
      iupdate ip)
    s (fun _ s' => Truncated sb A ip s₀ s' ∧ ¬NoRoom sb A s₀ ip) fun _ _ => NoRoom sb A s₀ ip := by
  refine .after_ok (modifyInode_run ip _ s) ?_
  have hroom : LogRoom s.log 1 ↔ ¬NoRoom sb A s₀ ip := by
    rw [h.cleared.log, NoRoom, not_not]
    exact logRoom_freedAll
  refine ((iupdate_ends _ ip).and (iupdate_room _ ip)).mono ?_ fun e s' herror => ?_
  · rintro _ s' ⟨hs', hlog⟩
    simp only [update_self] at hs'
    refine ⟨h.truncated hmap hi (e := { s.icache ip with size := 0 }) (by rw [h.copy]) ?_ ?_, hroom.mp hlog⟩
    · rw [hs']
      rfl
    · rw [hs']
      rfl
  · obtain ⟨-, hheld | hrefuses⟩ := herror
    · exact absurd (h.held ▸ hheld) not_mem_nil
    · exact not_not.mp (mt hroom.mpr hrefuses.short)

theorem itrunc_ends (hA : A (s₀.icache ip).inum = (s₀.icache ip).toDinode) (hheld : s₀.held = []) :
    Ends (itrunc ip) s₀ (fun _ s' => Truncated sb A ip s₀ s' ∧ ¬NoRoom sb A s₀ ip) fun _ _ => NoRoom sb A s₀ ip := by
  unfold itrunc
  refine (Stage.direct hmap hi hA hheld).bind fun _ s h => ?_
  refine .after_ok (show getInode ip s = .ok (s.icache ip) s from rfl) ?_
  have haddr : (s.icache ip).addrs ndirect = (s₀.icache ip).addrs ndirect := by
    rw [h.copy]
    change clearAddrs _ (range ndirect) ndirect = _
    exact if_neg not_mem_range_self
  have hentry : entry A s₀.blk (s₀.icache ip).inum ndirect = (s₀.icache ip).addrs ndirect := by
    rw [entry_ndirect, hA]
  rw [haddr]
  split
  · rename_i hne
    have hmarked := hmap.marked _ ndirect hi (by decide) (hentry ▸ hne)
    rw [hentry] at hmarked
    have hdata : s.blk ((s₀.icache ip).addrs ndirect) = s₀.blk ((s₀.icache ip).addrs ndirect) := by
      rw [h.cleared.blk]
      refine blk_freedAll sb s₀ fun b hb => ?_
      obtain ⟨⟨n, hn, rfl⟩, hb⟩ := mem_blocksAt.mp hb
      have hlt := (hmap.marked _ n hi (lt_of_mem_truncOrder (by simp [truncOrder, mem_range.mp hn])) hb).2.2
      exact (Nat.lt_of_lt_of_le (bblock_lt_firstData hlt) hmarked.2.1).ne'
    refine .after_ok ((bread_run s _).trans (if_neg (by simp [h.held]))) ?_
    rw [hdata]
    have hstage : Stage sb A s₀ ip (range ndirect) (range ndirect) [(s₀.icache ip).addrs ndirect]
        { s with held := (s₀.icache ip).addrs ndirect :: s.held } :=
      ⟨⟨h.cleared.blk, h.cleared.log⟩, h.icache, by rw [h.held]⟩
    refine (hstage.indirect hmap hi hA hne rfl).bind fun _ s₁ h₁ => ?_
    refine .after_ok (brelse_held_run h₁.held) ?_
    have hstage₁ : Stage sb A s₀ ip _ (range ndirect) [] { s₁ with held := [] } :=
      ⟨⟨h₁.cleared.blk, h₁.cleared.log⟩, h₁.icache, rfl⟩
    have horder : truncOrder = range ndirect ++ (range nindirect).map (ndirect + 1 + ·) ++ ndirect :: [] := rfl
    refine (hentry ▸ hstage₁.bfree hmap hi horder (hentry ▸ hne) (forall_mem_nil _)).bind fun _ s₂ h₂ => ?_
    refine (h₂.clearAddr ndirect).bind fun _ s₃ h₃ => ?_
    exact Stage.finish hmap hi (by rwa [range_succ])
  · rename_i hzero
    have hzero := not_not.mp hzero
    refine Stage.finish hmap hi ⟨?_, ?_, h.held⟩
    · rw [truncOrder, append_assoc]
      refine (h.skip fun n hn => ?_).cleared
      have hle : ndirect ≤ n := by
        simp only [mem_append, mem_map, mem_singleton] at hn
        omega
      rcases hle.eq_or_lt with rfl | hlt
      · rw [hentry, hzero]
      · rw [entry, if_neg (by omega), if_pos (by rw [hA, hzero])]
    · rw [range_succ, clearAddrs_of_zero hzero]
      exact h.icache

end Itrunc

/-! ### A file whose blocks lie far apart -/

def spreadSb : Superblock := ⟨40 * bpb, 39 * bpb, 8, 31⟩

/-- The bits of all blocks are set. A file has an indirect block with `m` blocks in it, each in another bitmap block. -/
def spreadDisk (m x : Nat) : Block :=
  if x = 1 then putSuperblock (fun _ => 0) spreadSb
  else if x = 2 then putDinode (fun _ => 0) 1 ⟨tFile, 0, 0, 1, 0, fun k => if k = ndirect then bpb else 0⟩
  else if x = bpb then putAddrs (fun _ => 0) 0 (fun j => (j + 2) * bpb) m
  else fun _ => 255

def spreadState (m : Nat) : State :=
  { powerOn (spreadDisk m) with
    log := ⟨⟨spreadSb.logStart, 31⟩, 1, false, []⟩
    icache := fun _ => { dinodeAt (spreadDisk m) 1 with inum := 1, ref := 1, busy := true, valid := true } }

theorem spreadDisk_facts : ∀ m ∈ [1, 31], getSuperblock (spreadDisk m 1) = spreadSb ∧
    (∀ i < 8, i ≠ 1 → (dinodeAt (spreadDisk m) i).type = 0) ∧ ∀ n < entryCount,
      entry (dinodeAt (spreadDisk m)) (spreadDisk m) 1 n = (if 12 ≤ n ∧ n < 13 + m then (n - 11) * bpb else 0) ∧
      (12 ≤ n ∧ n < 13 + m → used spreadSb (spreadDisk m) ((n - 11) * bpb) = true) := by
  decide +kernel

theorem spreadDisk_blockMap (hm : m ∈ [1, 31]) :
    BlockMap spreadSb (dinodeAt (spreadDisk m)) (spreadDisk m) := by
  obtain ⟨hsuper, htype, hentries⟩ := spreadDisk_facts m hm
  have hbound : m ≤ 31 := by
    simp only [mem_cons, not_mem_nil, or_false] at hm
    omega
  have hfile : ∀ {i n}, Alloc spreadSb (dinodeAt (spreadDisk m)) i → n < entryCount →
      entry (dinodeAt (spreadDisk m)) (spreadDisk m) i n ≠ 0 →
      i = 1 ∧ (12 ≤ n ∧ n < 13 + m) ∧ entry (dinodeAt (spreadDisk m)) (spreadDisk m) i n = (n - 11) * bpb := by
    intro i n hi hn hne
    obtain rfl : i = 1 := by
      by_contra h
      exact hi.2 (htype i hi.1 h)
    rw [(hentries n hn).1] at hne ⊢
    have hrange := (ite_ne_right_iff.mp hne).1
    exact ⟨rfl, hrange, if_pos hrange⟩
  refine ⟨hsuper, fun i n i' n' hi hi' hn hn' hne heq => ?_, fun i n hi hn hne => ?_⟩
  · obtain ⟨rfl, hrange, hentry⟩ := hfile hi hn hne
    obtain ⟨rfl, hrange', hentry'⟩ := hfile hi' hn' (heq ▸ hne)
    rw [hentry, hentry'] at heq
    simp only [bpb, bsize] at heq
    exact ⟨rfl, by omega⟩
  · obtain ⟨rfl, hrange, hentry⟩ := hfile hi hn hne
    rw [hentry]
    refine ⟨(hentries n hn).2 hrange, ?_, ?_⟩
    · simp only [Superblock.firstData, spreadSb, ipb, bpb, bsize]
      omega
    · simp only [spreadSb, bpb, bsize]
      omega

theorem spreadState_alloc : ∀ m ∈ [1, 31], Alloc spreadSb (dinodeAt (spreadDisk m)) 1 := fun m hm =>
  ⟨by decide, (by decide +kernel : ∀ m ∈ [1, 31], (dinodeAt (spreadDisk m) 1).type ≠ 0) m hm⟩

end RainOS.Fs
