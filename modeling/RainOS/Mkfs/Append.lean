import Mathlib.Data.List.GetD
import Mathlib.Data.List.Nodup
import RainOS.Mkfs.Code

/-!
# Appending to a file of the image

A file of the image is its bytes and the blocks that hold them, in order, with an indirect block behind the first
twelve. `iappend` keeps it stored: the bytes are added, the new blocks are the next free ones, and no other sector
changes but the one of the inode. It fails only if the file becomes too long or the image is full.
-/

namespace RainOS.Mkfs

open Fs Function List

variable {s s' s'' : Host} {b i j k n x l m : Nat} {p : List UInt8} {din : Dinode} {kind : Kind} {buf : Block}
  {c : Prop} {text : String}

def dataBlocks (len : Nat) : Nat := (len + bsize - 1) / bsize

def fileBlocks (len : Nat) : Nat := dataBlocks len + if ndirect * bsize < len then 1 else 0

def firstData : Nat := superblock.firstData

structure Node where
  type : Nat
  bytes : List UInt8
  data : List Nat
  indirect : Nat

namespace Node

variable {f f' f'' : Node}

def blocks (f : Node) : List Nat := if f.indirect = 0 then f.data else f.indirect :: f.data

def dinode (f : Node) : Dinode where
  type := f.type
  major := 0
  minor := 0
  nlink := 1
  size := f.bytes.length
  addrs k := if k = ndirect then f.indirect else f.data.getD k 0

def Copy (f : Node) (din : Dinode) : Prop := ({ din with size := f.bytes.length } : Dinode).Agrees f.dinode

structure Stored (f : Node) (s : Host) : Prop where
  range : ∀ b ∈ f.blocks, firstData ≤ b ∧ b < s.freeblock
  nodup : f.blocks.Nodup
  indirect : f.indirect = 0 → f.data.length ≤ ndirect
  table : f.indirect ≠ 0 → ∀ j < nindirect, (s.image f.indirect).word 4 (4 * j) = f.data.getD (ndirect + j) 0
  content : ∀ j < f.data.length, ∀ k < bsize, (s.image (f.data.getD j 0)).mem k = f.bytes.getD (bsize * j + k) 0

structure Full (f : Node) : Prop where
  length : f.data.length = dataBlocks f.bytes.length
  indirect : f.indirect ≠ 0 → ndirect < f.data.length
  small : f.bytes.length ≤ maxfile * bsize

theorem mem_blocks : b ∈ f.blocks ↔ b ∈ f.data ∨ f.indirect ≠ 0 ∧ b = f.indirect := by
  unfold blocks
  split
  · rename_i hzero
    simp [hzero]
  · rename_i hne
    rw [mem_cons, or_comm]
    simp [hne]

theorem data_sub (hb : b ∈ f.data) : b ∈ f.blocks := mem_blocks.mpr (.inl hb)

theorem getD_mem (h : j < f.data.length) : f.data.getD j 0 ∈ f.data := by
  rw [getD_eq_getElem _ _ h]
  exact getElem_mem h

namespace Stored

theorem data_nodup (h : f.Stored s) : f.data.Nodup := by
  have hnodup := h.nodup
  unfold blocks at hnodup
  split at hnodup
  · exact hnodup
  · exact (nodup_cons.mp hnodup).2

theorem indirect_not_mem (h : f.Stored s) (hne : f.indirect ≠ 0) : f.indirect ∉ f.data := by
  have hnodup := h.nodup
  rw [blocks, if_neg hne] at hnodup
  exact (nodup_cons.mp hnodup).1

theorem indirect_mem (_ : f.Stored s) (hne : f.indirect ≠ 0) : f.indirect ∈ f.blocks := mem_blocks.mpr (.inr ⟨hne, rfl⟩)

theorem getD_range (h : f.Stored s) (hj : j < f.data.length) :
    firstData ≤ f.data.getD j 0 ∧ f.data.getD j 0 < s.freeblock :=
  h.range _ (data_sub (getD_mem hj))

theorem getD_ne_zero (h : f.Stored s) (hj : j < f.data.length) : f.data.getD j 0 ≠ 0 := by
  have hle := (h.getD_range hj).1
  change 29 ≤ _ at hle
  omega

theorem congr (h : f.Stored s) (hfree : s.freeblock ≤ s'.freeblock) (himage : ∀ b ∈ f.blocks, s'.image b = s.image b) :
    f.Stored s' := by
  refine ⟨fun b hb => ?_, h.nodup, h.indirect, fun hne j hj => ?_, fun j hj k hk => ?_⟩
  · have hrange := h.range b hb
    omega
  · rw [himage _ (h.indirect_mem hne)]
    exact h.table hne j hj
  · rw [himage _ (data_sub (getD_mem hj))]
    exact h.content j hj k hk

theorem length_blocks (h : f.Stored s) (hfull : f.Full) : f.blocks.length = fileBlocks f.bytes.length := by
  have hlength := hfull.length
  unfold blocks fileBlocks
  by_cases hzero : f.indirect = 0
  · have hle := h.indirect hzero
    have hsmall : ¬ndirect * bsize < f.bytes.length := by
      simp only [dataBlocks, ndirect, bsize] at hlength hle ⊢
      omega
    rw [if_pos hzero, if_neg hsmall, hlength]
    rfl
  · have hlt := hfull.indirect hzero
    have hlarge : ndirect * bsize < f.bytes.length := by
      simp only [dataBlocks, ndirect, bsize] at hlength hlt ⊢
      omega
    rw [if_neg hzero, if_pos hlarge, length_cons, hlength]

end Stored

end Node

/-! ### Running the primitives -/

structure Tidy (s : Host) : Prop where
  sectors : s.sectors = size
  used : s.usedblocks = s.freeblock
  above : firstData ≤ s.freeblock
  zero : ∀ b, s.freeblock ≤ b → s.image b = fun _ => 0

theorem rsect_run (h : x < s.sectors) : rsect x s = .ok (s.image x) s := by
  unfold rsect
  rw [bind_ok _ (get_run s), if_pos h]
  rfl

theorem rsect_fails (h : s.sectors ≤ x) : rsect x s = .error (.perror "read") s := by
  unfold rsect
  rw [bind_ok _ (get_run s), if_neg (Nat.not_lt_of_le h)]
  rfl

def Host.put (s : Host) (kind : Kind) (x : Nat) (buf : Block) : Host :=
  { s with image := update s.image x buf, writes := s.writes ++ [(kind, x)] }

theorem Host.put_self : (s.put kind x buf).image x = buf := update_self ..

theorem Host.put_of_ne (h : b ≠ x) : (s.put kind x buf).image b = s.image b := update_of_ne h ..

theorem wsect_run (kind : Kind) (buf : Block) (h : x < s.sectors) : wsect kind x buf s = .ok () (s.put kind x buf) := by
  unfold wsect
  rw [modify_run, Nat.max_eq_left h]
  rfl

def Host.take (s : Host) : Host :=
  { s with
    freeblock := s.freeblock + 1
    usedblocks := s.usedblocks + 1
    blocks := s.blocks ++ [s.freeblock] }

theorem newBlock_run (s : Host) : newBlock s = .ok s.freeblock s.take := by
  unfold newBlock
  rfl

theorem withAddr_new (h : din.addrs k = 0) : withAddr din k s = .ok (din.setAddr k s.freeblock) s.take := by
  unfold withAddr
  rw [if_pos h, map_run, newBlock_run]

theorem withAddr_old (h : din.addrs k ≠ 0) : withAddr din k s = .ok din s := by
  unfold withAddr
  rw [if_neg h]
  rfl

theorem assert_run [Decidable c] (h : c) : assert c text s = .ok () s := by
  unfold assert
  rw [if_pos h]
  rfl

theorem assert_fails [Decidable c] (h : ¬c) : assert c text s = .error (.assert text) s := by
  unfold assert
  rw [if_neg h]
  rfl

/-! ### One more block -/

variable {f f' f'' : Node}

structure Grown (s : Host) (f : Node) (s' : Host) (f' : Node) : Prop where
  tidy : Tidy s'
  stored : f'.Stored s'
  le : s.freeblock ≤ s'.freeblock
  mem : ∀ b, b ∈ f'.blocks ↔ b ∈ f.blocks ∨ s.freeblock ≤ b ∧ b < s'.freeblock
  count : s'.freeblock + f.blocks.length = s.freeblock + f'.blocks.length
  blocks : s'.blocks = s.blocks ++ List.range' s.freeblock (s'.freeblock - s.freeblock)
  frame : ∀ b, b ∉ f'.blocks → s'.image b = s.image b
  writes : ∀ w ∈ s'.writes, w ∈ s.writes ∨ w.1 = .data ∧ w.2 ∈ f'.blocks
  inodes : s'.inodes = s.inodes
  freeinode : s'.freeinode = s.freeinode
  type : f'.type = f.type

theorem Grown.refl (h : Tidy s) (hf : f.Stored s) : Grown s f s f where
  tidy := h
  stored := hf
  le := Nat.le_refl _
  mem b := by
    rw [or_iff_left]
    omega
  count := rfl
  blocks := by simp
  frame _ _ := rfl
  writes _ hw := .inl hw
  inodes := rfl
  freeinode := rfl
  type := rfl

theorem Grown.trans (h : Grown s f s' f') (h' : Grown s' f' s'' f'') : Grown s f s'' f'' where
  tidy := h'.tidy
  stored := h'.stored
  le := Nat.le_trans h.le h'.le
  mem b := by
    have hle := h.le
    have hle' := h'.le
    rw [h'.mem, h.mem, or_assoc]
    apply or_congr_right
    omega
  count := by
    have hcount := h.count
    have hcount' := h'.count
    omega
  blocks := by
    have hle := h.le
    have hle' := h'.le
    have hmid : s'.freeblock = s.freeblock + (s'.freeblock - s.freeblock) := by omega
    have hsum : s''.freeblock - s.freeblock = (s'.freeblock - s.freeblock) + (s''.freeblock - s'.freeblock) := by omega
    rw [h'.blocks, h.blocks, append_assoc, hsum, ← range'_append_1, ← hmid]
  frame b hb := by
    rw [h'.frame b hb, h.frame b fun hin => hb ((h'.mem b).mpr (.inl hin))]
  writes w hw := by
    obtain hw | hw := h'.writes w hw
    · exact (h.writes w hw).imp_right fun hw => ⟨hw.1, (h'.mem _).mpr (.inl hw.2)⟩
    · exact .inr hw
  inodes := h'.inodes.trans h.inodes
  freeinode := h'.freeinode.trans h.freeinode
  type := h'.type.trans h.type

theorem Tidy.take (h : Tidy s) : Tidy s.take where
  sectors := h.sectors
  used := congrArg (· + 1) h.used
  above := Nat.le_succ_of_le h.above
  zero b hb := h.zero b (Nat.le_of_succ_le hb)

theorem Tidy.put {buf : Block} (h : Tidy s) (hx : x < s.freeblock) : Tidy (s.put kind x buf) where
  sectors := h.sectors
  used := h.used
  above := h.above
  zero b hb := by
    have hne : b ≠ x := by
      change s.freeblock ≤ b at hb
      omega
    change update s.image x buf b = _
    rw [update_of_ne hne, h.zero b hb]

theorem freeblock_not_mem (h : f.Stored s) : s.freeblock ∉ f.blocks := fun hin => by
  have hrange := h.range _ hin
  omega

theorem Tidy.freeblock_ne_zero (h : Tidy s) : s.freeblock ≠ 0 := by
  have hle := h.above
  change 29 ≤ _ at hle
  omega

def Node.next (f : Node) (b : Nat) : Node := { f with data := f.data ++ [b] }

theorem getD_snoc (l : List Nat) (b j : Nat) : (l ++ [b]).getD j 0 = if j = l.length then b else l.getD j 0 := by
  obtain hlt | heq | hgt := Nat.lt_trichotomy j l.length
  · rw [getD_append _ _ _ _ hlt, if_neg (Nat.ne_of_lt hlt)]
  · rw [heq, getD_append_right _ _ _ _ (Nat.le_refl _), if_pos rfl, Nat.sub_self]
    rfl
  · rw [getD_eq_default, getD_eq_default, if_neg (Nat.ne_of_gt hgt)]
    · omega
    · rw [length_append, length_singleton]
      omega

theorem nodup_snoc {l : List Nat} (h : l.Nodup) (hb : b ∉ l) : (l ++ [b]).Nodup := by
  refine nodup_append.mpr ⟨h, pairwise_singleton _ b, fun a ha c hc heq => hb ?_⟩
  rw [← mem_singleton.mp hc, ← heq]
  exact ha

theorem content_snoc (h : f.Stored s) (hend : f.bytes.length ≤ bsize * f.data.length) {image : Nat → Block}
    (hold : ∀ b ∈ f.data, image b = s.image b) (hnew : image b = fun _ => 0) :
    ∀ j < (f.data ++ [b]).length, ∀ k < bsize,
      (image ((f.data ++ [b]).getD j 0)).mem k = f.bytes.getD (bsize * j + k) 0 := by
  intro j hj k hk
  rw [length_append, length_singleton] at hj
  rw [getD_snoc]
  by_cases heq : j = f.data.length
  · rw [if_pos heq, hnew, Bytes.mem, dif_pos hk, getD_eq_default]
    rw [heq]
    omega
  · have hlt : j < f.data.length := by omega
    rw [if_neg heq, hold _ (Node.getD_mem hlt), h.content j hlt k hk]

theorem Grown.one (h : Tidy s) (hf : f.Stored s) (htidy : Tidy s') (hfree : s'.freeblock = s.freeblock + 1)
    (hblocks : s'.blocks = s.blocks ++ [s.freeblock]) (hmem : ∀ b, b ∈ f'.blocks ↔ b ∈ f.blocks ∨ b = s.freeblock)
    (hnodup : f'.blocks.Nodup) (hlen : f'.blocks.length = f.blocks.length + 1)
    (hindirect : f'.indirect = 0 → f'.data.length ≤ ndirect)
    (htable : f'.indirect ≠ 0 → ∀ j < nindirect, (s'.image f'.indirect).word 4 (4 * j) = f'.data.getD (ndirect + j) 0)
    (hcontent : ∀ j < f'.data.length, ∀ k < bsize,
      (s'.image (f'.data.getD j 0)).mem k = f'.bytes.getD (bsize * j + k) 0)
    (hframe : ∀ b, b ∉ f'.blocks → s'.image b = s.image b)
    (hwrites : ∀ w ∈ s'.writes, w ∈ s.writes ∨ w.1 = .data ∧ w.2 ∈ f'.blocks)
    (hinodes : s'.inodes = s.inodes) (hfreeinode : s'.freeinode = s.freeinode) (htype : f'.type = f.type) :
    Grown s f s' f' where
  tidy := htidy
  stored := by
    refine ⟨fun b hb => ?_, hnodup, hindirect, htable, hcontent⟩
    have hle := h.above
    rw [hfree]
    obtain hb | rfl := (hmem b).mp hb
    · have hrange := hf.range b hb
      omega
    · omega
  le := by omega
  mem b := by
    rw [hmem, hfree]
    apply or_congr_right
    omega
  count := by omega
  blocks := by
    rw [hblocks, hfree, Nat.add_sub_cancel_left]
    rfl
  frame := hframe
  writes := hwrites
  inodes := hinodes
  freeinode := hfreeinode
  type := htype

theorem Grown.direct (h : Tidy s) (hf : f.Stored s) (hend : f.bytes.length ≤ bsize * f.data.length)
    (hzero : f.indirect = 0) (hfew : f.data.length < ndirect) : Grown s f s.take (f.next s.freeblock) := by
  have hnot := freeblock_not_mem hf
  have hblocks : f.blocks = f.data := if_pos hzero
  have hblocks' : (f.next s.freeblock).blocks = f.data ++ [s.freeblock] := if_pos hzero
  refine .one h hf h.take rfl rfl (fun b => ?_) ?_ ?_ (fun _ => ?_) (fun hne => absurd hzero hne)
    (content_snoc hf hend (fun _ _ => rfl) (h.zero _ (Nat.le_refl _))) (fun _ _ => rfl) (fun _ hw => .inl hw) rfl rfl rfl
  · rw [hblocks', hblocks, mem_append, mem_singleton]
  · rw [hblocks']
    exact nodup_snoc hf.data_nodup (hblocks ▸ hnot)
  · rw [hblocks', hblocks, length_append, length_singleton]
  · change (f.data ++ [s.freeblock]).length ≤ ndirect
    rw [length_append]
    exact hfew

def Node.withIndirect (f : Node) (b : Nat) : Node := { f with indirect := b }

theorem Grown.indirect (h : Tidy s) (hf : f.Stored s) (hzero : f.indirect = 0) :
    Grown s f s.take (f.withIndirect s.freeblock) := by
  have hnot := freeblock_not_mem hf
  have hne := h.freeblock_ne_zero
  have hfew := hf.indirect hzero
  have hblocks : f.blocks = f.data := if_pos hzero
  have hblocks' : (f.withIndirect s.freeblock).blocks = s.freeblock :: f.data := if_neg hne
  refine .one h hf h.take rfl rfl (fun b => ?_) ?_ ?_ (fun heq => absurd heq hne) (fun _ j hj => ?_) hf.content
    (fun _ _ => rfl) (fun _ hw => .inl hw) rfl rfl rfl
  · rw [hblocks', hblocks, mem_cons, or_comm]
  · rw [hblocks']
    exact nodup_cons.mpr ⟨hblocks ▸ hnot, hf.data_nodup⟩
  · rw [hblocks', hblocks, length_cons]
  · change (s.image s.freeblock).word 4 (4 * j) = f.data.getD (ndirect + j) 0
    rw [h.zero _ (Nat.le_refl _), getD_eq_default _ _ (by omega)]
    exact word_zero ..

theorem Grown.entry (h : Tidy s) (hf : f.Stored s) (hend : f.bytes.length ≤ bsize * f.data.length)
    (hne : f.indirect ≠ 0) (hmany : ndirect ≤ f.data.length) (hroom : f.data.length < maxfile) (hsmall : s.freeblock < 2 ^ 32) :
    Grown s f (s.take.put .data f.indirect ((s.image f.indirect).setWord 4 (4 * (f.data.length - ndirect)) s.freeblock))
      (f.next s.freeblock) := by
  have hin := hf.indirect_mem hne
  have hlt := (hf.range _ hin).2
  have hblocks : f.blocks = f.indirect :: f.data := if_neg hne
  have hblocks' : (f.next s.freeblock).blocks = f.indirect :: (f.data ++ [s.freeblock]) := if_neg hne
  have hmem : ∀ b, b ∈ (f.next s.freeblock).blocks ↔ b ∈ f.blocks ∨ b = s.freeblock := by
    intro b
    rw [hblocks', hblocks, mem_cons, mem_cons, mem_append, mem_singleton, or_assoc]
  have hindex : 4 * (f.data.length - ndirect) + 4 ≤ bsize := by
    simp only [maxfile, ndirect, nindirect, bsize] at hroom hmany ⊢
    omega
  refine .one h hf (h.take.put (Nat.lt_succ_of_lt hlt)) rfl rfl hmem ?_ ?_ (fun heq => absurd heq hne) (fun _ j hj => ?_)
    (content_snoc hf hend (fun b hb => ?_) ?_) (fun b hb => ?_) (fun w hw => ?_) rfl rfl rfl
  · have hnot := freeblock_not_mem hf
    rw [hblocks, mem_cons, not_or] at hnot
    rw [hblocks']
    refine nodup_cons.mpr ⟨fun hin' => ?_, nodup_snoc hf.data_nodup hnot.2⟩
    rw [mem_append, mem_singleton] at hin'
    exact hin'.elim (hf.indirect_not_mem hne) fun heq => hnot.1 heq.symm
  · rw [hblocks', hblocks, length_cons, length_cons, length_append, length_singleton]
  · change (Host.image _ f.indirect).word 4 (4 * j) = (f.data ++ [s.freeblock]).getD (ndirect + j) 0
    rw [Host.put_self, getD_snoc]
    by_cases heq : ndirect + j = f.data.length
    · have hj' : j = f.data.length - ndirect := by omega
      rw [if_pos heq, hj', Bytes.word_setWord _ hindex]
      exact Nat.mod_eq_of_lt hsmall
    · rw [if_neg heq, Bytes.word_setWord_of_disjoint _ (by omega), hf.table hne j hj]
  · exact Host.put_of_ne fun heq => hf.indirect_not_mem hne (heq ▸ hb)
  · exact (Host.put_of_ne (Nat.ne_of_gt hlt)).trans (h.zero _ (Nat.le_refl _))
  · apply Host.put_of_ne
    rintro rfl
    exact hb ((hmem _).mpr (.inl hin))
  · obtain hw | hw := mem_append.mp hw
    · exact .inl hw
    · rw [mem_singleton.mp hw]
      exact .inr ⟨rfl, (hmem _).mpr (.inl hin)⟩

/-! ### blockFor -/

theorem Node.Copy.addrs (h : f.Copy din) (hk : k ≤ ndirect) :
    din.addrs k = if k = ndirect then f.indirect else f.data.getD k 0 := Dinode.Agrees.addrs h k hk

theorem Node.Copy.next (h : f.Copy din) (hfew : f.data.length < ndirect) :
    (f.next b).Copy (din.setAddr f.data.length b) := by
  refine ⟨h.type, h.major, h.minor, h.nlink, h.size, fun k hk => ?_⟩
  change (din.setAddr f.data.length b).addrs k = if k = ndirect then f.indirect else (f.data ++ [b]).getD k 0
  rw [Dinode.addrs_setAddr, h.addrs hk, getD_snoc]
  split
  · rename_i heq
    rw [if_neg (by omega)]
  · rfl

theorem Node.Copy.withIndirect (h : f.Copy din) : (f.withIndirect b).Copy (din.setAddr ndirect b) := by
  refine ⟨h.type, h.major, h.minor, h.nlink, h.size, fun k hk => ?_⟩
  change (din.setAddr ndirect b).addrs k = if k = ndirect then b else f.data.getD k 0
  rw [Dinode.addrs_setAddr, h.addrs hk]
  split <;> rfl

theorem Node.Copy.entry (h : f.Copy din) (hmany : ndirect ≤ f.data.length) : (f.next b).Copy din := by
  refine ⟨h.type, h.major, h.minor, h.nlink, h.size, fun k hk => ?_⟩
  change din.addrs k = if k = ndirect then f.indirect else (f.data ++ [b]).getD k 0
  rw [h.addrs hk, getD_snoc]
  split
  · rfl
  · rw [if_neg (by omega)]

structure Chosen (s : Host) (f : Node) (r : Dinode × Nat) (s' : Host) (f' : Node) : Prop where
  grown : Grown s f s' f'
  copy : f'.Copy r.1
  bytes : f'.bytes = f.bytes
  length : f'.data.length = f.bytes.length / bsize + 1
  block : r.2 = f'.data.getD (f.bytes.length / bsize) 0
  indirect : f'.indirect ≠ 0 → ndirect < f'.data.length
  bound : r.2 < size → s'.freeblock ≤ size

theorem getD_next (f : Node) (b : Nat) : (f.next b).data.getD f.data.length 0 = b := by
  change (f.data ++ [b]).getD f.data.length 0 = b
  rw [getD_snoc, if_pos rfl]

theorem blockFor_table (h : Tidy s) (hbound : s.freeblock ≤ size) (hf : f.Stored s) (hne : f.indirect ≠ 0)
    (hmany : ndirect ≤ f.data.length) (hroom : f.bytes.length / bsize < maxfile) (hdin : f.Copy din)
    (hlen : f.data.length = f.bytes.length / bsize + 1 ∧ ndirect ≤ f.bytes.length / bsize ∨
      f.data.length = f.bytes.length / bsize ∧ f.bytes.length ≤ bsize * f.data.length) :
    Ends (do
      let indirect ← rsect f.indirect
      if indirect.word 4 (4 * (f.bytes.length / bsize - ndirect)) = 0 then
        let b ← newBlock
        let indirect := indirect.setWord 4 (4 * (f.bytes.length / bsize - ndirect)) b
        wsect .data f.indirect indirect
        return (din, indirect.word 4 (4 * (f.bytes.length / bsize - ndirect)))
      else return (din, indirect.word 4 (4 * (f.bytes.length / bsize - ndirect)))) s
      (fun r s' => ∃ f', Chosen s f r s' f') fun _ _ => False := by
  have hrange := hf.range _ (hf.indirect_mem hne)
  have hsec : f.indirect < s.sectors := by
    rw [h.sectors]
    omega
  have hindex : f.bytes.length / bsize - ndirect < nindirect := by
    simp only [maxfile] at hroom
    simp only [nindirect, bsize] at hroom ⊢
    omega
  have hword := hf.table hne _ hindex
  refine .after_ok (rsect_run hsec) ?_
  rw [hword]
  obtain ⟨hlen, hge⟩ | ⟨hlen, hend⟩ := hlen
  · have hj : ndirect + (f.bytes.length / bsize - ndirect) = f.bytes.length / bsize := by omega
    rw [hj, if_neg (hf.getD_ne_zero (by omega))]
    exact .pure ⟨f, .refl h hf, hdin, rfl, hlen, rfl, fun _ => by omega, fun _ => hbound⟩
  · have hj : ndirect + (f.bytes.length / bsize - ndirect) = f.data.length := by omega
    have hsmall : s.freeblock < 2 ^ 32 := Nat.lt_of_le_of_lt hbound (by decide)
    have hgrown := Grown.entry h hf hend hne hmany (by omega) hsmall
    have hfits : 4 * (f.bytes.length / bsize - ndirect) + 4 ≤ bsize := by
      simp only [nindirect, bsize] at hindex ⊢
      omega
    rw [hj, getD_eq_default _ _ (Nat.le_refl _), if_pos rfl]
    refine .after_ok (newBlock_run s) (.after_ok (wsect_run .data _ hsec) (.pure ⟨f.next s.freeblock, ?_⟩))
    rw [hlen] at hgrown
    refine ⟨hgrown, hdin.entry hmany, rfl, ?_, ?_, fun _ => ?_, fun hlt => ?_⟩
    · rw [← hlen]
      exact length_append
    · change ((s.image f.indirect).setWord 4 _ s.freeblock).word 4 _ = _
      rw [Bytes.word_setWord _ hfits, ← hlen, getD_next]
      exact Nat.mod_eq_of_lt hsmall
    · change ndirect < (f.data ++ [s.freeblock]).length
      rw [length_append]
      exact Nat.lt_succ_of_le hmany
    · change ((s.image f.indirect).setWord 4 _ s.freeblock).word 4 _ < size at hlt
      rw [Bytes.word_setWord _ hfits] at hlt
      change s.freeblock % 2 ^ 32 < size at hlt
      rw [Nat.mod_eq_of_lt hsmall] at hlt
      exact hlt

theorem blockFor_spec (h : Tidy s) (hbound : s.freeblock ≤ size) (hf : f.Stored s) (hfull : f.Full) (hdin : f.Copy din)
    (hroom : f.bytes.length / bsize < maxfile) :
    Ends (blockFor din (f.bytes.length / bsize)) s (fun r s' => ∃ f', Chosen s f r s' f')
      fun _ _ => size < s.freeblock + (fileBlocks (f.bytes.length + 1) - fileBlocks f.bytes.length) := by
  have hlength := hfull.length
  have hcases : f.data.length = f.bytes.length / bsize + 1 ∨
      f.data.length = f.bytes.length / bsize ∧ f.bytes.length ≤ bsize * f.data.length := by
    simp only [dataBlocks, bsize] at hlength ⊢
    omega
  unfold blockFor
  by_cases hdirect : f.bytes.length / bsize < ndirect
  · have haddr : din.addrs (f.bytes.length / bsize) = f.data.getD (f.bytes.length / bsize) 0 := by
      rw [hdin.addrs (Nat.le_of_lt hdirect), if_neg (Nat.ne_of_lt hdirect)]
    rw [if_pos hdirect]
    obtain hlen | ⟨hlen, hend⟩ := hcases
    · have hne : din.addrs (f.bytes.length / bsize) ≠ 0 := by
        rw [haddr]
        exact hf.getD_ne_zero (by omega)
      refine .after_ok (withAddr_old hne) (.pure ⟨f, .refl h hf, hdin, rfl, hlen, haddr, hfull.indirect,
        fun _ => hbound⟩)
    · have hzero : f.indirect = 0 := by
        by_contra hne
        have hlt := hfull.indirect hne
        omega
      have hnone : din.addrs (f.bytes.length / bsize) = 0 := by
        rw [haddr, getD_eq_default _ _ (by omega)]
      refine .after_ok (withAddr_new hnone) (.pure ⟨f.next s.freeblock, .direct h hf hend hzero (by omega), ?_, rfl, ?_, ?_,
        fun hne => absurd hzero hne, fun hlt => ?_⟩)
      · rw [← hlen]
        exact hdin.next (by omega)
      · rw [← hlen]
        exact length_append
      · rw [← hlen, getD_next, Dinode.addrs_setAddr, if_pos rfl]
      · change (din.setAddr _ s.freeblock).addrs _ < size at hlt
        rw [Dinode.addrs_setAddr, if_pos rfl] at hlt
        exact hlt
  · have haddr : din.addrs ndirect = f.indirect := by
      rw [hdin.addrs (Nat.le_refl _), if_pos rfl]
    rw [if_neg hdirect]
    by_cases hzero : f.indirect = 0
    · -- The first block behind the direct ones: the indirect block comes first.
      have hfew := hf.indirect hzero
      obtain ⟨hlen, hend⟩ := hcases.resolve_left (by omega)
      have hblock : f.bytes.length = ndirect * bsize := by
        simp only [ndirect, bsize] at hdirect hfew hlen hend ⊢
        omega
      have hgrown := Grown.indirect h hf hzero
      refine .after_ok (withAddr_new (haddr.trans hzero)) ?_
      rw [Dinode.addrs_setAddr, if_pos rfl]
      by_cases hfits : s.freeblock < size
      · refine (blockFor_table hgrown.tidy hfits hgrown.stored
          h.freeblock_ne_zero (show ndirect ≤ f.data.length by omega) hroom hdin.withIndirect
          (.inr ⟨hlen, hend⟩)).mono (fun r s' hr => ?_) fun _ _ hf => hf.elim
        obtain ⟨f', hchosen⟩ := hr
        exact ⟨f', { hchosen with grown := hgrown.trans hchosen.grown }⟩
      · have hfail := rsect_fails (x := s.freeblock) (s := s.take) (by
          rw [hgrown.tidy.sectors]
          exact Nat.le_of_not_lt hfits)
        refine .after_error hfail ?_
        rw [hblock]
        have htwo : fileBlocks (ndirect * bsize + 1) - fileBlocks (ndirect * bsize) = 2 := by decide
        omega
    · have hmany := hfull.indirect hzero
      refine .after_ok (withAddr_old (haddr ▸ hzero)) ?_
      rw [haddr]
      exact (blockFor_table h hbound hf hzero (Nat.le_of_lt hmany) hroom hdin
        (hcases.imp_left fun hlen => ⟨hlen, by omega⟩)).returns

/-! ### iappend -/

def Node.add (f : Node) (p : List UInt8) : Node := { f with bytes := f.bytes ++ p }

theorem getD_append_take (l p : List UInt8) (hn : n ≤ p.length) (i : Nat) :
    (l ++ p.take n).getD i 0 = if l.length ≤ i ∧ i < l.length + n then p.getD (i - l.length) 0 else l.getD i 0 := by
  by_cases hlt : i < l.length
  · rw [getD_append _ _ _ _ hlt, if_neg (by omega)]
  · rw [getD_append_right _ _ _ _ (Nat.le_of_not_lt hlt)]
    by_cases hin : i < l.length + n
    · rw [if_pos ⟨Nat.le_of_not_lt hlt, hin⟩, getD_eq_getElem _ _ (by rw [length_take]; omega),
        getElem_take, getD_eq_getElem _ _ (by omega)]
    · rw [if_neg (by omega), getD_eq_default _ _ (by rw [length_take]; omega),
        getD_eq_default _ _ (Nat.le_of_not_lt hlt)]

theorem Node.Stored.getD_inj (h : f.Stored s) (hi : i < f.data.length) (hj : j < f.data.length)
    (heq : f.data.getD i 0 = f.data.getD j 0) : i = j := by
  rw [getD_eq_getElem _ _ hi, getD_eq_getElem _ _ hj] at heq
  exact (List.Nodup.getElem_inj_iff h.data_nodup).mp heq

theorem Grown.bytes (h : Tidy s) (hf : f.Stored s) (hlen : f.data.length = f.bytes.length / bsize + 1) (hp : n ≤ p.length)
    (hx : x = f.data.getD (f.bytes.length / bsize) 0) :
    Grown s f (s.put .data x ((s.image x).copyIn (f.bytes.length % bsize) n fun i => p.getD i 0)) (f.add (p.take n)) := by
  have hlast : f.bytes.length / bsize < f.data.length := by omega
  have hin : x ∈ f.data := hx ▸ Node.getD_mem hlast
  have hlt := (hf.range x (Node.data_sub hin)).2
  refine ⟨h.put hlt, ⟨hf.range, hf.nodup, hf.indirect, fun hne j hj => ?_, fun j hj k hk => ?_⟩, Nat.le_refl _, fun b => ?_,
    rfl, ?_, fun b hb => ?_, fun w hw => ?_, rfl, rfl, rfl⟩
  · have hne' : f.indirect ≠ x := fun heq => hf.indirect_not_mem hne (heq ▸ hin)
    change (Host.image _ f.indirect).word 4 (4 * j) = _
    rw [Host.put_of_ne hne']
    exact hf.table hne j hj
  · change j < f.data.length at hj
    change (Host.image _ (f.data.getD j 0)).mem k = (f.bytes ++ p.take n).getD (bsize * j + k) 0
    rw [getD_append_take _ _ hp]
    by_cases heq : j = f.bytes.length / bsize
    · have hold := hf.content j hj k hk
      rw [heq, ← hx] at hold ⊢
      rw [Host.put_self, Bytes.mem_copyIn _ _ hk, Mem.copyIn, hold]
      by_cases hnew : f.bytes.length % bsize ≤ k ∧ k < f.bytes.length % bsize + n
      · rw [if_pos hnew, if_pos (by simp only [bsize] at hnew ⊢; omega)]
        congr 1
        simp only [bsize] at hnew ⊢
        omega
      · rw [if_neg hnew, if_neg (by simp only [bsize] at hnew ⊢; omega)]
    · have hne : f.data.getD j 0 ≠ x := fun hf' => heq (hf.getD_inj hj hlast (hf'.trans hx))
      rw [Host.put_of_ne hne, hf.content j hj k hk, if_neg]
      simp only [bsize] at hlen heq hk ⊢
      omega
  · change b ∈ f.blocks ↔ b ∈ f.blocks ∨ s.freeblock ≤ b ∧ b < s.freeblock
    rw [or_iff_left]
    omega
  · change s.blocks = s.blocks ++ range' s.freeblock (s.freeblock - s.freeblock)
    rw [Nat.sub_self, range'_zero, append_nil]
  · exact Host.put_of_ne fun heq => hb (heq ▸ Node.data_sub hin)
  · obtain hw | hw := mem_append.mp hw
    · exact .inl hw
    · rw [mem_singleton.mp hw]
      exact .inr ⟨rfl, Node.data_sub hin⟩

theorem fileBlocks_mono (h : l ≤ m) : fileBlocks l ≤ fileBlocks m := by
  unfold fileBlocks dataBlocks
  have hdata : (l + bsize - 1) / bsize ≤ (m + bsize - 1) / bsize := Nat.div_le_div_right (by omega)
  split
  · rw [if_pos (by omega)]
    omega
  · omega

theorem Grown.freeblock_eq (h : Grown s f s' f') (hf : f.Stored s) (hfull : f.Full) (hfull' : f'.Full) :
    s'.freeblock + fileBlocks f.bytes.length = s.freeblock + fileBlocks f'.bytes.length := by
  rw [← hf.length_blocks hfull, ← h.stored.length_blocks hfull']
  exact h.count

structure Appended (s : Host) (f : Node) (p : List UInt8) (s' : Host) (f' : Node) : Prop where
  grown : Grown s f s' f'
  bytes : f'.bytes = f.bytes ++ p
  full : f'.Full
  bound : s'.freeblock ≤ size

def Overflows (s : Host) (len more : Nat) : Prop :=
  maxfile * bsize < len + more ∨ size < s.freeblock + (fileBlocks (len + more) - fileBlocks len)

theorem Node.Copy.add (h : f.Copy din) (p : List UInt8) : (f.add p).Copy din :=
  ⟨h.type, h.major, h.minor, h.nlink, rfl, fun _ hk => h.addrs hk⟩

theorem appendLoop_spec (fuel : Nat) (hfuel : p.length ≤ fuel) (h : Tidy s) (hbound : s.freeblock ≤ size) (hf : f.Stored s)
    (hfull : f.Full) (hdin : f.Copy din) :
    Ends (appendLoop fuel din f.bytes.length p) s
      (fun r s' => ∃ f', Appended s f p s' f' ∧ f'.Copy r.1 ∧ r.2 = f'.bytes.length)
      fun _ _ => Overflows s f.bytes.length p.length := by
  induction fuel generalizing s f din p with
  | zero =>
    have hnil : p = [] := length_eq_zero_iff.mp (Nat.le_zero.mp hfuel)
    subst hnil
    exact .pure ⟨f, ⟨.refl h hf, (append_nil _).symm, hfull, hbound⟩, hdin, rfl⟩
  | succ fuel ih =>
    unfold appendLoop
    by_cases hp : p = []
    · subst hp
      rw [if_pos rfl]
      exact .pure ⟨f, ⟨.refl h hf, (append_nil _).symm, hfull, hbound⟩, hdin, rfl⟩
    have hpos := length_pos_iff.mpr hp
    rw [if_neg hp]
    dsimp only
    by_cases hroom : f.bytes.length / bsize < maxfile
    swap
    · refine .after_error (assert_fails hroom) (.inl ?_)
      simp only [maxfile, ndirect, nindirect, bsize] at hroom ⊢
      omega
    refine .after_ok (assert_run hroom) ?_
    have hspec := blockFor_spec h hbound hf hfull hdin hroom
    refine .bind (hspec.stop fun _ _ he => .inr ?_) fun r s₁ hr => ?_
    · have hmono := fileBlocks_mono (show f.bytes.length + 1 ≤ f.bytes.length + p.length by omega)
      omega
    obtain ⟨f₁, hchosen⟩ := hr
    obtain ⟨din₁, x⟩ := r
    have hbytes := hchosen.bytes
    have hlen := hchosen.length
    have hblock : x = f₁.data.getD (f.bytes.length / bsize) 0 := hchosen.block
    rw [← hbytes] at hlen hblock
    generalize hn1 : min p.length ((f.bytes.length / bsize + 1) * bsize - f.bytes.length) = n1
    have hoff : f.bytes.length - f.bytes.length / bsize * bsize = f₁.bytes.length % bsize := by
      rw [hbytes]
      simp only [bsize]
      omega
    have hn : n1 ≤ bsize - f₁.bytes.length % bsize ∧ n1 ≤ p.length ∧ 0 < n1 := by
      rw [hbytes]
      simp only [bsize] at hn1 ⊢
      omega
    have hgrown₂ := Grown.bytes hchosen.grown.tidy hchosen.grown.stored hlen hn.2.1 hblock
    have hlength : (f₁.add (p.take n1)).bytes.length = f.bytes.length + n1 := by
      change (f₁.bytes ++ p.take n1).length = _
      rw [length_append, length_take, hbytes, Nat.min_eq_left hn.2.1]
    have hfull₁ : (f₁.add (p.take n1)).Full := by
      rw [hbytes] at hlen hn
      refine ⟨?_, hchosen.indirect, ?_⟩
      · rw [hlength]
        change f₁.data.length = _
        rw [hlen]
        simp only [dataBlocks, bsize] at hn ⊢
        omega
      · rw [hlength]
        simp only [bsize] at hn hroom ⊢
        omega
    have hall := hchosen.grown.trans hgrown₂
    have hfree := hall.freeblock_eq hf hfull hfull₁
    rw [hlength] at hfree
    change s₁.freeblock + fileBlocks f.bytes.length = s.freeblock + fileBlocks (f.bytes.length + n1) at hfree
    have hmono := fileBlocks_mono (show f.bytes.length + n1 ≤ f.bytes.length + p.length by omega)
    by_cases hx : x < size
    swap
    · have hrange := hchosen.grown.stored.getD_range (j := f₁.bytes.length / bsize) (by omega)
      rw [← hblock] at hrange
      refine .after_error (rsect_fails ?_) (.inr ?_)
      · rw [hchosen.grown.tidy.sectors]
        exact Nat.le_of_not_lt hx
      · omega
    have hsec : x < s₁.sectors := by
      rw [hchosen.grown.tidy.sectors]
      exact hx
    refine .after_ok (rsect_run hsec) (.after_ok (wsect_run .data _ hsec) ?_)
    have hnext := ih (p := p.drop n1) (by rw [length_drop]; omega) hall.tidy (hchosen.bound hx) hall.stored hfull₁
      (hchosen.copy.add _)
    rw [hlength] at hnext
    rw [hoff]
    refine hnext.mono (fun r s₂ hr => ?_) fun _ s₂ he => ?_
    · obtain ⟨f₂, happended, hcopy, hr⟩ := hr
      refine ⟨f₂, ⟨hall.trans happended.grown, ?_, happended.full, happended.bound⟩, hcopy, hr⟩
      rw [happended.bytes]
      change f₁.bytes ++ p.take n1 ++ p.drop n1 = _
      rw [append_assoc, take_append_drop, hbytes]
    · unfold Overflows at he ⊢
      rw [length_drop, show f.bytes.length + n1 + (p.length - n1) = f.bytes.length + p.length by omega] at he
      refine he.imp_right fun he => ?_
      change size < s₁.freeblock + _ at he
      omega

theorem Node.Stored.fits (h : f.Stored s) (hbound : s.freeblock ≤ size) (htype : f.type < 2 ^ 16)
    (hsize : f.bytes.length < 2 ^ 32) : f.dinode.Fits := by
  have hsmall : ∀ b ∈ f.blocks, b < 2 ^ 32 := by
    intro b hb
    have hrange := h.range b hb
    change s.freeblock ≤ 1024 at hbound
    omega
  refine ⟨htype, Nat.two_pow_pos 16, Nat.two_pow_pos 16, Nat.one_lt_two_pow (by decide), hsize, fun k _ => ?_⟩
  change (if k = ndirect then f.indirect else f.data.getD k 0) < 2 ^ 32
  split
  · by_cases hzero : f.indirect = 0
    · rw [hzero]
      decide
    · exact hsmall _ (h.indirect_mem hzero)
  · by_cases hk : k < f.data.length
    · exact hsmall _ (Node.data_sub (Node.getD_mem hk))
    · rw [getD_eq_default _ _ (Nat.le_of_not_lt hk)]
      decide

end RainOS.Mkfs
