import RainOS.Mkfs.Image

/-!
# Regions and holes of the image

When `mkfs` stays inside the regions of the disk, and when its files have no holes. The first depends on the number of
the files and on the blocks they need, of which nothing is asserted but that a block lies in the image; the second on
the number of the files alone, through the size of the root directory.
-/

namespace RainOS.Mkfs

open Fs List

variable {s s' s'' : Host} {f root : Node} {rest : List Node} {b i n m : Nat} {args : List Input}

/-! ### Inode numbers, in any run -/

def Kept (s s' : Host) : Prop := s'.inodes = s.inodes ∧ s'.freeinode = s.freeinode

theorem Kept.refl (s : Host) : Kept s s := ⟨rfl, rfl⟩

theorem Kept.trans (h : Kept s s') (h' : Kept s' s'') : Kept s s'' :=
  ⟨h'.1.trans h.1, h'.2.trans h.2⟩

theorem rsect_keeps (x : Nat) (s : Host) : Ends (rsect x) s (fun _ s' => s' = s) fun _ _ => True := by
  unfold rsect
  refine .after_ok (get_run s) ?_
  split
  · exact .pure rfl
  · exact .throw trivial

theorem wsect_keeps (kind : Kind) (x : Nat) (buf : Block) (s : Host) :
    Ends (wsect kind x buf) s (fun _ s' => Kept s s') fun _ _ => True := by
  unfold wsect
  exact .modify ⟨rfl, rfl⟩

theorem winode_keeps (i : Nat) (d : Dinode) (s : Host) : Ends (winode i d) s (fun _ s' => Kept s s') fun _ _ => True := by
  unfold winode
  refine (rsect_keeps _ s).bind fun buf s₁ hs => ?_
  subst hs
  exact wsect_keeps ..

theorem rinode_keeps (i : Nat) (s : Host) : Ends (rinode i) s (fun _ s' => s' = s) fun _ _ => True := by
  unfold rinode
  exact (rsect_keeps _ s).bind fun _ _ hs => .pure hs

theorem newBlock_keeps (s : Host) : Kept s s.take := ⟨rfl, rfl⟩

theorem withAddr_keeps (din : Dinode) (k : Nat) (s : Host) :
    Ends (withAddr din k) s (fun _ s' => Kept s s') fun _ _ => True := by
  by_cases hzero : din.addrs k = 0
  · exact .of_run_ok (withAddr_new hzero) (newBlock_keeps s)
  · exact .of_run_ok (withAddr_old hzero) (.refl s)

theorem blockFor_keeps (din : Dinode) (fbn : Nat) (s : Host) :
    Ends (blockFor din fbn) s (fun _ s' => Kept s s') fun _ _ => True := by
  unfold blockFor
  split
  · exact (withAddr_keeps din fbn s).bind fun _ _ h => .pure h
  · refine (withAddr_keeps din ndirect s).bind fun din₁ s₁ h => ?_
    refine (rsect_keeps _ s₁).bind fun indirect s₂ hs => ?_
    subst hs
    split
    · refine .after_ok (newBlock_run s₂) ?_
      refine (wsect_keeps _ _ _ _).bind fun _ s₃ h' => .pure (h.trans ((newBlock_keeps s₂).trans h'))
    · exact .pure h

theorem appendLoop_keeps (fuel : Nat) (din : Dinode) (off : Nat) (p : List UInt8) (s : Host) :
    Ends (appendLoop fuel din off p) s (fun _ s' => Kept s s') fun _ _ => True := by
  induction fuel generalizing din off p s with
  | zero => exact .pure (.refl s)
  | succ fuel ih =>
    unfold appendLoop
    split
    · exact .pure (.refl s)
    · by_cases hroom : off / bsize < maxfile
      · refine .after_ok (assert_run hroom) ((blockFor_keeps din _ s).bind fun r s₁ h => ?_)
        refine (rsect_keeps _ s₁).bind fun buf s₂ hs => ?_
        subst hs
        refine (wsect_keeps _ _ _ _).bind fun _ s₃ h' => ?_
        exact (ih _ _ _ s₃).mono (fun _ _ h'' => h.trans (h'.trans h'')) fun _ _ _ => trivial
      · exact .after_error (assert_fails hroom) trivial

theorem iappend_keeps (i : Nat) (p : List UInt8) (s : Host) :
    Ends (iappend i p) s (fun _ s' => Kept s s') fun _ _ => True := by
  unfold iappend
  refine (rinode_keeps i s).bind fun din s₁ hs => ?_
  subst hs
  refine (appendLoop_keeps _ _ _ _ _).bind fun r s₂ h => ?_
  exact (winode_keeps _ _ s₂).mono (fun _ _ h' => h.trans h') fun _ _ _ => trivial

def Counted (n : Nat) (s s' : Host) : Prop :=
  s'.inodes = s.inodes ++ List.range' s.freeinode n ∧ s'.freeinode = s.freeinode + n

theorem Counted.trans (h : Counted n s s') (h' : Counted m s' s'') : Counted (n + m) s s'' := by
  refine ⟨?_, ?_⟩
  · rw [h'.1, h.1, h.2, append_assoc, range'_append_1]
  · rw [h'.2, h.2, Nat.add_assoc]

theorem Kept.counted (h : Kept s s') : Counted 0 s s' := ⟨by rw [h.1, range'_zero, append_nil], h.2⟩

theorem ialloc_counts (type : Nat) (s : Host) :
    Ends (ialloc type) s (fun inum s' => inum = s.freeinode ∧ Counted 1 s s') fun _ _ => True := by
  unfold ialloc
  refine .after_ok (get_run s) (.after_ok (takeInode_run s) ?_)
  refine (winode_keeps _ _ _).bind fun _ s₁ h => .pure ⟨rfl, ?_⟩
  exact (show Counted 1 s s.takeInode from ⟨rfl, rfl⟩).trans h.counted

theorem appendChunks_keeps (i : Nat) (chunks : List Chunk) (s : Host) :
    Ends (chunks.forM fun c => iappend i c.bytes) s (fun _ s' => Kept s s') fun _ _ => True := by
  induction chunks generalizing s with
  | nil => exact .pure (.refl s)
  | cons c chunks ih =>
    change Ends (iappend i c.bytes >>= fun _ => chunks.forM fun c => iappend i c.bytes) _ _ _
    refine (iappend_keeps i c.bytes s).bind fun _ s₁ h => ?_
    exact (ih s₁).mono (fun _ _ h' => h.trans h') fun _ _ _ => trivial

theorem addFile_counts (a : Input) (s : Host) : Ends (addFile a) s (fun _ s' => Counted 1 s s') fun _ _ => True := by
  unfold addFile
  by_cases hname : slash ∉ a.name
  · refine .after_ok (assert_run hname) ?_
    split
    · exact .throw trivial
    · refine (ialloc_counts tFile s).bind fun inum s₁ hr => ?_
      refine (iappend_keeps _ _ s₁).bind fun _ s₂ h => ?_
      exact (appendChunks_keeps _ _ s₂).mono (fun _ _ h' => hr.2.trans (h.trans h').counted) fun _ _ _ => trivial
  · exact .after_error (assert_fails hname) trivial

theorem addFiles_counts (args : List Input) (s : Host) :
    Ends (args.forM addFile) s (fun _ s' => Counted args.length s s') fun _ _ => True := by
  induction args generalizing s with
  | nil => exact .pure (Kept.refl s).counted
  | cons a args ih =>
    change Ends (addFile a >>= fun _ => args.forM addFile) _ _ _
    refine (addFile_counts a s).bind fun _ s₁ h => (ih s₁).mono (fun _ _ h' => ?_) fun _ _ _ => trivial
    rw [length_cons, Nat.add_comm]
    exact h.trans h'

/-- Every file gets the next inode number, however many there are. -/
theorem main_counts (args : List Input) :
    Ends (main args) start (fun _ s => s.inodes = range' 1 (args.length + 1)) fun _ _ => True := by
  refine main_start args ((ialloc_counts tDir laidOut).bind fun root s₁ hr => ?_)
  obtain ⟨rfl, h₁⟩ := hr
  refine .after_ok (assert_run rfl) ?_
  refine (iappend_keeps _ _ s₁).bind fun _ s₂ h₂ => (iappend_keeps _ _ s₂).bind fun _ s₃ h₃ => ?_
  refine (addFiles_counts args s₃).bind fun _ s₄ h₄ => (rinode_keeps _ s₄).bind fun din s₅ hs => ?_
  subst hs
  refine (winode_keeps _ _ s₅).bind fun _ s₆ h₆ => .after_ok (get_run s₆) ?_
  have hall := h₁.trans ((h₂.trans h₃).counted.trans (h₄.trans h₆.counted))
  have hinodes : s₆.inodes = range' 1 (args.length + 1) := by
    rw [hall.1, Nat.add_comm args.length 1]
    exact congrArg (range' 1) (by omega)
  unfold balloc
  by_cases hused : s₆.usedblocks < bsize * 8
  · refine .after_ok (assert_run hused) ((wsect_keeps _ _ _ _).mono (fun _ _ h => ?_) fun _ _ _ => trivial)
    rw [h.1, hinodes]
  · exact .after_error (assert_fails hused) trivial

/-! ### The regions -/

/-- Every inode number is below `ninodes` and every block handed out is a data block; a sector is only written as part
of the region it lies in; and below the log the bitmap has the blocks before the data and those handed out. -/
structure InRegions (s : Host) : Prop where
  inodes : ∀ i ∈ s.inodes, i < ninodes
  blocks : ∀ b ∈ s.blocks, firstData ≤ b ∧ b < size - nlog
  writes : ∀ w ∈ s.writes, Kind.Within (size - nlog) w
  bitmap : ∀ b < size - nlog, getBit (s.image (ninodes / ipb + 3)) b = true ↔ b < firstData ∨ b ∈ s.blocks

theorem Made.mem_blocks (h : Made args s root rest) : b ∈ s.blocks ↔ firstData ≤ b ∧ b < s.freeblock := by
  have hcount := h.count
  rw [h.blocks, mem_range'_1]
  omega

theorem blocksNeeded_pos (args : List Input) : 0 < blocksNeeded args := by
  unfold blocksNeeded fileBlocks dataBlocks
  have hpos : 0 < (direntSize * (args.length + 2) + bsize - 1) / bsize :=
    Nat.div_pos (by simp only [direntSize, bsize]; omega) (by decide)
  omega

theorem Made.inRegions_iff (h : Made args s root rest) (hfew : args.length + 1 < ninodes) :
    InRegions s ↔ blocksNeeded args ≤ nblocks := by
  have hcount := h.count
  have hpos := blocksNeeded_pos args
  have hdata : firstData + nblocks = size - nlog := by decide
  constructor
  · intro hin
    have hlast := (hin.blocks (s.freeblock - 1) (h.mem_blocks.mpr (by omega))).2
    omega
  · intro hle
    refine ⟨fun i hi => ?_, fun b hb => ?_, fun w hw => ?_, fun b _ => ?_⟩
    · rw [h.inodes, mem_range'_1] at hi
      omega
    · have hb := h.mem_blocks.mp hb
      omega
    · exact (h.writes w hw).mono (by omega)
    · rw [h.bitmap, decide_eq_true_iff, h.mem_blocks]
      omega

/-- `mkfs` stays inside its regions exactly if there are inodes and data blocks enough. -/
theorem main_inRegions_iff (hrun : main args start = .ok () s) :
    InRegions s ↔ args.length + 1 < ninodes ∧ blocksNeeded args ≤ nblocks := by
  have hcounts := (main_counts args).of_ok hrun
  by_cases hfew : args.length + 1 < ninodes
  · obtain ⟨root, rest, hmade⟩ := (main_spec hfew).of_ok hrun
    rw [hmade.inRegions_iff hfew]
    exact (and_iff_right hfew).symm
  · refine iff_of_false (fun hin => hfew ?_) fun hcond => hfew hcond.1
    refine hin.inodes (args.length + 1) ?_
    rw [hcounts, mem_range'_1]
    omega

structure Fit (args : List Input) : Prop where
  names : ∀ a ∈ args, slash ∉ a.name
  opened : ∀ a ∈ args, a.chunks ≠ none
  small : ∀ a ∈ args, a.content.length ≤ maxfile * bsize
  few : args.length + 1 < ninodes
  blocks : blocksNeeded args ≤ nblocks

theorem fileBlocks_two : fileBlocks (2 * direntSize) = 1 := by decide

theorem fits_of_le (hnames : ∀ a ∈ args, slash ∉ a.name) (hopened : ∀ a ∈ args, a.chunks ≠ none)
    (hsmall : ∀ a ∈ args, a.content.length ≤ maxfile * bsize) (hfew : args.length + 1 < ninodes)
    (hblocks : firstData + blocksNeeded args ≤ size) : Fits (firstData + 1) (2 * direntSize) args := by
  have hlen : 2 * direntSize + direntSize * args.length = direntSize * (args.length + 2) := by
    simp only [direntSize]
    omega
  have hmono := fileBlocks_mono (Nat.le_add_right (2 * direntSize) (direntSize * args.length))
  refine ⟨hnames, hopened, hsmall, ?_, ?_⟩
  · rw [hlen]
    simp only [direntSize, maxfile, ndirect, nindirect, bsize, ninodes] at hfew ⊢
    omega
  · unfold blocksNeeded at hblocks
    rw [fileBlocks_two, hlen] at hmono
    rw [fileBlocks_two, hlen]
    omega

theorem Fit.made (h : Fit args) : ∃ s root rest, main args start = .ok () s ∧ Made args s root rest := by
  have hblocks : firstData + blocksNeeded args ≤ size := Nat.le_trans (Nat.add_le_add_left h.blocks _) (by decide)
  have hfits := fits_of_le h.names h.opened h.small h.few hblocks
  obtain ⟨_, s, hrun, root, rest, hmade⟩ := ((main_spec h.few).stop fun _ _ he => he hfits).exists_ok
  exact ⟨s, root, rest, hrun, hmade⟩

theorem fit_nil : Fit [] := ⟨nofun, nofun, nofun, by decide, by decide⟩

theorem main_inRegions_iff_nil : ∃ s, main [] start = .ok () s ∧ InRegions s := by
  obtain ⟨s, _, _, hrun, -⟩ := fit_nil.made
  exact ⟨s, hrun, (main_inRegions_iff hrun).mpr ⟨by decide, by decide⟩⟩

def zeroChunk : Chunk where
  bytes := List.replicate bsize 0
  pos := by rw [List.length_replicate]; decide
  small := by rw [List.length_replicate]

def largest (name : UInt8) : Input := ⟨[name], some (List.replicate maxfile zeroChunk)⟩

theorem length_largest (name : UInt8) : (largest name).content.length = maxfile * bsize := by
  simp [largest, zeroChunk, Input.content, contentOf, length_flatMap]

def seven : List Input := [97, 98, 99, 100, 101, 102, 103].map largest

/-- They need 988 blocks, of which the last 23 are blocks of the log. -/
theorem main_overruns_log : ∃ s, main seven start = .ok () s ∧ size - nlog ∈ s.blocks ∧ ¬InRegions s := by
  have hneeded : blocksNeeded seven = 988 := by
    have hmap : seven.map (fun a => fileBlocks a.content.length) = replicate 7 (fileBlocks (maxfile * bsize)) := by
      simp only [seven, map_cons, map_nil, length_largest]
      rfl
    rw [blocksNeeded, hmap]
    decide
  have hfits : Fits (firstData + 1) (2 * direntSize) seven := by
    refine fits_of_le (fun a ha => ?_) (fun a ha => ?_) (fun a ha => ?_) (by decide) ?_
    · obtain ⟨name, hname, rfl⟩ := mem_map.mp ha
      change slash ∉ [name]
      simp only [mem_cons, not_mem_nil, or_false] at hname
      obtain rfl | rfl | rfl | rfl | rfl | rfl | rfl := hname <;> decide
    · obtain ⟨name, -, rfl⟩ := mem_map.mp ha
      exact nofun
    · obtain ⟨name, -, rfl⟩ := mem_map.mp ha
      exact Nat.le_of_eq (length_largest name)
    · rw [hneeded]
      decide
  have hfew : seven.length + 1 < ninodes := by decide
  obtain ⟨_, s, hrun, root, rest, hmade⟩ := ((main_spec hfew).stop fun _ _ he => he hfits).exists_ok
  have hfree : s.freeblock = firstData + 988 := by rw [hmade.count, hneeded]
  have hmem : size - nlog ∈ s.blocks := hmade.mem_blocks.mpr (by rw [hfree]; decide)
  exact ⟨s, hrun, hmem, fun hin => absurd (hin.blocks _ hmem).2 (by decide)⟩

/-! ### Holes -/

def blockOf (image : Nat → Block) (i n : Nat) : Nat :=
  let d := dinodeAt image i
  if n < ndirect then d.addrs n
  else if d.addrs ndirect = 0 then 0
  else (image (d.addrs ndirect)).word 4 (4 * (n - ndirect))

/-- Inode `i` has the blocks of its size, and no others. -/
def Whole (image : Nat → Block) (i : Nat) : Prop :=
  (∀ n < maxfile, blockOf image i n ≠ 0 ↔ n < dataBlocks (dinodeAt image i).size) ∧
    ((dinodeAt image i).addrs ndirect ≠ 0 → ndirect < dataBlocks (dinodeAt image i).size)

def NoHoles (image : Nat → Block) : Prop := ∀ i < ninodes, Whole image i

theorem blockOf_eq (h : f.Stored s) (haddrs : ∀ k ≤ ndirect, (dinodeAt s.image i).addrs k = f.dinode.addrs k)
    (hn : n < maxfile) : blockOf s.image i n = f.data.getD n 0 := by
  have hindirect : (dinodeAt s.image i).addrs ndirect = f.indirect := haddrs ndirect (Nat.le_refl _)
  unfold blockOf
  dsimp only
  by_cases hdirect : n < ndirect
  · rw [if_pos hdirect, haddrs n (Nat.le_of_lt hdirect)]
    exact if_neg (Nat.ne_of_lt hdirect)
  · rw [if_neg hdirect, hindirect]
    by_cases hzero : f.indirect = 0
    · have hfew := h.indirect hzero
      rw [if_pos hzero, getD_eq_default _ _ (by omega)]
    · have hj : n - ndirect < nindirect := by
        simp only [maxfile] at hn
        omega
      rw [if_neg hzero, h.table hzero _ hj, Nat.add_sub_of_le (Nat.le_of_not_lt hdirect)]

theorem whole_iff (h : f.Stored s) (hfull : f.Full)
    (haddrs : ∀ k ≤ ndirect, (dinodeAt s.image i).addrs k = f.dinode.addrs k)
    (hsize : dataBlocks (dinodeAt s.image i).size ≤ maxfile)
    (hlarge : f.data.length ≤ dataBlocks (dinodeAt s.image i).size) :
    Whole s.image i ↔ dataBlocks (dinodeAt s.image i).size = f.data.length := by
  have hblock : ∀ n < maxfile, blockOf s.image i n ≠ 0 ↔ n < f.data.length := by
    intro n hn
    rw [blockOf_eq h haddrs hn]
    by_cases hlt : n < f.data.length
    · exact iff_of_true (h.getD_ne_zero hlt) hlt
    · exact iff_of_false (fun hne => hne (getD_eq_default _ _ (Nat.le_of_not_lt hlt))) hlt
  constructor
  · intro hwhole
    refine Nat.le_antisymm (Nat.le_of_not_lt fun hlt => ?_) hlarge
    have hn := hwhole.1 f.data.length (by omega)
    rw [hblock _ (by omega)] at hn
    exact Nat.lt_irrefl _ (hn.mpr hlt)
  · intro heq
    refine ⟨fun n hn => by rw [hblock n hn, heq], fun hne => ?_⟩
    rw [heq]
    apply hfull.indirect
    rwa [haddrs ndirect (Nat.le_refl _)] at hne

theorem whole_zero (h : (dinodeAt s.image i).Agrees (.fresh 0)) : Whole s.image i := by
  have hsize : dataBlocks (dinodeAt s.image i).size = 0 := by
    rw [h.size]
    decide
  rw [Whole, hsize]
  refine ⟨fun n hn => iff_of_false (fun hne => hne ?_) (Nat.not_lt_zero n), fun hne => absurd (h.addrs _ (Nat.le_refl _)) hne⟩
  unfold blockOf
  dsimp only
  split
  · rename_i hdirect
    exact h.addrs n (Nat.le_of_lt hdirect)
  · exact if_pos (h.addrs ndirect (Nat.le_refl _))

theorem Made.noHoles_iff (h : Made args s root rest) (hfew : args.length + 1 < ninodes) :
    NoHoles s.image ↔ (args.length + 2) % (bsize / direntSize) ≠ 0 := by
  have hlen : rest.length = args.length := by
    have hmap := congrArg length h.bytes
    rwa [length_map, length_map] at hmap
  have hrootLen : root.bytes.length = direntSize * (args.length + 2) := by
    rw [h.rootBytes, length_append, length_append, Dirent.length_bytes, Dirent.length_bytes, length_rootEntries]
    simp only [direntSize]
    omega
  have hfull := h.full root mem_cons_self
  have hsize : (dinodeAt s.image rootino).size = (root.bytes.length / bsize + 1) * bsize := h.rootInode.size
  have hblocks : dataBlocks (dinodeAt s.image rootino).size = root.bytes.length / bsize + 1 := by
    rw [hsize]
    simp only [dataBlocks, bsize]
    omega
  have hroot : Whole s.image rootino ↔ (args.length + 2) % (bsize / direntSize) ≠ 0 := by
    rw [whole_iff (h.stored root mem_cons_self) hfull h.rootInode.addrs, hblocks, hfull.length, hrootLen]
    · simp only [dataBlocks, bsize, direntSize]
      omega
    · rw [hblocks, hrootLen]
      simp only [maxfile, ndirect, nindirect, bsize, direntSize, ninodes] at hfew ⊢
      omega
    · rw [hblocks, hfull.length]
      simp only [dataBlocks, bsize]
      omega
  rw [← hroot]
  refine ⟨fun hall => hall rootino (by decide), fun hwhole i hi => ?_⟩
  by_cases hone : i = rootino
  · rw [hone]
    exact hwhole
  by_cases hin : i = 0 ∨ rest.length + 1 < i
  · exact whole_zero (h.unused i hi hin)
  -- A file: its inode has its length.
  obtain ⟨j, rfl⟩ : ∃ j, i = j + 2 := ⟨i - 2, by simp only [rootino] at hone; omega⟩
  have hlt : j < rest.length := by omega
  have hf : rest[j]? = some rest[j] := getElem?_eq_getElem hlt
  have hmem : rest[j] ∈ root :: rest := mem_cons_of_mem _ (getElem_mem hlt)
  have hinode := h.inode j _ hf
  have hjfull := h.full _ hmem
  have hjsize : (dinodeAt s.image (j + 2)).size = rest[j].bytes.length := hinode.size
  rw [whole_iff (h.stored _ hmem) hjfull hinode.addrs, hjsize, hjfull.length]
  · have hsmall := hjfull.small
    rw [hjsize]
    simp only [dataBlocks, bsize] at hsmall ⊢
    omega
  · rw [hjsize, hjfull.length]

/-- The files that fit have no holes exactly if the root directory does not end with a block. -/
theorem main_noHoles_iff (h : Fit args) :
    ∃ s, main args start = .ok () s ∧ (NoHoles s.image ↔ (args.length + 2) % (bsize / direntSize) ≠ 0) := by
  obtain ⟨s, root, rest, hrun, hmade⟩ := h.made
  exact ⟨s, hrun, hmade.noHoles_iff h.few⟩

theorem main_noHoles_iff_nil : Fit [] ∧ ∃ s, main [] start = .ok () s ∧ NoHoles s.image := by
  obtain ⟨s, hrun, hiff⟩ := main_noHoles_iff fit_nil
  exact ⟨fit_nil, s, hrun, hiff.mpr (by decide)⟩

def thirty : List Input := (List.range 30).map fun i => ⟨[UInt8.ofNat (97 + i)], some []⟩

theorem fit_thirty : Fit thirty := by
  refine ⟨by decide, fun a ha => ?_, fun a ha => ?_, by decide, by decide⟩
  · obtain ⟨i, -, rfl⟩ := mem_map.mp ha
    exact nofun
  · obtain ⟨i, -, rfl⟩ := mem_map.mp ha
    exact Nat.zero_le _

/-- The root directory for thirty empty files has one block, and a size of two. -/
theorem main_root_hole : ∃ s, main thirty start = .ok () s ∧ (dinodeAt s.image rootino).size = 2 * bsize ∧
    blockOf s.image rootino 1 = 0 ∧ ¬NoHoles s.image := by
  obtain ⟨s, root, rest, hrun, hmade⟩ := fit_thirty.made
  have hfull := hmade.full root mem_cons_self
  have hrootLen : root.bytes.length = 512 := by
    rw [hmade.rootBytes, length_append, length_append, Dirent.length_bytes, Dirent.length_bytes,
      length_rootEntries]
    rfl
  have hlen : root.data.length = 1 := by
    rw [hfull.length, hrootLen]
    decide
  refine ⟨s, hrun, ?_, ?_, fun hno => (hmade.noHoles_iff fit_thirty.few).mp hno rfl⟩
  · rw [hmade.rootInode.size, hrootLen]
    rfl
  · rw [blockOf_eq (hmade.stored root mem_cons_self) hmade.rootInode.addrs (by decide),
      getD_eq_default _ _ (Nat.le_of_eq hlen)]

end RainOS.Mkfs
