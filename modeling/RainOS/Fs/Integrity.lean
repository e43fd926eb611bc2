import RainOS.Fs.Run

/-!
# What the file system keeps and what it loses

Two properties of whole runs. `iunlock` clears the flag that `iput` looks at before it frees an inode,
so no inode is ever freed, whatever the disk and the calls are. And `balloc` gives out blocks of the
log once the data region is full, which destroys inodes; as long as it does not, no two entries of the
inodes in use are the same block.
-/

namespace RainOS.Fs

open BlockStore Function

variable {sb : Superblock} {disk : Nat → Block} {k : Kernel} {c : IputCall}

/-- Eight inodes, `data` data blocks and a log of twenty blocks. -/
def smallSb (data : Nat) : Superblock := ⟨25 + data, data, 8, 20⟩

def direntsBlock (entries : List Dirent) : Block :=
  Bytes.copyIn (fun _ => 0) 0 (direntSize * entries.length) fun i => (entries.flatMap Dirent.bytes).getD i 0

def smallDisk (data : Nat) : Nat → Block
  | 1 => putSuperblock (fun _ => 0) (smallSb data)
  | 2 => putDinode (fun _ => 0) rootino
      ⟨tDir, 0, 0, 1, 2 * direntSize, fun k => if k = 0 then (smallSb data).firstData else 0⟩
  | 4 => Bytes.setWord (fun _ => 0) 1 0 0x3f
  | 5 => direntsBlock [⟨rootino, [46]⟩, ⟨rootino, [46, 46]⟩]
  | _ => fun _ => 0

theorem smallDisk_type : ∀ data ∈ [1, 2], ∀ i < 8, i ≠ rootino → (dinodeAt (smallDisk data) i).type = 0 := by
  decide +kernel

theorem smallDisk_root : ∀ data ∈ [1, 2], ∀ n < entryCount,
    entry (dinodeAt (smallDisk data)) (smallDisk data) rootino n = if n = 0 then 5 else 0 := by
  decide +kernel

theorem smallDisk_bitmap : ∀ data ∈ [1, 2], ∀ b < 6, used (smallSb data) (smallDisk data) b = true := by
  decide +kernel

theorem smallDisk_dirents : ∀ data ∈ [1, 2], DirBlock (smallSb data) (smallDisk data 5) := by
  intro data hdata e he
  exact (by decide +kernel : ∀ data ∈ [1, 2], ∀ e < 32, (smallDisk data 5).word 2 (direntSize * e) < 8)
    data hdata e he

theorem smallDisk_blocks : ∀ data ∈ [1, 2], getSuperblock (smallDisk data 1) = smallSb data ∧
    headCount (smallDisk data (smallSb data).logStart) = 0 := by
  decide +kernel

theorem smallSb_regions : ∀ data ∈ [1, 2], (smallSb data).firstData = 5 ∧ 5 < (smallSb data).logStart ∧
    (smallSb data).size ≤ 2 ^ 28 := by
  decide

theorem smallDisk_consistent {data : Nat} (hdata : data ∈ [1, 2]) :
    Consistent (smallSb data) (smallDisk data) := by
  obtain ⟨hfirst, hlog, hsize⟩ := smallSb_regions data hdata
  have hroot : ∀ {i n}, Alloc (smallSb data) (dinodeAt (smallDisk data)) i → n < entryCount →
      entry (dinodeAt (smallDisk data)) (smallDisk data) i n ≠ 0 → i = rootino ∧ n = 0 := by
    intro i n hi hn hne
    have hi' : i = rootino := by
      by_contra h
      exact hi.2 (smallDisk_type data hdata i hi.1 h)
    rw [hi', smallDisk_root data hdata n hn] at hne
    exact ⟨hi', (ite_ne_right_iff.mp hne).1⟩
  refine ⟨⟨(by decide : 1 < 8), hfirst ▸ hlog.le, hsize⟩, ⟨(smallDisk_blocks data hdata).1, ?_,
    fun i hi => ⟨rfl, fun _ _ => .inl rfl⟩, ?_, ?_, ?_⟩, (smallDisk_blocks data hdata).2⟩
  · intro b hb
    exact smallDisk_bitmap data hdata b (by omega)
  · intro i n i' n' hi hi' hn hn' hne heq
    obtain ⟨rfl, rfl⟩ := hroot hi hn hne
    obtain ⟨rfl, rfl⟩ := hroot hi' hn' (heq ▸ hne)
    exact ⟨rfl, rfl⟩
  · intro i n hi hn hne
    obtain ⟨rfl, rfl⟩ := hroot hi hn hne
    rw [smallDisk_root data hdata 0 hn, if_pos rfl, hfirst]
    exact ⟨le_rfl, hlog, smallDisk_bitmap data hdata 5 (by omega)⟩
  · intro i n hi _ hn _ hne
    obtain ⟨rfl, rfl⟩ := hroot hi hn hne
    rw [smallDisk_root data hdata 0 hn, if_pos rfl]
    exact smallDisk_dirents data hdata

/-- The call dropped the last reference to an inode in use that no directory names. -/
def IputCall.Last (c : IputCall) : Prop :=
  c.ref = 1 ∧ (dinodeAt c.before c.inum).type ≠ 0 ∧ (dinodeAt c.before c.inum).nlink = 0

/-- The inode is free, and exactly its blocks have been freed. -/
def IputCall.Reclaims (sb : Superblock) (c : IputCall) : Prop :=
  (dinodeAt c.after c.inum).type = 0 ∧ ∀ b < sb.size, used sb c.after b = true ↔
    used sb c.before b = true ∧ ∀ n < entryCount, entry (dinodeAt c.before) c.before c.inum n ≠ b

instance (c : IputCall) : Decidable c.Last :=
  inferInstanceAs (Decidable (c.ref = 1 ∧ (dinodeAt c.before c.inum).type ≠ 0 ∧
    (dinodeAt c.before c.inum).nlink = 0))

/-- On no disk and in no run does `iput` free anything. -/
theorem iput_never_reclaims (hk : (system disk).Reachable k) (hc : c ∈ k.state.iputs) (hlast : c.Last) :
    c.after = c.before ∧ ¬ c.Reclaims sb := by
  have hgeo : Geometry (smallSb 1) := (smallDisk_consistent (by decide)).geometry
  have hsame : c.after = c.before := (good_of_reachable False hgeo False.elim hk).always.iputs c hc
  refine ⟨hsame, fun hfreed => hlast.2.1 ?_⟩
  rw [← hsame]
  exact hfreed.1

def unlinkRun : List Action :=
  [.call initproc (.open [97] (oCreate ||| oRdwr)), .call initproc (.write 0 [1]),
    .call initproc (.unlink [97]), .call initproc (.close ⟨0, by decide⟩)]

theorem iput_never_reclaims_unlinked : ∃ k, (system (smallDisk 2)).Reachable k ∧
    ∃ c ∈ k.state.iputs, c.Last ∧ c.after = c.before ∧ ¬ c.Reclaims (smallSb 2) := by
  obtain ⟨k, hk, htest⟩ := System.exists_reachable_of_follow (fun _ _ => True) step
    (after boot (powerOn (smallDisk 2))) unlinkRun (fun k => k.state.iputs.any fun c => decide c.Last)
    (by decide +kernel)
  obtain ⟨c, hc, hlast⟩ := List.any_eq_true.mp htest
  exact ⟨k, hk.of_restrict, c, hc, of_decide_eq_true hlast,
    iput_never_reclaims hk.of_restrict hc (of_decide_eq_true hlast)⟩

/-- The inode and the block of the file are still taken in the end. -/
theorem unlinked_file_keeps_block : ∃ k, (system (smallDisk 2)).Reachable k ∧ k.halt = none ∧
    (∃ c ∈ k.state.iputs, c.Last ∧ (dinodeAt c.after c.inum).type ≠ 0) ∧
    (dinodeAt (smallDisk 2) 2).type = 0 ∧ used (smallSb 2) (smallDisk 2) 6 = false ∧
    (dinodeAt k.state.blk 2).type = tFile ∧ (dinodeAt k.state.blk 2).nlink = 0 ∧
    used (smallSb 2) k.state.blk 6 = true := by
  obtain ⟨k, hk, htest⟩ := System.exists_reachable_of_follow (fun _ _ => True) step
    (after boot (powerOn (smallDisk 2))) unlinkRun
    (fun k => decide (k.halt = none ∧
      (∃ c ∈ k.state.iputs, c.Last ∧ (dinodeAt c.after c.inum).type ≠ 0) ∧
      (dinodeAt k.state.blk 2).type = tFile ∧ (dinodeAt k.state.blk 2).nlink = 0 ∧
      used (smallSb 2) k.state.blk 6 = true))
    (by decide +kernel)
  obtain ⟨hhalt, hlast, hend⟩ := of_decide_eq_true htest
  exact ⟨k, hk.of_restrict, hhalt, hlast, by decide +kernel, by decide +kernel, hend⟩

/-- On disk, the entries of all inodes in use are different blocks, marked as used, behind the
bitmap. -/
def Exclusive (sb : Superblock) (blk : Nat → Block) : Prop :=
  Distinct sb (dinodeAt blk) blk ∧ ∀ i n, Alloc sb (dinodeAt blk) i → n < entryCount →
    entry (dinodeAt blk) blk i n ≠ 0 → used sb blk (entry (dinodeAt blk) blk i n) = true ∧
      sb.firstData ≤ entry (dinodeAt blk) blk i n

instance (sb : Superblock) (c : BallocCall) : Decidable (c.Met sb) :=
  inferInstanceAs (Decidable ((∃ b < sb.logStart, used sb c.before b = false) ∨
    ∀ b < sb.size, used sb c.before b = true))

theorem Idle.exclusive {s : State} (hgeo : Geometry sb) (h : Idle sb s) : Exclusive sb s.blk := by
  obtain ⟨_, _, A, hsound⟩ := h
  have hdisk : DiskSound sb (dinodeAt s.blk) s.blk := hsound.disk.forget hgeo fun _ _ => .inr rfl
  refine ⟨hdisk.distinct, fun i n hi hn hne => ?_⟩
  obtain ⟨habove, -, hused⟩ := hdisk.inData i n hi hn hne
  exact ⟨hused, habove⟩

theorem block_map_exclusive (hdisk : Consistent sb disk) (hk : (system disk).Reachable k)
    (hmet : ∀ c ∈ k.state.ballocs, c.Met sb) :
    (k.halt = none → Exclusive sb k.state.blk) ∧ k.halt ≠ some (.panic "freeing free block") := by
  have hgood := good_of_reachable True hdisk.geometry (fun _ => hdisk) hk
  refine ⟨fun hrunning => (hgood.idle hrunning ⟨trivial, hmet⟩).exclusive hdisk.geometry, fun hhalt => ?_⟩
  exact hgood.tame _ hhalt rfl

theorem block_map_exclusive_small : ∃ k, (system (smallDisk 2)).Reachable k ∧ k.state.ballocs ≠ [] ∧
    k.halt = none ∧ Exclusive (smallSb 2) k.state.blk := by
  obtain ⟨k, hk, htest⟩ := System.exists_reachable_of_follow (fun _ _ => True) step
    (after boot (powerOn (smallDisk 2))) unlinkRun
    (fun k => decide (k.state.ballocs.length ≠ 0 ∧ k.halt = none ∧ ∀ c ∈ k.state.ballocs, c.Met (smallSb 2)))
    (by decide +kernel)
  obtain ⟨hlength, hhalt, hmet⟩ := of_decide_eq_true htest
  exact ⟨k, hk.of_restrict, fun h => hlength (h ▸ rfl), hhalt,
    (block_map_exclusive (smallDisk_consistent (by decide)) hk.of_restrict hmet).1 hhalt⟩

/-- A file is written when the only data block is the root directory's. -/
def fullRun : List Action :=
  [.call initproc (.open [97] (oCreate ||| oRdwr)), .call initproc (.write 0 (List.replicate 1025 1)),
    .call initproc (.write 0 [1])]

/-- The file has the first three blocks of the log. The commit of the second write copies its last
block over the block of inodes. -/
theorem block_map_not_exclusive : Consistent (smallSb 1) (smallDisk 1) ∧
    ∃ k, (system (smallDisk 1)).Reachable k ∧ k.halt = none ∧ ¬ Exclusive (smallSb 1) k.state.blk := by
  refine ⟨smallDisk_consistent (by decide), ?_⟩
  obtain ⟨k, hk, htest⟩ := System.exists_reachable_of_follow (fun _ _ => True) step
    (after boot (powerOn (smallDisk 1))) fullRun
    (fun k => decide (k.halt = none ∧ (dinodeAt k.state.blk 2).type ≠ 0 ∧
      (dinodeAt k.state.blk 2).addrs 0 ≠ 0 ∧
      (dinodeAt k.state.blk 2).addrs 0 = (dinodeAt k.state.blk 2).addrs 1))
    (by decide +kernel)
  obtain ⟨hhalt, htype, hne, heq⟩ := of_decide_eq_true htest
  have halloc : Alloc (smallSb 1) (dinodeAt k.state.blk) 2 := ⟨by decide, htype⟩
  refine ⟨k, hk.of_restrict, hhalt, fun hexclusive => ?_⟩
  exact absurd (hexclusive.1 2 0 2 1 halloc halloc (by decide) (by decide) hne heq).2 (by decide)

/-- No inode is locked. An inode that a file or a current directory refers to is in the cache once, with all these
references counted, and what is open for writing is no directory. -/
structure AtRest (sb : Superblock) (s : State) : Prop where
  unlocked : ∀ ip, (s.icache ip).busy = false ∧ (s.icache ip).valid = false
  refs : ∀ ip, ((tally (File.Holds ip) s.ftable + tally (· = some ip) fun p => (s.procs p).cwd : Nat) : Int) ≤
    (s.icache ip).ref
  once : ∀ ip ip', 0 < (s.icache ip).ref → 0 < (s.icache ip').ref → (s.icache ip).inum = (s.icache ip').inum → ip = ip'
  inRange : ∀ ip, 0 < (s.icache ip).ref → (s.icache ip).inum < sb.ninodes
  written : ∀ f, (s.ftable f).type = .inode → (s.ftable f).writable = true →
    NotDir (dinodeAt s.blk) (s.icache (s.ftable f).ip).inum

theorem calls_leave_rest (hdisk : Consistent sb disk) (hk : (system disk).Reachable k)
    (hmet : ∀ c ∈ k.state.ballocs, c.Met sb) (hrunning : k.halt = none) : AtRest sb k.state := by
  have hgood := good_of_reachable True hdisk.geometry (fun _ => hdisk) hk
  obtain ⟨cwds, files, A, h⟩ := hgood.idle hrunning ⟨trivial, hmet⟩
  have hfiles : k.state.ftable = files := h.files
  have hcwds : (fun p => (k.state.procs p).cwd) = cwds := funext h.procs
  have hrefs : ∀ ip, ((tally (File.Holds ip) files + tally (· = some ip) cwds : Nat) : Int) ≤ (k.state.icache ip).ref := by
    intro ip
    have hle := h.cache.refs ip
    rwa [holders, Multiset.count_zero, Nat.add_zero] at hle
  refine ⟨fun ip => ⟨?_, ?_⟩, fun ip => ?_, h.cache.single, h.cache.inRange, fun f htype hwrite => ?_⟩
  · exact Bool.eq_false_iff.mpr fun hbusy => Multiset.notMem_zero ip ((h.cache.busy ip).mp hbusy)
  · exact Bool.eq_false_iff.mpr fun hvalid => Multiset.notMem_zero ip ((h.cache.valid ip).mp hvalid)
  · rw [hfiles, hcwds]
    exact hrefs ip
  · rw [hfiles] at htype hwrite ⊢
    have hpos : 0 < tally (File.Holds (files f).ip) files := tally_pos (i := f) ⟨htype, rfl⟩
    have hin := h.cache.inRange (files f).ip (by have := hrefs (files f).ip; omega)
    rw [NotDir, (h.disk.stored _ hin).1]
    exact h.cache.files f htype hwrite

theorem calls_leave_rest_small : ∃ k, (system (smallDisk 2)).Reachable k ∧ k.state.ballocs ≠ [] ∧
    AtRest (smallSb 2) k.state := by
  obtain ⟨k, hk, htest⟩ := System.exists_reachable_of_follow (fun _ _ => True) step
    (after boot (powerOn (smallDisk 2))) unlinkRun
    (fun k => decide (k.state.ballocs.length ≠ 0 ∧ k.halt = none ∧ ∀ c ∈ k.state.ballocs, c.Met (smallSb 2)))
    (by decide +kernel)
  obtain ⟨hlength, hhalt, hmet⟩ := of_decide_eq_true htest
  exact ⟨k, hk.of_restrict, fun h => hlength (h ▸ rfl),
    calls_leave_rest (smallDisk_consistent (by decide)) hk.of_restrict hmet hhalt⟩

end RainOS.Fs
