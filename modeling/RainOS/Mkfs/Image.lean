import RainOS.Mkfs.Append

/-!
# The image that mkfs writes

The files of the image while `mkfs` runs, root first: their blocks are different, their inodes describe them, and the
blocks handed out so far are the ones they have. The limits of the regions are not checked: with too many files inode
numbers go past `ninodes`, with too much data blocks go into the log, which is the condition under which `mkfs` stays in
its regions. At the end the size of the root directory is rounded up to whole blocks, a block too many if it was one.
-/

namespace RainOS.Mkfs

open Fs Function List

variable {s s' : Host} {files rest : List Node} {f f' g root : Node} {b i j n free free' type a len more more' : Nat}
  {p : List UInt8} {args : List Input} {d : Dinode}

/-! ### The files -/

/-- Where a sector is written, when the blocks below `free` have been handed out. -/
def Kind.Within (free : Nat) (w : Kind × Nat) : Prop :=
  match w.1 with
  | .zero => w.2 < size
  | .super => w.2 = 1
  | .inode => 2 ≤ w.2 ∧ w.2 ≤ i2b (ninodes - 1)
  | .data => firstData ≤ w.2 ∧ w.2 < free
  | .bitmap => w.2 = ninodes / ipb + 3

theorem Kind.Within.mono {w : Kind × Nat} (h : Kind.Within free w) (hle : free ≤ free') :
    Kind.Within free' w := by
  obtain ⟨kind, x⟩ := w
  cases kind with
  | data => exact ⟨h.1, Nat.lt_of_lt_of_le h.2 hle⟩
  | zero => exact h
  | super => exact h
  | inode => exact h
  | bitmap => exact h

structure Good (s : Host) (files : List Node) : Prop where
  tidy : Tidy s
  bound : s.freeblock ≤ size
  few : files.length < ninodes
  stored : ∀ f ∈ files, f.Stored s
  full : ∀ f ∈ files, f.Full
  type : ∀ f ∈ files, f.type < 2 ^ 16
  apart : ∀ (i j : Nat) (f g : Node), files[i]? = some f → files[j]? = some g → i ≠ j → ∀ b ∈ f.blocks, b ∉ g.blocks
  inode : ∀ (i : Nat) (f : Node), files[i]? = some f → (dinodeAt s.image (i + 1)).Agrees f.dinode
  unused : ∀ i < ninodes, i = 0 ∨ files.length < i → (dinodeAt s.image i).Agrees (.fresh 0)
  count : s.freeblock = firstData + (files.map fun f => fileBlocks f.bytes.length).sum
  blocks : s.blocks = List.range' firstData (s.freeblock - firstData)
  inodes : s.inodes = List.range' 1 files.length
  freeinode : s.freeinode = files.length + 1
  writes : ∀ w ∈ s.writes, Kind.Within s.freeblock w
  super : getSuperblock (s.image 1) = superblock

theorem i2b_lt (hi : i < ninodes) : i2b i < firstData := by
  have hlt : iblock i < superblock.firstData := iblock_lt_firstData hi
  exact hlt

theorem firstData_lt : firstData < size := by decide

def Host.putInode (s : Host) (i : Nat) (d : Dinode) : Host := s.put .inode (i2b i) (putDinode (s.image (i2b i)) i d)

theorem winode_run (h : Tidy s) (hi : i < ninodes) (d : Dinode) : winode i d s = .ok () (s.putInode i d) := by
  have hlt : i2b i < s.sectors := by
    rw [h.sectors]
    exact Nat.lt_trans (i2b_lt hi) firstData_lt
  unfold winode
  rw [bind_ok _ (rsect_run hlt), wsect_run _ _ hlt]
  rfl

theorem rinode_run (h : Tidy s) (hi : i < ninodes) : rinode i s = .ok (dinodeAt s.image i) s := by
  have hlt : i2b i < s.sectors := by
    rw [h.sectors]
    exact Nat.lt_trans (i2b_lt hi) firstData_lt
  unfold rinode
  rw [bind_ok _ (rsect_run hlt)]
  rfl

theorem Tidy.putInode (h : Tidy s) (hi : i < ninodes) (d : Dinode) : Tidy (s.putInode i d) :=
  h.put (Nat.lt_of_lt_of_le (i2b_lt hi) h.above)

theorem Node.Stored.putInode (h : f.Stored s) (hi : i < ninodes) (d : Dinode) : f.Stored (s.putInode i d) := by
  refine h.congr (Nat.le_refl _) fun b hb => Host.put_of_ne ?_
  have hlt := i2b_lt hi
  have hrange := h.range b hb
  omega

theorem inode_within (hi : i < ninodes) : Kind.Within free (.inode, i2b i) := by
  change 2 ≤ i2b i ∧ i2b i ≤ i2b (ninodes - 1)
  simp only [i2b, ninodes, ipb] at hi ⊢
  omega

theorem writes_putInode (h : ∀ w ∈ s.writes, Kind.Within s.freeblock w) (hi : i < ninodes) (d : Dinode) :
    ∀ w ∈ (s.putInode i d).writes, Kind.Within s.freeblock w := by
  refine forall_mem_append.mpr ⟨h, ?_⟩
  exact forall_mem_singleton.mpr (inode_within hi)

theorem super_putInode (i : Nat) (d : Dinode) : (s.putInode i d).image 1 = s.image 1 :=
  Host.put_of_ne (iblock_ne_one i).symm

theorem dinodeAt_putInode_of_ne (h : j ≠ i) (d : Dinode) :
    (dinodeAt (s.putInode i d).image j).Agrees (dinodeAt s.image j) := dinodeAt_put_of_ne s.image h d

theorem dinodeAt_putInode (i : Nat) (h : d.Fits) : (dinodeAt (s.putInode i d).image i).Agrees d := by
  change (getDinode ((s.putInode i d).image (i2b i)) i).Agrees d
  unfold Host.putInode
  rw [Host.put_self]
  exact getDinode_putDinode _ i h

/-! ### A new inode -/

def Node.empty (type : Nat) : Node := ⟨type, [], [], 0⟩

theorem Node.empty_dinode (type : Nat) : (newDinode type).Agrees (Node.empty type).dinode := by
  refine ⟨rfl, rfl, rfl, rfl, rfl, fun k _ => ?_⟩
  change 0 = if k = ndirect then 0 else ([] : List Nat).getD k 0
  rw [getD_nil, ite_self]

theorem Node.empty_stored (type : Nat) (s : Host) : (Node.empty type).Stored s where
  range _ hb := nomatch hb
  nodup := nodup_nil
  indirect _ := Nat.zero_le _
  table hne := absurd rfl hne
  content _ hj := nomatch hj

theorem Node.empty_full (type : Nat) : (Node.empty type).Full := ⟨show 0 = dataBlocks 0 by decide, fun hne => absurd rfl hne, Nat.zero_le _⟩

theorem getElem?_snoc (h : (files ++ [f])[i]? = some g) : files[i]? = some g ∨ i = files.length ∧ g = f := by
  obtain hlt | heq | hgt := Nat.lt_trichotomy i files.length
  · rw [getElem?_append_left hlt] at h
    exact .inl h
  · subst heq
    rw [getElem?_concat_length] at h
    exact .inr ⟨rfl, (Option.some.inj h).symm⟩
  · rw [getElem?_eq_none (by rw [length_append, length_singleton]; omega)] at h
    cases h

def Host.takeInode (s : Host) : Host := { s with freeinode := s.freeinode + 1, inodes := s.inodes ++ [s.freeinode] }

theorem takeInode_run (s : Host) :
    (modify fun t => { t with freeinode := s.freeinode + 1, inodes := t.inodes ++ [s.freeinode] } : M Unit) s =
      .ok () s.takeInode := rfl

theorem ialloc_spec (h : Good s files) (hroom : files.length + 1 < ninodes) (htype : type < 2 ^ 16) :
    Ends (ialloc type) s (fun inum s' => inum = files.length + 1 ∧ Good s' (files ++ [.empty type])) fun _ _ => False := by
  have htidy : Tidy s.takeInode := ⟨h.tidy.sectors, h.tidy.used, h.tidy.above, h.tidy.zero⟩
  have hi : s.freeinode < ninodes := by
    rw [h.freeinode]
    exact hroom
  have hstored : ∀ f ∈ files, f.Stored s.takeInode := fun f hf => (h.stored f hf).congr (Nat.le_refl _) fun _ _ => rfl
  have hfits : (newDinode type).Fits :=
    ⟨htype, Nat.two_pow_pos 16, Nat.two_pow_pos 16, Nat.one_lt_two_pow (by decide), Nat.two_pow_pos 32,
      fun _ _ => Nat.two_pow_pos 32⟩
  have hself := (dinodeAt_putInode (s := s.takeInode) s.freeinode hfits).trans (Node.empty_dinode type)
  unfold ialloc
  refine .after_ok (get_run s) (.after_ok (takeInode_run s) (.after_ok (winode_run htidy hi _) (.pure ?_)))
  rw [h.freeinode] at hi hself ⊢
  refine ⟨rfl, htidy.putInode hi (newDinode type), h.bound, ?_, ?_, ?_, ?_, ?_, fun i f hf => ?_,
    fun i hin hi' => ?_, ?_, h.blocks, ?_, ?_, writes_putInode (s := s.takeInode) h.writes hi (newDinode type), ?_⟩
  · rw [length_append]
    exact hroom
  · refine forall_mem_append.mpr ⟨fun f hf => (hstored f hf).putInode hi _, ?_⟩
    exact forall_mem_singleton.mpr (Node.empty_stored ..)
  · exact forall_mem_append.mpr ⟨h.full, forall_mem_singleton.mpr (Node.empty_full type)⟩
  · exact forall_mem_append.mpr ⟨h.type, forall_mem_singleton.mpr htype⟩
  · intro i j f g hf hg hne b hb hb'
    obtain hf | ⟨rfl, rfl⟩ := getElem?_snoc hf
    · obtain hg | ⟨rfl, rfl⟩ := getElem?_snoc hg
      · exact h.apart i j f g hf hg hne b hb hb'
      · cases hb'
    · cases hb
  · obtain hf | ⟨rfl, rfl⟩ := getElem?_snoc hf
    · have hlt := (List.getElem?_eq_some_iff.mp hf).1
      exact (dinodeAt_putInode_of_ne (by omega) _).trans (h.inode i f hf)
    · exact hself
  · rw [length_append, length_singleton] at hi'
    exact (dinodeAt_putInode_of_ne (by omega) _).trans (h.unused i hin (by omega))
  · change s.freeblock = _
    have hzero : fileBlocks 0 = 0 := by decide
    rw [map_append, sum_append, h.count]
    change _ = firstData + (_ + (fileBlocks 0 + 0))
    rw [hzero]
    rfl
  · change s.inodes ++ [s.freeinode] = _
    rw [h.inodes, h.freeinode, length_append, length_singleton, ← range'_append_1, Nat.add_comm 1]
    rfl
  · change s.freeinode + 1 = _
    rw [h.freeinode, length_append, length_singleton]
  · rw [super_putInode]
    exact h.super

/-! ### Appending -/

theorem sum_set {l : List Nat} (h : l[i]? = some a) (b : Nat) : (l.set i b).sum + a = l.sum + b := by
  induction l generalizing i with
  | nil => cases h
  | cons c l ih =>
    cases i with
    | zero =>
      cases h
      simp only [set_cons_zero, sum_cons]
      omega
    | succ i =>
      have hrest := ih h
      simp only [set_cons_succ, sum_cons]
      omega

theorem sum_blocks_set (hf : files[i]? = some f) (f' : Node) :
    ((files.set i f').map fun f => fileBlocks f.bytes.length).sum + fileBlocks f.bytes.length =
      (files.map fun f => fileBlocks f.bytes.length).sum + fileBlocks f'.bytes.length := by
  rw [map_set]
  exact sum_set (by rw [getElem?_map, hf]; rfl) _

theorem getElem?_set_cases (h : (files.set i f)[j]? = some g) : j = i ∧ g = f ∨ j ≠ i ∧ files[j]? = some g := by
  rw [getElem?_set] at h
  split at h
  · rename_i heq
    split at h
    · exact .inl ⟨heq.symm, (Option.some.inj h).symm⟩
    · cases h
  · rename_i hne
    exact .inr ⟨fun heq => hne heq.symm, h⟩

theorem Good.append (h : Good s files) (hf : files[i]? = some f) (happ : Appended s f p s' f') (hd : d.Agrees f'.dinode) : Good (s'.putInode (i + 1) d) (files.set i f') := by
  have hg := happ.grown
  have hlt := (List.getElem?_eq_some_iff.mp hf).1
  have hmem : f ∈ files := mem_of_getElem? hf
  have hi : i + 1 < ninodes := Nat.lt_of_le_of_lt hlt h.few
  have htype : f'.type < 2 ^ 16 := by
    rw [hg.type]
    exact h.type f hmem
  have hsize : f'.bytes.length < 2 ^ 32 := Nat.lt_of_le_of_lt happ.full.small (by decide)
  have hfits := hg.stored.fits happ.bound htype hsize
  have hdfits : d.Fits := ⟨hd.type ▸ hfits.type, hd.major ▸ hfits.major, hd.minor ▸ hfits.minor, hd.nlink ▸ hfits.nlink,
    hd.size ▸ hfits.size, fun k hk => hd.addrs k hk ▸ hfits.addrs k hk⟩
  -- The sectors of the others are not the file's.
  have hapart : ∀ j g, files[j]? = some g → j ≠ i → ∀ b ∈ g.blocks, b ∉ f'.blocks := by
    intro j g hgj hne b hb hb'
    obtain hb' | ⟨hle, -⟩ := (hg.mem b).mp hb'
    · exact h.apart j i g f hgj hf hne b hb hb'
    · have hrange := (h.stored g (mem_of_getElem? hgj)).range b hb
      omega
  have hother : ∀ j g, files[j]? = some g → j ≠ i → g.Stored s' := fun j g hgj hne =>
    (h.stored g (mem_of_getElem? hgj)).congr hg.le fun b hb => hg.frame b (hapart j g hgj hne b hb)
  -- Nor are those of the inodes.
  have hlow : ∀ b < firstData, s'.image b = s.image b := fun b hb => hg.frame b fun hin => by
    have hrange := hg.stored.range b hin
    omega
  have hdinode : ∀ j < ninodes, dinodeAt s'.image j = dinodeAt s.image j := fun j hj => by
    rw [dinodeAt, dinodeAt, hlow (iblock j) (i2b_lt hj)]
  refine ⟨hg.tidy.putInode hi d, happ.bound, by rw [length_set]; exact h.few, fun g hgm => ?_, fun g hgm => ?_,
    fun g hgm => ?_, fun j k g g' hgj hgk hne => ?_, fun j g hgj => ?_, fun j hj hj' => ?_, ?_, ?_, ?_, ?_,
    writes_putInode (fun w hw => ?_) hi d, ?_⟩
  · obtain ⟨j, hgj⟩ := mem_iff_getElem?.mp hgm
    obtain ⟨-, rfl⟩ | ⟨hne, hgj⟩ := getElem?_set_cases hgj
    · exact hg.stored.putInode hi d
    · exact (hother j g hgj hne).putInode hi d
  · obtain ⟨j, hgj⟩ := mem_iff_getElem?.mp hgm
    obtain ⟨-, rfl⟩ | ⟨hne, hgj⟩ := getElem?_set_cases hgj
    · exact happ.full
    · exact h.full g (mem_of_getElem? hgj)
  · obtain ⟨j, hgj⟩ := mem_iff_getElem?.mp hgm
    obtain ⟨-, rfl⟩ | ⟨hne, hgj⟩ := getElem?_set_cases hgj
    · exact htype
    · exact h.type g (mem_of_getElem? hgj)
  · intro b hb hb'
    obtain ⟨rfl, rfl⟩ | ⟨hji, hgj'⟩ := getElem?_set_cases hgj
    · obtain ⟨rfl, rfl⟩ | ⟨hki, hgk'⟩ := getElem?_set_cases hgk
      · exact hne rfl
      · exact hapart k g' hgk' hki b hb' hb
    · obtain ⟨rfl, rfl⟩ | ⟨hki, hgk'⟩ := getElem?_set_cases hgk
      · exact hapart j g hgj' hji b hb hb'
      · exact h.apart j k g g' hgj' hgk' hne b hb hb'
  · obtain ⟨rfl, rfl⟩ | ⟨hne, hgj⟩ := getElem?_set_cases hgj
    · exact (dinodeAt_putInode _ hdfits).trans hd
    · have hj := Nat.lt_of_le_of_lt (List.getElem?_eq_some_iff.mp hgj).1 h.few
      refine (dinodeAt_putInode_of_ne (by omega) d).trans ?_
      rw [hdinode _ hj]
      exact h.inode j g hgj
  · rw [length_set] at hj'
    refine (dinodeAt_putInode_of_ne (by omega) d).trans ?_
    rw [hdinode _ hj]
    exact h.unused j hj hj'
  · have hfree := hg.freeblock_eq (h.stored f hmem) (h.full f hmem) happ.full
    have hsum := sum_blocks_set hf f'
    have hcount := h.count
    change s'.freeblock = _
    omega
  · have hle := hg.le
    have habove := h.tidy.above
    have hsplit : s'.freeblock - firstData = (s.freeblock - firstData) + (s'.freeblock - s.freeblock) := by omega
    have hmid : firstData + (s.freeblock - firstData) = s.freeblock := by omega
    change s'.blocks = range' firstData (s'.freeblock - firstData)
    rw [hg.blocks, h.blocks, hsplit, ← range'_append_1, hmid]
  · change s'.inodes = _
    rw [hg.inodes, h.inodes, length_set]
  · change s'.freeinode = _
    rw [hg.freeinode, h.freeinode, length_set]
  · obtain hw | ⟨hkind, hin⟩ := hg.writes w hw
    · exact (h.writes w hw).mono hg.le
    · obtain ⟨kind, x⟩ := w
      cases hkind
      exact hg.stored.range x hin
  · rw [super_putInode, hlow 1 (by decide)]
    exact h.super

theorem iappend_spec (h : Good s files) (hf : files[i]? = some f) (p : List UInt8) :
    Ends (iappend (i + 1) p) s (fun _ s' => ∃ f', f'.bytes = f.bytes ++ p ∧ f'.type = f.type ∧ Good s' (files.set i f'))
      fun _ _ => Overflows s f.bytes.length p.length := by
  have hlt := (List.getElem?_eq_some_iff.mp hf).1
  have hmem : f ∈ files := mem_of_getElem? hf
  have hi : i + 1 < ninodes := Nat.lt_of_le_of_lt hlt h.few
  have hinode := h.inode i f hf
  unfold iappend
  refine .after_ok (rinode_run h.tidy hi) ?_
  have hsize : (dinodeAt s.image (i + 1)).size = f.bytes.length := hinode.size
  rw [hsize]
  refine (appendLoop_spec p.length (Nat.le_refl _) h.tidy h.bound (h.stored f hmem) (h.full f hmem)
    ⟨hinode.type, hinode.major, hinode.minor, hinode.nlink, rfl, hinode.addrs⟩).bind fun r s₁ hr => ?_
  obtain ⟨f', happ, hcopy, hoff⟩ := hr
  obtain ⟨din, off⟩ := r
  refine .of_run_ok (winode_run happ.grown.tidy hi _) ⟨f', happ.bytes, happ.grown.type, h.append hf happ ?_⟩
  change off = _ at hoff
  rw [hoff]
  exact hcopy

theorem Overflows.mono (h : Overflows s len more) (hle : more ≤ more') : Overflows s len more' := by
  have hmono := fileBlocks_mono (Nat.add_le_add_left hle len)
  unfold Overflows at h ⊢
  omega

theorem Overflows.after (h : Overflows s' (len + more) more')
    (hfree : s'.freeblock + fileBlocks len = s.freeblock + fileBlocks (len + more)) : Overflows s len (more + more') := by
  have hmono := fileBlocks_mono (Nat.le_add_right (len + more) more')
  unfold Overflows at h ⊢
  rw [← Nat.add_assoc]
  omega

theorem Good.freeblock_set (h : Good s files) (hf : files[i]? = some f) (h' : Good s' (files.set i f')) :
    s'.freeblock + fileBlocks f.bytes.length = s.freeblock + fileBlocks f'.bytes.length := by
  have hsum := sum_blocks_set hf f'
  have hcount := h.count
  have hcount' := h'.count
  omega

def contentOf (chunks : List Chunk) : List UInt8 := chunks.flatMap Chunk.bytes

theorem appendChunks_spec (h : Good s files) (hf : files[i]? = some f) (chunks : List Chunk) :
    Ends (chunks.forM fun c => iappend (i + 1) c.bytes) s
      (fun _ s' => ∃ f', f'.bytes = f.bytes ++ contentOf chunks ∧ f'.type = f.type ∧ Good s' (files.set i f'))
      fun _ _ => Overflows s f.bytes.length (contentOf chunks).length := by
  induction chunks generalizing s files f with
  | nil =>
    obtain ⟨hlt, rfl⟩ := List.getElem?_eq_some_iff.mp hf
    refine .pure ⟨files[i], (append_nil _).symm, rfl, ?_⟩
    rwa [set_getElem_self]
  | cons c chunks ih =>
    have hlen : (contentOf (c :: chunks)).length = c.bytes.length + (contentOf chunks).length := length_append
    have hlt := (List.getElem?_eq_some_iff.mp hf).1
    rw [hlen]
    change Ends (iappend (i + 1) c.bytes >>= fun _ => chunks.forM fun c => iappend (i + 1) c.bytes) _ _ _
    refine ((iappend_spec h hf c.bytes).stop fun _ _ he => he.mono (Nat.le_add_right _ _)).bind
      fun _ s₁ hr => ?_
    obtain ⟨f₁, hbytes, htype, hgood⟩ := hr
    have hf₁ : (files.set i f₁)[i]? = some f₁ := getElem?_set_self hlt
    have hfree := h.freeblock_set hf hgood
    rw [hbytes, length_append] at hfree
    refine (ih hgood hf₁).mono (fun _ s₂ hr => ?_) fun _ _ he => ?_
    · obtain ⟨f₂, hbytes₂, htype₂, hgood₂⟩ := hr
      rw [set_set] at hgood₂
      refine ⟨f₂, ?_, htype₂.trans htype, hgood₂⟩
      rw [hbytes₂, hbytes, append_assoc]
      rfl
    · rw [hbytes, length_append] at he
      exact he.after hfree

/-! ### The input files -/

def Input.content (a : Input) : List UInt8 := contentOf (a.chunks.getD [])

/-- What is to be added fits, when the root directory has `len` bytes and blocks are free from `free` on. -/
structure Fits (free len : Nat) (args : List Input) : Prop where
  names : ∀ a ∈ args, slash ∉ a.name
  opened : ∀ a ∈ args, a.chunks ≠ none
  small : ∀ a ∈ args, a.content.length ≤ maxfile * bsize
  root : len + direntSize * args.length ≤ maxfile * bsize
  blocks : free + (fileBlocks (len + direntSize * args.length) - fileBlocks len) +
    (args.map fun a => fileBlocks a.content.length).sum ≤ size

theorem Dirent.length_bytes (de : Dirent) : de.bytes.length = direntSize := by
  simp [Dirent.bytes, dirsiz, direntSize]

structure Added (s' : Host) (root : Node) (rest : List Node) (a : Input) (root' f : Node) : Prop where
  good : Good s' (root' :: (rest ++ [f]))
  entry : root'.bytes = root.bytes ++ (Dirent.mk (rest.length + 2) a.stored).bytes
  type : root'.type = root.type
  bytes : f.bytes = a.content
  file : f.type = tFile

theorem addFile_spec (h : Good s (root :: rest)) (hroom : rest.length + 2 < ninodes) (a : Input) :
    Ends (addFile a) s (fun _ s' => ∃ root' f, Added s' root rest a root' f)
      fun _ _ => ¬Fits s.freeblock root.bytes.length [a] := by
  have hone : direntSize * [a].length = direntSize := rfl
  have hsum : ([a].map fun a => fileBlocks a.content.length).sum = fileBlocks a.content.length := rfl
  unfold addFile
  by_cases hname : slash ∉ a.name
  swap
  · exact .after_error (assert_fails hname) fun hfits => hname (hfits.names a (mem_singleton_self a))
  refine .after_ok (assert_run hname) ?_
  cases hchunks : a.chunks with
  | none => exact .throw fun hfits => hfits.opened a (mem_singleton_self a) hchunks
  | some chunks =>
    have hcontent : a.content = contentOf chunks := by
      rw [Input.content, hchunks]
      rfl
    dsimp only
    refine .bind (ialloc_spec h hroom (by decide)).returns fun inum s₁ hr => ?_
    obtain ⟨rfl, h₁⟩ := hr
    have hfree₁ : s₁.freeblock = s.freeblock := by
      have hcount := h.count
      have hcount₁ := h₁.count
      rw [map_append, sum_append] at hcount₁
      have hzero : ([Node.empty tFile].map fun f => fileBlocks f.bytes.length).sum = 0 := by decide
      omega
    have hroot : (root :: rest ++ [Node.empty tFile])[0]? = some root := rfl
    have hdir := iappend_spec h₁ hroot (Dirent.mk ((root :: rest).length + 1) a.stored).bytes
    rw [Dirent.length_bytes] at hdir
    refine .bind (hdir.stop fun _ _ he hfits => ?_) fun _ s₂ hr => ?_
    · have hroot' := hfits.root
      have hblocks := hfits.blocks
      rw [hone] at hroot' hblocks
      unfold Overflows at he
      omega
    obtain ⟨root', hbytes, htype, h₂⟩ := hr
    have hfree₂ := h₁.freeblock_set hroot h₂
    rw [hbytes, length_append, Dirent.length_bytes] at hfree₂
    have hlast : ((root :: rest ++ [Node.empty tFile]).set 0 root')[rest.length + 1]? = some (.empty tFile) := by
      rw [cons_append, set_cons_zero, getElem?_cons_succ, getElem?_concat_length]
    have hnum : (root :: rest).length + 1 = rest.length + 1 + 1 := rfl
    rw [hnum]
    have hchunks' := appendChunks_spec h₂ hlast chunks
    refine hchunks'.mono (fun _ s₃ hr => ?_) fun _ _ he hfits => ?_
    · obtain ⟨f, hbytes', htype', h₃⟩ := hr
      refine ⟨root', f, ?_, hbytes, htype, hbytes'.trans hcontent.symm, htype'⟩
      rwa [cons_append, set_cons_zero, set_cons_succ, set_append_right _ _ (Nat.le_refl _),
        Nat.sub_self] at h₃
    · have hsmall := hfits.small a (mem_singleton_self a)
      have hblocks := hfits.blocks
      have hmono := fileBlocks_mono (Nat.le_add_right root.bytes.length direntSize)
      have hzero : fileBlocks 0 = 0 := by decide
      rw [hone, hsum, hcontent] at hblocks
      rw [hcontent] at hsmall
      change Overflows s₂ 0 _ at he
      unfold Overflows at he
      rw [Nat.zero_add, hzero] at he
      omega

theorem Fits.head {a : Input} (h : Fits free len (a :: args)) : Fits free len [a] := by
  have hroot := h.root
  have hblocks := h.blocks
  rw [length_cons] at hroot hblocks
  rw [map_cons, sum_cons] at hblocks
  have hmono := fileBlocks_mono (show len + direntSize * 1 ≤ len + direntSize * (args.length + 1) by
    simp only [direntSize]
    omega)
  refine ⟨fun b hb => ?_, fun b hb => ?_, fun b hb => ?_, ?_, ?_⟩
  · exact h.names b (mem_cons.mpr (.inl (mem_singleton.mp hb)))
  · exact h.opened b (mem_cons.mpr (.inl (mem_singleton.mp hb)))
  · exact h.small b (mem_cons.mpr (.inl (mem_singleton.mp hb)))
  · change len + direntSize * 1 ≤ _
    simp only [direntSize] at hroot ⊢
    omega
  · change free + (fileBlocks (len + direntSize * 1) - fileBlocks len) + (fileBlocks a.content.length + 0) ≤ size
    omega

theorem Fits.tail {a : Input} (h : Fits free len (a :: args))
    (hfree : free' + fileBlocks len = free + fileBlocks (len + direntSize) + fileBlocks a.content.length) :
    Fits free' (len + direntSize) args := by
  have hroot := h.root
  have hblocks := h.blocks
  have hmore : len + direntSize * (args.length + 1) = len + direntSize + direntSize * args.length := by
    simp only [direntSize]
    omega
  rw [length_cons, hmore] at hroot hblocks
  rw [map_cons, sum_cons] at hblocks
  have hmono := fileBlocks_mono (Nat.le_add_right (len + direntSize) (direntSize * args.length))
  have hmono' := fileBlocks_mono (Nat.le_add_right len direntSize)
  refine ⟨fun b hb => h.names b (mem_cons_of_mem _ hb), fun b hb => h.opened b (mem_cons_of_mem _ hb),
    fun b hb => h.small b (mem_cons_of_mem _ hb), hroot, ?_⟩
  omega

/-- The entries of the root directory for the files, which get the inodes from `n` on. -/
def rootEntries : Nat → List Input → List UInt8
  | _, [] => []
  | n, a :: args => (Dirent.mk n a.stored).bytes ++ rootEntries (n + 1) args

structure AddedAll (s' : Host) (root : Node) (rest : List Node) (args : List Input) (root' : Node) (rest' : List Node) :
    Prop where
  good : Good s' (root' :: rest')
  entries : root'.bytes = root.bytes ++ rootEntries (rest.length + 2) args
  type : root'.type = root.type
  bytes : rest'.map Node.bytes = rest.map Node.bytes ++ args.map Input.content
  file : (∀ f ∈ rest, f.type = tFile) → ∀ f ∈ rest', f.type = tFile

theorem addFiles_spec (h : Good s (root :: rest)) (hroom : rest.length + args.length + 1 < ninodes) :
    Ends (args.forM addFile) s (fun _ s' => ∃ root' rest', AddedAll s' root rest args root' rest')
      fun _ _ => ¬Fits s.freeblock root.bytes.length args := by
  induction args generalizing s root rest with
  | nil => exact .pure ⟨root, rest, h, (append_nil _).symm, rfl, (append_nil _).symm, fun hf => hf⟩
  | cons a args ih =>
    rw [length_cons] at hroom
    change Ends (addFile a >>= fun _ => args.forM addFile) _ _ _
    refine ((addFile_spec h (by omega) a).stop fun _ _ he hfits => he hfits.head).bind
      fun _ s₁ hr => ?_
    obtain ⟨root₁, f, hadded⟩ := hr
    have hlen₁ : root₁.bytes.length = root.bytes.length + direntSize := by
      rw [hadded.entry, length_append, Dirent.length_bytes]
    have hfree : s₁.freeblock + fileBlocks root.bytes.length =
        s.freeblock + fileBlocks (root.bytes.length + direntSize) + fileBlocks a.content.length := by
      have hcount := h.count
      have hcount₁ := hadded.good.count
      rw [map_cons, sum_cons, map_append, sum_append, map_cons, sum_cons, hlen₁,
        hadded.bytes, map_nil, sum_nil] at hcount₁
      rw [map_cons, sum_cons] at hcount
      omega
    refine (ih hadded.good (by rw [length_append, length_singleton]; omega)).mono (fun _ s₂ hr => ?_)
      fun _ _ he hfits => he ?_
    · obtain ⟨root₂, rest₂, hall⟩ := hr
      refine ⟨root₂, rest₂, hall.good, ?_, hall.type.trans hadded.type, ?_, fun hrest => hall.file fun g hg => ?_⟩
      · rw [hall.entries, hadded.entry, append_assoc, length_append]
        rfl
      · rw [hall.bytes, map_append, append_assoc, map_cons, hadded.bytes]
        rfl
      · obtain hg | hg := mem_append.mp hg
        · exact hrest g hg
        · rw [mem_singleton.mp hg]
          exact hadded.file
    · rw [hlen₁]
      exact hfits.tail hfree

/-! ### main -/

theorem zeroes_spec (n : Nat) (h : s.image = fun _ _ => 0) (hsectors : s.sectors = 0) :
    (range n).forM (fun i => wsect .zero i fun _ => 0) s =
      .ok () { s with sectors := n, writes := s.writes ++ (range n).map fun i => (.zero, i) } := by
  induction n with
  | zero =>
    rw [range_zero, map_nil, append_nil, ← hsectors]
    rfl
  | succ n ih =>
    have hsame : Function.update s.image n (fun _ => 0) = s.image := by
      rw [h]
      exact update_eq_self n _
    rw [forM_eq_forM] at ih ⊢
    rw [range_succ, forM_append, bind_ok _ ih]
    simp only [forM_cons, forM_nil, bind_run]
    unfold wsect
    rw [modify_run, map_append, ← append_assoc]
    dsimp only
    rw [hsame, Nat.max_eq_right (Nat.le_succ n)]
    rfl

def zeroed : Host :=
  { start with
    sectors := size
    freeblock := firstData
    usedblocks := firstData
    writes := (List.range size).map fun i => (.zero, i) }

/-- The host when the regions are laid out and nothing is stored. -/
def laidOut : Host :=
  { image := update (fun _ _ => 0) 1 (putSuperblock (fun _ => 0) superblock)
    sectors := size
    freeblock := firstData
    usedblocks := firstData
    freeinode := 1
    inodes := []
    blocks := []
    writes := (List.range size).map (fun i => (.zero, i)) ++ [(.super, 1)] }

theorem good_laidOut : Good laidOut [] := by
  have hzero : ∀ b, b ≠ 1 → laidOut.image b = fun _ => 0 := by
    intro b hb
    simp only [laidOut]
    exact update_of_ne hb ..
  have htidy : Tidy laidOut := by
    refine ⟨rfl, rfl, Nat.le_refl _, fun b hb => hzero b ?_⟩
    rintro rfl
    exact absurd hb (by decide)
  refine ⟨htidy, by decide, by decide, fun _ hf => (nomatch hf), fun _ hf => (nomatch hf), fun _ hf => (nomatch hf),
    fun _ _ _ _ hf => (nomatch hf), fun _ _ hf => (nomatch hf), fun i _ _ => ?_, rfl, rfl, rfl, rfl, fun w hw => ?_, ?_⟩
  · rw [dinodeAt, hzero _ (iblock_ne_one i)]
    exact ⟨word_zero .., word_zero .., word_zero .., word_zero .., word_zero .., fun _ _ => word_zero ..⟩
  · obtain hw | hw := mem_append.mp hw
    · obtain ⟨i, hi, rfl⟩ := mem_map.mp hw
      exact mem_range.mp hi
    · rw [mem_singleton.mp hw]
      rfl
  · simp only [laidOut, update_self]
    decide

theorem getBit_bitmap (used : Nat) (hused : used ≤ bpb) (b : Nat) : getBit (bitmap used) b = decide (b < used) := by
  induction used with
  | zero =>
    rw [decide_eq_false (Nat.not_lt_zero b)]
    change getBit (fun _ => 0) b = false
    rw [getBit, word_zero]
    exact Nat.zero_testBit _
  | succ used ih =>
    unfold bitmap at ih ⊢
    rw [range_succ, foldl_append, foldl_cons, foldl_nil, getBit_setBit _ (by omega), ih (by omega)]
    rw [← Bool.decide_or, decide_eq_decide]
    omega

def blocksNeeded (args : List Input) : Nat :=
  fileBlocks (direntSize * (args.length + 2)) + (args.map fun a => fileBlocks a.content.length).sum

structure Made (args : List Input) (s : Host) (root : Node) (rest : List Node) : Prop where
  stored : ∀ f ∈ root :: rest, f.Stored s
  full : ∀ f ∈ root :: rest, f.Full
  apart : ∀ (i j : Nat) (f g : Node), (root :: rest)[i]? = some f → (root :: rest)[j]? = some g → i ≠ j →
    ∀ b ∈ f.blocks, b ∉ g.blocks
  rootInode : (dinodeAt s.image rootino).Agrees { root.dinode with size := (root.bytes.length / bsize + 1) * bsize }
  inode : ∀ (i : Nat) (f : Node), rest[i]? = some f → (dinodeAt s.image (i + 2)).Agrees f.dinode
  unused : ∀ i < ninodes, i = 0 ∨ rest.length + 1 < i → (dinodeAt s.image i).Agrees (.fresh 0)
  rootType : root.type = tDir
  rootBytes : root.bytes = (Dirent.mk rootino [46]).bytes ++ (Dirent.mk rootino [46, 46]).bytes ++ rootEntries 2 args
  type : ∀ f ∈ rest, f.type = tFile
  bytes : rest.map Node.bytes = args.map Input.content
  bound : s.freeblock ≤ size
  count : s.freeblock = firstData + blocksNeeded args
  blocks : s.blocks = List.range' firstData (s.freeblock - firstData)
  inodes : s.inodes = List.range' 1 (args.length + 1)
  writes : ∀ w ∈ s.writes, Kind.Within s.freeblock w
  super : getSuperblock (s.image 1) = superblock
  bitmap : ∀ b, getBit (s.image (ninodes / ipb + 3)) b = decide (b < s.freeblock)

theorem length_rootEntries (n : Nat) (args : List Input) : (rootEntries n args).length = direntSize * args.length := by
  induction args generalizing n with
  | nil => rfl
  | cons a args ih =>
    rw [rootEntries, length_append, Dirent.length_bytes, ih, length_cons, Nat.mul_succ, Nat.add_comm]

theorem finish_spec (h : Good s (root :: rest)) :
    Ends (do
      let din ← rinode rootino
      winode rootino { din with size := (din.size / bsize + 1) * bsize }
      balloc (← get).usedblocks) s
      (fun _ s' => ∃ d, s' = (s.putInode rootino d).put .bitmap (ninodes / ipb + 3) (bitmap s.freeblock) ∧
        d.Agrees { root.dinode with size := (root.bytes.length / bsize + 1) * bsize }) fun _ _ => False := by
  have hroot := h.inode 0 root rfl
  have hsize : (dinodeAt s.image rootino).size = root.bytes.length := hroot.size
  have htidy := h.tidy.putInode (i := rootino) (by decide) { dinodeAt s.image rootino with
    size := (root.bytes.length / bsize + 1) * bsize }
  have hbound := h.bound
  change s.freeblock ≤ 1024 at hbound
  refine .after_ok (rinode_run h.tidy (by decide)) ?_
  dsimp only
  rw [hsize]
  refine .after_ok (winode_run h.tidy (by decide) _) (.after_ok (get_run _) ?_)
  rw [htidy.used]
  change Ends (balloc s.freeblock) _ _ _
  unfold balloc
  refine .after_ok (assert_run (by simp only [bsize]; omega)) (.of_run_ok (wsect_run _ _ ?_) ⟨_, rfl, ?_⟩)
  · rw [htidy.sectors]
    decide
  · exact ⟨hroot.type, hroot.major, hroot.minor, hroot.nlink, rfl, hroot.addrs⟩

theorem Good.made (h : Good s (root :: rest)) (htype : root.type = tDir)
    (hroot : root.bytes = (Dirent.mk rootino [46]).bytes ++ (Dirent.mk rootino [46, 46]).bytes ++ rootEntries 2 args)
    (hfile : ∀ f ∈ rest, f.type = tFile) (hbytes : rest.map Node.bytes = args.map Input.content) (hd : d.Agrees { root.dinode with size := (root.bytes.length / bsize + 1) * bsize }) :
    Made args ((s.putInode rootino d).put .bitmap (ninodes / ipb + 3) (bitmap s.freeblock)) root rest := by
  have hone : rootino < ninodes := by decide
  have hlen : rest.length = args.length := by
    have hmap := congrArg length hbytes
    rwa [length_map, length_map] at hmap
  have hrootLen : root.bytes.length = direntSize * (args.length + 2) := by
    rw [hroot, length_append, length_append, Dirent.length_bytes, Dirent.length_bytes, length_rootEntries]
    simp only [direntSize]
    omega
  have hstored : ∀ f ∈ root :: rest, f.Stored (s.putInode rootino d) := fun f hf => (h.stored f hf).putInode hone d
  have hsmall : root.bytes.length ≤ maxfile * bsize := (h.full root mem_cons_self).small
  have hfits := (h.stored root mem_cons_self).fits h.bound (h.type root mem_cons_self)
    (Nat.lt_of_le_of_lt hsmall (by decide))
  have hdfits : d.Fits := by
    refine ⟨hd.type ▸ hfits.type, hd.major ▸ hfits.major, hd.minor ▸ hfits.minor, hd.nlink ▸ hfits.nlink, ?_,
      fun k hk => hd.addrs k hk ▸ hfits.addrs k hk⟩
    rw [hd.size]
    simp only [maxfile, ndirect, nindirect, bsize] at hsmall ⊢
    omega
  -- The bitmap is behind the inodes and before the data.
  have hlow : ∀ b, b ≠ ninodes / ipb + 3 →
      ((s.putInode rootino d).put .bitmap (ninodes / ipb + 3) (bitmap s.freeblock)).image b = (s.putInode rootino d).image b :=
    fun b hb => Host.put_of_ne hb
  have hdinode : ∀ i < ninodes,
      dinodeAt ((s.putInode rootino d).put .bitmap (ninodes / ipb + 3) (bitmap s.freeblock)).image i =
        dinodeAt (s.putInode rootino d).image i := fun i hi => by
    rw [dinodeAt, dinodeAt, hlow]
    simp only [iblock, ninodes, ipb] at hi ⊢
    omega
  refine ⟨fun f hf => ?_, h.full, h.apart, ?_, fun i f hf => ?_, fun i hi hi' => ?_, htype, hroot, hfile, hbytes, h.bound, ?_,
    h.blocks, ?_, fun w hw => ?_, ?_, fun b => ?_⟩
  · refine (hstored f hf).congr (Nat.le_refl _) fun b hb => hlow b ?_
    rintro rfl
    exact absurd ((hstored f hf).range _ hb).1 (by decide)
  · rw [hdinode _ hone]
    exact (dinodeAt_putInode rootino hdfits).trans hd
  · have hlt := (List.getElem?_eq_some_iff.mp hf).1
    have hfew := h.few
    rw [length_cons] at hfew
    rw [hdinode _ (by omega)]
    exact (dinodeAt_putInode_of_ne (by simp only [rootino]; omega) d).trans (h.inode (i + 1) f hf)
  · rw [hdinode _ hi]
    refine (dinodeAt_putInode_of_ne (by simp only [rootino]; omega) d).trans (h.unused i hi ?_)
    rwa [length_cons]
  · have hcount := h.count
    have hmap : rest.map (fun f => fileBlocks f.bytes.length) = args.map fun a => fileBlocks a.content.length := by
      have hboth := congrArg (map fun l => fileBlocks l.length) hbytes
      rwa [map_map, map_map] at hboth
    rw [map_cons, sum_cons, hmap, hrootLen] at hcount
    exact hcount
  · change s.inodes = _
    rw [h.inodes, length_cons, hlen]
  · obtain hw | hw := mem_append.mp hw
    · exact writes_putInode h.writes hone d w hw
    · rw [mem_singleton.mp hw]
      rfl
  · rw [hlow 1 (by decide), super_putInode]
    exact h.super
  · have hbound := h.bound
    rw [Host.put_self]
    exact getBit_bitmap _ (Nat.le_trans hbound (by decide)) b

theorem main_start (args : List Input) {Q : Unit → Host → Prop} {E : Exit → Host → Prop}
    (h : Ends (do
      let root ← ialloc tDir
      assert (root = rootino) "rootino == ROOTINO"
      iappend root (Dirent.mk root [46]).bytes
      iappend root (Dirent.mk root [46, 46]).bytes
      args.forM addFile
      let din ← rinode root
      winode root { din with size := (din.size / bsize + 1) * bsize }
      balloc (← get).usedblocks) laidOut Q E) : Ends (main args) start Q E := by
  have hset : (modify fun s => { s with usedblocks := firstData, freeblock := firstData } : M Unit) start =
      .ok () { start with usedblocks := firstData, freeblock := firstData } := rfl
  have htotal : nblocks + (ninodes / ipb + 3 + (size / (bsize * 8) + 1)) + nlog = size := by decide
  have hzero := zeroes_spec (s := { start with usedblocks := firstData, freeblock := firstData }) size rfl rfl
  have hsuper : wsect .super 1 (putSuperblock (fun _ => 0) superblock) zeroed = .ok () laidOut := by
    rw [wsect_run _ _ (show 1 < size by decide)]
    simp only [Host.put, laidOut, zeroed, start]
  unfold main
  dsimp only
  rw [htotal]
  refine .after_ok hset (.after_ok (assert_run rfl) (.after_ok hzero ?_))
  rw [show ({ start with usedblocks := firstData, freeblock := firstData } : Host).writes = [] from rfl, nil_append]
  exact .after_ok hsuper h

theorem main_spec (hroom : args.length + 1 < ninodes) :
    Ends (main args) start (fun _ s => ∃ root rest, Made args s root rest)
      fun _ _ => ¬Fits (firstData + 1) (2 * direntSize) args := by
  refine main_start args (.bind (ialloc_spec good_laidOut (by decide) (by decide)).returns fun inum s₁ hr => ?_)
  obtain ⟨rfl, h₁⟩ := hr
  refine .after_ok (assert_run rfl) ?_
  have hdot := iappend_spec h₁ (i := 0) (f := .empty tDir) rfl (Dirent.mk rootino [46]).bytes
  have hfree₁ : s₁.freeblock = firstData := h₁.count
  refine .bind (hdot.stop fun _ _ he => ?_) fun _ s₂ hr => ?_
  · rw [Dirent.length_bytes, Overflows, hfree₁] at he
    exact absurd he (by decide)
  obtain ⟨root₂, hbytes₂, htype₂, h₂⟩ := hr
  have hlen₂ : root₂.bytes.length = direntSize := by
    rw [hbytes₂, length_append, Dirent.length_bytes]
    rfl
  have hfree₂ : s₂.freeblock = firstData + 1 := by
    rw [h₂.count]
    change firstData + (fileBlocks root₂.bytes.length + 0) = _
    rw [hlen₂]
    decide
  have hdots := iappend_spec h₂ (i := 0) (f := root₂) rfl (Dirent.mk rootino [46, 46]).bytes
  refine .bind (hdots.stop fun _ _ he => ?_) fun _ s₃ hr => ?_
  · rw [Dirent.length_bytes, Overflows, hfree₂, hlen₂] at he
    exact absurd he (by decide)
  obtain ⟨root₃, hbytes₃, htype₃, h₃⟩ := hr
  have hlen₃ : root₃.bytes.length = 2 * direntSize := by
    rw [hbytes₃, length_append, Dirent.length_bytes, hlen₂]
    rfl
  have hfree₃ : s₃.freeblock = firstData + 1 := by
    rw [h₃.count]
    change firstData + (fileBlocks root₃.bytes.length + 0) = _
    rw [hlen₃]
    decide
  have h₃' : Good s₃ (root₃ :: []) := h₃
  have hall := addFiles_spec h₃' (show [].length + args.length + 1 < ninodes by rw [length_nil]; omega)
  rw [hfree₃, hlen₃] at hall
  refine hall.bind fun _ s₄ hr => ?_
  obtain ⟨root, rest, hadded⟩ := hr
  refine (finish_spec hadded.good).mono (fun _ s₅ hr => ?_) fun _ _ hf => hf.elim
  obtain ⟨d, rfl, hd⟩ := hr
  refine ⟨root, rest, hadded.good.made ?_ ?_ (hadded.file nofun) hadded.bytes hd⟩
  · rw [hadded.type, htype₃, htype₂]
    rfl
  · rw [hadded.entries, hbytes₃, hbytes₂]
    rfl

end RainOS.Mkfs
