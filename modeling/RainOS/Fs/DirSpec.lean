import RainOS.Fs.InodeSpec

/-!
# Specifications of the directory and name layers

An entry that is read from a directory names an inode that exists, and an entry that is written does
too. Looking up a name takes a reference to the inode it finds and drops those on the way.
-/

namespace RainOS.Fs

open BlockStore Function List

variable {sb : Superblock} {clean : Prop} {g : Ghost} {L T : Multiset Slot} {ip dp : Slot} {off first size limit : Nat}
  {message : String} {offs : List Nat}

theorem readFrom_zero (ip : Slot) (fuel off : Nat) : readFrom ip fuel off 0 = pure [] := by
  cases fuel with
  | zero => rfl
  | succ fuel => rfl

theorem inum_getDirent (f : Nat → UInt8) :
    (getDirent ((range direntSize).map f)).inum = Mem.word f 2 0 := rfl

theorem readi_dirent_spec (hgeo : Geometry sb) (hdp : dp ∈ L) (hoff : direntSize ∣ off) :
    Spec sb clean (fun s => Inv sb g L T s ∧ (s.icache dp).type = tDir) (readi dp off direntSize)
      fun r s => (∀ bytes, r = some bytes → bytes.length = direntSize →
        (getDirent bytes).inum < sb.ninodes) ∧ Inv sb g L T s ∧ (s.icache dp).type = tDir := by
  unfold readi
  refine (getInode_spec dp).bind fun e => ?_
  refine .ite (fun hdev => ?_) fun _ => .ite (fun _ => ?_) fun _ => ?_
  · have himpossible : ∀ s : State, ¬ ((Inv sb g L T s ∧ (s.icache dp).type = tDir) ∧
        e = s.icache dp) := by
      rintro s ⟨⟨-, hdir⟩, rfl⟩
      rw [hdir] at hdev
      exact absurd hdev (by decide)
    refine .ite (fun _ => ?_) fun _ => .pure fun s hs => absurd hs (himpossible s)
    exact .bind ((consoleread_spec (g := g) (L := L) (T := T) hgeo hdp direntSize).of_false himpossible)
      fun _ => .pure fun _ hs => hs
  · exact .pure fun s hs => ⟨fun _ hbytes => (nomatch hbytes), hs.1⟩
  · obtain ⟨k, rfl⟩ := hoff
    have hmod : direntSize * k % bsize = direntSize * (k % 32) := by
      simp only [direntSize, bsize]
      omega
    have hlt : k % 32 < 32 := Nat.mod_lt k (by decide)
    generalize hn : min direntSize (e.size - direntSize * k) = n
    have hle : n ≤ direntSize := by omega
    refine .bind (Q := fun bytes s => (bytes.length = direntSize →
      (getDirent bytes).inum < sb.ninodes) ∧ Inv sb g L T s ∧ (s.icache dp).type = tDir) ?_
      fun bytes => .pure fun s hs => ⟨fun _ heq => Option.some.inj heq ▸ hs.1, hs.2⟩
    change Spec sb clean _ (readFrom dp (15 + 1) (direntSize * k) n) _
    rw [readFrom]
    refine .ite (fun _ => .pure fun s hs => ⟨fun hlen => absurd hlen (by decide), hs.1⟩) fun _ => ?_
    refine ((bmap_spec hgeo hdp _ tDir).pre fun s hs => hs.1).bind fun addr => ?_
    refine (bread_spec (fun _ _ hs => hs) addr).bind fun bp => ?_
    refine (brelse_spec (fun _ _ hs => hs) bp).bind fun _ => ?_
    -- the entry does not cross the end of its block
    have hwhole : min n (bsize - direntSize * k % bsize) = n := by
      rw [hmod]
      simp only [direntSize, bsize] at hle ⊢
      omega
    rw [hwhole, Nat.sub_self, readFrom_zero, pure_bind]
    refine .pure ?_
    rintro s ⟨⟨A, h, hdir, m, hm, hdata, rfl, hne⟩, -, hbp⟩
    refine ⟨fun hlen => ?_, ⟨A, h⟩, hdir⟩
    rw [append_nil, length_map, length_range] at hlen
    rw [append_nil, hlen, inum_getDirent, hbp, hmod]
    have hentry := h.disk.directories _ m (h.cache.alloc hdp)
      ((h.cache.copy dp hdp).2.1 ▸ hdir) hm hdata hne (k % 32) hlt
    rw [Bytes.word] at hentry
    have hsame : Mem.word (fun j => (s.blk (entry A s.blk (s.icache dp).inum m)).mem
        (direntSize * (k % 32) + j)) 2 0 =
        Mem.word (s.blk (entry A s.blk (s.icache dp).inum m)).mem 2 (direntSize * (k % 32)) := rfl
    rwa [hsame]

theorem readDirent_spec (hgeo : Geometry sb) (hdp : dp ∈ L) (hoff : direntSize ∣ off) (hmessage : Tame (.panic message)) :
    Spec sb clean (fun s => Inv sb g L T s ∧ (s.icache dp).type = tDir) (readDirent dp off message)
      fun de s => de.inum < sb.ninodes ∧ Inv sb g L T s ∧ (s.icache dp).type = tDir := by
  unfold readDirent
  refine (readi_dirent_spec hgeo hdp hoff).bind fun r => ?_
  cases r with
  | none => exact .throw hmessage
  | some bytes =>
    refine .ite (fun hlen => ?_) fun _ => .throw hmessage
    exact .pure fun s hs => ⟨hs.1 bytes rfl hlen, hs.2⟩

theorem readDirent_any_spec (hgeo : Geometry sb) (hdp : dp ∈ L) (off : Nat) (hmessage : Tame (.panic message)) :
    Spec sb clean (Inv sb g L T) (readDirent dp off message) fun _ => Inv sb g L T := by
  unfold readDirent
  refine (readi_spec hgeo hdp off direntSize).bind fun r => ?_
  cases r with
  | none => exact .throw hmessage
  | some bytes =>
    exact .ite (fun _ => .skip) fun _ => .throw hmessage

theorem dvd_direntOffsets (h : off ∈ direntOffsets first size) :
    direntSize ∣ off := by
  obtain ⟨k, -, rfl⟩ := mem_map.mp h
  exact Nat.dvd_mul_left direntSize k

theorem lookupFrom_spec (hgeo : Geometry sb) (hdp : dp ∈ L) (name : List UInt8) (hoffs : ∀ off ∈ offs, direntSize ∣ off) :
    Spec sb clean (fun s => Inv sb g L T s ∧ (s.icache dp).type = tDir) (lookupFrom dp name offs)
      fun r s => (∀ off inum, r = some (off, inum) → direntSize ∣ off ∧ inum < sb.ninodes) ∧
        Inv sb g L T s := by
  induction offs with
  | nil => exact .pure fun s hs => ⟨fun _ _ heq => (nomatch heq), hs.1⟩
  | cons off rest ih =>
    rw [lookupFrom]
    have hoff := hoffs off mem_cons_self
    refine (readDirent_spec hgeo hdp hoff (by decide)).bind fun de => ?_
    refine .ite (fun _ => ?_) fun _ => ?_
    · refine .pure fun s hs => ⟨fun off' inum heq => ?_, hs.2.1⟩
      obtain ⟨rfl, rfl⟩ := Prod.mk.inj (Option.some.inj heq)
      exact ⟨hoff, hs.1⟩
    · exact (ih fun off' hoff' => hoffs off' (mem_cons_of_mem off hoff')).pre fun s hs => hs.2

/-- The result of a search by name: a reference to the inode that was found. -/
def Found {α : Type} (sb : Superblock) (g : Ghost) (L T : Multiset Slot) (good : α → Prop)
    (r : Option (Slot × α)) (s : State) : Prop :=
  match r with
  | some (ip, a) => good a ∧ Inv sb g L (ip ::ₘ T) s
  | none => Inv sb g L T s

theorem dirlookup_spec (hgeo : Geometry sb) (hdp : dp ∈ L) (name : List UInt8) :
    Spec sb clean (Inv sb g L T) (dirlookup dp name) (Found sb g L T (direntSize ∣ ·)) := by
  unfold dirlookup
  refine (getInode_spec dp).bind fun e => ?_
  dsimp only
  refine .ite (fun _ => .throw_bind (by decide)) fun hdir => ?_
  refine .bind ((lookupFrom_spec (g := g) (T := T) hgeo hdp name
    fun off hoff => dvd_direntOffsets hoff).pre ?_) fun r => ?_
  · rintro s ⟨hs, rfl⟩
    exact ⟨hs, not_not.mp hdir⟩
  · cases r with
    | none => exact .pure fun s hs => hs.2
    | some r =>
      obtain ⟨off, inum⟩ := r
      have higet : ∀ A, Spec sb clean
          (fun s => direntSize ∣ off ∧ inum < sb.ninodes ∧ Sound sb A g L T s) (iget inum)
          fun ip s => direntSize ∣ off ∧ Inv sb g L (ip ::ₘ T) s :=
        fun A => (iget_spec inum).frame.post fun ip s hs => ⟨hs.1, A, hs.2.1⟩
      refine Triple.bind ((Triple.of_exists higet).pre ?_) fun ip => Triple.pure fun s hs => hs
      rintro s ⟨hgood, A, h⟩
      exact ⟨A, (hgood off inum rfl).1, (hgood off inum rfl).2, h⟩

theorem emptyFrom_spec (hgeo : Geometry sb) (hdp : dp ∈ L) (hlimit : direntSize ∣ limit) (hoffs : ∀ off ∈ offs, direntSize ∣ off) :
    Spec sb clean (Inv sb g L T) (emptyFrom dp limit offs)
      fun off s => direntSize ∣ off ∧ Inv sb g L T s := by
  induction offs with
  | nil => exact .pure fun s hs => ⟨hlimit, hs⟩
  | cons off rest ih =>
    rw [emptyFrom]
    refine (readDirent_any_spec hgeo hdp off (by decide)).bind fun de => ?_
    refine .ite (fun _ => .pure fun s hs => ⟨hoffs off mem_cons_self, hs⟩) fun _ => ?_
    exact ih fun off' hoff' => hoffs off' (mem_cons_of_mem off hoff')

theorem length_bytes (de : Dirent) : de.bytes.length = direntSize := by
  simp only [Dirent.bytes, length_cons, length_map, length_range, dirsiz, direntSize]

theorem word_bytes_le (de : Dirent) : Mem.word (fun j => de.bytes.getD j 0) 2 0 ≤ de.inum := by
  change (UInt8.ofNat de.inum).toNat + 256 * ((UInt8.ofNat (de.inum / 256)).toNat + 256 * 0) ≤ de.inum
  rw [UInt8.toNat_ofNat', UInt8.toNat_ofNat']
  omega

/-- Every slot that is locked, or known to be no directory, is one the call refers to. -/
def Covers (g : Ghost) (L T : Multiset Slot) : Prop := ∀ x, x ∈ L ∨ x ∈ g.plain → x ∈ T

theorem Covers.cons (h : Covers g L T) (ip : Slot) :
    Covers g L (ip ::ₘ T) := fun x hx => Multiset.mem_cons_of_mem (h x hx)

theorem Covers.lock (h : Covers g L T) (ip : Slot) :
    Covers g (ip ::ₘ L) (ip ::ₘ T) := by
  rintro x (hx | hx)
  · obtain rfl | hx := Multiset.mem_cons.mp hx
    · exact Multiset.mem_cons_self x T
    · exact Multiset.mem_cons_of_mem (h x (.inl hx))
  · exact Multiset.mem_cons_of_mem (h x (.inr hx))

theorem dirlink_spec (hgeo : Geometry sb) (hdp : dp ∈ L) (hcovers : Covers g L T) (name : List UInt8)
    (inum : Nat) :
    Spec sb clean (fun s => inum < sb.ninodes ∧ Inv sb g L T s) (dirlink dp name inum)
      fun _ => Inv sb g L T := by
  unfold dirlink
  refine .bind (dirlookup_spec hgeo hdp name).frame fun r => ?_
  cases r with
  | some r =>
    obtain ⟨ip, off⟩ := r
    exact ((iput_spec ip hcovers).pre fun s hs => hs.2.2).bind fun _ => .skip
  | none =>
    refine (getInode_spec dp).bind fun e => ?_
    refine (((emptyFrom_spec (g := g) (T := T) hgeo hdp (Nat.dvd_mul_left ..)
      fun off hoff => dvd_direntOffsets hoff).frame (p := inum < sb.ninodes)).pre
        fun s hs => ⟨hs.1.1, hs.1.2⟩).bind fun off => ?_
    refine .bind ((writei_spec (g := g) (T := T) hgeo hdp _ off).pre ?_) fun r => ?_
    · rintro s ⟨hinum, hoff, hs⟩
      exact ⟨.inr (.inr ⟨hoff, length_bytes _, (word_bytes_le _).trans_lt hinum⟩), hs⟩
    · cases r with
      | some n => exact .skip
      | none => exact .throw (by decide)

theorem namexFrom_spec (hgeo : Geometry sb) (hcovers : Covers g L T) (parent : Bool) (fuel : Nat)
    (path : Path) (ip : Slot) :
    Spec sb clean (Inv sb g L (ip ::ₘ T)) (namexFrom parent fuel path ip)
      (Found sb g L T fun _ => True) := by
  induction fuel generalizing path ip with
  | zero => exact .throw (by decide)
  | succ fuel ih =>
    rw [namexFrom]
    have hmem : ip ∈ ip ::ₘ L := Multiset.mem_cons_self ip L
    cases skipelem path with
    | none =>
      refine .ite (fun _ => ?_) fun _ => .pure fun _ hs => ⟨trivial, hs⟩
      exact .bind (iput_spec ip hcovers) fun _ => .pure fun _ hs => hs
    | some r =>
      obtain ⟨name, path⟩ := r
      refine (ilock_head_spec hgeo ip).bind fun _ => ?_
      refine ((getInode_spec ip).post fun _ _ hs => hs.1).bind fun e => ?_
      refine .ite (fun _ => ?_) fun _ => .ite (fun _ => ?_) fun _ => ?_
      · exact .bind (iunlockput_spec hgeo ip hcovers) fun _ => .pure fun _ hs => hs
      · exact .bind (iunlock_spec hgeo ip) fun _ => .pure fun _ hs => ⟨trivial, hs⟩
      · refine (dirlookup_spec hgeo hmem name).bind fun r => ?_
        cases r with
        | none =>
          exact .bind (iunlockput_spec hgeo ip hcovers) fun _ => .pure fun _ hs => hs
        | some r =>
          obtain ⟨next, off⟩ := r
          refine .bind ((iunlockput_spec hgeo ip (hcovers.cons next)).pre ?_) fun _ => ih path next
          intro s hs
          rw [Multiset.cons_swap]
          exact hs.2

section

variable (hgeo : Geometry sb) (hcovers : Covers g L T) (cwd : Slot) (path : Path)
include hgeo hcovers cwd path

theorem namex_spec (parent : Bool) :
    Spec sb clean (fun s => 0 < holders g T cwd ∧ Inv sb g L T s) (namex cwd path parent)
      (Found sb g L T fun _ => True) := by
  unfold namex
  have hloop : ∀ ip, Spec sb clean (Inv sb g L (ip ::ₘ T)) (namexFrom parent (path.length + 1) path ip)
      (Found sb g L T fun _ => True) := namexFrom_spec hgeo hcovers parent (path.length + 1) path
  refine .ite (fun _ => .bind ?_ hloop) fun _ => .bind ?_ hloop
  · have higet : ∀ A, Spec sb clean (fun s => rootino < sb.ninodes ∧ Sound sb A g L T s) (iget rootino)
        fun ip s => Inv sb g L (ip ::ₘ T) s :=
      fun A => (iget_spec rootino).post fun ip s hs => ⟨A, hs.1⟩
    refine (Triple.of_exists higet).pre ?_
    rintro s ⟨-, A, h⟩
    exact ⟨A, hgeo.root, h⟩
  · refine (idup_spec cwd).post ?_
    rintro ip s ⟨rfl, hs⟩
    exact hs

theorem namei_spec :
    Spec sb clean (fun s => 0 < holders g T cwd ∧ Inv sb g L T s) (namei cwd path)
      fun r s => match r with
        | some ip => Inv sb g L (ip ::ₘ T) s
        | none => Inv sb g L T s := by
  unfold namei
  refine (namex_spec hgeo hcovers cwd path false).bind fun r => .pure fun s hs => ?_
  cases r with
  | none => exact hs
  | some r => exact hs.2

theorem nameiparent_spec :
    Spec sb clean (fun s => 0 < holders g T cwd ∧ Inv sb g L T s) (nameiparent cwd path)
      (Found sb g L T fun _ => True) := by
  unfold nameiparent
  exact namex_spec hgeo hcovers cwd path true

end

end RainOS.Fs
