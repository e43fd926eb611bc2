import RainOS.Fs.LogSpec

/-!
# Specifications of the file table

An open file holds a reference to its inode from the moment `sys_open` fills it in until its last
`fileclose`. What the file table looks like otherwise does not matter for soundness.
-/

namespace RainOS.Fs

open BlockStore Function

variable {sb : Superblock} {clean : Prop} {g g' : Ghost} {L T L' T' : Multiset Slot} {ip : Slot} {f : Fin nfile}
  {file : File}

def InvF (sb : Superblock) (g : Ghost) (L T : Multiset Slot) (s : State) : Prop :=
  ∃ F, Inv sb { g with files := F } L T s

def Ghost.setFile (g : Ghost) (f : Fin nfile) (file : File) : Ghost :=
  { g with files := update g.files f file }

theorem holders_setFile (g : Ghost) (f : Fin nfile) (file : File) (T : Multiset Slot) (x : Slot) :
    holders (g.setFile f file) T x + (if File.Holds x (g.files f) then 1 else 0) =
      holders g T x + if File.Holds x file then 1 else 0 := by
  have htally := tally_update (File.Holds x) g.files f file
  rw [holders, holders]
  simp only [Ghost.setFile]
  omega

theorem holders_pos_of_open (g : Ghost) (T : Multiset Slot) {F : Fin nfile → File} (hF : F f = file) (htype : file.type = .inode) : 0 < holders { g with files := F } T file.ip := by
  subst hF
  exact holders_pos_of_file (g := { g with files := F }) htype

theorem getFile_spec (f : Fin nfile) : Spec sb clean (InvF sb g L T) (getFile f)
    fun file s => ∃ F : { F : Fin nfile → File // F f = file }, Inv sb { g with files := F } L T s := by
  refine .bind Triple.get fun a => .pure ?_
  rintro s ⟨⟨F, A, h⟩, rfl⟩
  exact ⟨⟨F, by rw [h.files]⟩, A, h⟩

instance {file : File} : Nonempty { F : Fin nfile → File // F f = file } := ⟨⟨fun _ => file, rfl⟩⟩

theorem modifyFile_spec {k : File → File}
    (hk : ∀ file, (k file).type = file.type ∧ (k file).ip = file.ip ∧
      (k file).writable = file.writable) :
    Spec sb clean (InvF sb g L T) (modifyFile f k) fun _ => InvF sb g L T := by
  simp only [modifyFile, store_eq_update]
  refine .modify (fun _ hI => hI) (fun _ hg => hg) ?_
  rintro s ⟨F, A, h⟩
  have hsame : ∀ i, (update F f (k (F f)) i).type = (F i).type ∧ (update F f (k (F f)) i).ip = (F i).ip ∧
      (update F f (k (F f)) i).writable = (F i).writable := by
    intro i
    by_cases hi : i = f
    · rw [hi, update_self]
      exact hk (F f)
    · rw [update_of_ne hi]
      exact ⟨rfl, rfl, rfl⟩
  have hholders : ∀ x, holders { g with files := update F f (k (F f)) } T x =
      holders { g with files := F } T x := by
    intro x
    have hset := holders_setFile { g with files := F } f (k (F f)) T x
    have hiff : File.Holds x (k (F f)) ↔ File.Holds x (F f) := by
      rw [File.Holds, File.Holds, (hk (F f)).1, (hk (F f)).2.1]
    simp only [hiff, Nat.add_right_cancel_iff] at hset
    exact hset
  refine ⟨update F f (k (F f)), A, h.disk, ?_, h.log, ?_, h.procs⟩
  · refine h.cache.ghost (fun x => (hholders x).le) (fun x hx => ?_) (fun x hx => hx) fun i hi hw => ?_
    · rw [hholders x]
      exact h.cache.kept x hx
    · change NotDir A (s.icache (update F f (k (F f)) i).ip).inum
      rw [(hsame i).2.1]
      exact h.cache.files i ((hsame i).1 ▸ hi) ((hsame i).2.2 ▸ hw)
  · change update s.ftable f (k (s.ftable f)) = update F f (k (F f))
    rw [h.files]

theorem dropFile_spec :
    Spec sb clean
      (fun s => ∃ F : { F : Fin nfile → File // F f = file }, Inv sb { g with files := F } L T s)
      (modifyFile f fun file => { file with ref := 0, type := .none })
      fun _ => InvF sb g L (if file.type = .inode then file.ip ::ₘ T else T) := by
  simp only [modifyFile, store_eq_update]
  refine .modify (fun _ hI => hI) (fun _ hg => hg) ?_
  rintro s ⟨⟨F, hF⟩, A, h⟩
  have hholders : ∀ x, holders { g with files := update F f { F f with ref := 0, type := .none } }
      (if file.type = .inode then file.ip ::ₘ T else T) x = holders { g with files := F } T x := by
    intro x
    have hset := holders_setFile { g with files := F } f { F f with ref := 0, type := .none } T x
    have hnone : ¬ File.Holds x { F f with ref := 0, type := .none } := by
      rintro ⟨⟨⟩, -⟩
    rw [if_neg hnone, Nat.add_zero] at hset
    change holders { g with files := update F f _ } T x + (if File.Holds x (F f) then 1 else 0) = _ at hset
    rw [hF] at hset
    by_cases htype : file.type = .inode
    · have hiff : File.Holds x file ↔ x = file.ip := by
        rw [File.Holds, eq_comm (a := x)]
        exact and_iff_right htype
      rw [if_pos htype, holders_cons]
      simp only [hiff] at hset
      rw [hF]
      exact hset
    · rw [if_neg htype]
      rw [if_neg fun hholds => htype hholds.1, Nat.add_zero] at hset
      rw [hF]
      exact hset
  refine ⟨update F f { F f with ref := 0, type := .none }, A, h.disk, ?_, h.log, ?_, h.procs⟩
  · refine h.cache.ghost (fun x => (hholders x).le) (fun x hx => ?_) (fun x hx => hx) fun i hi hw => ?_
    · rw [hholders x]
      exact h.cache.kept x hx
    · have hif : i ≠ f := by
        rintro rfl
        change (update F i _ i).type = .inode at hi
        rw [update_self] at hi
        cases hi
      change NotDir A (s.icache (update F f _ i).ip).inum
      change (update F f _ i).type = .inode at hi
      change (update F f _ i).writable = true at hw
      rw [update_of_ne hif] at hi hw ⊢
      exact h.cache.files i hi hw
  · change update s.ftable f _ = update F f _
    rw [h.files]

theorem filealloc_spec : Spec sb clean (InvF sb g L T) filealloc fun _ => InvF sb g L T := by
  unfold filealloc
  refine .bind Triple.get fun a => ?_
  split
  · refine .bind (.pre (modifyFile_spec (g := g) (L := L) (T := T) fun _ => ⟨rfl, rfl, rfl⟩)
      fun _ hs => hs.1) fun _ => ?_
    exact .pure fun _ hs => hs
  · exact .pure fun _ hs => hs.1

theorem filedup_spec (f : Fin nfile) :
    Spec sb clean (InvF sb g L T) (filedup f) fun _ => InvF sb g L T := by
  unfold filedup
  refine ((getFile_spec f).post fun _ _ ⟨F, hs⟩ => (⟨F.1, hs⟩ : InvF sb g L T _)).bind fun file => ?_
  exact .ite (fun _ => .throw_bind (by decide)) fun _ =>
    modifyFile_spec fun _ => ⟨rfl, rfl, rfl⟩

theorem Spec.files {α : Type} {x : M α} (h : ∀ F, Spec sb clean (Inv sb { g with files := F } L T) x fun _ => Inv sb { g' with files := F } L' T') :
    Spec sb clean (InvF sb g L T) x fun _ => InvF sb g' L' T' :=
  Triple.of_exists fun F => (h F).post fun _ _ hs => ⟨F, hs⟩

theorem fileclose_spec (hgeo : Geometry sb) (hcovers : Covers g L T) (f : Fin nfile) :
    Spec sb clean (InvF sb g L T) (fileclose f) fun _ => InvF sb g L T := by
  unfold fileclose
  refine (getFile_spec f).bind fun ff => ?_
  refine .ite (fun _ => .throw_bind (by decide)) fun _ => .ite (fun _ => ?_) fun _ => ?_
  · exact .pre (modifyFile_spec fun _ => ⟨rfl, rfl, rfl⟩) fun s ⟨F, hs⟩ => ⟨F.1, hs⟩
  · refine dropFile_spec.bind fun _ => .ite (fun htype => ?_) fun htype => ?_
    · rw [if_pos htype]
      refine (Spec.files fun _ => beginOp_spec).bind fun _ => ?_
      refine (Spec.files fun _ => iput_spec ff.ip hcovers).bind fun _ => ?_
      exact Spec.files fun _ => endOp_spec hgeo
    · rw [if_neg htype]
      exact .skip

theorem filestat_spec (hgeo : Geometry sb) (f : Fin nfile) :
    Spec sb clean (InvF sb g L T) (filestat f) fun _ => InvF sb g L T := by
  unfold filestat
  refine (getFile_spec f).bind fun file => .ite (fun htype => ?_) fun _ => ?_
  · refine .of_exists fun ⟨F, hF⟩ => ?_
    have hpos := holders_pos_of_open g T hF htype
    refine ((ilock_spec hgeo file.ip).pre fun _ hs => ⟨hpos, hs⟩).bind fun _ => ?_
    refine ((getInode_spec file.ip).post fun _ _ hs => hs.1).bind fun e => ?_
    exact (iunlock_spec hgeo file.ip).bind fun _ => .pure fun _ hs => ⟨F, hs⟩
  · exact .pure fun s ⟨F, hs⟩ => ⟨F.1, hs⟩

theorem fileread_spec (hgeo : Geometry sb) (f : Fin nfile) (n : Nat) :
    Spec sb clean (InvF sb g L T) (fileread f n) fun _ => InvF sb g L T := by
  unfold fileread
  refine (getFile_spec f).bind fun file => .ite (fun _ => ?_) fun _ =>
    Triple.ite (fun htype => ?_) fun _ => .throw (by decide)
  · exact .pure fun s ⟨F, hs⟩ => ⟨F.1, hs⟩
  · refine .of_exists fun ⟨F, hF⟩ => ?_
    have hpos := holders_pos_of_open g T hF htype
    refine ((ilock_spec hgeo file.ip).pre fun _ hs => ⟨hpos, hs⟩).bind fun _ => ?_
    refine (readi_spec hgeo (Multiset.mem_cons_self file.ip L) file.off n).bind fun r => ?_
    refine .bind (.pre (modifyFile_spec (g := g) (L := file.ip ::ₘ L) (T := T)
      fun _ => ⟨rfl, rfl, rfl⟩) fun s hs => ⟨F, hs⟩) fun _ => ?_
    exact (Spec.files fun _ => iunlock_spec hgeo file.ip).bind fun _ => .skip

theorem fileWriteFrom_spec (hgeo : Geometry sb) (hip : ip ∈ g.plain) (f : Fin nfile) (fuel : Nat)
    (src : List UInt8) :
    Spec sb clean (InvF sb g L T) (fileWriteFrom f ip fuel src) fun _ => InvF sb g L T := by
  induction fuel generalizing src with
  | zero => exact .skip
  | succ fuel ih =>
    rw [fileWriteFrom]
    refine .ite (fun _ => .skip) fun _ => ?_
    refine (Spec.files fun _ => beginOp_spec).bind fun _ => ?_
    refine .bind (Q := fun _ => InvF sb g (ip ::ₘ L) T)
      (Spec.files fun F => .pre (ilock_spec hgeo ip) ?_) fun _ => ?_
    · rintro s ⟨A, h⟩
      exact ⟨h.cache.kept ip (.inr hip), A, h⟩
    refine ((getFile_spec f).post
      fun _ s ⟨F, hs⟩ => (⟨F.1, hs⟩ : InvF sb g (ip ::ₘ L) T s)).bind fun file => ?_
    refine .bind (Q := fun _ => InvF sb g (ip ::ₘ L) T) (Spec.files fun F =>
      Triple.pre (writei_spec hgeo (Multiset.mem_cons_self ip L) _ _)
        fun s hs => ⟨.inr (.inl hip), hs⟩) fun r => ?_
    refine .bind (modifyFile_spec fun _ => ⟨rfl, rfl, rfl⟩) fun _ => ?_
    refine .bind (Spec.files fun _ => iunlock_spec hgeo ip) fun _ => ?_
    refine (Spec.files fun _ => endOp_spec hgeo).bind fun _ => ?_
    cases r with
    | none => exact .skip
    | some r => exact .ite (fun _ => .throw_bind (by decide)) fun _ => ih _

theorem filewrite_spec (hgeo : Geometry sb) (f : Fin nfile) (src : List UInt8) :
    Spec sb clean (InvF sb g L T) (filewrite f src) fun _ => InvF sb g L T := by
  unfold filewrite
  refine (getFile_spec f).bind fun file => .ite (fun _ => ?_) fun hwritable =>
    Triple.ite (fun htype => ?_) fun _ => .throw (by decide)
  · exact .pure fun s ⟨F, hs⟩ => ⟨F.1, hs⟩
  · -- a file open for writing is no directory, and its reference lasts
    refine .bind ((fileWriteFrom_spec (g := g.mark file.ip True) (L := L) (T := T) hgeo
      (.inr ⟨rfl, trivial⟩) f src.length src).pre ?_) fun all => .pure ?_
    · rintro s ⟨⟨F, hF⟩, A, h⟩
      have hf : ({ g with files := F }.files f).type = .inode := by
        change (F f).type = .inode
        rwa [hF]
      have hplain := h.cache.files f hf (by
        change (F f).writable = true
        rw [hF]
        exact Bool.not_eq_false _ ▸ hwritable)
      change NotDir A (s.icache (F f).ip).inum at hplain
      rw [hF] at hplain
      exact ⟨F, A, h.disk, h.cache.mark (fun _ => holders_pos_of_open g T hF htype)
        fun _ => hplain, h.log, h.files, h.procs⟩
    · rintro s ⟨F, hs⟩
      exact ⟨F, hs.unmark g.plain fun x hx => .inl hx⟩

end RainOS.Fs
