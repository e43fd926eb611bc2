import RainOS.Fs.FileSpec

/-!
# Specifications of the system calls

Between system calls nothing is locked, and the references that count are those of open files and
current directories. Every system call takes such a sound state to such a sound state.
-/

namespace RainOS.Fs

open BlockStore Function Multiset

variable {sb : Superblock} {clean q : Prop} {g : Ghost} {L T : Multiset Slot} {ip dp cwd : Slot} {P : State → Prop}
  {p : Fin nproc} {s : State} {α : Type} {x : M α} {k : Proc → Proc} {type : Nat}

/-- No call is running: each process has the reference to its current directory. -/
def resting (cwds : Fin nproc → Option Slot) : Ghost := ⟨∅, fun _ => .zero, cwds, cwds⟩

def Idle (sb : Superblock) (s : State) : Prop := ∃ cwds, InvF sb (resting cwds) 0 0 s

theorem Inv.idle (h : Inv sb g 0 0 s) (hplain : g.plain = ∅) (hclaims : g.claims = g.cwds) :
    Idle sb s := by
  obtain ⟨plain, files, cwds, claims⟩ := g
  obtain rfl : plain = ∅ := hplain
  obtain rfl : claims = cwds := hclaims
  exact ⟨claims, files, h⟩

/-- The state of a call that process `p` makes with current directory `cwd`. -/
structure Home (p : Fin nproc) (cwd : Slot) (g : Ghost) : Prop where
  plain : g.plain = ∅
  claims : g.claims = g.cwds
  cwd : g.cwds p = some cwd

namespace Home

theorem covers (h : Home p cwd g) (T : Multiset Slot) : Covers g 0 T := by
  rintro x (hx | hx)
  · exact absurd hx (notMem_zero x)
  · rw [h.plain] at hx
    exact absurd hx (Set.notMem_empty x)

theorem holds (h : Home p cwd g) (T : Multiset Slot) : 0 < holders g T cwd :=
  holders_pos_of_claim (p := p) (by rw [h.claims, h.cwd])

theorem idle (h : Home p cwd g) (hs : Inv sb g 0 0 s) : Idle sb s :=
  hs.idle h.plain h.claims

theorem spec (h : Home p cwd g) (hx : Spec sb clean (Inv sb g 0 0) x fun _ => Inv sb g 0 0) :
    Spec sb clean (Inv sb g 0 0) x fun _ => Idle sb := hx.post fun _ _ hs => h.idle hs

end Home

instance : Nonempty { g : Ghost // Home p cwd g } :=
  ⟨⟨⟨∅, fun _ => .zero, fun _ => some cwd, fun _ => some cwd⟩, rfl, rfl, rfl⟩⟩

theorem getProc_spec (p : Fin nproc) : Spec sb clean P (getProc p) fun proc s => P s ∧ proc = s.procs p :=
  Triple.bind Triple.get fun _ => .pure fun _ hs => ⟨hs.1, by rw [hs.2]⟩

theorem currentDir_spec (p : Fin nproc) : Spec sb clean (Idle sb) (currentDir p)
    fun cwd s => ∃ g : { g : Ghost // Home p cwd g }, Inv sb g.1 0 0 s := by
  unfold currentDir
  refine (getProc_spec p).bind fun proc => ?_
  cases hcwd : proc.cwd with
  | none => exact .throw (by decide)
  | some cwd =>
    refine .pure ?_
    rintro s ⟨⟨cwds, F, A, h⟩, rfl⟩
    have hp : cwds p = some cwd := (h.procs p).symm.trans hcwd
    exact ⟨⟨{ resting cwds with files := F }, rfl, rfl, hp⟩, A, h⟩

theorem modifyOfile_spec (hk : ∀ proc, (k proc).cwd = proc.cwd) :
    Spec sb clean (InvF sb g L T) (modifyProc p k) fun _ => InvF sb g L T := by
  simp only [modifyProc, store_eq_update]
  refine .modify (fun _ hI => hI) (fun _ hg => hg) ?_
  rintro s ⟨F, A, h⟩
  refine ⟨F, A, h.disk, h.cache, h.log, h.files, fun q => ?_⟩
  change (update s.procs p (k (s.procs p)) q).cwd = g.cwds q
  by_cases hq : q = p
  · rw [hq, update_self, hk]
    exact h.procs p
  · rw [update_of_ne hq]
    exact h.procs q

theorem argfd_spec (fd : Nat) : Spec sb clean P (argfd p fd) fun _ => P := by
  unfold argfd
  exact (getProc_spec p).bind fun proc => .pure fun _ hs => hs.1

theorem fdalloc_spec (f : Fin nfile) :
    Spec sb clean (InvF sb g L T) (fdalloc p f) fun _ => InvF sb g L T := by
  unfold fdalloc
  refine (getProc_spec p).bind fun proc => ?_
  split
  · refine .bind (.pre (modifyOfile_spec (g := g) (L := L) (T := T) fun _ => rfl)
      fun _ hs => hs.1) fun _ => ?_
    exact .pure fun _ hs => hs
  · exact .pure fun _ hs => hs.1

/-! ### Calls on open files -/

theorem covers_resting (cwds : Fin nproc → Option Slot) : Covers (resting cwds) 0 0 := by
  rintro x (hx | hx)
  · exact hx
  · exact absurd hx (Set.notMem_empty x)

theorem Spec.idle (h : ∀ cwds, Spec sb clean (InvF sb (resting cwds) 0 0) x fun _ => InvF sb (resting cwds) 0 0) :
    Spec sb clean (Idle sb) x fun _ => Idle sb :=
  Triple.of_exists fun cwds => (h cwds).post fun _ _ hs => ⟨cwds, hs⟩

theorem sysDup_spec (fd : Nat) : Spec sb clean (Idle sb) (sysDup p fd) fun _ => Idle sb := by
  refine Spec.idle fun cwds => ?_
  unfold sysDup
  refine (argfd_spec fd).bind fun r => ?_
  cases r with
  | none => exact .skip
  | some f =>
    refine (fdalloc_spec f).bind fun r => ?_
    cases r with
    | none => exact .skip
    | some fd => exact (filedup_spec f).result _

theorem sysRead_spec (hgeo : Geometry sb) (fd n : Nat) :
    Spec sb clean (Idle sb) (sysRead p fd n) fun _ => Idle sb := by
  refine Spec.idle fun cwds => ?_
  unfold sysRead
  refine (argfd_spec fd).bind fun r => ?_
  cases r with
  | none => exact .skip
  | some f => exact fileread_spec hgeo f n

theorem sysWrite_spec (hgeo : Geometry sb) (fd : Nat) (src : List UInt8) :
    Spec sb clean (Idle sb) (sysWrite p fd src) fun _ => Idle sb := by
  refine Spec.idle fun cwds => ?_
  unfold sysWrite
  refine (argfd_spec fd).bind fun r => ?_
  cases r with
  | none => exact .skip
  | some f => exact filewrite_spec hgeo f src

theorem sysClose_spec (hgeo : Geometry sb) (fd : Fin nofile) :
    Spec sb clean (Idle sb) (sysClose p fd) fun _ => Idle sb := by
  refine Spec.idle fun cwds => ?_
  unfold sysClose
  refine (argfd_spec fd).bind fun r => ?_
  cases r with
  | none => exact .skip
  | some f =>
    refine .bind (modifyOfile_spec fun _ => rfl) fun _ => ?_
    exact (fileclose_spec hgeo (covers_resting cwds) f).result _

theorem sysFstat_spec (hgeo : Geometry sb) (fd : Nat) :
    Spec sb clean (Idle sb) (sysFstat p fd) fun _ => Idle sb := by
  refine Spec.idle fun cwds => ?_
  unfold sysFstat
  refine (argfd_spec fd).bind fun r => ?_
  cases r with
  | none => exact .skip
  | some f => exact filestat_spec hgeo f

/-! ### Links -/

theorem minor_nlink (k : Nat → Nat) : Minor fun e => { e with nlink := k e.nlink } :=
  ⟨fun _ => rfl, fun _ => rfl, fun _ => rfl, fun _ => rfl, fun _ => rfl, fun _ => rfl⟩

theorem inum_spec (hip : ip ∈ T) : Spec sb clean (Inv sb g L T) (getInode ip)
    fun e s => e.inum < sb.ninodes ∧ Inv sb g L T s := by
  refine (getInode_spec ip).post ?_
  rintro e s ⟨⟨A, h⟩, rfl⟩
  exact ⟨h.cache.inRange ip (h.cache.ref_pos (holders_pos_of_mem hip)), A, h⟩

section

variable (hgeo : Geometry sb)
include hgeo

theorem linkBad_spec (hcovers : Covers g 0 0) (ip : Slot) :
    Spec sb clean (Inv sb g 0 (ip ::ₘ 0)) (linkBad ip) fun _ => Inv sb g 0 0 := by
  unfold linkBad
  refine (ilock_head_spec hgeo ip).bind fun _ => ?_
  refine (minor_spec (minor_nlink decrement)).bind fun _ => ?_
  refine (iupdate_spec hgeo (mem_cons_self ip 0)).bind fun _ => ?_
  refine (iunlockput_spec hgeo ip hcovers).bind fun _ => ?_
  exact endOp_spec hgeo

theorem sysLink_spec (old new : Path) :
    Spec sb clean (Idle sb) (sysLink p old new) fun _ => Idle sb := by
  unfold sysLink
  refine (currentDir_spec p).bind fun cwd => .of_exists fun ⟨g, hg⟩ => ?_
  refine hg.spec ?_
  refine beginOp_spec.bind fun _ => ?_
  refine ((namei_spec hgeo (hg.covers 0) cwd old).pre fun _ hs => ⟨hg.holds 0, hs⟩).bind fun r => ?_
  cases r with
  | none => exact (endOp_spec hgeo).result _
  | some ip =>
    have hip : ip ∈ ip ::ₘ (0 : Multiset Slot) := mem_cons_self ip 0
    refine (ilock_head_spec hgeo ip).bind fun _ => ?_
    refine ((getInode_spec ip).post fun _ _ hs => hs.1).bind fun e => ?_
    refine .ite (fun _ => ?_) fun _ => ?_
    · exact (iunlockput_spec hgeo ip (hg.covers 0)).bind fun _ => (endOp_spec hgeo).result _
    · refine (minor_spec (minor_nlink increment)).bind fun _ => ?_
      refine (iupdate_spec hgeo hip).bind fun _ => ?_
      refine (iunlock_spec hgeo ip).bind fun _ => ?_
      refine ((nameiparent_spec hgeo (hg.covers _) cwd new).pre
        fun _ hs => ⟨hg.holds _, hs⟩).bind fun r => ?_
      cases r with
      | none => exact (linkBad_spec hgeo (hg.covers 0) ip).result _
      | some r =>
        obtain ⟨dp, name⟩ := r
        refine ((ilock_head_spec hgeo dp).pre fun _ hs => hs.2).bind fun _ => ?_
        refine (inum_spec (mem_cons_of_mem hip)).bind fun e => ?_
        refine (dirlink_spec hgeo (mem_cons_self dp 0)
          ((hg.covers _).lock dp) name e.inum).bind fun linked => .ite (fun _ => ?_) fun _ => ?_
        · refine (iunlockput_spec hgeo dp (hg.covers _)).bind fun _ => ?_
          exact (iput_spec ip (hg.covers 0)).bind fun _ => (endOp_spec hgeo).result _
        · refine (iunlockput_spec hgeo dp (hg.covers _)).bind fun _ => ?_
          exact (linkBad_spec hgeo (hg.covers 0) ip).result _

theorem emptyDirFrom_spec (hdp : dp ∈ L) (offs : List Nat) :
    Spec sb clean (Inv sb g L T) (emptyDirFrom dp offs) fun _ => Inv sb g L T := by
  induction offs with
  | nil => exact .skip
  | cons off rest ih =>
    rw [emptyDirFrom]
    refine (readDirent_any_spec hgeo hdp off (by decide)).bind fun de => ?_
    exact .ite (fun _ => .skip) fun _ => ih

theorem isdirempty_spec (hdp : dp ∈ L) :
    Spec sb clean (Inv sb g L T) (isdirempty dp) fun _ => Inv sb g L T := by
  unfold isdirempty
  refine ((getInode_spec dp).post fun _ _ hs => hs.1).bind fun e => ?_
  exact emptyDirFrom_spec hgeo hdp _

theorem unlinkBad_spec (hcovers : Covers g 0 0) (dp : Slot) :
    Spec sb clean (Inv sb g (dp ::ₘ 0) (dp ::ₘ 0)) (unlinkBad dp) fun _ => Inv sb g 0 0 := by
  unfold unlinkBad
  exact (iunlockput_spec hgeo dp hcovers).bind fun _ => (endOp_spec hgeo).result _

theorem unlinkEntry_spec (hcovers : Covers g 0 0) (dp ip : Slot) (off : Nat) :
    Spec sb clean (fun s => direntSize ∣ off ∧ Inv sb g (ip ::ₘ dp ::ₘ 0) (ip ::ₘ dp ::ₘ 0) s)
      (unlinkEntry dp ip off) fun _ => Inv sb g 0 0 := by
  have hip : ip ∈ ip ::ₘ (0 : Multiset Slot) := mem_cons_self ip 0
  have hdp : dp ∈ dp ::ₘ ip ::ₘ (0 : Multiset Slot) := mem_cons_self dp _
  rw [cons_swap]
  unfold unlinkEntry
  refine .bind (.pre (writei_spec (g := g) (T := dp ::ₘ ip ::ₘ 0) hgeo hdp
    (List.replicate direntSize 0) off) ?_) fun r => ?_
  · rintro s ⟨hoff, hs⟩
    exact ⟨.inr (.inr ⟨hoff, List.length_replicate, lt_of_le_of_lt (Nat.zero_le _) hgeo.root⟩), hs⟩
  cases r with
  | none => exact .throw (by decide)
  | some n =>
    have hrest : Spec sb clean (Inv sb g (dp ::ₘ ip ::ₘ 0) (dp ::ₘ ip ::ₘ 0)) (do
        iunlockput dp
        modifyInode ip fun e => { e with nlink := decrement e.nlink }
        iupdate ip
        iunlockput ip
        endOp
        return true) fun _ => Inv sb g 0 0 := by
      refine (iunlockput_spec hgeo dp (hcovers.lock ip)).bind fun _ => ?_
      refine (minor_spec (minor_nlink decrement)).bind fun _ => ?_
      refine (iupdate_spec hgeo hip).bind fun _ => ?_
      exact (iunlockput_spec hgeo ip hcovers).bind fun _ => (endOp_spec hgeo).result _
    refine ((getInode_spec ip).post fun _ _ hs => hs.1).bind fun e => ?_
    refine .ite (fun _ => ?_) fun _ => hrest
    refine (minor_spec (minor_nlink decrement)).bind fun _ => ?_
    exact (iupdate_spec hgeo hdp).bind fun _ => hrest

theorem sysUnlink_spec (path : Path) :
    Spec sb clean (Idle sb) (sysUnlink p path) fun _ => Idle sb := by
  unfold sysUnlink
  refine (currentDir_spec p).bind fun cwd => .of_exists fun ⟨g, hg⟩ => ?_
  refine hg.spec ?_
  refine beginOp_spec.bind fun _ => ?_
  refine ((nameiparent_spec hgeo (hg.covers 0) cwd path).pre
    fun _ hs => ⟨hg.holds 0, hs⟩).bind fun r => ?_
  cases r with
  | none => exact (endOp_spec hgeo).result _
  | some r =>
    obtain ⟨dp, name⟩ := r
    refine ((ilock_head_spec hgeo dp).pre fun _ hs => hs.2).bind fun _ => ?_
    refine .ite (fun _ => unlinkBad_spec hgeo (hg.covers 0) dp) fun _ => ?_
    refine (dirlookup_spec hgeo (mem_cons_self dp 0) name).bind fun r => ?_
    cases r with
    | none => exact unlinkBad_spec hgeo (hg.covers 0) dp
    | some r =>
      obtain ⟨ip, off⟩ := r
      refine .bind (ilock_head_spec hgeo ip).frame fun _ => ?_
      refine ((getInode_spec ip).post fun _ _ hs => hs.1).bind fun e => ?_
      dsimp only
      refine .ite (fun _ => .throw_bind (by decide)) fun _ => ?_
      have hrest : ∀ keep : Bool, Spec sb clean (fun s => direntSize ∣ off ∧
          Inv sb g (ip ::ₘ dp ::ₘ 0) (ip ::ₘ dp ::ₘ 0) s)
          (if keep then do
            iunlockput ip
            unlinkBad dp
          else unlinkEntry dp ip off) fun _ => Inv sb g 0 0 := by
        intro keep
        refine Triple.ite (fun _ => ?_) fun _ => unlinkEntry_spec hgeo (hg.covers 0) dp ip off
        refine (Triple.pre (iunlockput_spec hgeo ip ((hg.covers 0).lock dp))
          fun _ hs => hs.2).bind fun _ => ?_
        exact unlinkBad_spec hgeo (hg.covers 0) dp
      refine .ite (fun _ => ?_) fun _ => ?_
      · exact ((isdirempty_spec hgeo (mem_cons_self ip _)).frame.map
          (k := fun empty => !empty)).bind hrest
      · exact (Triple.skip).bind hrest

end

/-! ### New inodes -/

theorem Covers.mark (h : Covers g L T) (hip : ip ∈ T) (q : Prop) : Covers (g.mark ip q) L T := by
  rintro x (hx | hx | ⟨rfl, -⟩)
  · exact h x (.inl hx)
  · exact h x (.inr hx)
  · exact hip

theorem createIn_spec (hgeo : Geometry sb) (hcovers : Covers g L T) (hne : type ≠ 0)
    (htype : type < 2 ^ 16) (dp : Slot) (name : List UInt8) (major minor : Nat) :
    Spec sb clean (Inv sb g (dp ::ₘ L) (dp ::ₘ T)) (createIn dp name type major minor)
      fun ip => Inv sb (g.mark ip (type ≠ tDir)) (ip ::ₘ L) (ip ::ₘ T) := by
  unfold createIn
  refine (ialloc_spec hgeo hne htype).bind fun ip => ?_
  have hip : ip ∈ ip ::ₘ dp ::ₘ L := mem_cons_self ip _
  have hdp : dp ∈ ip ::ₘ dp ::ₘ L := mem_cons_of_mem (mem_cons_self dp L)
  have hipT : ip ∈ ip ::ₘ dp ::ₘ T := mem_cons_self ip _
  have hdpT : dp ∈ ip ::ₘ dp ::ₘ T := mem_cons_of_mem (mem_cons_self dp T)
  have hcovers₂ : Covers (g.mark ip (type ≠ tDir)) (ip ::ₘ dp ::ₘ L) (ip ::ₘ dp ::ₘ T) :=
    ((hcovers.lock dp).lock ip).mark hipT _
  refine (ilock_head_spec hgeo ip).bind fun _ => ?_
  refine .bind (minor_spec ⟨fun _ => rfl, fun _ => rfl, fun _ => rfl, fun _ => rfl, fun _ => rfl,
    fun _ => rfl⟩) fun _ => ?_
  refine (iupdate_spec hgeo hip).bind fun _ => ?_
  have hrest : Spec sb clean (Inv sb (g.mark ip (type ≠ tDir)) (ip ::ₘ dp ::ₘ L) (ip ::ₘ dp ::ₘ T)) (do
      let e ← getInode ip
      if !(← dirlink dp name e.inum) then throw (.panic "create: dirlink")
      iunlockput dp
      return ip) fun ip => Inv sb (g.mark ip (type ≠ tDir)) (ip ::ₘ L) (ip ::ₘ T) := by
    refine (inum_spec hipT).bind fun e => ?_
    refine (dirlink_spec hgeo hdp hcovers₂ name e.inum).bind fun linked => ?_
    refine .ite (fun _ => .throw_bind (by decide)) fun _ => ?_
    rw [cons_swap ip dp L, cons_swap ip dp T]
    refine .bind (iunlockput_spec hgeo dp ?_) fun _ => .pure fun _ hs => hs
    exact (hcovers.lock ip).mark (mem_cons_self ip T) _
  refine .ite (fun _ => ?_) fun _ => hrest
  refine (minor_spec (minor_nlink increment)).bind fun _ => ?_
  refine (iupdate_spec hgeo hdp).bind fun _ => ?_
  refine (inum_spec hipT).bind fun e => ?_
  refine (dirlink_spec hgeo hip hcovers₂ dot e.inum).bind fun linked => ?_
  refine .ite (fun _ => .throw_bind (by decide)) fun _ => ?_
  refine (inum_spec hdpT).bind fun e => ?_
  refine (dirlink_spec hgeo hip hcovers₂ dotdot e.inum).bind fun linked => ?_
  exact .ite (fun _ => .throw_bind (by decide)) fun _ => hrest

/-- A locked inode that has been created or found, no directory if that was asked for. -/
def Opened (sb : Superblock) (g : Ghost) (L T : Multiset Slot) (q : Prop) (r : Option Slot) (s : State) :
    Prop :=
  match r with
  | some ip => Inv sb (g.mark ip q) (ip ::ₘ L) (ip ::ₘ T) s
  | none => Inv sb g L T s

theorem Inv.mark (h : Inv sb g L T s) (hip : ip ∈ L) (hq : q → (s.icache ip).type ≠ tDir) : Inv sb (g.mark ip q) L T s := by
  obtain ⟨A, h⟩ := h
  obtain ⟨hne, htype, -⟩ := h.cache.copy ip hip
  refine ⟨A, h.disk, h.cache.mark (fun _ => h.cache.kept ip (.inl hip)) fun hq' => ⟨hne, ?_⟩, h.log,
    h.files, h.procs⟩
  rw [← htype]
  exact hq hq'

theorem create_spec (hgeo : Geometry sb) (hcovers : Covers g L T) (hne : type ≠ 0)
    (htype : type < 2 ^ 16) (cwd : Slot) (path : Path) (major minor : Nat) :
    Spec sb clean (fun s => 0 < holders g T cwd ∧ Inv sb g L T s) (create cwd path type major minor)
      (Opened sb g L T (type ≠ tDir)) := by
  unfold create
  refine (nameiparent_spec hgeo hcovers cwd path).bind fun r => ?_
  cases r with
  | none => exact .pure fun _ hs => hs
  | some r =>
    obtain ⟨dp, name⟩ := r
    refine ((ilock_head_spec hgeo dp).pre fun _ hs => hs.2).bind fun _ => ?_
    refine (dirlookup_spec hgeo (mem_cons_self dp L) name).bind fun r => ?_
    cases r with
    | none =>
      exact (createIn_spec hgeo hcovers hne htype dp name major minor).bind
        fun ip => .pure fun _ hs => hs
    | some r =>
      obtain ⟨ip, off⟩ := r
      refine .bind (.pre (iunlockput_spec hgeo dp (hcovers.cons ip)) ?_) fun _ => ?_
      · intro s hs
        rw [cons_swap]
        exact hs.2
      refine (ilock_head_spec hgeo ip).bind fun _ => ?_
      refine (getInode_spec ip).bind fun e => ?_
      refine .ite (fun hfile => .pure ?_) fun _ => ?_
      · rintro s ⟨hs, rfl⟩
        refine hs.mark (mem_cons_self ip L) fun _ => ?_
        rw [hfile.2]
        decide
      · exact .bind (.pre (iunlockput_spec hgeo ip hcovers) fun _ hs => hs.1)
          fun _ => .pure fun _ hs => hs

theorem unmark_mark (h : Inv sb (g.mark ip q) L T s) : Inv sb g L T s :=
  h.unmark g.plain fun _ hx => .inl hx

theorem createEnd_spec (hgeo : Geometry sb) (hcovers : Covers g 0 0) (q : Prop) (r : Option Slot) :
    Spec sb clean (Opened sb g 0 0 q r) (createEnd r) fun _ => Inv sb g 0 0 := by
  cases r with
  | none =>
    unfold createEnd
    exact (endOp_spec hgeo).result _
  | some ip =>
    unfold createEnd
    exact (Triple.pre (iunlockput_spec hgeo ip hcovers) fun _ hs => unmark_mark hs).bind
      fun _ => (endOp_spec hgeo).result _

theorem sysMkdir_spec (hgeo : Geometry sb) (path : Path) :
    Spec sb clean (Idle sb) (sysMkdir p path) fun _ => Idle sb := by
  unfold sysMkdir
  refine (currentDir_spec p).bind fun cwd => .of_exists fun ⟨g, hg⟩ => ?_
  refine hg.spec (beginOp_spec.bind fun _ => ?_)
  refine ((create_spec hgeo (hg.covers 0) (by decide) (by decide) cwd path 0 0).pre
    fun _ hs => ⟨hg.holds 0, hs⟩).bind fun r => ?_
  exact createEnd_spec hgeo (hg.covers 0) _ r

theorem sysMknod_spec (hgeo : Geometry sb) (path : Path) (major minor : Nat) :
    Spec sb clean (Idle sb) (sysMknod p path major minor) fun _ => Idle sb := by
  unfold sysMknod
  refine (currentDir_spec p).bind fun cwd => .of_exists fun ⟨g, hg⟩ => ?_
  refine hg.spec (beginOp_spec.bind fun _ => ?_)
  refine ((create_spec hgeo (hg.covers 0) (by decide) (by decide) cwd path _ _).pre
    fun _ hs => ⟨hg.holds 0, hs⟩).bind fun r => ?_
  exact createEnd_spec hgeo (hg.covers 0) _ r

theorem openInode_spec (hgeo : Geometry sb) (hcovers : Covers g L T) (cwd : Slot) (path : Path)
    (omode : Nat) :
    Spec sb clean (fun s => 0 < holders g T cwd ∧ Inv sb g L T s) (openInode cwd path omode)
      (Opened sb g L T (omode ≠ 0)) := by
  unfold openInode
  refine .ite (fun _ => ?_) fun _ => ?_
  · refine (create_spec hgeo hcovers (by decide) (by decide) cwd path 0 0).post fun r s hs => ?_
    cases r with
    | none => exact hs
    | some ip =>
      have hmarked : Inv sb (g.mark ip (tFile ≠ tDir)) (ip ::ₘ L) (ip ::ₘ T) s := hs
      exact hmarked.unmark {x | x ∈ g.plain ∨ x = ip ∧ omode ≠ 0}
        fun x hx => hx.imp_right fun hx => ⟨hx.1, by decide⟩
  · refine (namei_spec hgeo hcovers cwd path).bind fun r => ?_
    cases r with
    | none => exact .pure fun _ hs => hs
    | some ip =>
      refine (ilock_head_spec hgeo ip).bind fun _ => ?_
      refine (getInode_spec ip).bind fun e => ?_
      refine .ite (fun _ => ?_) fun hdir => .pure ?_
      · exact .bind (.pre (iunlockput_spec hgeo ip hcovers) fun _ hs => hs.1)
          fun _ => .pure fun _ hs => hs
      · rintro s ⟨hs, rfl⟩
        exact hs.mark (mem_cons_self ip L) fun homode htype => hdir ⟨htype, homode⟩

/-! ### Opening -/

theorem openFile_spec {f : Fin nfile} {k : File → File} (hcovers : Covers g 0 0)
    (hk : ∀ file, (k file).type = .inode ∧ (k file).ip = ip ∧ ((k file).writable = true → q)) :
    Spec sb clean (InvF sb (g.mark ip q) 0 (ip ::ₘ 0)) (modifyFile f k) fun _ => InvF sb g 0 0 := by
  simp only [modifyFile, store_eq_update]
  refine .modify (fun _ hI => hI) (fun _ hg => hg) ?_
  rintro s ⟨F, A, h⟩
  obtain ⟨htype, hip, hwritable⟩ := hk (F f)
  refine ⟨update F f (k (F f)), A, h.disk, ?_, h.log, ?_, h.procs⟩
  · refine h.cache.ghost (fun x => ?_) (fun x hx => ?_) (fun x hx => .inl hx) fun i hi hw => ?_
    · have hset := holders_setFile { g with files := F } f (k (F f)) 0 x
      have hcons := holders_cons { g with files := F } 0 ip x
      have hiff : File.Holds x (k (F f)) ↔ x = ip := by
        rw [File.Holds, hip, eq_comm (a := x)]
        exact and_iff_right htype
      simp only [hiff] at hset
      change holders { g with files := update F f (k (F f)) } 0 x ≤
        holders { g with files := F } (ip ::ₘ 0) x
      change holders { g with files := update F f (k (F f)) } 0 x + _ = _ at hset
      omega
    · exact absurd (hcovers x hx) (notMem_zero x)
    · change NotDir A (s.icache (update F f (k (F f)) i).ip).inum
      change (update F f (k (F f)) i).type = .inode at hi
      change (update F f (k (F f)) i).writable = true at hw
      by_cases hif : i = f
      · rw [hif, update_self] at hw ⊢
        rw [hip]
        exact h.cache.plain ip (.inr ⟨rfl, hwritable hw⟩)
      · rw [update_of_ne hif] at hi hw ⊢
        exact h.cache.files i hi hw
  · change update s.ftable f (k (s.ftable f)) = update F f (k (F f))
    rw [h.files]

theorem sysOpen_spec (hgeo : Geometry sb) (path : Path) (omode : Nat) :
    Spec sb clean (Idle sb) (sysOpen p path omode) fun _ => Idle sb := by
  unfold sysOpen
  refine (currentDir_spec p).bind fun cwd => .of_exists fun ⟨g, hg⟩ => ?_
  refine beginOp_spec.bind fun _ => ?_
  refine ((openInode_spec hgeo (hg.covers 0) cwd path omode).pre
    fun _ hs => ⟨hg.holds 0, hs⟩).bind fun r => ?_
  cases r with
  | none => exact hg.spec ((endOp_spec hgeo).result _)
  | some ip =>
    obtain ⟨plain, F, cwds, claims⟩ := g
    obtain rfl : plain = ∅ := hg.plain
    obtain rfl : claims = cwds := hg.claims
    have hcovers : Covers (resting claims) 0 0 := covers_resting claims
    have hmarked : Covers ((resting claims).mark ip (omode ≠ 0)) (ip ::ₘ 0) (ip ::ₘ 0) :=
      (hcovers.lock ip).mark (mem_cons_self ip 0) _
    -- the call gives up: the inode is no longer known to be no directory
    have hbad : Spec sb clean (InvF sb ((resting claims).mark ip (omode ≠ 0)) (ip ::ₘ 0) (ip ::ₘ 0))
        (do iunlockput ip; endOp; return (none : Option (Fin nofile))) fun _ => Idle sb := by
      refine Triple.of_exists fun F => ?_
      refine (Triple.pre (iunlockput_spec (g := { resting claims with files := F }) hgeo ip
        hcovers) fun s hs => unmark_mark hs).bind fun _ => ?_
      exact ((endOp_spec hgeo).post fun _ _ hs => ⟨claims, F, hs⟩).result _
    refine (Triple.pre (filealloc_spec (g := (resting claims).mark ip (omode ≠ 0))
      (L := ip ::ₘ 0) (T := ip ::ₘ 0)) fun s hs => ⟨F, hs⟩).bind fun r => ?_
    cases r with
    | none => exact hbad
    | some f =>
      refine (fdalloc_spec f).bind fun r => ?_
      cases r with
      | none => exact (fileclose_spec hgeo hmarked f).bind fun _ => hbad
      | some fd =>
        refine (Spec.files fun _ => iunlock_spec hgeo ip).bind fun _ => ?_
        refine (Spec.files fun _ => endOp_spec hgeo).bind fun _ => ?_
        refine .result ?_ (some fd)
        refine .post (openFile_spec hcovers fun file => ⟨rfl, rfl, fun hw hzero => ?_⟩)
          fun _ _ hs => ⟨claims, hs⟩
        subst hzero
        change decide (0 &&& oWronly ≠ 0 ∨ 0 &&& oRdwr ≠ 0) = true at hw
        exact absurd hw (by decide)

/-! ### Current directories -/

theorem holders_setClaim (g : Ghost) (p : Fin nproc) (v : Option Slot) (T : Multiset Slot) (x : Slot) :
    holders { g with claims := update g.claims p v } T x + (if g.claims p = some x then 1 else 0) =
      holders g T x + if v = some x then 1 else 0 := by
  have htally := tally_update (· = some x) g.claims p v
  rw [holders, holders]
  dsimp only
  omega

theorem Inv.unclaim (h : Inv sb g L T s) (hclaim : g.claims p = some cwd) :
    Inv sb { g with claims := update g.claims p none } L (cwd ::ₘ T) s := by
  obtain ⟨A, h⟩ := h
  have hsame : ∀ x, holders { g with claims := update g.claims p none } (cwd ::ₘ T) x = holders g T x := by
    intro x
    have hset := holders_setClaim g p none T x
    have hiff : g.claims p = some x ↔ x = cwd := by
      rw [hclaim, Option.some.injEq, eq_comm]
    simp only [hiff, reduceCtorEq, if_false, Nat.add_zero] at hset
    rw [holders_cons]
    exact hset
  refine ⟨A, h.disk, ?_, h.log, h.files, h.procs⟩
  refine h.cache.ghost (fun x => (hsame x).le) (fun x hx => ?_) (fun x hx => hx) h.cache.files
  rw [hsame x]
  exact h.cache.kept x hx

theorem chdir_spec (c : Option Slot) (hk : ∀ proc, (k proc).cwd = c) (hcovers : Covers g 0 0) :
    Spec sb clean (Inv sb g 0 c.toList) (modifyProc p k)
      fun _ => Inv sb { g with cwds := update g.cwds p c, claims := update g.claims p c } 0 0 := by
  simp only [modifyProc, store_eq_update]
  refine .modify (fun _ hI => hI) (fun _ hg => hg) ?_
  rintro s ⟨A, h⟩
  refine ⟨A, h.disk, ?_, h.log, h.files, fun q => ?_⟩
  · refine h.cache.ghost (fun x => ?_) (fun x hx => ?_) (fun x hx => hx) h.cache.files
    · have hset := holders_setClaim g p c 0 x
      have hlist : holders g (c.toList : Multiset Slot) x = holders g 0 x + if c = some x then 1 else 0 := by
        cases c with
        | none =>
          change holders g 0 x = _
          rw [if_neg (Option.some_ne_none x).symm, Nat.add_zero]
        | some ip =>
          change holders g (ip ::ₘ 0) x = _
          rw [holders_cons]
          simp only [Option.some.injEq, eq_comm]
      change holders { g with claims := update g.claims p c } 0 x ≤ _
      omega
    · exact absurd (hcovers x hx) (notMem_zero x)
  · change (update s.procs p (k (s.procs p)) q).cwd = update g.cwds p c q
    by_cases hq : q = p
    · rw [hq, update_self, update_self, hk]
    · rw [update_of_ne hq, update_of_ne hq]
      exact h.procs q

theorem sysChdir_spec (hgeo : Geometry sb) (path : Path) :
    Spec sb clean (Idle sb) (sysChdir p path) fun _ => Idle sb := by
  unfold sysChdir
  refine (currentDir_spec p).bind fun cwd => .of_exists fun ⟨g, hg⟩ => ?_
  refine beginOp_spec.bind fun _ => ?_
  refine ((namei_spec hgeo (hg.covers 0) cwd path).pre fun _ hs => ⟨hg.holds 0, hs⟩).bind fun r => ?_
  cases r with
  | none => exact hg.spec ((endOp_spec hgeo).result _)
  | some ip =>
    refine (ilock_head_spec hgeo ip).bind fun _ => ?_
    refine ((getInode_spec ip).post fun _ _ hs => hs.1).bind fun e => ?_
    refine .ite (fun _ => ?_) fun _ => ?_
    · refine (iunlockput_spec hgeo ip (hg.covers 0)).bind fun _ => ?_
      exact hg.spec ((endOp_spec hgeo).result _)
    · refine (iunlock_spec hgeo ip).bind fun _ => ?_
      have hclaim : g.claims p = some cwd := by rw [hg.claims, hg.cwd]
      refine (Triple.pre (iput_spec (g := { g with claims := update g.claims p none })
        (L := 0) (T := ip ::ₘ 0) cwd (hg.covers _)) fun s hs => hs.unclaim hclaim).bind fun _ => ?_
      refine (endOp_spec hgeo).bind fun _ => ?_
      refine .result ?_ true
      refine .post (chdir_spec (some ip) (fun _ => rfl) (hg.covers 0)) fun _ s hs => ?_
      refine hs.idle hg.plain ?_
      change update (update g.claims p none) p (some ip) = update g.cwds p (some ip)
      rw [update_idem, hg.claims]

/-! ### Processes -/

theorem fork_spec (child : Fin nproc) : Spec sb clean (Idle sb) (fork p child) fun _ => Idle sb := by
  unfold fork
  refine (currentDir_spec p).bind fun cwd => .of_exists fun ⟨g, hg⟩ => ?_
  refine ((getProc_spec p).post fun _ _ hs => hs.1).bind fun proc => ?_
  refine ((getProc_spec child).post fun _ _ hs => hs.1).bind fun proc' => ?_
  refine .ite (fun _ => .pure fun _ hs => hg.idle hs) fun _ => ?_
  refine .bind (.pre (.forM (P := InvF sb g 0 0) fun fd _ => ?_)
    fun s hs => ⟨g.files, hs⟩) fun _ => ?_
  · split
    · exact .skip
    · exact (filedup_spec _).bind fun _ => modifyOfile_spec fun _ => rfl
  · refine Triple.of_exists fun F => ?_
    refine (Triple.pre (idup_spec cwd) fun s hs =>
      (⟨holders_pos_of_claim (p := p) (by rw [← hg.cwd, ← hg.claims]), hs⟩ :
        0 < holders { g with files := F } 0 cwd ∧ _)).bind fun cwd' => ?_
    refine Triple.post (Triple.pre (chdir_spec (g := { g with files := F }) (p := child) (some cwd')
      (fun _ => rfl) (hg.covers 0)) ?_) fun _ s hs => ?_
    · rintro s ⟨rfl, hs⟩
      exact hs
    · refine hs.idle hg.plain ?_
      change update g.claims child (some cwd') = update g.cwds child (some cwd')
      rw [hg.claims]

theorem exit_spec (hgeo : Geometry sb) : Spec sb clean (Idle sb) (exit p) fun _ => Idle sb := by
  unfold exit
  refine .ite (fun _ => .throw_bind (by decide)) fun _ => ?_
  refine .bind (.forM fun fd _ => ?_) fun _ => ?_
  · refine ((getProc_spec p).post fun _ _ hs => hs.1).bind fun proc => ?_
    split
    · exact .skip
    · refine Spec.idle fun cwds => ?_
      exact (fileclose_spec hgeo (covers_resting cwds) _).bind fun _ => modifyOfile_spec fun _ => rfl
  · refine (currentDir_spec p).bind fun cwd => .of_exists fun ⟨g, hg⟩ => ?_
    have hclaim : g.claims p = some cwd := by rw [hg.claims, hg.cwd]
    refine beginOp_spec.bind fun _ => ?_
    refine (Triple.pre (iput_spec (g := { g with claims := update g.claims p none })
      (L := 0) (T := 0) cwd (hg.covers _)) fun s hs => hs.unclaim hclaim).bind fun _ => ?_
    refine (endOp_spec hgeo).bind fun _ => ?_
    refine .post (chdir_spec none (fun _ => rfl) (hg.covers 0)) fun _ s hs => ?_
    refine hs.idle hg.plain ?_
    change update (update g.claims p none) p none = update g.cwds p none
    rw [update_idem, hg.claims]

theorem exec_spec (hgeo : Geometry sb) (path : Path) (reads : List (Nat × Nat)) :
    Spec sb clean (Idle sb) (exec p path reads) fun _ => Idle sb := by
  unfold exec
  refine (currentDir_spec p).bind fun cwd => .of_exists fun ⟨g, hg⟩ => ?_
  refine hg.spec (beginOp_spec.bind fun _ => ?_)
  refine ((namei_spec hgeo (hg.covers 0) cwd path).pre fun _ hs => ⟨hg.holds 0, hs⟩).bind fun r => ?_
  cases r with
  | none => exact endOp_spec hgeo
  | some ip =>
    refine (ilock_head_spec hgeo ip).bind fun _ => ?_
    refine (Triple.forM fun r _ =>
      (readi_spec hgeo (mem_cons_self ip 0) r.1 r.2).discard).bind fun _ => ?_
    exact (iunlockput_spec hgeo ip (hg.covers 0)).bind fun _ => endOp_spec hgeo

theorem Inv.leak (h : Inv sb g 0 T s) (hcovers : Covers g 0 0) : Inv sb g 0 0 s := by
  obtain ⟨A, h⟩ := h
  refine ⟨A, h.disk, ?_, h.log, h.files, h.procs⟩
  refine h.cache.ghost (fun x => ?_) (fun x hx => ?_) (fun x hx => hx) h.cache.files
  · rw [holders, holders, count_zero]
    omega
  · exact absurd (hcovers x hx) (notMem_zero x)

theorem exFileRead_spec (hgeo : Geometry sb) (path : Path) (location : Nat) :
    Spec sb clean (Idle sb) (exFileRead p path location) fun _ => Idle sb := by
  unfold exFileRead
  refine (currentDir_spec p).bind fun cwd => .of_exists fun ⟨g, hg⟩ => ?_
  refine ((namei_spec hgeo (hg.covers 0) cwd path).pre fun _ hs => ⟨hg.holds 0, hs⟩).bind fun r => ?_
  cases r with
  | none => exact .throw (by decide)
  | some ip =>
    have hbmap : ∀ bn, Spec sb clean (Inv sb g (ip ::ₘ 0) (ip ::ₘ 0)) (bmap ip bn)
        fun _ => Inv sb g (ip ::ₘ 0) (ip ::ₘ 0) := by
      intro bn
      refine .pre (.of_exists fun t =>
        (bmap_spec hgeo (mem_cons_self ip 0) bn t).post ?_) fun s hs => ⟨_, hs, rfl⟩
      rintro b s ⟨A, h, -⟩
      exact ⟨A, h⟩
    refine (ilock_head_spec hgeo ip).bind fun _ => ?_
    refine ((getInode_spec ip).post fun _ _ hs => hs.1).bind fun e => ?_
    refine (Triple.mapM fun bn _ => hbmap bn).bind fun blocks => ?_
    refine (hbmap _).bind fun last => ?_
    refine (iunlock_spec hgeo ip).bind fun _ => ?_
    exact .pure fun _ hs => hg.idle (hs.leak (hg.covers 0))

theorem syscall_spec (hgeo : Geometry sb) (p : Fin nproc) (c : Syscall) :
    Spec sb clean (Idle sb) (syscall p c) fun _ => Idle sb := by
  unfold syscall
  cases c with
  | dup fd => exact (sysDup_spec fd).discard
  | read fd n => exact (sysRead_spec hgeo fd n).discard
  | write fd src => exact (sysWrite_spec hgeo fd src).discard
  | close fd => exact (sysClose_spec hgeo fd).discard
  | fstat fd => exact (sysFstat_spec hgeo fd).discard
  | link old new => exact (sysLink_spec hgeo old new).discard
  | unlink path => exact (sysUnlink_spec hgeo path).discard
  | «open» path omode => exact (sysOpen_spec hgeo path omode).discard
  | mkdir path => exact (sysMkdir_spec hgeo path).discard
  | mknod path major minor => exact (sysMknod_spec hgeo path major minor).discard
  | chdir path => exact (sysChdir_spec hgeo path).discard
  | fork child => exact fork_spec child
  | exit => exact exit_spec hgeo
  | exec path reads => exact exec_spec hgeo path reads
  | exFileRead path location => exact (exFileRead_spec hgeo path location).discard

end RainOS.Fs
