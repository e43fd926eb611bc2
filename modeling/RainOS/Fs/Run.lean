import RainOS.Fs.SyscallSpec

/-!
# Runs of the file system

Power on, boot, and then system calls of any processes in any order, until one of them stops the
kernel. If the disk was sound at the start, and every call of `balloc` has found a free data block or
none on the whole disk, the disk is sound after every call.
-/

namespace RainOS.Fs

open BlockStore Function List

def powerOn (disk : Nat → Block) : State where
  blk := disk
  held := []
  log := ⟨⟨0, 0⟩, 0, false, []⟩
  icache _ := .zero
  ftable _ := .zero
  procs _ := ⟨none, fun _ => none⟩
  input := []
  ballocs := []
  iputs := []
  iunlocks := []

structure Kernel where
  state : State
  halt : Option Halt

inductive Action
  | call (p : Fin nproc) (c : Syscall)
  | typed (input : List UInt8)

def act : Action → M Unit
  | .call p c => syscall p c
  | .typed input => modify fun s => { s with input := s.input ++ input }

def after (x : M Unit) (s : State) : Kernel :=
  match x s with
  | .ok _ s' => ⟨s', none⟩
  | .error e s' => ⟨s', some e⟩

def step (k : Kernel) (a : Action) : Option (Except Empty Kernel) :=
  match k.halt with
  | none => some (.ok (after (act a) k.state))
  | some _ => none

def system (disk : Nat → Block) : System Kernel Action := .ofStep (after boot (powerOn disk)) step

/-- What a disk is like that nothing is wrong with: sound, and with an empty log. -/
structure Consistent (sb : Superblock) (disk : Nat → Block) : Prop where
  geometry : Geometry sb
  sound : DiskSound sb (dinodeAt disk) disk
  log : headCount (disk sb.logStart) = 0

variable {sb : Superblock} {clean : Prop} {A : Table} {g : Ghost} {L T : Multiset Slot} {disk : Nat → Block}
  {k : Kernel} {ip : Slot}

theorem readHead_spec :
    Spec sb clean (fun s => Sound sb A g L T s ∧ headCount (s.blk sb.logStart) = 0) readHead
      fun _ s => Copied sb A g L T s.log s.log.lh.length s := by
  unfold readHead
  refine getLog_spec.bind fun l => ?_
  refine (bread_spec (fun _ _ hs => hs) _).bind fun buf => ?_
  refine .bind (Q := fun _ s => Copied sb A g L T s.log s.log.lh.length s)
    (.modify (fun _ hI => hI) (fun _ hg => hg) ?_) fun _ =>
      brelse_spec (fun _ _ hs => ⟨hs.sound, hs.log, hs.copied⟩) buf
  rintro s ⟨⟨⟨h, hempty⟩, rfl⟩, -, hdata⟩
  have hnil : headSectors buf.data = [] := by
    rw [headSectors, hdata, h.log.start, hempty]
    rfl
  change Copied sb A g L T { s.log with lh := headSectors buf.data } (headSectors buf.data).length
    { s with log := { s.log with lh := headSectors buf.data } }
  rw [hnil]
  exact ⟨⟨h.disk, h.cache, ⟨h.log.start, fun x hx => (nomatch hx)⟩, h.files, h.procs⟩, rfl,
    fun j x hj => absurd hj (Nat.not_lt_zero j)⟩

theorem recoverFromLog_spec (hgeo : Geometry sb) :
    Spec sb clean (fun s => Sound sb A g L T s ∧ headCount (s.blk sb.logStart) = 0) recoverFromLog
      fun _ => Sound sb A g L T := by
  unfold recoverFromLog
  refine readHead_spec.bind fun _ => ?_
  have hinstall : ∀ l, Spec sb clean (Copied sb A g L T l l.lh.length) installTrans
      fun _ => Sound sb A g L T := fun l => (installTrans_spec l).post fun _ _ hs => hs.sound
  refine ((Triple.of_exists hinstall).pre fun s hs => ⟨s.log, hs⟩).bind fun _ => ?_
  exact setLh_spec.bind fun _ => writeHead_sound_spec hgeo

def rootSlot : Slot := ⟨0, ninode_pos⟩

def rootCached : Slot → Inode :=
  store (fun _ => .zero) rootSlot { Inode.zero with inum := rootino, ref := 1 }

def rootCwds : Fin nproc → Option Slot := update (fun _ => none) initproc (some rootSlot)

theorem iget_powerOn (disk : Nat → Block) :
    iget rootino (powerOn disk) = .ok rootSlot { powerOn disk with icache := rootCached } := by
  unfold iget
  rfl

theorem rootCached_of_ne (h : ip ≠ rootSlot) : rootCached ip = .zero := by
  rw [rootCached, store_eq_update, update_of_ne h]

theorem rootCached_idle (ip : Slot) : (rootCached ip).busy = false ∧ (rootCached ip).valid = false := by
  by_cases hip : ip = rootSlot
  · rw [hip]
    exact ⟨rfl, rfl⟩
  · rw [rootCached_of_ne hip]
    exact ⟨rfl, rfl⟩

theorem eq_rootSlot_of_ref (h : 0 < (rootCached ip).ref) : ip = rootSlot := by
  by_contra hne
  rw [rootCached_of_ne hne] at h
  exact absurd h (by decide)

theorem holders_rootCwds (ip : Slot) : (holders (resting rootCwds) 0 ip : Int) = (rootCached ip).ref := by
  have hfiles : tally (File.Holds ip) (fun _ : Fin nfile => File.zero) = 0 :=
    Finset.sum_eq_zero fun _ _ => if_neg fun h => nomatch h.1
  have hnone : tally (· = some ip) (fun _ : Fin nproc => none) = 0 :=
    Finset.sum_eq_zero fun _ _ => if_neg fun h => nomatch h
  have hclaims := tally_update (· = some ip) (fun _ : Fin nproc => none) initproc (some rootSlot)
  rw [hnone, if_neg (nofun : ¬ (none = some ip))] at hclaims
  change ((tally (File.Holds ip) (fun _ : Fin nfile => File.zero) + tally (· = some ip) rootCwds + 0 : Nat) :
    Int) = _
  rw [hfiles, rootCwds, ← Nat.add_zero (tally _ (update _ _ _)), hclaims]
  by_cases hip : ip = rootSlot
  · rw [hip]
    rfl
  · rw [rootCached_of_ne hip, if_neg fun h => hip (Option.some.inj h).symm]
    rfl

theorem cacheSound_rootCached (hgeo : Geometry sb) (A : Table) :
    CacheSound sb A (resting rootCwds) 0 0 rootCached := by
  refine ⟨Multiset.nodup_zero, fun ip => ?_, fun ip => ?_, fun ip => (holders_rootCwds ip).le, ?_, ?_, ?_,
    fun ip hip => absurd hip (Multiset.notMem_zero ip), fun ip hip => absurd hip (Set.notMem_empty ip),
    fun f hf => nomatch hf⟩
  · simp [(rootCached_idle ip).1]
  · simp [(rootCached_idle ip).2]
  · rintro ip (hip | hip)
    · exact absurd hip (Multiset.notMem_zero ip)
    · exact absurd hip (Set.notMem_empty ip)
  · intro ip ip' hip hip' _
    rw [eq_rootSlot_of_ref hip, eq_rootSlot_of_ref hip']
  · intro ip hip
    rw [eq_rootSlot_of_ref hip]
    exact hgeo.root

theorem initlog_spec (hgeo : Geometry sb) :
    Spec sb clean
      (fun s => headCount (s.blk sb.logStart) = 0 ∧ SoundParts sb A g L T s.blk s.icache
        ⟨⟨sb.logStart, sb.nlog⟩, s.log.outstanding, s.log.committing, s.log.lh⟩ s.ftable s.procs) initlog
      fun _ => Sound sb A g L T := by
  unfold initlog
  refine (readsb_spec fun _ _ hs => hs).bind fun sb' => ?_
  refine .bind (.modify (fun _ hI => hI) (fun _ hg => hg) ?_) fun _ =>
    recoverFromLog_spec hgeo
  rintro s ⟨⟨hempty, h⟩, hsb⟩
  rw [h.disk.super] at hsb
  subst hsb
  exact ⟨⟨h.disk, h.cache, h.log, h.files, h.procs⟩, hempty⟩

structure Good (sb : Superblock) (clean : Prop) (k : Kernel) : Prop where
  always : Always sb clean k.state
  idle : k.halt = none → Guard sb clean k.state → Idle sb k.state
  tame : ∀ e, k.halt = some e → Tame e

theorem good_after {x : M Unit} {s : State}
    (h : Ends x s (fun _ s' => Always sb clean s' ∧ (Guard sb clean s' → Idle sb s'))
      fun e s' => Always sb clean s' ∧ Tame e) : Good sb clean (after x s) := by
  rw [after]
  rw [Ends] at h
  split at h
  · rename_i heq
    rw [heq]
    exact ⟨h.1, fun _ => h.2, nofun⟩
  · rename_i heq
    rw [heq]
    exact ⟨h.1, nofun, fun e he => Option.some.inj he ▸ h.2⟩

theorem good_boot (hgeo : Geometry sb) (hdisk : clean → Consistent sb disk) :
    Good sb clean (after boot (powerOn disk)) := by
  apply good_after
  unfold boot
  refine .after_ok (iget_powerOn disk) (.after_ok (modify_run _ _) ?_)
  refine (initlog_spec (A := dinodeAt disk) (g := resting rootCwds) (L := 0) (T := 0) hgeo _ ?_
    fun hg => ⟨(hdisk hg.1).log, (hdisk hg.1).sound, cacheSound_rootCached hgeo _,
      ⟨rfl, fun _ hx => absurd hx not_mem_nil⟩, rfl, fun p => ?_⟩).post ?_
  · refine ⟨fun ip hvalid => ?_, fun _ hc => absurd hc not_mem_nil, fun _ l₁ c l₂ hcalls => ?_⟩
    · rw [(rootCached_idle ip).2] at hvalid
      cases hvalid
    · exact absurd hcalls.symm (append_ne_nil_of_right_ne_nil l₁ (cons_ne_nil c l₂))
  · change (store (powerOn disk).procs initproc _ p).cwd = update (fun _ => none) initproc _ p
    rw [store_eq_update]
    by_cases hp : p = initproc
    · rw [hp, update_self, update_self]
    · rw [update_of_ne hp, update_of_ne hp]
      rfl
  · intro _ s hs
    exact ⟨hs.1, fun hg => ⟨rootCwds, _, _, (hs.2 hg).2⟩⟩

theorem act_spec (hgeo : Geometry sb) (a : Action) : Spec sb clean (Idle sb) (act a) fun _ => Idle sb := by
  cases a with
  | call p c => exact syscall_spec hgeo p c
  | typed input => exact .modify (fun _ hI => hI) (fun _ hg => hg) fun _ hs => hs

theorem good_of_reachable (clean : Prop) (hgeo : Geometry sb) (hdisk : clean → Consistent sb disk)
    (hk : (system disk).Reachable k) : Good sb clean k := by
  refine hk.invariant ?_ ?_
  · rintro k rfl
    exact good_boot hgeo hdisk
  · intro k a k' hk hstep
    change step k a = _ at hstep
    rw [step] at hstep
    split at hstep
    · rename_i hrunning
      obtain rfl := Except.ok.inj (Option.some.inj hstep)
      refine good_after ((act_spec hgeo a k.state hk.always (hk.idle hrunning)).mono ?_ ?_)
      · exact fun _ _ hend => ⟨hend.1, fun hg => (hend.2 hg).2⟩
      · exact fun _ _ hend => hend
    · cases hstep

end RainOS.Fs
