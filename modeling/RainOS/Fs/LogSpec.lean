import RainOS.Fs.DirSpec

/-!
# Specifications of transactions

A commit copies the blocks of the transaction to the log and from there home again. Read through the
cache this changes blocks of the log region only, so it keeps a sound state sound.
-/

namespace RainOS.Fs

open BlockStore Function

variable {sb : Superblock} {clean : Prop} {A : Table} {g : Ghost} {L T : Multiset Slot} {P Q : State → Prop}
  {i j x : Nat} {l : Log} {s : State}

theorem getLog_spec : Spec sb clean P getLog fun l s => P s ∧ l = s.log :=
  Triple.bind Triple.get fun _ => .pure fun _ hs => ⟨hs.1, by rw [hs.2]; rfl⟩

theorem bwrite_run (s : State) (b : Buf) : (bwrite b : M Buf) s =
    if b.sector ∉ s.held then .error (.panic "bwrite") s
    else .ok { b with dirty := false } { s with blk := update s.blk b.sector b.data } := by
  by_cases h : b.sector ∈ s.held
  · simp [bwrite, h, store_eq_update]
  · simp [bwrite, h]

theorem bwrite_spec (b : Buf) (h : ∀ s, P s → Q { s with blk := update s.blk b.sector b.data }) :
    Spec sb clean P (bwrite b) fun _ => Q := by
  intro s hI hG
  by_cases hheld : b.sector ∉ s.held
  · exact .of_run_error ((bwrite_run s b).trans (if_pos hheld)) ⟨hI, by decide⟩
  · exact .of_run_ok ((bwrite_run s b).trans (if_neg hheld)) ⟨hI, fun hg => ⟨hg, h s (hG hg)⟩⟩

theorem modifyLog_spec {f : State → Log} (hstart : ∀ s, (f s).start = s.log.start)
    (hlh : ∀ s, (f s).lh = s.log.lh) :
    Spec sb clean (Inv sb g L T) (modify fun s => { s with log := f s }) fun _ => Inv sb g L T := by
  refine .modify (fun _ hI => hI) (fun _ hg => hg) ?_
  rintro s ⟨A, h⟩
  exact ⟨A, h.disk, h.cache, ⟨(hstart s).trans h.log.start, fun x hx => h.log.home x (hlh s ▸ hx)⟩,
    h.files, h.procs⟩

/-- The first `i` blocks of the transaction have been copied to the log. -/
structure Copied (sb : Superblock) (A : Table) (g : Ghost) (L T : Multiset Slot) (l : Log) (i : Nat)
    (s : State) : Prop where
  sound : Sound sb A g L T s
  log : s.log = l
  copied : ∀ j x, j < i → l.lh[j]? = some x → s.blk (l.start + j + 1) = s.blk x

theorem Copied.start (h : Copied sb A g L T l i s) :
    l.start = sb.logStart := h.log ▸ h.sound.log.start

theorem Copied.home (h : Copied sb A g L T l i s) (hx : l.lh[j]? = some x) : x < sb.logStart :=
  h.sound.log.home x (h.log ▸ List.mem_of_getElem? hx)

theorem writeLog_spec (hgeo : Geometry sb) :
    Spec sb clean (Sound sb A g L T) writeLog
      fun _ s => Copied sb A g L T s.log s.log.lh.length s := by
  unfold writeLog
  refine getLog_spec.bind fun l => ?_
  refine (Triple.forM_zipIdx (Copied sb A g L T l) fun i x hx => ?_).mono ?_ ?_
  · refine (bread_spec (fun _ _ hs => ⟨hs.sound, hs.log, hs.copied⟩) _).bind fun toBuf => ?_
    refine (bread_spec (fun _ _ hs => ⟨⟨hs.1.sound, hs.1.log, hs.1.copied⟩, hs.2⟩) _).bind
      fun fromBuf => ?_
    refine .bind (bwrite_spec (Q := Copied sb A g L T l (i + 1)) _ ?_) fun toBuf' => ?_
    · rintro s ⟨⟨hs, hsector, -⟩, -, hdata⟩
      have hstart := hs.start
      have hhome := hs.home hx
      change Copied sb A g L T l (i + 1) { s with blk := update s.blk toBuf.sector fromBuf.data }
      rw [hsector, hdata]
      refine ⟨⟨hs.sound.disk.update_log hgeo (by omega) _, hs.sound.cache, hs.sound.log, hs.sound.files,
        hs.sound.procs⟩, hs.log, fun j y hj hy => ?_⟩
      have hhome' := hs.home hy
      change update s.blk (l.start + i + 1) (s.blk x) (l.start + j + 1) =
        update s.blk (l.start + i + 1) (s.blk x) y
      rw [update_of_ne (by omega : y ≠ l.start + i + 1)]
      by_cases hji : j = i
      · subst hji
        rw [update_self, Option.some.inj (hx.symm.trans hy)]
      · rw [update_of_ne (by omega)]
        exact hs.copied j y (by omega) hy
    · exact (brelse_spec (fun _ _ hs => ⟨hs.sound, hs.log, hs.copied⟩) fromBuf).bind
        fun _ => brelse_spec (fun _ _ hs => ⟨hs.sound, hs.log, hs.copied⟩) toBuf'
  · rintro s ⟨h, rfl⟩
    exact ⟨h, rfl, fun j x hj => absurd hj (Nat.not_lt_zero j)⟩
  · intro _ s hs
    rw [hs.log]
    exact hs

theorem writeHead_spec (hP : Blind P)
    (hsound : ∀ s, P s → s.log.start = sb.logStart)
    (h : ∀ s d, P s → P { s with blk := update s.blk sb.logStart d }) :
    Spec sb clean P writeHead fun _ => P := by
  unfold writeHead
  refine getLog_spec.bind fun l => ?_
  refine (bread_spec (fun s _ hs => ⟨hP s _ hs.1, hs.2⟩) _).bind fun buf => ?_
  refine .bind (bwrite_spec (Q := P) _ ?_) fun buf' => brelse_spec hP buf'
  rintro s ⟨⟨hs, rfl⟩, hsector, -⟩
  change P { s with blk := update s.blk buf.sector (putHead buf.data s.log.lh) }
  rw [hsector, hsound s hs]
  exact h s _ hs

theorem installTrans_spec (l : Log) :
    Spec sb clean (Copied sb A g L T l l.lh.length) installTrans
      fun _ => Copied sb A g L T l l.lh.length := by
  unfold installTrans
  refine getLog_spec.bind fun l' => ?_
  refine (Triple.forM_zipIdx (fun _ s => Copied sb A g L T l l.lh.length s ∧ l' = l)
    fun i x hx => ?_).mono ?_ fun _ _ hs => hs.1
  · refine (bread_spec (fun _ _ hs => ⟨⟨hs.1.sound, hs.1.log, hs.1.copied⟩, hs.2⟩) _).bind
      fun lbuf => ?_
    refine (bread_spec
      (fun _ _ hs => ⟨⟨⟨hs.1.1.sound, hs.1.1.log, hs.1.1.copied⟩, hs.1.2⟩, hs.2⟩) _).bind fun dbuf => ?_
    refine .bind (bwrite_spec (Q := fun s => Copied sb A g L T l l.lh.length s ∧ l' = l) _ ?_)
      fun dbuf' => ?_
    · rintro s ⟨⟨⟨hs, rfl⟩, -, hlbuf⟩, hsector, -⟩
      change Copied sb A g L T l' _ { s with blk := update s.blk dbuf.sector lbuf.data } ∧ l' = l'
      -- what is installed is what the cache has already
      have hlt : i < l'.lh.length := (List.getElem?_eq_some_iff.mp hx).1
      rw [hsector, hlbuf, hs.copied i x hlt hx, update_eq_self]
      exact ⟨hs, rfl⟩
    · refine (brelse_spec (fun _ _ hs => ⟨⟨hs.1.sound, hs.1.log, hs.1.copied⟩, hs.2⟩) lbuf).bind
        fun _ => ?_
      exact brelse_spec (fun _ _ hs => ⟨⟨hs.1.sound, hs.1.log, hs.1.copied⟩, hs.2⟩) dbuf'
  · rintro s ⟨hs, rfl⟩
    exact ⟨hs, hs.log⟩

theorem setLh_spec : Spec sb clean (Sound sb A g L T) (setLh []) fun _ => Sound sb A g L T := by
  refine .modify (fun _ hI => hI) (fun _ hg => hg) ?_
  intro s h
  exact ⟨h.disk, h.cache, ⟨h.log.start, fun x hx => (nomatch hx)⟩, h.files, h.procs⟩

theorem writeHead_sound_spec (hgeo : Geometry sb) :
    Spec sb clean (Sound sb A g L T) writeHead fun _ => Sound sb A g L T :=
  writeHead_spec blind_sound (fun _ h => h.log.start)
    fun _ d h => ⟨h.disk.update_log hgeo le_rfl d, h.cache, h.log, h.files, h.procs⟩

theorem commit_spec (hgeo : Geometry sb) :
    Spec sb clean (Inv sb g L T) commit fun _ => Inv sb g L T := by
  refine .of_exists fun A => ?_
  unfold commit
  refine getLog_spec.bind fun l => ?_
  refine .ite (fun _ => ?_) fun _ => .pure fun s hs => ⟨A, hs.1⟩
  refine ((writeLog_spec hgeo).pre fun _ hs => hs.1).bind fun _ => ?_
  have hcopied : ∀ l, Spec sb clean (Copied sb A g L T l l.lh.length)
      (do writeHead; installTrans; setLh []; writeHead) fun _ => Inv sb g L T := by
    intro l
    refine .bind (writeHead_spec (fun _ _ hs => ⟨hs.sound, hs.log, hs.copied⟩)
      (fun _ hs => hs.sound.log.start) fun s d hs => ?_) fun _ => ?_
    · have hstart := hs.start
      refine ⟨⟨hs.sound.disk.update_log hgeo le_rfl d, hs.sound.cache, hs.sound.log, hs.sound.files,
        hs.sound.procs⟩, hs.log, fun j x hj hx => ?_⟩
      have hhome := hs.home hx
      change update s.blk sb.logStart d _ = update s.blk sb.logStart d x
      rw [update_of_ne (by omega), update_of_ne (by omega)]
      exact hs.copied j x hj hx
    · refine (installTrans_spec l).bind fun _ => ?_
      refine (setLh_spec.pre fun _ hs => hs.sound).bind fun _ => ?_
      exact (writeHead_sound_spec hgeo).post fun _ _ hs => ⟨A, hs⟩
  exact (Triple.of_exists hcopied).pre fun s hs => ⟨s.log, hs⟩

theorem beginOp_spec : Spec sb clean (Inv sb g L T) beginOp fun _ => Inv sb g L T := by
  unfold beginOp
  refine getLog_spec.bind fun l => ?_
  dsimp only
  refine .ite (fun _ => .throw_bind (by decide)) fun _ =>
    Triple.ite (fun _ => .throw_bind (by decide)) fun _ => ?_
  refine .modify (fun _ hI => hI) (fun _ hg => hg) ?_
  rintro s ⟨⟨A, h⟩, rfl⟩
  exact ⟨A, h.disk, h.cache, ⟨h.log.start, h.log.home⟩, h.files, h.procs⟩

theorem endOp_spec (hgeo : Geometry sb) : Spec sb clean (Inv sb g L T) endOp fun _ => Inv sb g L T := by
  unfold endOp
  refine (modifyLog_spec (f := fun s => { s.log with outstanding := s.log.outstanding - 1 })
    (fun _ => rfl) fun _ => rfl).bind fun _ => ?_
  refine getLog_spec.bind fun l => ?_
  dsimp only
  refine .ite (fun _ => .throw_bind (by decide)) fun _ =>
    Triple.ite (fun _ => ?_) fun _ => .pure fun _ hs => hs.1
  refine .bind (Q := fun _ => Inv sb g L T) ?_ fun _ => ?_
  · refine .modify (fun _ hI => hI) (fun _ hg => hg) ?_
    rintro s ⟨⟨A, h⟩, rfl⟩
    exact ⟨A, h.disk, h.cache, ⟨h.log.start, h.log.home⟩, h.files, h.procs⟩
  · refine (commit_spec hgeo).bind fun _ => ?_
    exact modifyLog_spec (f := fun s => { s.log with committing := false }) (fun _ => rfl) fun _ => rfl

end RainOS.Fs
