import RainOS.Ftable.Refs

/-!
# The accounts of files and pipes

What each section does to the accounts of the references and of the ends of the pipes.
-/

namespace RainOS.Ftable

open Function List

variable {nfile nofile : Nat} {P : Type} {f0 f1 : Fin nfile}

theorem Proc.free_iff {q : Proc nfile nofile P} : q.free = true ↔ q.status = .used ∧ q.work = [] ∧ q.pc = .idle := by
  obtain ⟨status, ofile, work, pc⟩ := q
  cases status <;> cases work <;> cases pc <;> simp [Proc.free]

theorem holds_of_work {q : Proc nfile nofile P} {f : Fin nfile} {more rest : List (Work nfile)} (hwork : q.work = .fileclose f :: rest)
    (hmore : more.filterMap Work.file = []) (g : Fin nfile) :
    ({ q with work := more ++ rest } : Proc nfile nofile P).holds g + [f].count g = q.holds g := by
  have hfiles : q.work.filterMap Work.file = [f] ++ rest.filterMap Work.file := by rw [hwork]; rfl
  have hnew : (more ++ rest).filterMap Work.file = rest.filterMap Work.file := by
    rw [filterMap_append, hmore, nil_append]
  rw [Proc.holds, Proc.holds, hfiles, count_append, hnew]
  change slots q.descriptors g + q.pc.hand.count g + _ + _ = _
  omega

def Pipe.close (p : Pipe) (writable : Bool) : Pipe :=
  if writable then { p with writeopen := false } else { p with readopen := false }

theorem Pipe.isOpen_close (p : Pipe) (writable other : Bool) :
    (p.close writable).isOpen other = if other = writable then false else p.isOpen other := by
  cases writable <;> cases other <;> rfl

theorem Pipe.closed_iff (p : Pipe) : (p.readopen = false ∧ p.writeopen = false) ↔ ∀ writable, p.isOpen writable = false := by
  rw [Bool.forall_bool]
  rfl

theorem pipeclose_eq (s : State nfile nofile P) (page : Nat) (writable : Bool) :
    pipeclose s page writable =
      if ∀ other, ((s.pipe page).close writable).isOpen other = false then
        kfree { s with pipe := update s.pipe page ((s.pipe page).close writable) } page
      else { s with pipe := update s.pipe page ((s.pipe page).close writable) } := by
  rw [pipeclose]
  change (if ((s.pipe page).close writable).readopen = false ∧ ((s.pipe page).close writable).writeopen = false
    then _ else _) = _
  simp only [Pipe.closed_iff]
  rfl

theorem File.not_isEnd {g : File} {page : Nat} {writable : Bool} (h : g.type ≠ .pipe) : ¬ g.IsEnd page writable :=
  fun hend => h hend.1

def File.asEnd (g : File) (page : Nat) (writable : Bool) : File :=
  { g with type := .pipe, readable := !writable, writable := writable, pipe := page }

theorem File.isEnd_asEnd (g : File) (page a : Nat) (writable b : Bool) :
    (g.asEnd page writable).IsEnd a b ↔ a = page ∧ b = writable := by
  simp [File.IsEnd, File.asEnd, eq_comm]

theorem pipealloc_ftable (s : State nfile nofile P) (page : Nat) (hne : f1 ≠ f0) :
    (pipealloc s page f0 f1).ftable =
      update (update s.ftable f0 ((s.ftable f0).asEnd page false)) f1 ((s.ftable f1).asEnd page true) := by
  change update (update s.ftable f0 ((s.ftable f0).asEnd page false)) f1
    ((update s.ftable f0 ((s.ftable f0).asEnd page false) f1).asEnd page true) = _
  rw [update_of_ne hne]

theorem tally_asEnd {ftable : Fin nfile → File} (hne : f1 ≠ f0) (h0 : (ftable f0).type = .none)
    (h1 : (ftable f1).type = .none) (page a : Nat) (b : Bool) :
    tally (File.IsEnd a b) (update (update ftable f0 ((ftable f0).asEnd page false)) f1 ((ftable f1).asEnd page true)) =
      tally (File.IsEnd a b) ftable + if a = page then 1 else 0 := by
  have hfirst := tally_update (File.IsEnd a b) ftable f0 ((ftable f0).asEnd page false)
  have hsecond := tally_update (File.IsEnd a b) (update ftable f0 ((ftable f0).asEnd page false)) f1
    ((ftable f1).asEnd page true)
  rw [if_neg (File.not_isEnd (by rw [h0]; nofun))] at hfirst
  rw [update_of_ne hne, if_neg (File.not_isEnd (by rw [h1]; nofun))] at hsecond
  simp only [File.isEnd_asEnd] at hfirst hsecond
  cases b
  · simp only [and_true, reduceCtorEq, and_false, if_false] at hfirst hsecond
    omega
  · simp only [and_true, reduceCtorEq, and_false, if_false] at hfirst hsecond
    omega

theorem Proc.count_hand_le (q : Proc nfile nofile P) (f : Fin nfile) : q.pc.hand.count f ≤ q.holds f := by
  rw [Proc.holds]
  omega

section

variable {q : Proc nfile nofile P} {pc : Pc nfile P} {fd : Fin nofile}

theorem Proc.holds_in_call (hwork : q.work = []) (hpc : q.pc = pc)
    (hstale : pc.stale = none) (g : Fin nfile) : q.holds g = slots q.ofile g + pc.hand.count g := by
  subst hpc
  rw [Proc.holds_eq hstale, hwork]
  rfl

theorem Proc.holds_at (hwork : q.work = []) (hstale : pc.stale = none)
    (g : Fin nfile) : ({ q with pc := pc } : Proc nfile nofile P).holds g = slots q.ofile g + pc.hand.count g :=
  Proc.holds_in_call (q := { q with pc := pc }) hwork rfl hstale g

theorem Proc.holds_closing (fd : Fin nofile) (hpc : q.pc = .closing fd) (g : Fin nfile) :
    q.holds g = slots (update q.ofile fd none) g + (q.work.filterMap Work.file).count g := by
  have hdesc : q.descriptors = update q.ofile fd none := by
    funext j
    rw [Proc.descriptors, hpc, update_apply]
    simp only [Pc.stale, Option.some.injEq, Fin.val_inj, eq_comm]
  rw [Proc.holds, hdesc, hpc]
  rfl

theorem Proc.holds_give {f : Fin nfile} (hwork : q.work = [])
    (hpc : q.pc = .idle) (hfd : q.ofile fd = some f) (g : Fin nfile) :
    ({ q with ofile := update q.ofile fd none, work := [.fileclose f] } : Proc nfile nofile P).holds g = q.holds g := by
  have hnew := Proc.holds_eq (q := { q with ofile := update q.ofile fd none, work := [.fileclose f] })
    (congrArg Pc.stale hpc) g
  rw [hnew, Proc.holds_in_call hwork hpc rfl, ← slots_clear hfd g]
  change _ + q.pc.hand.count g + _ = _
  rw [hpc]
  rfl

theorem Proc.holds_receive (hwork : q.work = []) (hpc : q.pc = .idle) (hfd : q.ofile fd = none) (f g : Fin nfile) :
    ({ q with ofile := update q.ofile fd (some f) } : Proc nfile nofile P).holds g = q.holds g + [f].count g := by
  rw [Proc.holds_in_call hwork hpc rfl, Proc.holds_in_call (q := { q with ofile := update q.ofile fd (some f) }) hwork hpc rfl,
    slots_set hfd]
  rfl

end

variable [Fintype P] [DecidableEq P] {s : State nfile nofile P} {p np : P} {f : Fin nfile} {q : Proc nfile nofile P}

/-- The struct files for an end of a pipe, and the calls of `pipeclose` still to be made for it. -/
def endCount (ftable : Fin nfile → File) (proc : P → Proc nfile nofile P) (page : Nat) (writable : Bool) : Nat :=
  tally (File.IsEnd page writable) ftable + pending proc page writable

structure Accounts (s : State nfile nofile P) : Prop where
  refs : References s.ftable s.proc
  ends : Ends (endCount s.ftable s.proc) s.pipe s.inUse s.kallocs s.kfrees

structure Inv (s : State nfile nofile P) : Prop where
  accounts : Accounts s
  family : Family s.proc

theorem Accounts.setProc (h : Accounts s) (hholds : ∀ g, q.holds g = (s.proc p).holds g)
    (hwork : ∀ page writable, q.work.count (.pipeclose page writable) = (s.proc p).work.count (.pipeclose page writable))
    (hunset : ∀ g ∈ q.pc.unset, g ∈ (s.proc p).pc.unset) : Accounts { s with proc := update s.proc p q } := by
  refine ⟨h.refs.setProc hholds hunset, h.ends.congr fun page writable => ?_⟩
  have hpend := pending_update s.proc p q page writable
  rw [hwork] at hpend
  change tally (File.IsEnd page writable) s.ftable + pending (update s.proc p q) page writable = endCount _ _ _ _
  rw [endCount]
  omega

/-! ### Files -/

theorem endCount_update (ftable : Fin nfile → File) (proc : P → Proc nfile nofile P) (g : File) (page : Nat) (writable : Bool)
    (hend : (if g.IsEnd page writable then 1 else 0) + q.work.count (.pipeclose page writable) =
      (if (ftable f).IsEnd page writable then 1 else 0) + (proc p).work.count (.pipeclose page writable)) :
    endCount (update ftable f g) (update proc p q) page writable = endCount ftable proc page writable := by
  have htally := tally_update (File.IsEnd page writable) ftable f g
  have hpending := pending_update proc p q page writable
  rw [endCount, endCount]
  omega

theorem Accounts.filealloc (h : Accounts s) (hfree : (s.ftable f).ref = 0)
    (hholds : ∀ g, q.holds g = (s.proc p).holds g + [f].count g) (hwork : q.work = (s.proc p).work)
    (hunset : q.pc.unset = (s.proc p).pc.unset ++ [f]) :
    Accounts { s with ftable := update s.ftable f { s.ftable f with ref := 1 }, proc := update s.proc p q } := by
  have hnone := h.refs.closed f hfree
  refine ⟨h.refs.setFile (fun r hr => h.refs.apart hr (.inl hfree)) ?_ (fun f' hf => ?_) nofun (fun hpipe => ?_)
    fun f' hf => ?_, h.ends.congr fun page writable => endCount_update _ _ _ _ _ ?_⟩
  · rw [hholds, hfree, count_singleton_self]
    dsimp only
    omega
  · rw [hholds, count_singleton, if_neg (by simpa using hf.symm)]
    rfl
  · exact nomatch hnone.symm.trans hpipe
  · rw [hholds]
    rw [hunset, mem_append, mem_singleton] at hf
    rcases hf with hold | rfl
    · obtain ⟨htype, hone, hpos⟩ := h.refs.fresh p f' hold
      have hne : f' ≠ f := by
        rintro rfl
        omega
      rw [update_of_ne hne]
      exact ⟨htype, hone, by omega⟩
    · rw [update_self, count_singleton_self]
      exact ⟨hnone, rfl, by omega⟩
  · rw [hwork]
    rfl

theorem Accounts.filedup (h : Accounts s) (hapart : ∀ r, r ≠ p → f ∉ (s.proc r).pc.unset)
    (hholds : ∀ g, q.holds g = (s.proc p).holds g + [f].count g) (hwork : q.work = (s.proc p).work)
    (hunset : q.pc.unset = []) :
    Accounts { s with
      ftable := update s.ftable f { s.ftable f with ref := (s.ftable f).ref + 1 }, proc := update s.proc p q } := by
  refine ⟨h.refs.setFile hapart ?_ (fun g hg => ?_) nofun (h.refs.sides f) fun g hg => ?_,
    h.ends.congr fun page writable => endCount_update _ _ _ _ _ ?_⟩
  · rw [hholds, count_singleton_self]
    dsimp only
    omega
  · rw [hholds, count_singleton, if_neg (by simpa using hg.symm)]
    rfl
  · rw [hunset] at hg
    cases hg
  · rw [hwork]
    rfl

theorem Accounts.fill (h : Accounts s) (hf : f ∈ (s.proc p).pc.unset) {g : File} (href : g.ref = (s.ftable f).ref)
    (hinode : g.type = .inode) (hholds : ∀ g, q.holds g = (s.proc p).holds g) (hwork : q.work = (s.proc p).work)
    (hunset : q.pc.unset = []) :
    Accounts { s with ftable := update s.ftable f g, proc := update s.proc p q } := by
  obtain ⟨hnone, hone, hpos⟩ := h.refs.fresh p f hf
  refine ⟨h.refs.setFile (fun r hr => h.refs.apart hr (.inr hpos)) (by rw [hholds, href]) (fun g _ => hholds g)
    (fun hzero => ?_) (fun hpipe => nomatch hinode.symm.trans hpipe) fun g hg => ?_,
    h.ends.congr fun page writable => endCount_update _ _ _ _ _ ?_⟩
  · omega
  · rw [hunset] at hg
    cases hg
  · rw [hwork, if_neg (File.not_isEnd (by rw [hinode]; nofun)), if_neg (File.not_isEnd (by rw [hnone]; nofun))]

theorem Accounts.drop (h : Accounts s) (hholds : ∀ g, q.holds g + [f].count g = (s.proc p).holds g)
    (hmany : 1 < (s.ftable f).ref) (hunset : q.pc.unset = [])
    (hwork : ∀ page writable, q.work.count (.pipeclose page writable) = (s.proc p).work.count (.pipeclose page writable)) :
    Accounts { s with
      ftable := update s.ftable f { s.ftable f with ref := (s.ftable f).ref - 1 }, proc := update s.proc p q } := by
  have hf := hholds f
  rw [count_singleton_self] at hf
  refine ⟨h.refs.setFile (fun r hr => h.refs.apart hr (.inr (by omega))) ?_ (fun g hg => ?_) ?_ (h.refs.sides f)
    fun g hg => ?_, h.ends.congr fun page writable => endCount_update _ _ _ _ _ ?_⟩
  · dsimp only
    omega
  · rw [← hholds, count_singleton, if_neg (by simpa using hg.symm)]
    rfl
  · intro hzero
    dsimp only at hzero
    omega
  · rw [hunset] at hg
    cases hg
  · rw [hwork]
    rfl

theorem Accounts.last (h : Accounts s) (hholds : ∀ g, q.holds g + [f].count g = (s.proc p).holds g)
    (hlast : (s.ftable f).ref = 1) (hunset : q.pc.unset = [])
    (hwork : ∀ page writable, q.work.count (.pipeclose page writable) =
      (if (s.ftable f).IsEnd page writable then 1 else 0) + (s.proc p).work.count (.pipeclose page writable)) :
    Accounts { s with
      ftable := update s.ftable f { s.ftable f with ref := 0, type := .none }, proc := update s.proc p q } := by
  have hf := hholds f
  rw [count_singleton_self] at hf
  refine ⟨h.refs.setFile (fun r hr => h.refs.apart hr (.inr (by omega))) ?_ (fun g hg => ?_) (fun _ => rfl) nofun
    fun g hg => ?_, h.ends.congr fun page writable => endCount_update _ _ _ _ _ ?_⟩
  · dsimp only
    omega
  · rw [← hholds, count_singleton, if_neg (by simpa using hg.symm)]
    rfl
  · rw [hunset] at hg
    cases hg
  · rw [hwork, if_neg (fun hend => nomatch hend.1)]
    omega

theorem Inv.fileclose (h : Inv s) {rest : List (Work nfile)} (hwork : (s.proc p).work = .fileclose f :: rest) :
    ∃ s' more, Ftable.fileclose s f = .ok (s', more) ∧ Inv (s'.setProc p fun q => { q with work := more ++ rest }) := by
  have hne : (s.proc p).work ≠ [] := by rw [hwork]; exact cons_ne_nil _ _
  have hunset := h.family.busy p hne
  have hused := h.family.used (.inl hne)
  have hfamily : ∀ more, Family (update s.proc p { s.proc p with work := more ++ rest }) := fun more =>
    h.family.update hused hused (fun np i hi => ⟨i, le_rfl, hi⟩) (h.family.cleared p) fun _ => hunset
  have hpos : 0 < (s.proc p).holds f := by
    have hnil := holds_of_work hwork (rfl : ([] : List (Work nfile)).filterMap Work.file = []) f
    rw [count_singleton_self] at hnil
    omega
  have href := h.accounts.refs.ref_pos hpos
  rw [Ftable.fileclose, if_neg href]
  split
  · refine ⟨_, _, rfl, h.accounts.drop (holds_of_work hwork rfl) (by omega) hunset fun page writable => ?_, hfamily _⟩
    rw [hwork]
    rfl
  · refine ⟨_, _, rfl, h.accounts.last (holds_of_work hwork ?_) (by omega) hunset fun page writable => ?_, hfamily _⟩
    · split <;> rfl
    · change ((if (s.ftable f).type = FdType.pipe then [Work.pipeclose (s.ftable f).pipe (s.ftable f).writable] else []) ++
        rest).count (Work.pipeclose page writable) = _
      have hrest : (Work.fileclose f :: rest).count (Work.pipeclose page writable) =
          rest.count (Work.pipeclose page writable) :=
        count_cons_of_ne (by simp)
      rw [hwork, count_append, hrest]
      congr 1
      split
      · rename_i hpipe
        rw [count_singleton]
        simp [File.IsEnd, hpipe]
      · rename_i hpipe
        rw [if_neg (fun hend => hpipe hend.1)]
        rfl

/-! ### Pipes -/

section

variable (h : Accounts s) {page : Nat} {writable : Bool} {rest : List (Work nfile)}
  (hwork : (s.proc p).work = .pipeclose page writable :: rest)
include h hwork

theorem Accounts.count_close (hq : q.work = rest) :
    s.inUse page = true ∧ endCount s.ftable (update s.proc p q) page writable = 0 ∧
      ∀ a b, ¬ (a = page ∧ b = writable) →
        endCount s.ftable (update s.proc p q) a b = endCount s.ftable s.proc a b := by
  have hthis := pending_update s.proc p q page writable
  rw [hwork, hq, count_cons_self] at hthis
  have hends := h.ends.count_eq page writable
  obtain ⟨huse, hopen⟩ := h.ends.inUse_of_count page writable (by rw [endCount]; omega)
  rw [if_pos ⟨huse, hopen⟩, endCount] at hends
  refine ⟨huse, by rw [endCount]; omega, fun a b hne => ?_⟩
  have hother := pending_update s.proc p q a b
  have hab : (Work.pipeclose page writable : Work nfile) ≠ .pipeclose a b := by
    rintro ⟨⟩
    exact hne ⟨rfl, rfl⟩
  rw [hwork, hq, count_cons_of_ne hab] at hother
  rw [endCount, endCount]
  omega

theorem Accounts.pipeclose (hqwork : q.work = rest)
    (hholds : ∀ g, q.holds g = (s.proc p).holds g) (hunset : q.pc.unset = []) :
    Accounts { Ftable.pipeclose s page writable with proc := update s.proc p q } := by
  obtain ⟨huse, hzero, hother⟩ := h.count_close hwork hqwork
  have hrefs : References s.ftable (update s.proc p q) := h.refs.setProc hholds (by rw [hunset]; nofun)
  rw [pipeclose_eq]
  split
  · rename_i hboth
    refine ⟨hrefs, h.ends.free huse (fun b hb => ?_) hzero hother⟩
    have hclosed := hboth b
    rwa [Pipe.isOpen_close, if_neg hb] at hclosed
  · rename_i hsome
    refine ⟨hrefs, h.ends.close ?_ ((s.pipe page).isOpen_close writable) hzero hother⟩
    push Not at hsome
    simpa using hsome

end

/-- Both files in hand become the ends of a new pipe. -/
theorem Accounts.pipealloc (h : Accounts s) {page : Nat} (hfree : s.inUse page = false)
    (hpc : (s.proc p).pc = .both f0 f1) (hholds : ∀ g, q.holds g = (s.proc p).holds g) (hwork : q.work = (s.proc p).work)
    (hunset : q.pc.unset = []) : Accounts { Ftable.pipealloc s page f0 f1 with proc := update s.proc p q } := by
  obtain ⟨htype0, hone0, hheld0⟩ := h.refs.fresh p f0 (by rw [hpc]; exact mem_cons_self)
  obtain ⟨htype1, hone1, hheld1⟩ := h.refs.fresh p f1 (by rw [hpc]; exact mem_cons_of_mem _ mem_cons_self)
  have hne : f1 ≠ f0 := by
    rintro rfl
    have hhand := (s.proc p).count_hand_le f1
    have hle := h.refs.holds_le p f1
    rw [hpc] at hhand
    simp only [Pc.hand, count_cons_self, count_nil] at hhand
    omega
  have hnone : ∀ g : Fin nfile, g ∉ q.pc.unset := by
    rw [hunset]
    nofun
  have href : ∀ g w, (s.ftable g).ref = 1 → ((s.ftable g).asEnd page w).ref = 0 → ((s.ftable g).asEnd page w).type = .none :=
    fun g w hone hzero => absurd (hone.symm.trans hzero) Nat.one_ne_zero
  -- One file after the other: the process is in its new place after the first.
  have hfirst : References (update s.ftable f0 ((s.ftable f0).asEnd page false)) (update s.proc p q) :=
    h.refs.setFile (fun r hr => h.refs.apart hr (.inr hheld0)) (by rw [hholds]; rfl) (fun g _ => hholds g)
      (href f0 false hone0) (fun _ => rfl) fun g hg => absurd hg (hnone g)
  have hsecond : References (update (update s.ftable f0 ((s.ftable f0).asEnd page false)) f1
      ((s.ftable f1).asEnd page true)) (update (update s.proc p q) p q) := by
    refine hfirst.setFile (fun r hr => ?_) (by rw [update_self, update_of_ne hne]; rfl) (fun g _ => by rw [update_self])
      (href f1 true hone1) (fun _ => rfl) fun g hg => absurd hg (hnone g)
    rw [update_of_ne hr]
    exact h.refs.apart hr (.inr hheld1)
  rw [update_idem] at hsecond
  have hftable := pipealloc_ftable s page hne
  refine ⟨?_, h.ends.make hfree fun a b => ?_⟩
  · change References (Ftable.pipealloc s page f0 f1).ftable (update s.proc p q)
    rw [hftable]
    exact hsecond
  · have hpending := pending_update s.proc p q a b
    have htally := tally_asEnd hne htype0 htype1 page a b
    rw [hwork] at hpending
    change tally (File.IsEnd a b) (Ftable.pipealloc s page f0 f1).ftable + pending (update s.proc p q) a b =
      endCount _ _ _ _ + _
    rw [hftable, endCount]
    omega

end RainOS.Ftable
