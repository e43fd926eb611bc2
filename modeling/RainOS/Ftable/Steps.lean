import RainOS.Ftable.Accounts

/-!
# The calls keep the accounts

One lemma for each place in a call from which a process can go on, and for each call.
-/

namespace RainOS.Ftable

open Function List

variable {nfile nofile omode i fd : Nat} {P : Type} [Fintype P] [DecidableEq P] {s : State nfile nofile P} {p np : P}
  {f f0 f1 : Fin nfile} {q : Proc nfile nofile P}

/-- The step is refused, or keeps the invariant; it does not fail. -/
def Safe : Option (Except Halt (State nfile nofile P)) → Prop
  | none => True
  | some (.ok s) => Inv s
  | some (.error _) => False

theorem Inv.proceed (h : Inv s) {pc : Pc nfile P} (hwork : (s.proc p).work = []) (hpc : (s.proc p).pc = pc)
    (hidle : pc ≠ .idle) (hstale : pc.stale = none) (hstatus : q.status = (s.proc p).status) (hstale' : q.pc.stale = none)
    (hholds : ∀ g, slots q.ofile g + q.pc.hand.count g + (q.work.filterMap Work.file).count g =
      slots (s.proc p).ofile g + pc.hand.count g)
    (hclose : ∀ page writable, Work.pipeclose page writable ∉ q.work)
    (hunset : ∀ g ∈ q.pc.unset, g ∈ pc.unset) (hchild : q.pc.child = none) (hcleared : q.pc.cleared = 0)
    (hbusy : q.work = [] ∨ q.pc.unset = []) : Inv { s with proc := update s.proc p q } := by
  have hused : (s.proc p).status = .used := h.family.used (.inr (by rw [hpc]; exact hidle))
  refine ⟨h.accounts.setProc (fun g => ?_) (fun page writable => ?_) (by rwa [hpc]),
    h.family.leave hused (hstatus.trans hused) hchild hcleared hbusy⟩
  · rw [Proc.holds_eq hstale', hholds, Proc.holds_in_call hwork hpc hstale]
  · rw [hwork, count_eq_zero.mpr (hclose page writable)]
    rfl

section

variable (h : Inv s) (hwork : (s.proc p).work = [])
include h hwork

theorem run_filealloc (hpc : (s.proc p).pc = .filealloc f omode) (page : Option Nat) : Safe (run s p page) := by
  rw [run, hwork, hpc]
  dsimp only
  split
  · refine h.proceed hwork hpc nofun rfl rfl rfl (fun g => ?_) (by simp) nofun rfl rfl (.inr rfl)
    rfl
  · rename_i fd ofile halloc
    obtain ⟨hnone, rfl⟩ := fdalloc_some halloc
    refine h.proceed hwork hpc nofun rfl rfl rfl (fun g => ?_) (by simp [hwork]) (fun g hg => hg) rfl rfl (.inl hwork)
    dsimp only
    rw [slots_set hnone, hwork]
    rfl

theorem run_fdalloc (hpc : (s.proc p).pc = .fdalloc f omode) (page : Option Nat) : Safe (run s p page) := by
  rw [run, hwork, hpc]
  have hused := h.family.used (.inr (by rw [hpc]; nofun))
  refine ⟨h.accounts.fill (by rw [hpc]; exact mem_cons_self) rfl rfl (fun g => ?_) rfl rfl,
    h.family.leave hused hused rfl rfl (.inr rfl)⟩
  rw [Proc.holds_in_call hwork hpc rfl]
  exact Proc.holds_at hwork rfl g

theorem run_one (hpc : (s.proc p).pc = .one f0) (page : Option Nat) : Safe (run s p page) := by
  rw [run, hwork, hpc]
  have hused := h.family.used (.inr (by rw [hpc]; nofun))
  dsimp only
  split
  · exact h.proceed hwork hpc nofun rfl rfl rfl (fun g => rfl) (by simp) nofun rfl rfl (.inr rfl)
  · rename_i f1 s' halloc
    obtain ⟨hfree, rfl⟩ := filealloc_some halloc
    refine ⟨h.accounts.filealloc hfree (fun g => ?_) rfl ?_, h.family.leave hused hused rfl rfl (.inl hwork)⟩
    · rw [Proc.holds_in_call hwork hpc rfl, Nat.add_assoc, ← count_append]
      exact Proc.holds_at hwork rfl g
    · rw [hpc]
      rfl

theorem run_both (hpc : (s.proc p).pc = .both f0 f1) (page : Option Nat) : Safe (run s p page) := by
  rw [run, hwork, hpc]
  have hused := h.family.used (.inr (by rw [hpc]; nofun))
  cases page with
  | none => exact h.proceed hwork hpc nofun rfl rfl rfl (fun g => rfl) (by simp) nofun rfl rfl (.inr rfl)
  | some page =>
    dsimp only
    split
    · exact trivial
    · rename_i hfree
      refine ⟨h.accounts.pipealloc (Bool.not_eq_true _ ▸ hfree) hpc (fun g => ?_) rfl rfl,
        h.family.leave hused hused rfl rfl (.inr rfl)⟩
      rw [Proc.holds_in_call hwork hpc rfl]
      exact Proc.holds_at hwork rfl g

theorem run_pipealloc (hpc : (s.proc p).pc = .pipealloc f0 f1) (page : Option Nat) : Safe (run s p page) := by
  rw [run, hwork, hpc]
  dsimp only
  split
  · exact h.proceed hwork hpc nofun rfl rfl rfl (fun g => rfl) (by simp) nofun rfl rfl (.inr rfl)
  · rename_i fd0 ofile hfirst
    obtain ⟨hnone, rfl⟩ := fdalloc_some hfirst
    split
    · refine h.proceed hwork hpc nofun rfl rfl rfl (fun g => ?_) (by simp) nofun rfl rfl (.inr rfl)
      dsimp only
      rw [update_idem, update_eq_self_iff.mpr hnone.symm]
      rfl
    · rename_i fd1 ofile hsecond
      obtain ⟨hnone', rfl⟩ := fdalloc_some hsecond
      refine h.proceed hwork hpc nofun rfl rfl rfl (fun g => ?_) (by simp [hwork]) nofun rfl rfl (.inl hwork)
      dsimp only
      rw [slots_set hnone', slots_set hnone, hwork, Nat.add_assoc (slots _ _), ← count_append]
      rfl

end

omit [Fintype P] in
theorem setProc_comm (s : State nfile nofile P) (hne : p ≠ np) (g g' : Proc nfile nofile P → Proc nfile nofile P) :
    (s.setProc np g).setProc p g' = (s.setProc p g').setProc np g := by
  simp only [State.setProc, update_of_ne hne, update_of_ne hne.symm, update_comm hne]

section

variable (h : Inv s)
include h

theorem Inv.setStatus {status : Status} (hwork : (s.proc p).work = []) (hpc : (s.proc p).pc = .idle)
    (hempty : status = .unused ∨ status = .zombie → ∀ fd, (s.proc p).ofile fd = none)
    (hparent : ∀ r j, (s.proc r).pc.child ≠ some (p, j)) :
    Inv (s.setProc p fun q => { q with status := status }) :=
  ⟨h.accounts.setProc (fun _ => rfl) (fun _ _ => rfl) fun _ hg => hg,
    h.family.settle hwork hpc hempty fun r j hr => absurd hr (hparent r j)⟩

theorem run_allocproc (hwork : (s.proc p).work = []) (hpc : (s.proc p).pc = .allocproc np)
    (page : Option Nat) : Safe (run s p page) := by
  rw [run, hwork, hpc]
  have hused := h.family.used (.inr (by rw [hpc]; nofun))
  have hchild : (s.proc p).pc.child = some (np, 0) := by rw [hpc]; rfl
  obtain ⟨hembryo, hnone⟩ := h.family.child p np 0 hchild
  have hne : p ≠ np := by
    rintro rfl
    exact nomatch hused.symm.trans hembryo
  cases page with
  | none =>
    dsimp only
    rw [setProc_comm s hne]
    have hleft : Inv (s.setProc p fun q => { q with pc := .idle }) :=
      h.proceed hwork hpc nofun rfl rfl rfl (fun g => by rw [hwork]; rfl) (by simp [hwork]) nofun rfl rfl (.inl hwork)
    obtain ⟨hnwork, hnpc⟩ := h.family.dormant np (by rw [hembryo]; nofun)
    have hnp : (s.setProc p fun q => { q with pc := .idle }).proc np = s.proc np := update_of_ne hne.symm _ _
    refine hleft.setStatus (by rw [hnp, hnwork]) (by rw [hnp, hnpc]) (fun _ fd => ?_)
      (h.family.no_child_of_leave hchild (by rfl))
    rw [hnp]
    exact hnone fd (Nat.zero_le _)
  | some _ =>
    refine ⟨h.accounts.setProc (fun g => ?_) (fun _ _ => rfl) nofun, h.family.update hused hused (fun np' i hi => ?_)
      (fun fd hfd => absurd hfd (Nat.not_lt_zero _)) fun _ => rfl⟩
    · rw [Proc.holds_in_call hwork hpc rfl]
      exact Proc.holds_at hwork rfl g
    · cases hi
      exact ⟨0, le_rfl, hchild⟩

theorem Inv.receive {fd : Fin nofile} (hembryo : (s.proc np).status = .embryo)
    (hfd : (s.proc np).ofile fd = none) (hparent : ∀ r j, (s.proc r).pc.child = some (np, j) → fd.val < j)
    (hapart : ∀ r, r ≠ np → f ∉ (s.proc r).pc.unset) :
    Inv ((s.setFile f fun g => { g with ref := g.ref + 1 }).setProc np fun q =>
      { q with ofile := update q.ofile fd (some f) }) := by
  obtain ⟨hwork, hpc⟩ := h.family.dormant np (by rw [hembryo]; nofun)
  refine ⟨h.accounts.filedup hapart (Proc.holds_receive hwork hpc hfd f) rfl (congrArg Pc.unset hpc),
    h.family.settle hwork hpc (fun hstatus => ?_) fun r j hr => ⟨hembryo, fun fd' hfd' => ?_⟩⟩
  · change (s.proc np).status = .unused ∨ (s.proc np).status = .zombie at hstatus
    rw [hembryo] at hstatus
    exact hstatus.elim nofun nofun
  · have hlt := hparent r j hr
    change update (s.proc np).ofile fd (some f) fd' = none
    rw [update_of_ne (Fin.ne_of_val_ne (by omega))]
    exact (h.family.child r np j hr).2 fd' hfd'

theorem run_pass (hwork : (s.proc p).work = []) (hpc : (s.proc p).pc = .pass np i)
    (page : Option Nat) : Safe (run s p page) := by
  rw [run, hwork, hpc]
  have hused := h.family.used (.inr (by rw [hpc]; nofun))
  have hchild : (s.proc p).pc.child = some (np, i) := by rw [hpc]; rfl
  obtain ⟨hembryo, hnone⟩ := h.family.child p np i hchild
  have hne : p ≠ np := by
    rintro rfl
    exact nomatch hused.symm.trans hembryo
  dsimp only
  split
  · rename_i hi
    have hnext : Inv (s.setProc p fun q => { q with pc := .pass np (i + 1) }) := by
      refine ⟨h.accounts.setProc (fun g => ?_) (fun _ _ => rfl) nofun, h.family.update hused hused (fun np' j hj => ?_)
        (fun fd hfd => absurd hfd (Nat.not_lt_zero _)) fun _ => rfl⟩
      · rw [Proc.holds_in_call hwork hpc rfl]
        exact Proc.holds_at hwork rfl g
      · cases hj
        exact ⟨i, Nat.le_succ i, hchild⟩
    split
    · exact hnext
    · rename_i f hf
      have hheld : 0 < (s.proc p).holds f := by
        rw [Proc.holds_in_call hwork hpc rfl]
        have := slots_pos hf
        omega
      have hnp : (s.setProc p fun q => { q with pc := .pass np (i + 1) }).proc np = s.proc np := update_of_ne hne.symm _ _
      rw [filedup, if_neg (h.accounts.refs.ref_pos hheld)]
      dsimp only
      rw [setProc_comm _ hne]
      refine hnext.receive (hnp ▸ hembryo) (hnp ▸ hnone ⟨i, hi⟩ le_rfl) (fun r j hr => ?_) fun r _ => ?_
      · change (update s.proc p _ r).pc.child = some (np, j) at hr
        by_cases hrp : r = p
        · subst hrp
          rw [update_self] at hr
          cases hr
          exact Nat.lt_succ_self i
        · rw [update_of_ne hrp] at hr
          exact absurd (h.family.distinct r p np j i hr hchild) hrp
      · change f ∉ (update s.proc p _ r).pc.unset
        by_cases hrp : r = p
        · subst hrp
          rw [update_self]
          nofun
        · rw [update_of_ne hrp]
          exact h.accounts.refs.apart hrp (.inr hheld)
  · obtain ⟨hnwork, hnpc⟩ := h.family.dormant np (by rw [hembryo]; nofun)
    rw [setProc_comm s hne]
    have hleft : Inv (s.setProc p fun q => { q with pc := .idle }) :=
      h.proceed hwork hpc nofun rfl rfl rfl (fun g => by rw [hwork]; rfl) (by simp [hwork]) nofun rfl rfl (.inl hwork)
    have hnp : (s.setProc p fun q => { q with pc := .idle }).proc np = s.proc np := update_of_ne hne.symm _ _
    exact hleft.setStatus (by rw [hnp, hnwork]) (by rw [hnp, hnpc]) (fun hstatus => hstatus.elim nofun nofun)
      (h.family.no_child_of_leave hchild (by rfl))

theorem run_exit (hwork : (s.proc p).work = []) (hpc : (s.proc p).pc = .exit fd)
    (page : Option Nat) : Safe (run s p page) := by
  rw [run, hwork, hpc]
  have hused := h.family.used (.inr (by rw [hpc]; nofun))
  have hcleared : ∀ j : Fin nofile, j.val < fd → (s.proc p).ofile j = none := by
    intro j hj
    exact h.family.cleared p j (by rw [hpc]; exact hj)
  dsimp only
  split
  · rename_i hfd
    split
    · rename_i hnone
      refine ⟨h.accounts.setProc (fun g => ?_) (fun _ _ => rfl) nofun, h.family.update hused hused nofun
        (fun j hj => ?_) fun _ => rfl⟩
      · rw [Proc.holds_in_call hwork hpc rfl]
        exact Proc.holds_at hwork rfl g
      · change j.val < fd + 1 at hj
        by_cases heq : j = ⟨fd, hfd⟩
        · subst heq
          exact hnone
        · exact hcleared j (by have := Fin.val_ne_of_ne heq; dsimp only at this; omega)
    · rename_i f hf
      refine ⟨h.accounts.setProc (fun g => ?_) (fun _ _ => ?_) nofun, h.family.update hused hused nofun hcleared fun _ => rfl⟩
      · rw [Proc.holds_in_call hwork hpc rfl, Proc.holds_closing ⟨fd, hfd⟩ rfl]
        exact slots_clear hf g
      · rw [hwork]
        rfl
  · rename_i hfd
    refine ⟨h.accounts.setProc (fun g => ?_) (fun _ _ => rfl) nofun, h.family.settle hwork rfl (fun _ j => ?_)
      fun r j hr => absurd hr (h.family.no_parent (by rw [hused]; nofun) r j)⟩
    · rw [Proc.holds_in_call hwork hpc rfl]
      exact Proc.holds_at hwork rfl g
    · exact hcleared j (by omega)

theorem run_closing (hwork : (s.proc p).work = []) (hpc : (s.proc p).pc = .closing fd)
    (page : Option Nat) : Safe (run s p page) := by
  rw [run, hwork, hpc]
  have hused := h.family.used (.inr (by rw [hpc]; nofun))
  dsimp only
  split
  · rename_i hfd
    refine ⟨h.accounts.setProc (fun g => ?_) (fun _ _ => rfl) nofun, h.family.update hused hused nofun
      (fun j hj => ?_) fun _ => rfl⟩
    · rw [Proc.holds_closing ⟨fd, hfd⟩ hpc, Proc.holds_eq rfl]
      rfl
    · change j.val < fd + 1 at hj
      change update (s.proc p).ofile ⟨fd, hfd⟩ none j = none
      by_cases heq : j = ⟨fd, hfd⟩
      · rw [heq, update_self]
      · rw [update_of_ne heq]
        have hne := Fin.val_ne_of_ne heq
        exact h.family.cleared p j (by rw [hpc]; dsimp only at hne; change j.val < fd; omega)
  · exact trivial

theorem run_safe (p : P) (page : Option Nat) : Safe (run s p page) := by
  cases hwork : (s.proc p).work with
  | nil =>
    cases hpc : (s.proc p).pc with
    | idle =>
      rw [run, hwork, hpc]
      exact trivial
    | filealloc f omode => exact run_filealloc h hwork hpc page
    | fdalloc f omode => exact run_fdalloc h hwork hpc page
    | one f0 => exact run_one h hwork hpc page
    | both f0 f1 => exact run_both h hwork hpc page
    | pipealloc f0 f1 => exact run_pipealloc h hwork hpc page
    | allocproc np => exact run_allocproc h hwork hpc page
    | pass np i => exact run_pass h hwork hpc page
    | exit fd => exact run_exit h hwork hpc page
    | closing fd => exact run_closing h hwork hpc page
  | cons w rest =>
    have hne : (s.proc p).work ≠ [] := by rw [hwork]; exact cons_ne_nil _ _
    rw [run, hwork]
    cases w with
    | fileclose f =>
      obtain ⟨s', more, hclose, hinv⟩ := h.fileclose hwork
      dsimp only
      rw [hclose]
      exact hinv
    | pipeclose page writable =>
      have hused := h.family.used (.inl hne)
      have hunset := h.family.busy p hne
      have hproc : (pipeclose s page writable).proc = s.proc := by
        rw [pipeclose_eq]
        split <;> rfl
      change Inv ((pipeclose s page writable).setProc p fun q => { q with work := rest })
      rw [State.setProc, hproc]
      refine ⟨h.accounts.pipeclose hwork rfl (fun g => ?_) hunset, h.family.update hused hused
        (fun np i hi => ⟨i, le_rfl, hi⟩) (h.family.cleared p) fun _ => hunset⟩
      rw [Proc.holds, Proc.holds, hwork]
      rfl

theorem filealloc_safe (hfree : (s.proc p).free = true) {pc : Fin nfile → Pc nfile P}
    (hstale : ∀ f, (pc f).stale = none) (hhand : ∀ f, (pc f).hand = [f]) (hunset : ∀ f, (pc f).unset = [f])
    (hchild : ∀ f, (pc f).child = none) (hcleared : ∀ f, (pc f).cleared = 0) :
    Safe (match filealloc s with
      | none => some (.ok s)
      | some (f, s) => some (.ok (s.setProc p fun q => { q with pc := pc f }))) := by
  obtain ⟨hused, hwork, hpc⟩ := Proc.free_iff.mp hfree
  split
  · exact h
  · rename_i f s' halloc
    obtain ⟨hzero, rfl⟩ := filealloc_some halloc
    refine ⟨h.accounts.filealloc hzero (fun g => ?_) rfl (by rw [hpc]; exact hunset f),
      h.family.leave hused hused (hchild f) (hcleared f) (.inl hwork)⟩
    rw [Proc.holds_in_call hwork hpc rfl, ← hhand]
    exact Proc.holds_at hwork (hstale f) g

theorem dup_safe (p : P) (fd : Fin nofile) : Safe (step s (.dup p fd)) := by
  rw [step]
  split
  · rename_i hfree
    obtain ⟨hused, hwork, hpc⟩ := Proc.free_iff.mp hfree
    split
    · exact h
    · rename_i f hf
      split
      · exact h
      · rename_i fd' ofile halloc
        obtain ⟨hnone, rfl⟩ := fdalloc_some halloc
        have hheld : 0 < (s.proc p).holds f := by
          rw [Proc.holds_in_call hwork hpc rfl]
          have := slots_pos hf
          omega
        have href : ¬ ((s.setProc p fun q => { q with ofile := update (s.proc p).ofile fd' (some f) }).ftable f).ref < 1 :=
          h.accounts.refs.ref_pos hheld
        rw [filedup, if_neg href]
        exact ⟨h.accounts.filedup (fun r hr => h.accounts.refs.apart hr (.inr hheld))
          (Proc.holds_receive hwork hpc hnone f) rfl (congrArg Pc.unset hpc),
          h.family.leave hused hused (congrArg Pc.child hpc) (congrArg Pc.cleared hpc) (.inl hwork)⟩
  · exact trivial

theorem close_safe (p : P) (fd : Fin nofile) : Safe (step s (.close p fd)) := by
  rw [step]
  split
  · rename_i hfree
    obtain ⟨hused, hwork, hpc⟩ := Proc.free_iff.mp hfree
    split
    · exact h
    · rename_i f hf
      refine ⟨h.accounts.setProc (Proc.holds_give hwork hpc hf) (fun _ _ => ?_) (fun g hg => hg),
        h.family.leave hused hused (congrArg Pc.child hpc) (congrArg Pc.cleared hpc) (.inr (congrArg Pc.unset hpc))⟩
      rw [hwork]
      rfl
  · exact trivial

theorem fork_safe (p np : P) : Safe (step s (.fork p np)) := by
  rw [step]
  split
  · rename_i hcond
    obtain ⟨hused, hwork, hpc⟩ := Proc.free_iff.mp hcond.1
    obtain ⟨hnwork, hnpc⟩ := h.family.dormant np (by rw [hcond.2]; nofun)
    have hne : p ≠ np := by
      rintro rfl
      exact nomatch hused.symm.trans hcond.2
    have horphan := h.family.no_parent (p := np) (by rw [hcond.2]; nofun)
    have hembryo : Inv (s.setProc np fun q => { q with status := .embryo }) :=
      h.setStatus hnwork hnpc (fun hstatus => hstatus.elim nofun nofun) horphan
    have hp : (s.setProc np fun q => { q with status := .embryo }).proc p = s.proc p := update_of_ne hne _ _
    have hstill : ∀ r j, ((s.setProc np fun q => { q with status := .embryo }).proc r).pc.child ≠ some (np, j) := by
      intro r j
      change (update s.proc np _ r).pc.child ≠ _
      by_cases hr : r = np
      · subst hr
        rw [update_self]
        exact horphan r j
      · rw [update_of_ne hr]
        exact horphan r j
    rw [← hp] at hused hwork hpc
    refine ⟨hembryo.accounts.setProc (fun g => ?_) (fun _ _ => rfl) nofun, hembryo.family.set (fun hq => absurd hused hq)
      (fun hq => ?_) (fun r j hr => absurd hr (hembryo.family.no_parent (by rw [hused]; nofun) r j)) (fun np' i hi => ?_)
      (fun fd hfd => absurd hfd (Nat.not_lt_zero _)) fun _ => rfl⟩
    · rw [Proc.holds_in_call hwork hpc rfl]
      exact Proc.holds_at hwork rfl g
    · exact hq.elim (fun hq => nomatch hused.symm.trans hq) fun hq => nomatch hused.symm.trans hq
    · cases hi
      refine ⟨hne.symm, ?_, fun fd _ => ?_, fun r j hr => absurd hr (hstill r j)⟩
      · exact congrArg Proc.status (update_self np _ s.proc)
      · exact (congrFun (congrArg Proc.ofile (update_self np _ s.proc)) fd).trans (h.family.empty np (.inl hcond.2) fd)
  · exact trivial

theorem step_safe (a : Action nofile P) : Safe (step s a) := by
  cases a with
  | «open» p omode =>
    rw [step]
    split
    · rename_i hfree
      exact filealloc_safe h hfree (fun _ => rfl) (fun _ => rfl) (fun _ => rfl) (fun _ => rfl) (fun _ => rfl)
    · exact trivial
  | dup p fd => exact dup_safe h p fd
  | close p fd => exact close_safe h p fd
  | pipe p =>
    rw [step]
    split
    · rename_i hfree
      exact filealloc_safe h hfree (fun _ => rfl) (fun _ => rfl) (fun _ => rfl) (fun _ => rfl) (fun _ => rfl)
    · exact trivial
  | fork p np => exact fork_safe h p np
  | exit p =>
    rw [step]
    split
    · rename_i hfree
      obtain ⟨hused, hwork, hpc⟩ := Proc.free_iff.mp hfree
      refine ⟨h.accounts.setProc (fun g => ?_) (fun _ _ => rfl) nofun, h.family.leave hused hused rfl rfl (.inr rfl)⟩
      rw [Proc.holds_in_call hwork hpc rfl]
      exact Proc.holds_at hwork rfl g
    · exact trivial
  | wait q =>
    rw [step]
    split
    · rename_i hzombie
      obtain ⟨hwork, hpc⟩ := h.family.dormant q (by rw [hzombie]; nofun)
      exact h.setStatus hwork hpc (fun _ => h.family.empty q (.inr hzombie))
        (h.family.no_parent (by rw [hzombie]; nofun))
    · exact trivial
  | run p page => exact run_safe h p page

end

end RainOS.Ftable
