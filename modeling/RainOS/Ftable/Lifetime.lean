import Mathlib.Data.Fintype.BigOperators
import Mathlib.Tactic.FinCases
import RainOS.Ftable.Steps

/-!
# The life of open files and pipes

Every step of `sys_open`, `sys_dup`, `sys_close`, `sys_pipe`, `fork` and `exit` keeps the accounts of the references, also
where files, descriptors or pages run out. When no call is under way this gives the number of descriptors for each open
file, the open ends of each pipe, and that a pipe's page is freed once, with its last descriptor.
-/

namespace RainOS.Ftable

open Function Finset

variable {nfile nofile page : Nat} {P : Type} [Fintype P] [DecidableEq P] {s t s' : State nfile nofile P}
  {p np first : P} {f : Fin nfile} {q : Proc nfile nofile P} {a : Action nofile P}

theorem inv_userinit (nfile nofile : Nat) (first : P) : Inv (userinit nfile nofile first) := by
  have hholds : ∀ p f, ((userinit nfile nofile first).proc p).holds f = 0 := by
    intro p f
    have hslots : slots ((userinit nfile nofile first).proc p).ofile f = 0 := tally_eq_zero fun _ hnone => nomatch hnone
    rw [Proc.holds_in_call rfl rfl rfl, hslots]
    rfl
  have hcount : ∀ page writable,
      endCount (userinit nfile nofile first).ftable (userinit nfile nofile first).proc page writable = 0 := by
    intro page writable
    have hpending : pending (userinit nfile nofile first).proc page writable = 0 := sum_eq_zero fun _ _ => rfl
    unfold endCount
    rw [hpending, tally_eq_zero fun f => File.not_isEnd (by nofun)]
  refine ⟨⟨⟨fun f => ?_, fun _ _ => rfl, nofun, nofun⟩, fun page writable => ?_, nofun, fun _ => rfl⟩, ?_⟩
  · exact (sum_eq_zero fun p _ => hholds p f).symm
  · rw [hcount]
    rfl
  · exact ⟨fun _ _ => ⟨rfl, rfl⟩, fun _ _ _ => rfl, nofun, nofun, nofun, fun _ hne => absurd rfl hne⟩

theorem inv_of_reachable (h : (system nfile nofile first).Reachable s) : Inv s := by
  refine System.Reachable.invariant ?_ ?_ h
  · rintro _ rfl
    exact inv_userinit nfile nofile first
  · intro t a t' ht hstep
    have hsafe := step_safe ht a
    rw [hstep] at hsafe
    exact hsafe

/-- A page is freed at most once in a step, and is then out of use. -/
def Frees (s s' : State nfile nofile P) : Prop :=
  ∀ page, s'.kfrees page = s.kfrees page ∨ (s'.kfrees page = s.kfrees page + 1 ∧ s'.inUse page = false)

omit [Fintype P] [DecidableEq P] in
theorem filedup_kfrees (h : filedup s f = .ok t) : t.kfrees = s.kfrees := by
  rw [filedup] at h
  split at h <;> cases h
  rfl

omit [Fintype P] in
theorem run_frees {page : Option Nat} (hstep : run s p page = some (.ok s')) : Frees s s' := by
  rw [run] at hstep
  split at hstep
  · split at hstep
    · rename_i t more hclose
      cases hstep
      have hsame : t.kfrees = s.kfrees := by
        rw [fileclose] at hclose
        split at hclose
        · cases hclose
        · split at hclose <;> cases hclose <;> rfl
      exact fun a => .inl (congrFun hsame a)
    · cases hstep
  · rename_i a writable rest hwork
    cases hstep
    intro b
    rw [pipeclose_eq]
    split
    · change update s.kfrees a (s.kfrees a + 1) b = _ ∨ (update s.kfrees a (s.kfrees a + 1) b = _ ∧ update s.inUse a false b = _)
      by_cases hb : b = a
      · subst hb
        exact .inr ⟨update_self .., update_self ..⟩
      · exact .inl (update_of_ne hb ..)
    · exact .inl rfl
  · split at hstep
    · cases hstep
    · split at hstep <;> cases hstep <;> exact fun _ => .inl rfl
    · cases hstep
      exact fun _ => .inl rfl
    · split at hstep
      · cases hstep
        exact fun _ => .inl rfl
      · rename_i halloc
        obtain ⟨-, rfl⟩ := filealloc_some halloc
        cases hstep
        exact fun _ => .inl rfl
    · split at hstep
      · cases hstep
        exact fun _ => .inl rfl
      · split at hstep <;> cases hstep
        exact fun _ => .inl rfl
    · dsimp only at hstep
      split at hstep
      · cases hstep
        exact fun _ => .inl rfl
      · split at hstep <;> cases hstep <;> exact fun _ => .inl rfl
    · split at hstep <;> cases hstep <;> exact fun _ => .inl rfl
    · split at hstep
      · split at hstep
        · cases hstep
          exact fun _ => .inl rfl
        · split at hstep
          · cases hstep
          · rename_i t hdup
            cases hstep
            exact fun a => .inl (congrFun (filedup_kfrees hdup) a)
      · cases hstep
        exact fun _ => .inl rfl
    · split at hstep
      · split at hstep <;> cases hstep <;> exact fun _ => .inl rfl
      · cases hstep
        exact fun _ => .inl rfl
    · split at hstep <;> cases hstep
      exact fun _ => .inl rfl

omit [Fintype P] in
theorem step_frees (hstep : step s a = some (.ok s')) : Frees s s' := by
  have hsame : s'.kfrees = s.kfrees → Frees s s' := fun h b => .inl (congrFun h b)
  cases a with
  | run p page => exact run_frees hstep
  | «open» p omode | pipe p =>
    rw [step] at hstep
    split at hstep
    · split at hstep
      · cases hstep
        exact hsame rfl
      · rename_i halloc
        obtain ⟨-, rfl⟩ := filealloc_some halloc
        cases hstep
        exact hsame rfl
    · cases hstep
  | dup p fd =>
    rw [step] at hstep
    split at hstep
    · split at hstep
      · cases hstep
        exact hsame rfl
      · split at hstep
        · cases hstep
          exact hsame rfl
        · split at hstep
          · rename_i hdup
            cases hstep
            exact hsame (filedup_kfrees hdup :)
          · cases hstep
    · cases hstep
  | close p fd =>
    rw [step] at hstep
    split at hstep
    · split at hstep <;> cases hstep <;> exact hsame rfl
    · cases hstep
  | fork p np | exit p | wait q =>
    rw [step] at hstep
    split at hstep <;> cases hstep
    exact hsame rfl

def AtRest (s : State nfile nofile P) : Prop := ∀ p, (s.proc p).work = [] ∧ (s.proc p).pc = .idle

/-- The number of descriptors, of all processes, that lead to a file. -/
def descriptorsOf (s : State nfile nofile P) (f : Fin nfile) : Nat :=
  tally (· = some f) fun d : P × Fin nofile => (s.proc d.1).ofile d.2

omit [DecidableEq P] in
theorem ref_at_rest (h : Inv s) (hrest : AtRest s) (f : Fin nfile) : (s.ftable f).ref = descriptorsOf s f := by
  rw [h.accounts.refs.ref, owed, descriptorsOf, tally, Fintype.sum_prod_type]
  refine sum_congr rfl fun p _ => ?_
  rw [Proc.holds_in_call (hrest p).1 (hrest p).2 rfl]
  rfl

omit [DecidableEq P] in
theorem endCount_at_rest (hrest : AtRest s) (page : Nat) (writable : Bool) :
    endCount s.ftable s.proc page writable = tally (File.IsEnd page writable) s.ftable := by
  have hpending : pending s.proc page writable = 0 := sum_eq_zero fun p _ => by rw [(hrest p).1]; rfl
  rw [endCount, hpending]
  rfl

omit [DecidableEq P] in
theorem isOpen_at_rest (h : Inv s) (hrest : AtRest s) (huse : s.inUse page = true) (writable : Bool) :
    (s.pipe page).isOpen writable = true ↔ ∃ f, 0 < (s.ftable f).ref ∧ (s.ftable f).IsEnd page writable := by
  have hcount := h.accounts.ends.count_eq page writable
  rw [endCount_at_rest hrest] at hcount
  constructor
  · intro hopen
    rw [if_pos ⟨huse, hopen⟩] at hcount
    obtain ⟨f, hf⟩ := exists_of_tally_pos (by rw [hcount]; exact Nat.one_pos)
    refine ⟨f, Nat.pos_of_ne_zero fun hzero => ?_, hf⟩
    exact nomatch (h.accounts.refs.closed f hzero).symm.trans hf.1
  · rintro ⟨f, -, hend⟩
    have hpos := tally_pos (p := File.IsEnd page writable) hend
    by_contra hclosed
    rw [if_neg (fun hno => hclosed hno.2)] at hcount
    omega

omit [DecidableEq P] in
theorem inUse_at_rest (h : Inv s) (hrest : AtRest s) (page : Nat) :
    s.inUse page = true ↔
      ∃ p fd f, (s.proc p).ofile fd = some f ∧ (s.ftable f).type = .pipe ∧ (s.ftable f).pipe = page := by
  constructor
  · intro huse
    obtain ⟨writable, hopen⟩ := h.accounts.ends.isOpen page huse
    obtain ⟨f, hpos, htype, hpage, -⟩ := (isOpen_at_rest h hrest huse writable).mp hopen
    rw [ref_at_rest h hrest] at hpos
    obtain ⟨⟨p, fd⟩, hfd⟩ := exists_of_tally_pos hpos
    exact ⟨p, fd, f, hfd, htype, hpage⟩
  · rintro ⟨p, fd, f, hfd, htype, hpage⟩
    have hpos : 0 < tally (File.IsEnd page (s.ftable f).writable) s.ftable := tally_pos (i := f) ⟨htype, hpage, rfl⟩
    rw [← endCount_at_rest hrest] at hpos
    exact (h.accounts.ends.inUse_of_count page _ hpos).1

theorem freed_unused (h : Inv s) (hstep : step s a = some (.ok s')) (hfreed : s'.kfrees page ≠ s.kfrees page) :
    s'.kfrees page = s.kfrees page + 1 ∧ s'.inUse page = false ∧
      ∀ f, ¬ ((s'.ftable f).type = .pipe ∧ (s'.ftable f).pipe = page) := by
  obtain ⟨hone, hunused⟩ := (step_frees hstep page).resolve_left hfreed
  have hsafe := step_safe h a
  rw [hstep] at hsafe
  have hinv : Inv s' := hsafe
  refine ⟨hone, hunused, fun f hf => ?_⟩
  have hpos := tally_pos (p := File.IsEnd page (s'.ftable f).writable) (f := s'.ftable) ⟨hf.1, hf.2, rfl⟩
  have huse := (hinv.accounts.ends.inUse_of_count page (s'.ftable f).writable (by rw [endCount]; omega)).1
  exact Bool.false_ne_true (hunused.symm.trans huse)

/-- When no call is under way, the `ref` of each open file is the number of descriptors for it, an end of a pipe is open if
there is an open file for it, and the page of a pipe has been freed as often as it was given to `pipealloc`, except for a
pipe that still has a descriptor. It is freed in a step after which no open file is an end of the pipe. -/
theorem files_at_rest {first : P} (h : (system nfile nofile first).Reachable s) :
    (AtRest s →
      (∀ f, (s.ftable f).ref = descriptorsOf s f ∧ ((s.ftable f).ref = 0 → (s.ftable f).type = .none)) ∧
      (∀ page, s.inUse page = true →
        ((s.pipe page).writeopen = true ↔ ∃ f, 0 < (s.ftable f).ref ∧ (s.ftable f).type = .pipe ∧
          (s.ftable f).pipe = page ∧ (s.ftable f).writable = true) ∧
        ((s.pipe page).readopen = true ↔ ∃ f, 0 < (s.ftable f).ref ∧ (s.ftable f).type = .pipe ∧
          (s.ftable f).pipe = page ∧ (s.ftable f).readable = true)) ∧
      ∀ page,
        ((∃ p fd f, (s.proc p).ofile fd = some f ∧ (s.ftable f).type = .pipe ∧ (s.ftable f).pipe = page) →
          s.inUse page = true ∧ s.kallocs page = s.kfrees page + 1) ∧
        ((¬ ∃ p fd f, (s.proc p).ofile fd = some f ∧ (s.ftable f).type = .pipe ∧ (s.ftable f).pipe = page) →
          s.inUse page = false ∧ s.kallocs page = s.kfrees page)) ∧
    ∀ a s' page, step s a = some (.ok s') → s'.kfrees page ≠ s.kfrees page →
      s'.kfrees page = s.kfrees page + 1 ∧ s'.inUse page = false ∧
        ∀ f, ¬ ((s'.ftable f).type = .pipe ∧ (s'.ftable f).pipe = page) := by
  have hinv := inv_of_reachable h
  refine ⟨fun hrest => ⟨fun f => ⟨ref_at_rest hinv hrest f, hinv.accounts.refs.closed f⟩, fun page huse => ⟨?_, ?_⟩,
    fun page => ⟨fun hdesc => ?_, fun hnone => ?_⟩⟩, fun a s' page hstep hfreed => freed_unused hinv hstep hfreed⟩
  · exact isOpen_at_rest hinv hrest huse true
  · refine (isOpen_at_rest hinv hrest huse false).trans (exists_congr fun f => and_congr_right fun _ =>
      and_congr_right fun htype => and_congr_right fun _ => ?_)
    rw [hinv.accounts.refs.sides f htype]
    simp
  · have huse := (inUse_at_rest hinv hrest page).mpr hdesc
    have hgiven := hinv.accounts.ends.given page
    rw [if_pos huse] at hgiven
    exact ⟨huse, hgiven⟩
  · have hunused := Bool.not_eq_true _ ▸ mt (inUse_at_rest hinv hrest page).mp hnone
    have hgiven := hinv.accounts.ends.given page
    rw [if_neg (by rw [hunused]; nofun)] at hgiven
    exact ⟨hunused, hgiven⟩

/-- The first process makes a pipe and forks, and both processes close its readable end. -/
theorem files_at_rest_run : ∃ s : State 3 3 (Fin 2), (system 3 3 0).Reachable s ∧ AtRest s ∧
    (s.ftable 1).ref = descriptorsOf s 1 ∧ (s.ftable 1).ref = 2 ∧ s.kfrees 7 = 0 := by
  obtain ⟨s, hs, htest⟩ := System.exists_reachable_of_follow (fun _ _ => True) step (userinit 3 3 (0 : Fin 2))
    [.pipe 0, .run 0 none, .run 0 (some 7), .run 0 none, .fork 0 1, .run 0 (some 0), .run 0 none, .run 0 none, .run 0 none,
      .run 0 none, .close 0 0, .run 0 none, .close 1 0, .run 1 none, .run 1 none]
    (fun s => (s.proc 0).free && (s.proc 1).free && (s.ftable 1).ref == 2 && s.kfrees 7 == 0) (by decide +kernel)
  have hreach : (system 3 3 0).Reachable s := System.Reachable.of_restrict hs
  simp only [Bool.and_eq_true, beq_iff_eq] at htest
  have hrest : AtRest s := by
    intro p
    fin_cases p
    · exact (Proc.free_iff.mp htest.1.1.1).2
    · exact (Proc.free_iff.mp htest.1.1.2).2
  exact ⟨s, hreach, hrest, ((files_at_rest hreach).1 hrest).1 1 |>.1, htest.1.2, htest.2⟩

end RainOS.Ftable
