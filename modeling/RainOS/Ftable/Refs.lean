import RainOS.Ftable.Code
import RainOS.Lib.Tally

/-!
# References to open files

At any time the `ref` of an open file is the number of descriptors that lead to it and of references that processes hold
in the middle of a call. A descriptor that `exit` has already given to `fileclose` no longer counts, and a reference on its
way to `fileclose` still does. In the same way an end of a pipe is open as long as there is an open file for it, or a
`pipeclose` of it still to be done.
-/

namespace RainOS.Ftable

open Function List Finset

variable {nfile nofile i : Nat} {P : Type}

/-! ### What a process holds -/

def Work.file : Work nfile → Option (Fin nfile)
  | .fileclose f => some f
  | .pipeclose .. => none

namespace Pc

def hand : Pc nfile P → List (Fin nfile)
  | .filealloc f _ => [f]
  | .one f0 => [f0]
  | .both f0 f1 | .pipealloc f0 f1 => [f0, f1]
  | _ => []

/-- The files that a call has allocated and not yet filled in. -/
def unset : Pc nfile P → List (Fin nfile)
  | .filealloc f _ | .fdalloc f _ => [f]
  | .one f0 => [f0]
  | .both f0 f1 => [f0, f1]
  | _ => []

/-- The descriptor whose file `exit` has given up. -/
def stale : Pc nfile P → Option Nat
  | .closing fd => some fd
  | _ => none

/-- The child that `fork` is at work on, and the number of descriptors it has. -/
def child : Pc nfile P → Option (P × Nat)
  | .allocproc np => some (np, 0)
  | .pass np i => some (np, i)
  | _ => none

/-- The number of descriptors that `exit` has cleared. -/
def cleared : Pc nfile P → Nat
  | .exit fd | .closing fd => fd
  | _ => 0

end Pc

def slots (ofile : Fin nofile → Option (Fin nfile)) (f : Fin nfile) : Nat := tally (· = some f) ofile

namespace Proc

def descriptors (q : Proc nfile nofile P) (fd : Fin nofile) : Option (Fin nfile) :=
  if q.pc.stale = some fd.val then none else q.ofile fd

def holds (q : Proc nfile nofile P) (f : Fin nfile) : Nat :=
  slots q.descriptors f + q.pc.hand.count f + (q.work.filterMap Work.file).count f

theorem holds_eq {q : Proc nfile nofile P} (h : q.pc.stale = none) (f : Fin nfile) :
    q.holds f = slots q.ofile f + q.pc.hand.count f + (q.work.filterMap Work.file).count f := by
  have hdesc : q.descriptors = q.ofile := by
    funext fd
    rw [descriptors, h]
    exact if_neg (nomatch ·)
  rw [holds, hdesc]

end Proc

section

variable {ofile : Fin nofile → Option (Fin nfile)} {fd : Fin nofile} {f : Fin nfile}

theorem slots_set (h : ofile fd = none) (f g : Fin nfile) :
    slots (update ofile fd (some f)) g = slots ofile g + [f].count g := by
  have hupd := tally_update (· = some g) ofile fd (some f)
  rw [if_neg (by rw [h]; exact nofun)] at hupd
  rw [slots, slots, count_singleton]
  simpa using hupd

theorem slots_clear (h : ofile fd = some f) (g : Fin nfile) : slots (update ofile fd none) g + [f].count g = slots ofile g := by
  have hupd := tally_update (· = some g) ofile fd none
  rw [if_neg (by simp : ¬ none = some g), h] at hupd
  rw [slots, slots, count_singleton]
  simpa using hupd

theorem slots_pos (h : ofile fd = some f) :
    0 < slots ofile f :=
  tally_pos h

end

theorem fdalloc_some {ofile ofile' : Fin nofile → Option (Fin nfile)} {f : Fin nfile} {fd : Fin nofile}
    (h : fdalloc ofile f = some (fd, ofile')) : ofile fd = none ∧ ofile' = update ofile fd (some f) := by
  rw [fdalloc] at h
  split at h
  · rename_i fd' hfind
    cases h
    have hfree := find?_some hfind
    exact ⟨of_decide_eq_true hfree, rfl⟩
  · cases h

theorem filealloc_some {s s' : State nfile nofile P} {f : Fin nfile} (h : filealloc s = some (f, s')) :
    (s.ftable f).ref = 0 ∧ s' = s.setFile f fun g => { g with ref := 1 } := by
  rw [filealloc] at h
  split at h
  · rename_i f' hfind
    cases h
    have hfree := find?_some hfind
    exact ⟨of_decide_eq_true hfree, rfl⟩
  · cases h

/-! ### The accounts -/

def File.IsEnd (page : Nat) (writable : Bool) (g : File) : Prop := g.type = .pipe ∧ g.pipe = page ∧ g.writable = writable

instance (page : Nat) (writable : Bool) : DecidablePred (File.IsEnd page writable) :=
  fun g => inferInstanceAs (Decidable (g.type = .pipe ∧ g.pipe = page ∧ g.writable = writable))

/-- The pipes, when the struct files and calls of `pipeclose` for each end are counted. -/
structure Ends (count : Nat → Bool → Nat) (pipe : Nat → Pipe) (inUse : Nat → Bool) (kallocs kfrees : Nat → Nat) : Prop where
  count_eq : ∀ page writable, count page writable =
    if inUse page = true ∧ (pipe page).isOpen writable = true then 1 else 0
  isOpen : ∀ page, inUse page = true → ∃ writable, (pipe page).isOpen writable = true
  given : ∀ page, kallocs page = kfrees page + if inUse page = true then 1 else 0

namespace Ends

variable {count count' : Nat → Bool → Nat} {pipe : Nat → Pipe} {inUse : Nat → Bool} {kallocs kfrees : Nat → Nat} {page : Nat}
  {writable : Bool}

section

variable (h : Ends count pipe inUse kallocs kfrees) {p : Pipe}
include h

theorem congr (hcount : ∀ page writable, count' page writable = count page writable) : Ends count' pipe inUse kallocs kfrees :=
  ⟨fun page writable => (hcount page writable).trans (h.count_eq page writable), h.isOpen, h.given⟩

theorem inUse_of_count (page : Nat) (writable : Bool) (hpos : 0 < count page writable) :
    inUse page = true ∧ (pipe page).isOpen writable = true := by
  by_contra hno
  rw [h.count_eq, if_neg hno] at hpos
  omega

theorem make (hfree : inUse page = false) (hcount : ∀ a b, count' a b = count a b + if a = page then 1 else 0) :
    Ends count' (update pipe page ⟨true, true⟩) (update inUse page true) (update kallocs page (kallocs page + 1)) kfrees where
  count_eq a b := by
    rw [hcount, h.count_eq]
    by_cases ha : a = page
    · subst ha
      cases b <;> simp [hfree, Pipe.isOpen]
    · simp [ha]
  isOpen a ha := by
    by_cases hp : a = page
    · subst hp
      rw [update_self]
      exact ⟨true, rfl⟩
    · rw [update_of_ne hp] at ha ⊢
      exact h.isOpen a ha
  given a := by
    by_cases ha : a = page
    · subst ha
      have hgiven := h.given a
      simp only [hfree, update_self] at hgiven ⊢
      simpa using hgiven
    · rw [update_of_ne ha, update_of_ne ha]
      exact h.given a

theorem close (hopen : ∃ b, p.isOpen b = true)
    (hp : ∀ b, p.isOpen b = if b = writable then false else (pipe page).isOpen b)
    (hzero : count' page writable = 0) (hother : ∀ a b, ¬ (a = page ∧ b = writable) → count' a b = count a b) :
    Ends count' (update pipe page p) inUse kallocs kfrees where
  count_eq a b := by
    by_cases ha : a = page
    · subst ha
      rw [update_self, hp]
      by_cases hb : b = writable
      · subst hb
        rw [hzero, if_pos rfl, if_neg (fun hno => nomatch hno.2)]
      · rw [hother a b (fun hno => hb hno.2), if_neg hb]
        exact h.count_eq a b
    · rw [hother a b (fun hno => ha hno.1), update_of_ne ha]
      exact h.count_eq a b
  isOpen a ha := by
    by_cases hpage : a = page
    · subst hpage
      rw [update_self]
      exact hopen
    · rw [update_of_ne hpage]
      exact h.isOpen a ha
  given := h.given

theorem free (huse : inUse page = true) (hclosed : ∀ b, b ≠ writable → (pipe page).isOpen b = false)
    (hzero : count' page writable = 0) (hother : ∀ a b, ¬ (a = page ∧ b = writable) → count' a b = count a b) :
    Ends count' (update pipe page p) (update inUse page false) kallocs (update kfrees page (kfrees page + 1)) where
  count_eq a b := by
    by_cases ha : a = page
    · subst ha
      rw [update_self, if_neg (fun hno => nomatch hno.1)]
      by_cases hb : b = writable
      · subst hb
        exact hzero
      · rw [hother a b (fun hno => hb hno.2), h.count_eq, hclosed b hb]
        exact if_neg (fun hno => nomatch hno.2)
    · rw [hother a b (fun hno => ha hno.1), update_of_ne ha, update_of_ne ha]
      exact h.count_eq a b
  isOpen a ha := by
    obtain ⟨hpage, ha⟩ := update_eq ha nofun
    rw [update_of_ne hpage]
    exact h.isOpen a ha
  given a := by
    have hgiven := h.given a
    by_cases ha : a = page
    · subst ha
      rw [update_self, update_self, hgiven, huse]
      rfl
    · rw [update_of_ne ha, update_of_ne ha]
      exact hgiven

end

end Ends

section References

variable [Fintype P]

def owed (proc : P → Proc nfile nofile P) (f : Fin nfile) : Nat := ∑ p, (proc p).holds f

/-- The calls of `pipeclose` still to be made for an end. -/
def pending (proc : P → Proc nfile nofile P) (page : Nat) (writable : Bool) : Nat :=
  ∑ p, (proc p).work.count (.pipeclose page writable)

structure References (ftable : Fin nfile → File) (proc : P → Proc nfile nofile P) : Prop where
  ref : ∀ f, (ftable f).ref = owed proc f
  closed : ∀ f, (ftable f).ref = 0 → (ftable f).type = .none
  sides : ∀ f, (ftable f).type = .pipe → (ftable f).readable = !(ftable f).writable
  fresh : ∀ p, ∀ f ∈ (proc p).pc.unset, (ftable f).type = .none ∧ (ftable f).ref = 1 ∧ 0 < (proc p).holds f

variable {ftable : Fin nfile → File} {proc : P → Proc nfile nofile P} {p r : P} {f : Fin nfile} {q : Proc nfile nofile P}

theorem References.holds_le (h : References ftable proc) (p : P) (f : Fin nfile) : (proc p).holds f ≤ (ftable f).ref := by
  rw [h.ref]
  exact single_le_sum (f := fun p => (proc p).holds f) (fun _ _ => Nat.zero_le _) (mem_univ p)

theorem References.ref_pos (h : References ftable proc) (hpos : 0 < (proc p).holds f) : ¬ (ftable f).ref < 1 := by
  have hle := h.holds_le p f
  omega

variable [DecidableEq P]

theorem References.holds_add_le (h : References ftable proc) (hne : r ≠ p) (f : Fin nfile) :
    (proc r).holds f + (proc p).holds f ≤ (ftable f).ref := by
  rw [h.ref, owed, ← sum_pair hne (f := fun p => (proc p).holds f)]
  exact sum_le_sum_of_subset (subset_univ _)

theorem References.apart (h : References ftable proc) (hne : r ≠ p)
    (htouch : (ftable f).ref = 0 ∨ 0 < (proc p).holds f) : f ∉ (proc r).pc.unset := by
  intro hmem
  obtain ⟨-, hone, hpos⟩ := h.fresh r f hmem
  have hle := h.holds_add_le hne f
  omega

theorem owed_update (proc : P → Proc nfile nofile P) (p : P) (q : Proc nfile nofile P) (f : Fin nfile) :
    owed (update proc p q) f + (proc p).holds f = owed proc f + q.holds f :=
  sum_update_add (fun q => Proc.holds q f) proc p q

theorem pending_update (proc : P → Proc nfile nofile P) (p : P) (q : Proc nfile nofile P) (page : Nat) (writable : Bool) :
    pending (update proc p q) page writable + (proc p).work.count (.pipeclose page writable) =
      pending proc page writable + q.work.count (.pipeclose page writable) :=
  sum_update_add (fun q : Proc nfile nofile P => q.work.count (Work.pipeclose page writable)) proc p q

theorem References.setProc (h : References ftable proc) (hholds : ∀ g, q.holds g = (proc p).holds g)
    (hunset : ∀ g ∈ q.pc.unset, g ∈ (proc p).pc.unset) : References ftable (update proc p q) where
  ref g := by
    have howed := owed_update proc p q g
    have hold := h.ref g
    rw [hholds] at howed
    omega
  closed := h.closed
  sides := h.sides
  fresh r g hg := by
    by_cases hr : r = p
    · subst hr
      rw [update_self] at hg ⊢
      rw [hholds]
      exact h.fresh r g (hunset g hg)
    · rw [update_of_ne hr] at hg ⊢
      exact h.fresh r g hg

theorem References.setFile (h : References ftable proc) {g : File} (hapart : ∀ r, r ≠ p → f ∉ (proc r).pc.unset)
    (href : g.ref + (proc p).holds f = (ftable f).ref + q.holds f)
    (hsame : ∀ f', f' ≠ f → q.holds f' = (proc p).holds f')
    (hclosed : g.ref = 0 → g.type = .none) (hsides : g.type = .pipe → g.readable = !g.writable)
    (hfresh : ∀ f' ∈ q.pc.unset, (update ftable f g f').type = .none ∧ (update ftable f g f').ref = 1 ∧ 0 < q.holds f') :
    References (update ftable f g) (update proc p q) where
  ref f' := by
    have howed := owed_update proc p q f'
    have hold := h.ref f'
    by_cases hf : f' = f
    · subst hf
      rw [update_self]
      omega
    · rw [hsame f' hf] at howed
      rw [update_of_ne hf]
      omega
  closed f' := by
    by_cases hf : f' = f
    · subst hf
      rw [update_self]
      exact hclosed
    · rw [update_of_ne hf]
      exact h.closed f'
  sides f' := by
    by_cases hf : f' = f
    · subst hf
      rw [update_self]
      exact hsides
    · rw [update_of_ne hf]
      exact h.sides f'
  fresh r f' hmem := by
    by_cases hr : r = p
    · subst hr
      rw [update_self] at hmem ⊢
      exact hfresh f' hmem
    · rw [update_of_ne hr] at hmem ⊢
      have hf : f' ≠ f := by
        rintro rfl
        exact hapart r hr hmem
      rw [update_of_ne hf]
      exact h.fresh r f' hmem

end References

/-! ### Processes and their children -/

structure Family (proc : P → Proc nfile nofile P) : Prop where
  dormant : ∀ p, (proc p).status ≠ .used → (proc p).work = [] ∧ (proc p).pc = .idle
  empty : ∀ p, (proc p).status = .unused ∨ (proc p).status = .zombie → ∀ fd, (proc p).ofile fd = none
  child : ∀ p np i, (proc p).pc.child = some (np, i) →
    (proc np).status = .embryo ∧ ∀ fd : Fin nofile, i ≤ fd.val → (proc np).ofile fd = none
  distinct : ∀ p q np i j, (proc p).pc.child = some (np, i) → (proc q).pc.child = some (np, j) → p = q
  cleared : ∀ p, ∀ fd : Fin nofile, fd.val < (proc p).pc.cleared → (proc p).ofile fd = none
  busy : ∀ p, (proc p).work ≠ [] → (proc p).pc.unset = []

theorem Family.used {proc : P → Proc nfile nofile P} {p : P} (h : Family proc)
    (hbusy : (proc p).work ≠ [] ∨ (proc p).pc ≠ .idle) : (proc p).status = .used := by
  by_contra hne
  obtain ⟨hwork, hpc⟩ := h.dormant p hne
  exact hbusy.elim (· hwork) (· hpc)

theorem Family.no_parent {proc : P → Proc nfile nofile P} {p : P} (h : Family proc) (hne : (proc p).status ≠ .embryo) (r : P) (j : Nat) :
    (proc r).pc.child ≠ some (p, j) :=
  fun hr => hne (h.child r p j hr).1

variable [DecidableEq P]

section Family

variable {proc : P → Proc nfile nofile P} {p np : P} {q : Proc nfile nofile P}

theorem Family.set (h : Family proc)
    (hdormant : q.status ≠ .used → q.work = [] ∧ q.pc = .idle)
    (hempty : q.status = .unused ∨ q.status = .zombie → ∀ fd, q.ofile fd = none)
    (hparent : ∀ r j, (proc r).pc.child = some (p, j) →
      q.status = .embryo ∧ ∀ fd : Fin nofile, j ≤ fd.val → q.ofile fd = none)
    (hchild : ∀ np i, q.pc.child = some (np, i) → np ≠ p ∧ (proc np).status = .embryo ∧
      (∀ fd : Fin nofile, i ≤ fd.val → (proc np).ofile fd = none) ∧ ∀ r j, (proc r).pc.child = some (np, j) → r = p)
    (hcleared : ∀ fd : Fin nofile, fd.val < q.pc.cleared → q.ofile fd = none)
    (hbusy : q.work ≠ [] → q.pc.unset = []) : Family (update proc p q) where
  dormant r hr := by
    by_cases he : r = p
    · subst he
      rw [update_self] at hr ⊢
      exact hdormant hr
    · rw [update_of_ne he] at hr ⊢
      exact h.dormant r hr
  empty r hr := by
    by_cases he : r = p
    · subst he
      rw [update_self] at hr ⊢
      exact hempty hr
    · rw [update_of_ne he] at hr ⊢
      exact h.empty r hr
  child r np i hr := by
    by_cases he : r = p
    · subst he
      rw [update_self] at hr
      obtain ⟨hne, hembryo, hnone, -⟩ := hchild np i hr
      rw [update_of_ne hne]
      exact ⟨hembryo, hnone⟩
    · rw [update_of_ne he] at hr
      by_cases hnp : np = p
      · subst hnp
        rw [update_self]
        exact hparent r i hr
      · rw [update_of_ne hnp]
        exact h.child r np i hr
  distinct r r' np i j hr hr' := by
    by_cases he : r = p
    · subst he
      rw [update_self] at hr
      by_contra hne
      rw [update_of_ne (Ne.symm hne)] at hr'
      exact hne ((hchild np i hr).2.2.2 r' j hr').symm
    · rw [update_of_ne he] at hr
      by_cases he' : r' = p
      · subst he'
        rw [update_self] at hr'
        exact (hchild np j hr').2.2.2 r i hr
      · rw [update_of_ne he'] at hr'
        exact h.distinct r r' np i j hr hr'
  cleared r fd hr := by
    by_cases he : r = p
    · subst he
      rw [update_self] at hr ⊢
      exact hcleared fd hr
    · rw [update_of_ne he] at hr ⊢
      exact h.cleared r fd hr
  busy r hr := by
    by_cases he : r = p
    · subst he
      rw [update_self] at hr ⊢
      exact hbusy hr
    · rw [update_of_ne he] at hr ⊢
      exact h.busy r hr

theorem Family.update (h : Family proc) (hused : (proc p).status = .used) (hstatus : q.status = .used)
    (hchild : ∀ np i, q.pc.child = some (np, i) → ∃ j, j ≤ i ∧ (proc p).pc.child = some (np, j))
    (hcleared : ∀ fd : Fin nofile, fd.val < q.pc.cleared → q.ofile fd = none)
    (hbusy : q.work ≠ [] → q.pc.unset = []) : Family (update proc p q) := by
  have hne : (proc p).status ≠ .embryo := by rw [hused]; nofun
  refine h.set (fun hq => absurd hstatus hq) (fun hq => ?_) (fun r j hr => absurd hr (h.no_parent hne r j))
    (fun np i hq => ?_) hcleared hbusy
  · rw [hstatus] at hq
    exact hq.elim nofun nofun
  · obtain ⟨j, hj, hp⟩ := hchild np i hq
    obtain ⟨hembryo, hnone⟩ := h.child p np j hp
    refine ⟨?_, hembryo, fun fd hfd => hnone fd (hj.trans hfd), fun r k hr => h.distinct r p np k j hr hp⟩
    rintro rfl
    exact hne hembryo

theorem Family.leave (h : Family proc) (hused : (proc p).status = .used) (hstatus : q.status = .used)
    (hchild : q.pc.child = none) (hcleared : q.pc.cleared = 0) (hbusy : q.work = [] ∨ q.pc.unset = []) :
    Family (Function.update proc p q) := by
  refine h.update hused hstatus (fun np i hi => ?_) (fun fd hfd => ?_) fun hne => hbusy.resolve_left hne
  · rw [hchild] at hi
    cases hi
  · rw [hcleared] at hfd
    cases hfd

theorem Family.settle (h : Family proc) (hwork : q.work = []) (hpc : q.pc = .idle)
    (hempty : q.status = .unused ∨ q.status = .zombie → ∀ fd, q.ofile fd = none)
    (hparent : ∀ r j, (proc r).pc.child = some (p, j) →
      q.status = .embryo ∧ ∀ fd : Fin nofile, j ≤ fd.val → q.ofile fd = none) : Family (Function.update proc p q) := by
  refine h.set (fun _ => ⟨hwork, hpc⟩) hempty hparent (fun np i hq => ?_) (fun fd hfd => ?_) fun hne => absurd hwork hne
  · rw [hpc] at hq
    cases hq
  · rw [hpc] at hfd
    cases hfd

theorem Family.no_child_of_leave (h : Family proc)
    (hp : (proc p).pc.child = some (np, i)) (hq : q.pc.child = none) (r : P) (j : Nat) :
    (Function.update proc p q r).pc.child ≠ some (np, j) := by
  by_cases hr : r = p
  · subst hr
    rw [update_self, hq]
    nofun
  · rw [update_of_ne hr]
    exact fun hchild => hr (h.distinct r p np j i hchild hp)

end Family

end RainOS.Ftable
