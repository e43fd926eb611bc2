import RainOS.Kalloc.Grants
import RainOS.Process.Boot

/-!
# Address spaces in every run

Runs of `exec`, `fork`, `sbrk`, `ExAddPage`, `exit` and `wait` by any processes, from the boot on. As long as
no call meets one of the kernel's slips, the pages a process can use are exactly those below its size, and
so nothing that walks an address space panics.
-/

namespace RainOS.Process

open Kalloc Vm Function

/-- A call of process `p`; `store` is its own write to its memory. -/
inductive Action
  | exec (p : Slot) (file : Option File) (argv : List (List UInt8))
  | fork (p : Slot)
  | sbrk (p : Slot) (n : Int)
  | exAddPage (p : Slot) (va frame : Nat)
  | exit (p : Slot)
  | wait (p : Slot)
  | store (p : Slot) (va v : Nat)

def Action.slot : Action → Slot
  | .exec p _ _ | .fork p | .sbrk p _ | .exAddPage p _ _ | .exit p | .wait p | .store p _ _ => p

def userStore (p : Slot) (va v : Nat) : X Unit := do
  let s ← get
  match translate s.mem.word (s.procs p).pgdir va with
  | some a => lift (setWord a v)
  | none => return

def ignore {α : Type} (x : X α) : X Unit := do
  let _ ← x

def Action.run (data : Nat) : Action → X Unit
  | .exec p file argv => ignore (Process.exec data p file argv)
  | .fork p => ignore (Process.fork data p)
  | .sbrk p n => ignore (Process.sbrk p n)
  | .exAddPage p va frame => ignore (Process.exAddPage p va frame)
  | .exit p => Process.exit p
  | .wait p => ignore (Process.wait p)
  | .store p va v => userStore p va v

/-- Arguments are words, and a process does not write above `KERNBASE`. -/
def Action.Words : Action → Prop
  | .sbrk _ n => -2 ^ 31 ≤ n ∧ n < 2 ^ 31
  | .exAddPage _ va frame => va < 2 ^ 32 ∧ frame < 2 ^ 32
  | .store _ va _ => va < kernbase ∧ va % 4 = 0
  | _ => True

def system (data : Nat) (initcode : List UInt8) : System Machine Action where
  Init s := ∃ s₀, PowerOn s₀ ∧ main data initcode s₀ = .ok () s
  Step s a s' := (s.procs a.slot).state = .runnable ∧ a.Words ∧ a.run data s = .ok () s'

/-- `sbrk` runs out of memory at the table of its last page, and does not notice. -/
def SbrkShort (m : Memory) (q : Proc) (n : Int) (free : Nat) : Prop :=
  sbrkSize q.sz n < kernbase ∧ growRequest m.word q.pgdir q.sz (sbrkSize q.sz n) free = some .table ∧
    (requests (hasTable m.word q.pgdir) (npages q.sz) (npages (sbrkSize q.sz n) - npages q.sz)).length = free + 1

/-- The call meets none of the slips: the segments of a program lie inside, its arguments fit, no `allocuvm`
overlooks a missing table, `sbrk` does not ask for size zero, and `ExAddPage` does not find its frame. -/
def Meets (s : Machine) : Action → Prop
  | .exec _ (some ip) argv => ArgsFit argv ∧
      ∀ l, FreeList s.mem l → ∀ g ∈ programSegments ip l.length, g.Inside ip ∧ ¬g.Short
  | .sbrk p n => (0 < n → ∀ l, FreeList s.mem l → ¬SbrkShort s.mem (s.procs p) n l.length) ∧ (s.procs p).sz + n ≠ 0
  | .exAddPage _ va frame => va % pgsize ≠ 0 ∨ findFree s.mem frame ≠ some true
  | _ => True

structure AddressSpace (s : Machine) (p : Slot) : Prop where
  small : (s.procs p).sz < kernbase
  present : ∀ k < userPages, Present (pteAt s.mem.word (s.procs p).pgdir k) ↔ k < npages (s.procs p).sz
  frames : ∀ k < userPages, Present (pteAt s.mem.word (s.procs p).pgdir k) →
    Accepts s.mem.kernelEnd (p2v (pteAddr (pteAt s.mem.word (s.procs p).pgdir k)))

def Live (s : Machine) (p : Slot) : Prop := (s.procs p).state ≠ .unused

variable {s s' : Machine} {m m' : Memory} {l l' l₀ : List Nat} {own own' : Nat → Option Owner} {p q : Slot}
  {data a va sz frame v : Nat} {initcode : List UInt8} {S S' : Nat → Prop}

/-! ### The invariant -/

structure Inv (s : Machine) (l : List Nat) (own : Nat → Option Owner) : Prop where
  owned : Owned s.mem l own
  above : kernbase < s.mem.kernelEnd
  shape : ∀ p, Live s p → Shaped s.mem own (s.procs p).pgdir (s.procs p).sz
  stack : ∀ p, Live s p → own (s.procs p).kstack = some .client
  dirs : ∀ p q, Live s p → Live s q → p ≠ q → (s.procs p).pgdir ≠ (s.procs q).pgdir
  kstacks : ∀ p q, Live s p → Live s q → p ≠ q → (s.procs p).kstack ≠ (s.procs q).kstack

theorem Inv.addressSpace (h : Inv s l own) (hp : Live s p) : AddressSpace s p := by
  have hshape := h.shape p hp
  refine ⟨hshape.small, fun k hk => ⟨fun hpresent => ?_, hshape.present k⟩, fun k hk hpresent => ?_⟩
  · by_contra hge
    exact hshape.absent k (Nat.le_of_not_lt hge) hk hpresent
  · exact (h.owned.accepts hshape.live hk hpresent).2

/-- What a change may touch without disturbing process `q`. -/
structure Spares (s : Machine) (own : Nat → Option Owner) (q : Slot) (S : Nat → Prop) : Prop where
  space : ∀ r, spaceOf own r = some (s.procs q).pgdir → ¬S r
  stack : ¬S (s.procs q).kstack

theorem Inv.keeps (h : Inv s l own) (hq : Live s q) (hspares : Spares s own q S) (hframe : Frame S s.mem own m' own') :
    Shaped m' own' (s.procs q).pgdir (s.procs q).sz ∧ own' (s.procs q).kstack = some .client :=
  ⟨(h.shape q hq).frame h.owned hframe hspares.space, by rw [hframe.own _ hspares.stack, h.stack q hq]⟩

theorem Inv.not_free (h : Inv s l own) (hq : Live s q) : Spares s own q (· ∈ l) := by
  refine ⟨fun r hr hin => ?_, fun hin => ?_⟩
  · rw [spaceOf_of_own ((h.owned.isFree r).mpr hin)] at hr
    cases hr
  · have hstack := h.stack q hq
    rw [(h.owned.isFree _).mpr hin] at hstack
    cases hstack

theorem Inv.not_other (h : Inv s l own) (hp : Live s p) (hq : Live s q) (hne : q ≠ p) :
    Spares s own q fun r => spaceOf own r = some (s.procs p).pgdir := by
  refine ⟨fun r hr hr' => ?_, fun hspace => ?_⟩
  · rw [hr] at hr'
    exact h.dirs q p hq hp hne (Option.some.inj hr')
  · rw [spaceOf_of_own (h.stack q hq)] at hspace
    cases hspace

theorem Spares.or (h : Spares s own q S) (h' : Spares s own q S') :
    Spares s own q fun r => S r ∨ S' r :=
  ⟨fun r hr hS => hS.elim (h.space r hr) (h'.space r hr), fun hS => hS.elim h.stack h'.stack⟩

/-- The process has its entry in the table, but for the parent, and what is in its pages. -/
structure Kept (s : Machine) (own : Nat → Option Owner) (q : Slot) (s' : Machine) : Prop where
  proc : ∃ parent, s'.procs q = { s.procs q with parent := parent }
  word : ∀ a, spaceOf own (pgrounddown a) = some (s.procs q).pgdir → s'.mem.word a = s.mem.word a

/-- What a step of process `p` comes to. -/
structure Next (s : Machine) (own : Nat → Option Owner) (p : Slot) (s' : Machine) : Prop where
  inv : ∃ l' own', Inv s' l' own'
  others : ∀ q, (s.procs q).state = .runnable → q ≠ p → Kept s own q s'

theorem Inv.stay (h : Inv s l own) : Next s own p s :=
  ⟨⟨l, own, h⟩, fun _ _ _ => ⟨⟨_, rfl⟩, fun _ _ => rfl⟩⟩

theorem live_of_runnable (h : (s.procs p).state = .runnable) : Live s p := by
  rw [Live, h]
  exact nofun

theorem Inv.one (h : Inv s l own) (howned : Owned s'.mem l' own')
    (hframe : Frame S s.mem own s'.mem own') (hspares : ∀ q, Live s q → q ≠ p → Spares s own q S)
    (hothers : ∀ q, q ≠ p → s'.procs q = s.procs q) (hshape : Shaped s'.mem own' (s'.procs p).pgdir (s'.procs p).sz)
    (hclient : own' (s'.procs p).kstack = some .client)
    (hdir : ∀ q, Live s q → q ≠ p → (s.procs q).pgdir ≠ (s'.procs p).pgdir)
    (hstack : ∀ q, Live s q → q ≠ p → (s.procs q).kstack ≠ (s'.procs p).kstack) : Next s own p s' := by
  have hlive : ∀ q, q ≠ p → Live s' q → Live s q := fun q hq hl => by
    unfold Live at hl ⊢
    rwa [hothers q hq] at hl
  have hkeeps := fun q (hq : Live s q) (hne : q ≠ p) => h.keeps hq (hspares q hq hne) hframe
  have hapart : ∀ f : Proc → Nat, (∀ q, Live s q → q ≠ p → f (s.procs q) ≠ f (s'.procs p)) →
      (∀ q r, Live s q → Live s r → q ≠ r → f (s.procs q) ≠ f (s.procs r)) →
      ∀ q r, Live s' q → Live s' r → q ≠ r → f (s'.procs q) ≠ f (s'.procs r) := by
    intro f hnew hold q r hq hr hne
    by_cases hqp : q = p
    · have hrp : r ≠ p := fun heq => hne (hqp.trans heq.symm)
      rw [hqp, hothers r hrp]
      exact (hnew r (hlive r hrp hr) hrp).symm
    · by_cases hrp : r = p
      · rw [hrp, hothers q hqp]
        exact hnew q (hlive q hqp hq) hqp
      · rw [hothers q hqp, hothers r hrp]
        exact hold q r (hlive q hqp hq) (hlive r hrp hr) hne
  refine ⟨⟨l', own', howned, by rw [hframe.kernelEnd]; exact h.above, fun q hq => ?_, fun q hq => ?_,
    hapart Proc.pgdir hdir h.dirs, hapart Proc.kstack hstack h.kstacks⟩, fun q hq hne => ⟨⟨_, hothers q hne⟩, fun a ha => ?_⟩⟩
  · by_cases hqp : q = p
    · rw [hqp]
      exact hshape
    · rw [hothers q hqp]
      exact (hkeeps q (hlive q hqp hq) hqp).1
  · by_cases hqp : q = p
    · rw [hqp]
      exact hclient
    · rw [hothers q hqp]
      exact (hkeeps q (hlive q hqp hq) hqp).2
  · exact hframe.word a ((hspares q (live_of_runnable hq) hne).space _ ha)

theorem Inv.itself (h : Inv s l own) (hp : Live s p) (howned : Owned s'.mem l' own')
    (hframe : Frame (Free l own (s.procs p).pgdir) s.mem own s'.mem own')
    (hothers : ∀ q, q ≠ p → s'.procs q = s.procs q) (hkstack : (s'.procs p).kstack = (s.procs p).kstack)
    (hshape : Shaped s'.mem own' (s'.procs p).pgdir (s'.procs p).sz)
    (hdir : ∀ q, Live s q → q ≠ p → (s.procs q).pgdir ≠ (s'.procs p).pgdir) : Next s own p s' := by
  refine h.one howned hframe (fun q hq hne => (h.not_free hq).or (h.not_other hp hq hne)) hothers hshape ?_ hdir
    fun q hq hne => by rw [hkstack]; exact h.kstacks q p hq hp hne
  rw [hkstack, hframe.own, h.stack p hp]
  rintro (hin | hspace)
  · exact (h.not_free hp).stack hin
  · rw [spaceOf_of_own (h.stack p hp)] at hspace
    cases hspace

theorem Inv.same (h : Inv s l own) (howned : Owned s'.mem l' own')
    (hframe : Frame S s.mem own s'.mem own') (hspares : ∀ q, Live s' q → Spares s own q S)
    (hothers : ∀ q, Live s' q → Live s q ∧ (s'.procs q).pgdir = (s.procs q).pgdir ∧
      (s'.procs q).sz = (s.procs q).sz ∧ (s'.procs q).kstack = (s.procs q).kstack) : Inv s' l' own' := by
  refine ⟨howned, by rw [hframe.kernelEnd]; exact h.above, fun q hq => ?_, fun q hq => ?_, fun q r hq hr hne => ?_,
    fun q r hq hr hne => ?_⟩
  · obtain ⟨hl, hd, hsz, -⟩ := hothers q hq
    rw [hd, hsz]
    exact (h.keeps hl (hspares q hq) hframe).1
  · obtain ⟨hl, -, -, hk⟩ := hothers q hq
    rw [hk]
    exact (h.keeps hl (hspares q hq) hframe).2
  · rw [(hothers q hq).2.1, (hothers r hr).2.1]
    exact h.dirs q r (hothers q hq).1 (hothers r hr).1 hne
  · rw [(hothers q hq).2.2.2, (hothers r hr).2.2.2]
    exact h.kstacks q r (hothers q hq).1 (hothers r hr).1 hne

/-! ### One step -/

theorem ignore_spec {α : Type} {x : X α} {Q : α → Machine → Prop} {E : Halt → Machine → Prop} (h : Ends x s Q E) :
    Ends (ignore x) s (fun _ s' => ∃ r, Q r s') E :=
  h.bind fun r _ hr => .pure ⟨r, hr⟩

theorem Loaded.procs_eq (h : Loaded l₀ s s') : s'.procs = s.procs := by
  obtain ⟨m, loads, rfl, -⟩ := h
  rfl

section

variable (h : Inv s l own) {n r : Int}
include h

theorem Inv.failed {leaks : Prop} (hfailed : Failed leaks l own s.mem s'.mem l' own')
    (hothers : ∀ q, s'.procs q = s.procs q ∨ (s.procs q).state = .unused ∧ (s'.procs q).state = .unused) :
    Next s own p s' := by
  have hsame : ∀ q, Live s' q → Live s q ∧ s'.procs q = s.procs q := by
    intro q hq
    have heq := (hothers q).resolve_right fun hunused => hq hunused.2
    exact ⟨by rwa [Live, heq] at hq, heq⟩
  refine ⟨⟨l', own', h.same hfailed.owned hfailed.frame (fun q hq => h.not_free (hsame q hq).1) fun q hq => ?_⟩,
    fun q hq _ => ⟨⟨_, (hothers q).resolve_right fun hunused => ?_⟩, fun a ha => ?_⟩⟩
  · obtain ⟨hl, heq⟩ := hsame q hq
    rw [heq]
    exact ⟨hl, rfl, rfl, rfl⟩
  · exact live_of_runnable hq hunused.1
  · exact hfailed.frame.word a ((h.not_free (live_of_runnable hq)).space _ ha)

theorem Inv.exec (hlinked : Linked data) (hp : Live s p) {file : Option File}
    {argv : List (List UInt8)} (hmeets : Meets s (.exec p file argv)) :
    Ends (exec data p file argv) s (fun _ s' => Next s own p s') fun _ _ => False := by
  cases file with
  | none =>
    unfold Process.exec
    exact .pure h.stay
  | some ip =>
    obtain ⟨hargs, hsegs⟩ := hmeets
    have hsegs := hsegs l h.owned.free
    refine (exec_spec hlinked p h.owned h.above (h.shape p hp).live (fun g hg => (hsegs g hg).1)
      (fun g hg => (hsegs g hg).2) hargs).post fun r s' hends => ?_
    cases hends with
    | refused _ => exact h.stay
    | failed _ l' own' hloaded hfailed => exact h.failed hfailed fun q => .inl (by rw [hloaded.procs_eq])
    | done pgdir sz _ l' own' hin hloaded howned hframe hshape =>
      have hprocs := hloaded.procs_eq
      dsimp only at hprocs
      refine h.itself hp howned hframe (fun q hne => ?_) ?_ ?_ fun q hq hne heq => ?_
      · rw [hprocs, update_of_ne hne]
      · rw [hprocs, update_self]
      · rw [hprocs, update_self]
        exact hshape
      · rw [hprocs, update_self] at heq
        have hlive := (h.shape q hq).live
        rw [heq, (h.owned.isFree pgdir).mpr hin] at hlive
        cases hlive

theorem Inv.fork (hlinked : Linked data) (hp : Live s p) :
    Ends (fork data p) s (fun _ s' => Next s own p s') fun _ _ => False := by
  refine (fork_spec hlinked h.owned h.above hp (h.shape p hp)).post fun r s' hends => ?_
  cases hends with
  | full _ => exact h.stay
  | failed np _ l' own' hunused hothers hstate hloads hfailed =>
    refine h.failed hfailed fun q => ?_
    by_cases hq : q = np
    · rw [hq]
      exact .inr ⟨hunused, hstate⟩
    · exact .inl (hothers q hq)
  | made np pid _ l' own' hunused hothers hloads howned hframe hpgdir hkstack hclient hshape hflags =>
    have hnext : Next s own np s' := by
      refine h.one howned hframe (fun q hq _ => h.not_free hq) hothers hshape hclient (fun q hq _ heq => ?_)
        fun q hq _ heq => ?_
      · refine (h.not_free hq).space _ (spaceOf_of_own (h.shape q hq).live) ?_
        rw [heq]
        exact hpgdir
      · refine (h.not_free hq).stack ?_
        rw [heq]
        exact hkstack
    exact ⟨hnext.inv, fun q hq _ => hnext.others q hq fun heq => live_of_runnable hq (heq ▸ hunused)⟩

section

variable (hp : Live s p) (howned : Owned m' l' own') (hframe : Frame (Free l own (s.procs p).pgdir) s.mem own m' own')
include hp howned hframe

theorem Inv.resize (hshape : Shaped m' own' (s.procs p).pgdir sz) :
    Next s own p { s with mem := m', procs := update s.procs p { s.procs p with sz := sz } } := by
  refine h.itself hp howned hframe (fun q hne => update_of_ne hne _ _) ?_ ?_ fun q hq hne => ?_
  · simp only [update_self]
  · simp only [update_self]
    exact hshape
  · simp only [update_self]
    exact h.dirs q p hq hp hne

theorem Inv.rewrite (hshape : Shaped m' own' (s.procs p).pgdir (s.procs p).sz) : Next s own p { s with mem := m' } :=
  h.itself hp howned hframe (fun _ _ => rfl) rfl hshape fun q hq hne => h.dirs q p hq hp hne

end

theorem Inv.growproc (hp : Live s p) (hmeets : Meets s (.sbrk p n))
    (hwords : -2 ^ 31 ≤ n ∧ n < 2 ^ 31) (hends : GrowprocEnds p n l own s r s') : Next s own p s' := by
  have hshape := h.shape p hp
  have hsmall := hshape.small
  simp only [kernbase] at hsmall
  cases hends with
  | grown _ hpos r m' hends hs' =>
    have hsize : (sbrkSize (s.procs p).sz n : Int) = (s.procs p).sz + n := by
      rw [sbrkSize]
      omega
    cases hends with
    | refused _ =>
      rw [if_pos rfl] at hs'
      exact hs' ▸ h.stay
    | kept _ hlt => omega
    | grown pages l' _ own' _ _ hfilled _ hshape' =>
      rw [if_neg (by omega)] at hs'
      exact hs' ▸ h.resize hp hfilled.owned hfilled.frame hshape'
    | short _ l' own' hlt _ hreq hlast _ _ _ =>
      exact absurd ⟨hlt, hreq, hlast⟩ (hmeets.1 hpos l h.owned.free)
    | failed _ l' own' lost _ _ howned hframe hshape' _ _ _ =>
      rw [if_pos rfl] at hs'
      exact hs' ▸ h.rewrite hp howned hframe hshape'
  | shrunk _ hneg r m' l' own' hr howned hframe hshape' hs' =>
    have hframe' : Frame (Free l own (s.procs p).pgdir) s.mem own m' own' := hframe.mono fun _ hq => .inr hq
    by_cases hzero : r = 0
    · have hsz : (s.procs p).sz = r := by
        have hnot := hmeets.2
        rw [sbrkSize] at hr
        omega
      rw [if_pos hzero] at hs'
      rw [← hsz] at hshape'
      exact hs' ▸ h.rewrite hp howned hframe' hshape'
    · rw [if_neg hzero] at hs'
      exact hs' ▸ h.resize hp howned hframe' hshape'
  | same _ => exact h.stay

end

theorem sbrk_spec {n : Int} (h : Owned s.mem l own) (hend : kernbase < s.mem.kernelEnd)
    (hshape : Shaped s.mem own (s.procs p).pgdir (s.procs p).sz) :
    Ends (sbrk p n) s (fun r s' => ∃ r', GrowprocEnds p n l own s r' s' ∧ (r = -1 ↔ r' < 0)) fun _ _ => False := by
  unfold Process.sbrk
  refine .after_ok (get_run s) ((growproc_spec n h hend hshape).bind fun r' s' hends => ?_)
  exact .ite (fun hneg => .pure ⟨r', hends, iff_of_true rfl hneg⟩)
    fun hneg => .pure ⟨r', hends, iff_of_false (by omega) hneg⟩

theorem Inv.wait (h : Inv s l own) :
    Ends (wait p) s (fun _ s' => Next s own p s') fun e _ => e = .asleep := by
  unfold Process.wait
  refine .after_ok (get_run s) ?_
  cases hfind : (List.finRange nproc).find? fun q => decide ((s.procs q).parent = some p ∧ (s.procs q).state = .zombie) with
  | none =>
    dsimp only
    split
    · exact .after_error rfl rfl
    · exact .pure h.stay
  | some q =>
    have hfound := List.find?_some hfind
    have hzombie := (of_decide_eq_true hfound).2
    have hq : Live s q := by
      rw [Live, hzombie]
      exact nofun
    have hstack := h.stack q hq
    have hdir := (h.shape q hq).live
    have hne : (s.procs q).pgdir ≠ (s.procs q).kstack := fun heq => by
      rw [heq, hstack] at hdir
      cases hdir
    obtain ⟨hkfree, howned₁⟩ := owned_kfree h.owned hstack
    have hdir₁ : update own (s.procs q).kstack (some .free) (s.procs q).pgdir = some .directory := by
      rw [update_of_ne hne, hdir]
    refine .after_ok (lift_run hkfree) (.bind (lift_spec (E := fun _ _ => False)
      (s := { s with mem := putFree s.mem (s.procs q).kstack }) (freevm_frame howned₁ hdir₁ h.above)).returns
      fun _ s₂ hr => ?_)
    obtain ⟨m₂, rfl, ⟨l₂, howned₂⟩, hframe₂⟩ := hr
    have hframe₁ := frame_kfree (h.owned.page _ _ hstack).aligned s.mem own (some .free)
    have hframe : Frame (fun r => r = (s.procs q).kstack ∨ spaceOf own r = some (s.procs q).pgdir) s.mem own m₂
        (release (update own (s.procs q).kstack (some .free)) (s.procs q).pgdir) := by
      refine (hframe₁.mono fun _ hr => .inl hr).trans (hframe₂.mono fun r hr => ?_)
      by_cases hk : r = (s.procs q).kstack
      · exact .inl hk
      · rw [spaceOf_eq (update_of_ne hk _ _)] at hr
        exact .inr hr
    have hspares : ∀ r, Live s r → r ≠ q →
        Spares s own r fun a => a = (s.procs q).kstack ∨ spaceOf own a = some (s.procs q).pgdir := by
      intro r hr hrq
      refine Spares.or ⟨fun t ht heq => ?_, h.kstacks r q hr hq hrq⟩ (h.not_other hq hr hrq)
      rw [heq, spaceOf_of_own hstack] at ht
      cases ht
    refine .after_ok (setProc_run ..) (.pure ⟨⟨l₂, _, h.same howned₂ hframe (fun r hr => ?_) fun r hr => ?_⟩,
      fun r hr _ => ?_⟩)
    · have hrq : r ≠ q := fun heq => hr (by rw [heq]; simp only [update_self])
      refine hspares r ?_ hrq
      unfold Live at hr ⊢
      simpa only [update_of_ne hrq] using hr
    · have hrq : r ≠ q := fun heq => hr (by rw [heq]; simp only [update_self])
      unfold Live at hr ⊢
      simp only [update_of_ne hrq] at hr ⊢
      exact ⟨hr, trivial, trivial, trivial⟩
    · have hrq : r ≠ q := by
        intro heq
        rw [heq, hzombie] at hr
        cases hr
      exact ⟨⟨_, update_of_ne hrq _ _⟩, fun a ha => hframe.word a ((hspares r (live_of_runnable hr) hrq).space _ ha)⟩

theorem Inv.exit (h : Inv s l own) (hp : Live s p) :
    Ends (exit p) s (fun _ s' => Next s own p s') fun _ _ => True := by
  unfold Process.exit
  split
  · exact .after_error rfl trivial
  · refine .after_ok rfl (.of_run_ok (setProc_run ..) ⟨⟨l, own, h.same h.owned (.refl (fun _ => False) _ _)
      (fun _ _ => ⟨fun _ _ hf => hf, fun hf => hf⟩) fun q hq => ?_⟩, fun q _ hqp => ⟨?_, fun _ _ => rfl⟩⟩)
    · by_cases hqp : q = p
      · subst hqp
        simp only [update_self]
        split
        · exact ⟨hp, rfl, rfl, rfl⟩
        · exact ⟨hp, rfl, rfl, rfl⟩
      · unfold Live at hq ⊢
        simp only [update_of_ne hqp] at hq ⊢
        split at hq
        · rename_i hparent
          simp only [if_pos hparent]
          exact ⟨hq, trivial, trivial, trivial⟩
        · rename_i hparent
          simp only [if_neg hparent]
          exact ⟨hq, trivial, trivial, trivial⟩
    · simp only [update_of_ne hqp]
      split
      · exact ⟨_, rfl⟩
      · exact ⟨_, rfl⟩

theorem exAddPage_refused (hfree : FreeList s.mem l)
    (hmeets : va % pgsize ≠ 0 ∨ findFree s.mem frame ≠ some true) : exAddPage p va frame s = .ok 0 s := by
  have hgrant : findFree s.mem frame ≠ some true →
      allocaddAt (s.procs p).pgdir (s.procs p).pid frame s.mem = .ok 0 s.mem := by
    intro hnot
    have hrefuse : ∀ low, allocadd low (s.procs p).pid frame s.mem = .ok 0 s.mem := fun low =>
      allocadd_not_free (s := ⟨s.mem, []⟩) hfree ((hfree.not_free_iff frame).mp hnot)
    unfold allocaddAt
    rw [bind_ok _ (get_run s.mem)]
    cases translate s.mem.word (s.procs p).pgdir 0 with
    | some a => exact hrefuse _
    | none =>
      dsimp only
      rw [if_neg fun hf => hnot hf.1]
      exact hrefuse 0
  unfold exAddPage
  rw [bind_ok _ (get_run s)]
  by_cases hva : va % pgsize ≠ 0
  · rw [if_pos hva]
    rfl
  · rw [if_neg hva, bind_ok _ (lift_run (hgrant (hmeets.resolve_left hva))), if_pos rfl]
    rfl

theorem Inv.store (h : Inv s l own) (hp : Live s p) (hva : va < kernbase ∧ va % 4 = 0) :
    Ends (userStore p va v) s (fun _ s' => Next s own p s') fun _ _ => False := by
  have hshape := h.shape p hp
  unfold userStore
  refine .after_ok (get_run s) ?_
  cases htranslate : translate s.mem.word (s.procs p).pgdir va with
  | none => exact .pure h.stay
  | some a =>
    have hpage : va / pgsize < userPages := by
      have hlt := hva.1
      change va / 4096 < 524288
      simp only [kernbase] at hlt
      omega
    obtain ⟨hpresent, rfl⟩ := translate_some (Nat.lt_trans hva.1 (by decide)) htranslate
    have huser := (h.owned.accepts hshape.live hpage hpresent).1
    have halign := (h.owned.page _ _ huser).aligned
    have hround : pgrounddown (p2v (pteAddr (pteAt s.mem.word (s.procs p).pgdir (va / pgsize))) + va % pgsize) =
        p2v (pteAddr (pteAt s.mem.word (s.procs p).pgdir (va / pgsize))) := by
      rw [← in_page_iff halign]
      exact ⟨Nat.le_add_right _ _, Nat.add_lt_add_left (Nat.mod_lt _ (by decide)) _⟩
    have hkept : ∀ b o, own (pgrounddown b) = some o → Structural o →
        update s.mem.word (p2v (pteAddr (pteAt s.mem.word (s.procs p).pgdir (va / pgsize))) + va % pgsize) v b =
          s.mem.word b := by
      intro b o ho hstruct
      apply update_of_ne
      rintro rfl
      rw [hround, huser] at ho
      cases ho
      exact hstruct
    refine .of_run_ok (lift_run rfl)
      (h.rewrite hp (h.owned.scribble _ hkept) ⟨rfl, fun _ _ => rfl, fun b hb => update_of_ne ?_ _ _⟩ ?_)
    · rintro rfl
      rw [hround] at hb
      exact hb (.inr (spaceOf_of_own huser))
    · refine hshape.congr hshape.live fun k hk => h.owned.pteAt_congr hshape.live (div_lt hk)
        (fun b hb => hkept b .directory ?_ trivial) fun t ht b hb => hkept b (.table (s.procs p).pgdir (k / nptentries)) ?_ trivial
      · rw [hb]
        exact hshape.live
      · rw [hb]
        exact ht

/-- Only a `wait` that sleeps and an `exit` of the first process stop. -/
theorem Inv.step (h : Inv s l own) (hlinked : Linked data) {a : Action} (hp : Live s a.slot) (hwords : a.Words)
    (hmeets : Meets s a) :
    Ends (a.run data) s (fun _ s' => Next s own a.slot s') fun e _ => e = .asleep ∨ ∃ p, a = .exit p := by
  cases a with
  | exec p file argv =>
    exact (ignore_spec (h.exec hlinked hp hmeets)).mono (fun _ _ ⟨_, hr⟩ => hr) fun _ _ hf => hf.elim
  | fork p => exact (ignore_spec (h.fork hlinked hp)).mono (fun _ _ ⟨_, hr⟩ => hr) fun _ _ hf => hf.elim
  | sbrk p n =>
    exact (ignore_spec (sbrk_spec h.owned h.above (h.shape p hp))).mono
      (fun _ _ ⟨_, _, hends, _⟩ => h.growproc hp hmeets hwords hends) fun _ _ hf => hf.elim
  | exAddPage p va frame =>
    exact (ignore_spec (.of_run_ok (exAddPage_refused h.owned.free hmeets) h.stay)).mono
      (fun _ _ ⟨_, hr⟩ => hr) fun _ _ hf => hf
  | exit p => exact (h.exit hp).stop fun _ _ _ => .inr ⟨p, rfl⟩
  | wait p => exact (ignore_spec h.wait).mono (fun _ _ ⟨_, hr⟩ => hr) fun _ _ he => .inl he
  | store p va v => exact (h.store hp hwords).stop fun _ _ hf => hf.elim

/-! ### Runs -/

theorem Booted.inv (h : Booted s l own) : Inv s l own := by
  have hlive : ∀ p, Live s p → p = initproc := fun p hp => by_contra fun hne => hp (h.others p hne)
  refine ⟨h.owned, h.above, fun p hp => ?_, fun p hp => ?_, fun p q hp hq hne => ?_, fun p q hp hq hne => ?_⟩
  · rw [hlive p hp, h.size]
    exact h.shape
  · rw [hlive p hp]
    exact h.stack
  · exact absurd ((hlive p hp).trans (hlive q hq).symm) hne
  · exact absurd ((hlive p hp).trans (hlive q hq).symm) hne

theorem inv_of_reachable (hlinked : Linked data) (hinit : initcode.length < pgsize)
    (h : ((system data initcode).restrict Meets).Reachable s) : ∃ l own, Inv s l own := by
  refine h.invariant (I := fun s => ∃ l own, Inv s l own) ?_ ?_
  · rintro s ⟨s₀, hpower, hrun⟩
    obtain ⟨l, own, hbooted, -⟩ := (main_spec hlinked hinit hpower).of_ok hrun
    exact ⟨l, own, hbooted.inv⟩
  · rintro s a s' ⟨l, own, hinv⟩ ⟨hmeets, hrunnable, hwords, hrun⟩
    exact ((hinv.step hlinked (live_of_runnable hrunnable) hwords hmeets).of_ok hrun).inv

/-- In every run whose calls meet no slip, each process has the address space its size says, and no call
stops but a `wait` that sleeps and an `exit` of the first process. -/
theorem address_spaces_shaped (hlinked : Linked data) (hinit : initcode.length < pgsize)
    (h : ((system data initcode).restrict Meets).Reachable s) :
    (∀ p, Live s p → AddressSpace s p) ∧
      ∀ a : Action, (s.procs a.slot).state = .runnable → a.Words → Meets s a →
        ∀ e s', a.run data s = .error e s' → e = .asleep ∨ ∃ p, a = .exit p := by
  obtain ⟨l, own, hinv⟩ := inv_of_reachable hlinked hinit h
  refine ⟨fun p hp => hinv.addressSpace hp, fun a hrunnable hwords hmeets e s' hrun => ?_⟩
  have hp : Live s a.slot := by
    rw [Live, hrunnable]
    exact nofun
  exact (hinv.step hlinked hp hwords hmeets).of_error hrun

def poweredOn : Machine := ⟨unbuilt 0x80114000, fun _ => ⟨.unused, 0, none, 0, 0, 0⟩, 1, []⟩

theorem boot_ok : ∃ s l own, main 0x80109000 [] poweredOn = .ok () s ∧ Booted s l own ∧ 50000 ≤ l.length := by
  have hpower : PowerOn poweredOn := ⟨by decide, rfl, fun _ => rfl⟩
  have hlinked : Linked 0x80109000 := by decide
  have hinit : ([] : List UInt8).length < pgsize := by decide
  obtain ⟨_, s, hrun, l, own, hbooted, hlen⟩ := (main_spec hlinked hinit hpower).exists_ok
  exact ⟨s, l, own, hrun, hbooted, hlen⟩

theorem reachable_boot (ok : Machine → Action → Prop) (h : main 0x80109000 [] poweredOn = .ok () s) :
    ((system 0x80109000 []).restrict ok).Reachable s :=
  .init ⟨poweredOn, ⟨by decide, rfl, fun _ => rfl⟩, h⟩

theorem address_spaces_shaped_boot :
    ∃ s, ((system 0x80109000 []).restrict Meets).Reachable s ∧ AddressSpace s initproc ∧
      ∃ r s', Process.fork 0x80109000 initproc s = .ok r s' := by
  obtain ⟨s, l, own, hrun, hbooted, -⟩ := boot_ok
  have hreach := reachable_boot Meets hrun
  have hshaped := address_spaces_shaped (by decide) (by decide) hreach
  have hlive : Live s initproc := by
    rw [Live, hbooted.runnable]
    exact nofun
  refine ⟨s, hreach, hshaped.1 initproc hlive, ?_⟩
  have hlinked : Linked 0x80109000 := by decide
  obtain ⟨r, s', hfork, -⟩ := (hbooted.inv.fork hlinked hlive).exists_ok
  exact ⟨r, s', hfork⟩

/-- The first process gives all its memory back, is told that this failed, and keeps its size. -/
theorem sbrk_loses_pages :
    ∃ s, (system 0x80109000 []).Reachable s ∧ Live s initproc ∧ (s.procs initproc).sz = pgsize ∧
      ¬Present (pteAt s.mem.word (s.procs initproc).pgdir 0) ∧ ¬AddressSpace s initproc := by
  obtain ⟨s, l, own, hrun, hbooted, -⟩ := boot_ok
  have hlive : Live s initproc := by
    rw [Live, hbooted.runnable]
    exact nofun
  have hinv := hbooted.inv
  obtain ⟨r, s', hsbrk, r', hends, -⟩ :=
    (sbrk_spec (n := -4096) hinv.owned hinv.above (hinv.shape initproc hlive)).exists_ok
  have hstep : ((system 0x80109000 []).Step s (.sbrk initproc (-4096)) s') := by
    refine ⟨hbooted.runnable, ⟨by decide, by decide⟩, ?_⟩
    change ignore (sbrk initproc (-4096)) s = _
    unfold ignore
    rw [bind_ok _ hsbrk]
    rfl
  have hboot : (system 0x80109000 []).Reachable s := (reachable_boot (fun _ _ => True) hrun).of_restrict
  have hreach : (system 0x80109000 []).Reachable s' := hboot.step hstep
  cases hends with
  | grown _ hpos _ _ _ _ => omega
  | same hzero => omega
  | shrunk _ hneg r m' l' own' hr howned hframe hshape hs' =>
    have hzero : r = 0 := by
      rw [hr, hbooted.size]
      decide
    rw [if_pos hzero] at hs'
    subst hs' hzero
    have habsent : ¬Present (pteAt m'.word (s.procs initproc).pgdir 0) := hshape.absent 0 (by decide) (by decide)
    refine ⟨_, hreach, hlive, hbooted.size, habsent, fun hspace => habsent ((hspace.present 0 (by decide)).mpr ?_)⟩
    change 0 < npages (s.procs initproc).sz
    rw [hbooted.size]
    decide

end RainOS.Process
