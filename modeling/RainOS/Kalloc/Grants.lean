import RainOS.Kalloc.FreeList
import RainOS.Lib.System

/-!
# Frame grants

Runs of `kalloc`, `kfree` and `allocadd` from the boot's free list, with the pages that are out: those
`kalloc` returned or `allocadd` granted and `kfree` has not been given since. A grant should take its
frame off the free list and nothing else. `allocadd` executes `*freelist = *freelist->next` at the
frame it has found, which unlinks the page after the frame instead and leaves the frame on the list.
So the calls behave as they should exactly as long as no call of `allocadd` finds its frame.
-/

namespace RainOS.Kalloc

open List

structure State where
  mem : Memory
  out : List Nat

inductive Action
  | kalloc
  | kfree (v : Nat)
  | allocadd (low : Nat) (pid : Int) (frame : Nat)

def give (out : List Nat) (page : Nat) : List Nat := if page = 0 then out else page :: out

def step (s : State) : Action → Except Halt State
  | .kalloc =>
    match kalloc s.mem with
    | .ok page m => .ok ⟨m, give s.out page⟩
    | .error e _ => .error e
  | .kfree v =>
    match kfree v s.mem with
    | .ok _ m => .ok ⟨m, s.out.filter (· ≠ v)⟩
    | .error e _ => .error e
  | .allocadd low pid frame =>
    match allocadd low pid frame s.mem with
    | .ok found m => .ok ⟨m, if found = 1 then frame :: s.out else s.out⟩
    | .error e _ => .error e

/-- Calls from the boot's free list on; `kfree` gets pointers to pages that are not free. -/
def system : System State Action where
  Init s := ∃ m, KernelEnd m.kernelEnd ∧ m.freelist = 0 ∧ m.ledger = [] ∧ kinit m = .ok () s.mem ∧ s.out = []
  Step s a s' :=
    (∀ v, a = .kfree v → v < 2 ^ 32 ∧ findFree s.mem v ≠ some true) ∧ step s a = .ok s'

/-- No call of `allocadd` finds its frame on the free list. -/
def NoGrant (s : State) : Action → Prop
  | .allocadd _ _ frame => findFree s.mem frame ≠ some true
  | _ => True

/-- What a call of `allocadd` should do to the free list and the pages that are out. -/
def GrantsExactly (s : State) (low : Nat) (pid : Int) (frame : Nat) : Prop :=
  ∃ found m' l l', allocadd low pid frame s.mem = .ok found m' ∧
    Chain s.mem.word 0 s.mem.freelist l ∧ Chain m'.word 0 m'.freelist l' ∧
    if found = 1 then frame ∈ l ∧ frame ∉ s.out ∧ ∀ p, p ∈ l' ↔ p ∈ l ∧ p ≠ frame
    else l' = l

/-- The pages on the free list and the pages that are out are all different. -/
structure Exclusive (s : State) (l : List Nat) : Prop where
  free : FreeList s.mem l
  nodup : s.out.Nodup
  apart : ∀ p ∈ s.out, p ∉ l
  ledger : s.mem.ledger = []

variable {s s' : State} {l l' l₂ : List Nat} {low frame next v kernelEnd : Nat} {pid : Int}

theorem allocadd_not_free (h : FreeList s.mem l) (hframe : frame ∉ l) :
    allocadd low pid frame s.mem = .ok 0 s.mem := by
  have hfind : findFree s.mem frame = some false := by simp [h.findFree_eq, hframe]
  simp only [allocadd, bind_run, get_run, hfind]
  split
  · rfl
  · split <;> rfl

/-- The memory `allocadd` leaves when it finds its frame. -/
def granted (m : Memory) (low : Nat) (pid : Int) (frame : Nat) : Memory :=
  { m with
    word := Function.update m.word frame (if m.word frame = 0 then low else m.word (m.word frame))
    ledger := m.ledger ++ [(pid, frame)] }

theorem allocadd_free (h : FreeList s.mem l) (hframe : frame ∈ l) (hledger : s.mem.ledger = []) :
    allocadd low pid frame s.mem = .ok 1 (granted s.mem low pid frame) := by
  have hfind : findFree s.mem frame = some true := by simp [h.findFree_eq, hframe]
  have hne : frame ≠ 0 := h.chain.ne_null hframe
  have hlist : s.mem.freelist ≠ 0 := by
    intro hzero
    rw [h.chain.nil_iff.mpr hzero] at hframe
    cases hframe
  have hslots : ¬(s.mem.ledger.length + 1 ≥ ledgerSlots) := by
    rw [hledger]
    decide
  simp [allocadd, hne, hlist, hfind, granted, hslots]

theorem granted_still_free (h : FreeList s.mem l) (hframe : frame ∈ l) (h' : Chain (granted s.mem low pid frame).word 0 (granted s.mem low pid frame).freelist l') :
    frame ∈ l' := by
  obtain ⟨l₁, l₂, rfl, hseg, -⟩ := h.chain.suffix hframe
  have hnotin : frame ∉ l₁ := by
    have hnodup := nodup_append.mp h.chain.nodup
    intro hin
    exact hnodup.2.2 frame hin frame mem_cons_self rfl
  have hseg' : Segment (granted s.mem low pid frame).word 0 s.mem.freelist l₁ frame := by
    apply hseg.congr
    intro p hp
    have hne : p ≠ frame := fun heq => hnotin (heq ▸ hp)
    exact Function.update_of_ne hne _ _
  exact hseg'.mem_chain h' (h.chain.ne_null hframe)

/-- What a grant does instead: the page after the frame goes. -/
theorem granted_loses_next {m : Memory} (l₁ : List Nat) (h : FreeList m (l₁ ++ frame :: next :: l₂)) :
    FreeList (granted m low pid frame) (l₁ ++ frame :: l₂) := by
  obtain ⟨b, hseg, hframe⟩ := chain_append.mp h.chain
  obtain ⟨rfl, hne, hnext, hnext0, hrest⟩ := hframe
  have hnodup := nodup_append.mp h.chain.nodup
  have hword : ∀ p, p ≠ b → (granted m low pid b).word p = m.word p := fun p hp =>
    Function.update_of_ne hp _ _
  have hskip : (granted m low pid b).word b = m.word next := by
    have hupdate : (granted m low pid b).word b =
        if m.word b = 0 then low else m.word (m.word b) := Function.update_self ..
    rw [hupdate, if_neg hnext0, hnext]
  refine ⟨chain_append.mpr ⟨b, ?_, rfl, hne, ?_⟩, ?_⟩
  · apply hseg.congr
    intro p hp
    exact hword p fun heq => hnodup.2.2 p hp b mem_cons_self heq
  · rw [hskip, ← hnext]
    apply hrest.congr
    intro p hp
    apply hword
    intro heq
    have hnotin := (nodup_cons.mp hnodup.2.1).1
    exact hnotin (heq ▸ mem_cons_of_mem _ hp)
  · intro p hp
    apply h.pages p
    rw [mem_append, mem_cons] at hp ⊢
    exact hp.imp_right fun hp => hp.imp_right (mem_cons_of_mem _)

theorem Exclusive.grantsExactly_iff (h : Exclusive s l) :
    GrantsExactly s low pid frame ↔ findFree s.mem frame ≠ some true := by
  rw [h.free.not_free_iff]
  constructor
  · intro ⟨found, m', l₁, l', hrun, hchain, hchain', hpost⟩ hframe
    rw [allocadd_free h.free hframe h.ledger] at hrun
    cases hrun
    rw [if_pos rfl] at hpost
    have hstill := granted_still_free h.free hframe hchain'
    exact ((hpost.2.2 frame).mp hstill).2 rfl
  · intro hframe
    exact ⟨0, s.mem, l, l, allocadd_not_free h.free hframe, h.free.chain, h.free.chain, rfl⟩

theorem Exclusive.kalloc (h : Exclusive s l) (hstep : step s .kalloc = .ok s') :
    ∃ l', Exclusive s' l' := by
  cases l with
  | nil =>
    simp only [step, h.free.kalloc_nil] at hstep
    cases hstep
    exact ⟨[], h⟩
  | cons p l =>
    obtain ⟨hrun, hfree⟩ := h.free.kalloc_cons
    simp only [step, hrun] at hstep
    cases hstep
    have hne : p ≠ 0 := h.free.chain.ne_null mem_cons_self
    have hnew : p ∉ s.out := fun hin => h.apart p hin mem_cons_self
    refine ⟨l, hfree, ?_, ?_, h.ledger⟩
    · rw [give, if_neg hne]
      exact nodup_cons.mpr ⟨hnew, h.nodup⟩
    · rw [give, if_neg hne]
      intro q hq hql
      rcases mem_cons.mp hq with rfl | hq
      · exact (nodup_cons.mp h.free.chain.nodup).1 hql
      · exact h.apart q hq (mem_cons_of_mem _ hql)

theorem Exclusive.kfree (h : Exclusive s l) (hlt : v < 2 ^ 32)
    (hfree : findFree s.mem v ≠ some true) (hstep : step s (.kfree v) = .ok s') :
    ∃ l', Exclusive s' l' := by
  rcases Decidable.em (Accepts s.mem.kernelEnd v) with haccept | hreject
  · simp only [step, kfree_run haccept] at hstep
    cases hstep
    have hnew := (h.free.not_free_iff v).mp hfree
    refine ⟨v :: l, h.free.put haccept hlt hnew, h.nodup.filter _, ?_, h.ledger⟩
    intro q hq hql
    obtain ⟨hq, hne⟩ := mem_filter.mp hq
    rcases mem_cons.mp hql with rfl | hql
    · simp at hne
    · exact h.apart q hq hql
  · have hrun : Kalloc.kfree v s.mem = .error (.panic "kfree") s.mem := by simp [Kalloc.kfree, hreject]
    simp only [step, hrun] at hstep
    cases hstep

theorem Exclusive.step (h : Exclusive s l) {a : Action} (hgrant : NoGrant s a)
    (hstep : system.Step s a s') : ∃ l', Exclusive s' l' := by
  obtain ⟨hfree, hstep⟩ := hstep
  cases a with
  | kalloc => exact h.kalloc hstep
  | kfree v => exact h.kfree (hfree v rfl).1 (hfree v rfl).2 hstep
  | allocadd low pid frame =>
    have hframe := (h.free.not_free_iff frame).mp hgrant
    simp only [Kalloc.step, allocadd_not_free h.free hframe] at hstep
    cases hstep
    exact ⟨l, h⟩

theorem exclusive_init (h : system.Init s) : ∃ l, Exclusive s l := by
  obtain ⟨m, hend, hnil, hledger, hrun, hout⟩ := h
  obtain ⟨hfree, -, hledger'⟩ := (kinit_spec hend hnil).of_ok hrun
  exact ⟨_, hfree, by rw [hout]; exact nodup_nil, by rw [hout]; exact fun _ hp => (nomatch hp),
    hledger'.trans hledger⟩

theorem exclusive_of_reachable (h : (system.restrict NoGrant).Reachable s) : ∃ l, Exclusive s l := by
  apply h.invariant
  · exact fun s hs => exclusive_init hs
  · intro s a s' ⟨l, hl⟩ hstep
    exact hl.step hstep.1 hstep.2

/-- In a run in which no call of `allocadd` finds its frame, the free list has no page twice and no
page is given while it is out; and the next call of `allocadd` does what it should exactly if it does
not find its frame either. -/
theorem grants_exclusive_iff_none (h : (system.restrict NoGrant).Reachable s) :
    (∃ l, Chain s.mem.word 0 s.mem.freelist l ∧ l.Nodup) ∧
      (∀ page m', Kalloc.kalloc s.mem = .ok page m' → page ≠ 0 → page ∉ s.out) ∧
      ∀ low pid frame, GrantsExactly s low pid frame ↔ findFree s.mem frame ≠ some true := by
  obtain ⟨l, hl⟩ := exclusive_of_reachable h
  refine ⟨⟨l, hl.free.chain, hl.free.chain.nodup⟩, ?_, fun low pid frame => hl.grantsExactly_iff⟩
  intro page m' hrun hpage hout
  cases l with
  | nil =>
    rw [hl.free.kalloc_nil] at hrun
    cases hrun
    exact hpage rfl
  | cons p l =>
    rw [hl.free.kalloc_cons.1] at hrun
    cases hrun
    exact hl.apart page hout mem_cons_self

theorem kinit_ok (h : KernelEnd kernelEnd) :
    ∃ m, kinit (unbuilt kernelEnd) = .ok () m ∧ FreeList m (bootPages kernelEnd) ∧ m.ledger = [] := by
  obtain ⟨_, m, hrun, hfree, -, hledger⟩ := (kinit_spec (m := unbuilt kernelEnd) h rfl).exists_ok
  exact ⟨m, hrun, hfree, hledger⟩

theorem bootPages_top (kernelEnd : Nat) :
    ∃ l, bootPages kernelEnd = 0x8DFFF000 :: 0x8DFFE000 :: l := by
  have hcount : (phystop - 4 * 1024 * 1024) / pgsize = 56318 + 1 + 1 := by decide
  have htop : p2v (4 * 1024 * 1024) + (56318 + 1) * pgsize = 0x8DFFF000 := by decide
  have hnext : p2v (4 * 1024 * 1024) + 56318 * pgsize = 0x8DFFE000 := by decide
  rw [bootPages, hcount, pagesFrom_succ, pagesFrom_succ, htop, hnext, cons_append, cons_append]
  exact ⟨_, rfl⟩

theorem grants_exclusive_iff_none_boot :
    ∃ s, (system.restrict NoGrant).Reachable s ∧
      (GrantsExactly s 0 1 0x8DFFF000 ↔ findFree s.mem 0x8DFFF000 ≠ some true) := by
  have hend : KernelEnd 0x80114000 := by decide
  obtain ⟨m, hrun, -⟩ := kinit_ok hend
  have hreach : (system.restrict NoGrant).Reachable ⟨m, []⟩ :=
    .init ⟨unbuilt 0x80114000, hend, rfl, rfl, hrun, rfl⟩
  exact ⟨_, hreach, (grants_exclusive_iff_none hreach).2.2 0 1 0x8DFFF000⟩

/-- After the boot a grant of the first free frame succeeds, the page after it is lost from the free
list, and the next `kalloc` returns the granted frame. -/
theorem allocadd_keeps_frame :
    ∃ m m₁ m₂, kinit (unbuilt 0x80114000) = .ok () m ∧
      allocadd 0 1 0x8DFFF000 m = .ok 1 m₁ ∧ findFree m 0x8DFFE000 = some true ∧
      findFree m₁ 0x8DFFE000 = some false ∧ kalloc m₁ = .ok 0x8DFFF000 m₂ := by
  have hend : KernelEnd 0x80114000 := by decide
  obtain ⟨m, hrun, hfree, hledger⟩ := kinit_ok hend
  obtain ⟨l, htop⟩ := bootPages_top 0x80114000
  rw [htop] at hfree
  have hgrant : allocadd 0 1 0x8DFFF000 m = .ok 1 (granted m 0 1 0x8DFFF000) :=
    allocadd_free (s := ⟨m, []⟩) hfree mem_cons_self hledger
  have hfree₁ : FreeList (granted m 0 1 0x8DFFF000) (0x8DFFF000 :: l) :=
    granted_loses_next [] hfree
  have hnodup := (nodup_cons.mp hfree.chain.nodup).2
  refine ⟨m, _, _, hrun, hgrant, ?_, ?_, hfree₁.kalloc_cons.1⟩
  · rw [hfree.findFree_eq]
    simp
  · rw [hfree₁.findFree_eq]
    simp [(nodup_cons.mp hnodup).1]

end RainOS.Kalloc
