import RainOS.Process.Calls

/-!
# The boot

The first process: after `main` it has one page of memory, its directory and its kernel stack, and all other
pages of memory but the kernel's own directory are free.
-/

namespace RainOS.Process

open Kalloc Vm Function List

variable {s s' : Machine} {m m' m₀ : Memory} {l l' l₀ : List Nat} {own own' own₀ : Nat → Option Owner}
  {base n d q data : Nat} {initcode : List UInt8}

/-- The owners once `n` pages from `base` on have been freed. -/
def freed (own : Nat → Option Owner) (base n p : Nat) : Option Owner :=
  if p ∈ pagesFrom base n then some .free else own p

theorem freed_succ (own : Nat → Option Owner) (base n : Nat) :
    freed own base (n + 1) = update (freed own base n) (base + n * pgsize) (some .free) := by
  funext p
  by_cases hp : p = base + n * pgsize
  · rw [hp, update_self, freed, pagesFrom_succ, if_pos mem_cons_self]
  · rw [update_of_ne hp, freed, freed, pagesFrom_succ]
    simp only [mem_cons, hp, false_or]

theorem freePages_owned (h : Owned m l own) (base n : Nat) (hpage : ∀ i < n, Page m.kernelEnd (base + i * pgsize))
    (hnone : ∀ i < n, own (base + i * pgsize) = none) :
    Ends ((range n).forM fun i => kfree (base + i * pgsize)) m
      (fun _ m' => Owned m' (pagesFrom base n ++ l) (freed own base n) ∧ m'.kernelEnd = m.kernelEnd)
      fun _ _ => False := by
  have hstart : Owned m (pagesFrom base 0 ++ l) (freed own base 0) := h
  refine .forM_range (fun i m' => Owned m' (pagesFrom base i ++ l) (freed own base i) ∧
    m'.kernelEnd = m.kernelEnd) ⟨hstart, rfl⟩ ?_
  intro i hlt m₁ ⟨howned, hend⟩
  have hpage' := hpage i hlt
  rw [← hend] at hpage'
  have hnone' : freed own base i (base + i * pgsize) = none := by
    rw [freed, if_neg, hnone i hlt]
    rw [mem_pagesFrom]
    intro ⟨j, hj, heq⟩
    simp only [pgsize] at heq
    omega
  refine .of_run_ok (kfree_run hpage'.1) ⟨?_, hend⟩
  rw [pagesFrom_succ, freed_succ]
  exact howned.give hnone' hpage'

theorem inituvm_spec (h : Building m₀ l₀ own₀ d 0 m l own) (hinit : initcode.length < pgsize) (hfree : 1 < l.length) :
    Ends (inituvm d initcode) m (fun _ m' => ∃ l' own', Held m₀ l₀ own₀ d none m' l' own' ∧ Image m' own' d pgsize ∧
      l.length ≤ l'.length + 2) fun _ _ => False := by
  unfold inituvm
  rw [if_neg (Nat.not_le_of_lt hinit)]
  cases l with
  | nil => cases hfree
  | cons q l₁ =>
    have hq : q ≠ 0 := h.owned.free.chain.ne_null mem_cons_self
    have htook := h.owned.took_zero
    refine .after_ok h.owned.free.kalloc_cons.1 ?_
    rw [if_neg hq]
    refine .after_ok (memset0_run m q) ?_
    have hmap := mappages_user htook.owned (htook.live h.live) (n := 0) (by decide) (update_self ..) htook.page
      (pteW ||| pteU) (by decide)
    rw [Nat.zero_mul] at hmap
    refine .bind (hmap.stop fun e _ he => ?_) fun r m₂ hr => ?_
    · have hempty := h.image.user_empty (k := 0) (Nat.zero_le _) (by decide)
      rw [htook.pteAt_eq h.live (by decide), hempty] at he
      exact absurd he.2 (by decide)
    · obtain ⟨-, -, hl, -⟩ | ⟨-, -, pages, l₂, own₂, hmapped⟩ := hr
      · rw [hl] at hfree
        exact absurd hfree (Nat.lt_irrefl 1)
      · have hfilled := (htook.oneFilled (F := userFlags) h.live (by decide) rfl (by decide) hmapped).toFilled
        have himage : Image m₂ own₂ d pgsize := hfilled.image h.image (by decide) rfl
        have hheld := h.toHeld.filled hfilled
        have hentry := hmapped.entries 0 (by decide)
        rw [if_pos rfl] at hentry
        have huser : own₂ q = some (.user d 0) := by
          apply hmapped.owned.own_frame hmapped.live (by decide)
          rw [frameAt, hentry]
          exact decode_entry htook.page (by decide)
        have hmove := memmove_spec d (hmapped.owned.page q _ huser) (show 0 + initcode.length ≤ pgsize by omega)
        rw [Nat.add_zero] at hmove
        refine hmove.post fun _ m₃ hm₃ => ?_
        obtain ⟨word', rfl, hother⟩ := hm₃
        obtain ⟨hheld', hpte, htables⟩ := hheld.poke huser hother
        refine ⟨l₂, own₂, hheld', himage.congr hpte htables hmapped.live, ?_⟩
        have hcount := hmapped.count
        rw [length_cons, hmapped.split, length_append]
        split at hcount <;> omega

/-- What the boot leaves: one process with a page of memory. -/
structure Booted (s : Machine) (l : List Nat) (own : Nat → Option Owner) : Prop where
  owned : Owned s.mem l own
  above : kernbase < s.mem.kernelEnd
  others : ∀ p, p ≠ initproc → (s.procs p).state = .unused
  runnable : (s.procs initproc).state = .runnable
  size : (s.procs initproc).sz = pgsize
  shape : Shaped s.mem own (s.procs initproc).pgdir pgsize
  stack : own (s.procs initproc).kstack = some .client

theorem userinit_spec (hlinked : Linked data) (hinit : initcode.length < pgsize) (h : Owned s.mem l own)
    (habove : kernbase < s.mem.kernelEnd) (hunused : ∀ p, (s.procs p).state = .unused)
    (hmany : kernelTables + 4 ≤ l.length) :
    Ends (userinit data initcode) s (fun _ s' => ∃ l' own', Booted s' l' own' ∧
      l.length ≤ l'.length + (kernelTables + 4)) fun _ _ => False := by
  unfold userinit
  refine (allocproc_spec h).bind fun r s₁ hr => ?_
  cases hr with
  | full hno => exact absurd (hunused initproc) (hno initproc)
  | failed np _ _ hl _ _ _ _ =>
    rw [hl] at hmany
    cases hmany
  | made np kstack l₁ _ _ hfirst hl hmem hothers hstack _ =>
    subst hl
    rw [length_cons] at hmany ⊢
    have hnp : np = initproc := by
      by_contra hne
      have hpos : initproc < np := Nat.pos_of_ne_zero fun hzero => hne (Fin.ext hzero)
      exact hfirst initproc hpos (hunused initproc)
    subst hnp
    have howned : Owned s₁.mem l₁ (update own kstack (some .client)) := by
      rw [hmem]
      exact owned_kalloc h
    have habove₁ : kernbase < s₁.mem.kernelEnd := by
      rw [hmem]
      exact habove
    have hkstack : kstack ∉ l₁ := (nodup_cons.mp h.free.chain.nodup).1
    refine (lift_spec (setupkvm_spec hlinked howned)).bind fun d s₂ hr => ?_
    obtain ⟨m₂, rfl, hends⟩ := hr
    cases hends with
    | full hl =>
      rw [hl] at hmany
      exact absurd hmany (by decide)
    | lost _ _ _ _ hfew _ _ _ => omega
    | made _ pages l₂ _ own₂ hne hsplit hin hlen howned₂ hgrew hlive hfresh =>
      have hbuild := building_start howned habove₁ hsplit hin howned₂ hgrew hlive hfresh
      have hlength : l₁.length = kernelTables + 1 + l₂.length := by rw [hsplit, length_append, hlen]
      rw [if_neg hne]
      refine (lift_spec (s := { s₁ with mem := m₂ }) (inituvm_spec hbuild hinit (by omega))).bind fun _ s₃ hr => ?_
      obtain ⟨m₃, rfl, l₃, own₃, hheld, himage, hcount⟩ := hr
      refine .of_run_ok (setProc_run ..) ⟨l₃, own₃, ⟨hheld.owned, hheld.above', fun p hp => ?_, ?_, ?_, ?_, ?_⟩, by omega⟩
      · simp only [update_of_ne hp, hothers p hp, hunused p]
      · simp only [update_self]
      · simp only [update_self]
      · simp only [update_self]
        exact himage.shaped
      · simp only [update_self, hstack]
        rw [hheld.frame.own kstack hkstack, update_self]

structure PowerOn (s : Machine) : Prop where
  kernelEnd : KernelEnd s.mem.kernelEnd
  nofree : s.mem.freelist = 0
  unused : ∀ p, (s.procs p).state = .unused

def highPages : List Nat := pagesFrom (p2v (4 * 1024 * 1024)) ((phystop - 4 * 1024 * 1024) / pgsize)

theorem kinit1_spec (hend : KernelEnd m.kernelEnd) (hnil : m.freelist = 0) :
    Ends (kinit1 m.kernelEnd (p2v (4 * 1024 * 1024))) m (fun _ m' => ∃ l, FreeList m' l ∧
      (∀ p ∈ l, p < p2v (4 * 1024 * 1024)) ∧ m'.kernelEnd = m.kernelEnd) fun _ _ => False := by
  have hempty : FreeList m [] := ⟨hnil, fun _ hp => (nomatch hp)⟩
  unfold kinit1 freerange
  refine (freePages_spec hempty _ _ fun i hi => ?_).post fun _ m' hm' => ?_
  · obtain ⟨haccept, hlt⟩ := low_page hend hi
    exact ⟨haccept, hlt.trans (by decide), not_mem_nil⟩
  · obtain ⟨hfree, hsame, -⟩ := hm'
    rw [append_nil] at hfree
    refine ⟨_, hfree, fun p hp => ?_, hsame⟩
    obtain ⟨i, hi, rfl⟩ := mem_pagesFrom.mp hp
    exact (low_page hend hi).2

theorem kinit2_spec (hend : KernelEnd m.kernelEnd) (h : Owned m l own)
    (hnone : ∀ p, p2v (4 * 1024 * 1024) ≤ p → own p = none) :
    Ends (kinit2 (p2v (4 * 1024 * 1024)) (p2v phystop)) m (fun _ m' => Owned m' (highPages ++ l)
      (freed own (p2v (4 * 1024 * 1024)) ((phystop - 4 * 1024 * 1024) / pgsize)) ∧ m'.kernelEnd = m.kernelEnd)
      fun _ _ => False :=
  freePages_owned h (p2v (4 * 1024 * 1024)) ((phystop - 4 * 1024 * 1024) / pgsize)
    (fun _ hi => high_page hend hi) fun _ _ => hnone _ (Nat.le_add_right _ _)

theorem kvmalloc_spec (hlinked : Linked data) (h : Owned m l own) :
    Ends (setupkvm data) m (fun _ m' => ∃ l' own', Owned m' l' own' ∧ m'.kernelEnd = m.kernelEnd ∧
      ∀ p ∉ l, own' p = own p) fun _ _ => False := by
  refine (setupkvm_spec hlinked h).post fun d m' hends => ?_
  cases hends with
  | full hl => exact ⟨l, own, h, rfl, fun _ _ => rfl⟩
  | lost d₀ _ own' hin hfew howned hgrew hlive =>
    exact ⟨[], _, howned.forget d₀, hgrew.kernelEnd, fun p hp =>
      ((hgrew.leaked_setup h hin).2 p).resolve_right fun hlost => hp hlost.1⟩
  | made _ pages l' _ own' hne hsplit hin hlen howned hgrew hlive hfresh =>
    refine ⟨l', own', howned, hgrew.kernelEnd, fun p hp => hgrew.other p fun hin => hp ?_⟩
    rw [hsplit]
    exact mem_append_left _ hin

theorem main_spec (hlinked : Linked data) (hinit : initcode.length < pgsize) (h : PowerOn s) :
    Ends (main data initcode) s (fun _ s' => ∃ l' own', Booted s' l' own' ∧ 50000 ≤ l'.length) fun _ _ => False := by
  have habove : kernbase < s.mem.kernelEnd :=
    Nat.lt_of_lt_of_le (Nat.lt_add_of_pos_right (by decide)) h.kernelEnd.1
  unfold main
  refine .after_ok (get_run s) ?_
  refine (lift_spec (kinit1_spec h.kernelEnd h.nofree)).bind fun _ s₁ hr => ?_
  obtain ⟨m₁, rfl, l₁, hfree, hlow, hend₁⟩ := hr
  refine (lift_spec (s := { s with mem := m₁ }) (kvmalloc_spec hlinked (Owned.boot hfree))).bind fun _ s₂ hr => ?_
  obtain ⟨m₂, rfl, l₂, own₂, howned₂, hend₂, hother⟩ := hr
  have hsame : m₂.kernelEnd = s.mem.kernelEnd := hend₂.trans hend₁
  have hnone : ∀ p, p2v (4 * 1024 * 1024) ≤ p → own₂ p = none := by
    intro p hp
    have hnot : p ∉ l₁ := fun hin => by
      have hlt := hlow p hin
      omega
    rw [hother p hnot, if_neg hnot]
  refine (lift_spec (s := { s with mem := m₂ }) (kinit2_spec (by rw [hsame]; exact h.kernelEnd) howned₂ hnone)).bind
    fun _ s₃ hr => ?_
  obtain ⟨m₃, rfl, howned₃, hend₃⟩ := hr
  have hmany : (highPages ++ l₂).length = 56320 + l₂.length := by
    rw [length_append, highPages, length_pagesFrom]
    rfl
  have hboot := userinit_spec (s := { s with mem := m₃ }) hlinked hinit howned₃ (by rw [hend₃, hsame]; exact habove)
    h.unused (by rw [hmany]; exact Nat.le_trans (by decide) (Nat.le_add_right _ _))
  refine hboot.post fun _ s' hs' => ?_
  obtain ⟨l', own', hbooted, hlength⟩ := hs'
  refine ⟨l', own', hbooted, ?_⟩
  rw [hmany, kernelTables] at hlength
  omega

end RainOS.Process
