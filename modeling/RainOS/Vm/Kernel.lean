import RainOS.Vm.Spec

/-!
# The kernel's half of a page table

`setupkvm` takes 66 pages, one for the directory and one for each of its 65 tables, and maps the kernel's
five ranges. When there is no page for a table, the directory and the tables it has made are lost.
-/

namespace RainOS.Vm

open Kalloc Function List

def Linked (data : Nat) : Prop := data % pgsize = 0 ∧ kernlink < data ∧ data ≤ p2v (4 * 1024 * 1024)

instance (data : Nat) : Decidable (Linked data) := inferInstanceAs (Decidable (_ ∧ _))

variable {m m' m'' : Memory} {l l' pages : List Nat} {own own' : Nat → Option Owner} {word : Nat → Nat}
  {p q d i n a data : Nat} {S T : Nat → Prop} {k : Kmap} {rest : List Kmap}

def KernelPage (n : Nat) : Prop := 0x80000 ≤ n ∧ n < 0x8E008 ∨ 0xFE000 ≤ n ∧ n < 0x100000

theorem mapKernel_cons (hfirst : Ends (mappages d k.virt ((k.physEnd + 2 ^ 32 - k.physStart) % 2 ^ 32) k.physStart k.perm) m
      (MapEnds d S m l own) fun _ _ => False) (hrest : ∀ pages m' l' own', Extended d S pages m l own m' l' own' →
      Ends (mapKernel d rest) m' (MapEnds d T m' l' own') fun _ _ => False) :
    Ends (mapKernel d (k :: rest)) m (MapEnds d (fun n => S n ∨ T n) m l own) fun _ _ => False := by
  unfold mapKernel
  refine hfirst.bind fun r m' hr => ?_
  obtain ⟨rfl, pages, l', own', hext⟩ | ⟨rfl, S', own', hext, hsub, n, hS, hnone⟩ := hr
  · rw [if_neg (by decide)]
    refine (hrest pages m' l' own' hext).post fun r m'' hends => ?_
    exact hends.after hext
  · rw [if_pos (by decide)]
    exact .pure (.inr ⟨rfl, S', own', hext, fun n hn => .inl (hsub n hn), n, .inl hS, hnone⟩)

theorem mapKernel_line (lo hi : Nat)
    (hvirt : k.virt = lo * pgsize) (hsize : (k.physEnd + 2 ^ 32 - k.physStart) % 2 ^ 32 = (hi - lo) * pgsize)
    (hphys : k.physStart % pgsize = 0) (hperm : k.perm = 0 ∨ k.perm = pteW) (hkernel : userPages ≤ lo)
    (hlt : lo < hi) (hle : hi ≤ 2 ^ 20) (h : Owned m l own) (hd : own d = some .directory)
    (hzero : ∀ n, lo ≤ n → n < 2 ^ 20 → pteAt m.word d n = 0)
    (hrest : ∀ m' l' own', Owned m' l' own' → own' d = some .directory →
      (∀ n, hi ≤ n → n < 2 ^ 20 → pteAt m'.word d n = 0) →
      Ends (mapKernel d rest) m' (MapEnds d T m' l' own') fun _ _ => False) :
    Ends (mapKernel d (k :: rest)) m (MapEnds d (fun n => (lo ≤ n ∧ n < hi) ∨ T n) m l own)
      fun _ _ => False := by
  have hend : lo + (hi - lo) = hi := by omega
  apply mapKernel_cons
  · rw [hvirt, hsize]
    have hmap := mappages_kernel (hi - lo) k.physStart hperm h hd hkernel (by omega)
      (by omega) hphys (fun n hn hn' => by
        rw [hzero n hn (by omega)]
        decide)
    rwa [hend] at hmap
  · intro pages m' l' own' hext
    refine hrest m' l' own' hext.owned hext.live fun n hn hn' => ?_
    rw [hext.outside n (page_lt hn') (by omega)]
    exact hzero n (by omega) hn'

theorem mapKernel_kmap (hlinked : Linked data) (h : Owned m l own) (hd : own d = some .directory)
    (hzero : ∀ n, n < 2 ^ 20 → pteAt m.word d n = 0) :
    Ends (mapKernel d (kmap data)) m (MapEnds d KernelPage m l own) fun _ _ => False := by
  obtain ⟨halign, hlo, hhi⟩ := hlinked
  simp only [pgsize, kernlink, kernbase, extmem, p2v] at halign hlo hhi
  have hsplit : Ends (mapKernel d (kmap data)) m (MapEnds d (fun n => (0x80000 ≤ n ∧ n < 0x80100) ∨
      (0x80100 ≤ n ∧ n < data / 4096) ∨ (data / 4096 ≤ n ∧ n < 0x8E000) ∨ (0x8E000 ≤ n ∧ n < 0x8E008) ∨
      (0xFE000 ≤ n ∧ n < 0x100000) ∨ False) m l own) fun _ _ => False := by
    unfold kmap
    refine mapKernel_line 0x80000 0x80100 rfl rfl rfl (.inr rfl) (by decide) (by decide) (by decide) h hd
      (fun n _ hn => hzero n hn) fun m₁ l₁ own₁ h₁ hd₁ hz₁ => ?_
    refine mapKernel_line 0x80100 (data / 4096) rfl ?_ (show v2p kernlink % pgsize = 0 by decide) (.inl rfl) (by decide)
      (by omega) (by omega) h₁ hd₁ hz₁ fun m₂ l₂ own₂ h₂ hd₂ hz₂ => ?_
    · simp only [v2p, kernlink, kernbase, extmem, pgsize]
      omega
    refine mapKernel_line (data / 4096) 0x8E000 ?_ ?_ ?_ (.inr rfl) ?_ (by omega) (by decide) h₂ hd₂
      hz₂ fun m₃ l₃ own₃ h₃ hd₃ hz₃ => ?_
    · simp only [pgsize]
      omega
    · simp only [v2p, kernbase, phystop, pgsize]
      omega
    · exact v2p_aligned (by simpa only [pgsize] using halign)
    · simp only [userPages, kernbase, pgsize]
      omega
    refine mapKernel_line 0x8E000 0x8E008 rfl rfl rfl (.inr rfl) (by decide) (by decide) (by decide) h₃ hd₃
      hz₃ fun m₄ l₄ own₄ h₄ hd₄ hz₄ => ?_
    refine mapKernel_line 0xFE000 0x100000 rfl rfl rfl (.inr rfl) (by decide) (by decide) (by decide) h₄ hd₄
      (fun n hn hn' => hz₄ n (by omega) hn') fun m₅ l₅ own₅ h₅ hd₅ hz₅ => ?_
    exact .pure (.inl ⟨rfl, [], l₅, own₅, .refl h₅ hd₅⟩)
  refine hsplit.post fun r m' hends => hends.congr fun n => ?_
  simp only [KernelPage, or_false]
  omega

def KernelTable (i : Nat) : Prop := 512 ≤ i ∧ i < 569 ∨ 1016 ≤ i

instance (i : Nat) : Decidable (KernelTable i) := inferInstanceAs (Decidable (_ ∧ _ ∨ _))

theorem kernelTable_iff (hi : i < npdentries) : (∃ n, KernelPage n ∧ i = n / nptentries) ↔ KernelTable i := by
  change i < 1024 at hi
  refine ⟨fun ⟨n, hn, heq⟩ => ?_, fun h => ?_⟩
  · change i = n / 1024 at heq
    unfold KernelPage at hn
    unfold KernelTable
    omega
  · refine ⟨i * 1024, ?_, ?_⟩
    · unfold KernelTable at h
      unfold KernelPage
      omega
    · have heq : i = i * 1024 / 1024 := by omega
      exact heq

/-- The entries of a directory that `setupkvm` leaves without a table. -/
def userTables : Finset Nat := (Finset.range npdentries).filter fun i => i < 512 ∨ 569 ≤ i ∧ i < 1016

theorem card_userTables : userTables.card = 959 := by decide +kernel

/-- The pages `setupkvm` takes: a directory and its 65 tables. -/
def kernelTables : Nat := 65

theorem bootPages_many (kernelEnd : Nat) : kernelTables < (bootPages kernelEnd).length := by
  rw [bootPages, length_append, length_pagesFrom]
  exact Nat.lt_of_lt_of_le (by decide) (Nat.le_add_right _ _)

structure Fresh (d : Nat) (m : Memory) : Prop where
  mapped : ∀ n, KernelPage n → KernelFlags (pteAt m.word d n)
  empty : ∀ n < 2 ^ 20, ¬KernelPage n → pteAt m.word d n = 0
  tables : ∀ i < npdentries, tableAt m.word d i = none ↔ ¬KernelTable i

/-- How `setupkvm` ends. Without a page for one of its tables it leaves the directory and the tables it
has made to nobody. -/
inductive SetupEnds (m : Memory) (l : List Nat) (own : Nat → Option Owner) : Nat → Memory → Prop
  | full (hl : l = []) : SetupEnds m l own 0 m
  | lost (pgdir : Nat) (m' : Memory) (own' : Nat → Option Owner) (hin : pgdir ∈ l)
      (hfew : l.length ≤ kernelTables) (howned : Owned m' [] own') (hgrew : Grew pgdir l m own m' own')
      (hlive : own' pgdir = some .directory) : SetupEnds m l own 0 m'
  | made (pgdir : Nat) (pages l' : List Nat) (m' : Memory) (own' : Nat → Option Owner) (hne : pgdir ≠ 0)
      (hsplit : l = pages ++ l') (hin : pgdir ∈ pages) (hlen : pages.length = kernelTables + 1)
      (howned : Owned m' l' own') (hgrew : Grew pgdir pages m own m' own')
      (hlive : own' pgdir = some .directory) (hfresh : Fresh pgdir m') : SetupEnds m l own pgdir m'

theorem missing_zero (h : ∀ i < npdentries, tableAt word d i = none) : missing word d = npdentries := by
  have hall := Finset.filter_true_of_mem (s := Finset.range npdentries) fun i hi => h i (Finset.mem_range.mp hi)
  rw [missing, hall, Finset.card_range]

theorem not_kernelTable_iff (hi : i < npdentries) : ¬KernelTable i ↔ i ∈ userTables := by
  rw [userTables, Finset.mem_filter, Finset.mem_range]
  change i < 1024 at hi
  change _ ↔ i < 1024 ∧ _
  unfold KernelTable
  omega

theorem Extended.missing_eq (h : Extended d KernelPage pages m l own m' l' own')
    (hnone : ∀ i < npdentries, tableAt m.word d i = none) :
    (∀ i < npdentries, tableAt m'.word d i = none ↔ ¬KernelTable i) ∧ missing m'.word d = 959 := by
  have htables : ∀ i < npdentries, tableAt m'.word d i = none ↔ ¬KernelTable i := by
    intro i hi
    rw [h.tables i hi, and_iff_right (hnone i hi), ← kernelTable_iff hi, not_exists]
    exact forall_congr' fun n => not_and.symm
  refine ⟨htables, ?_⟩
  have hset : (Finset.range npdentries).filter (fun i => tableAt m'.word d i = none) = userTables := by
    ext i
    rw [Finset.mem_filter, Finset.mem_range]
    refine ⟨fun hi => (not_kernelTable_iff hi.1).mp ((htables i hi.1).mp hi.2), fun hi => ?_⟩
    have hlt : i < npdentries := Finset.mem_range.mp (Finset.mem_filter.mp hi).1
    exact ⟨hlt, (htables i hlt).mpr ((not_kernelTable_iff hlt).mpr hi)⟩
  rw [missing, hset, card_userTables]

theorem missing_gt (hkernel : ∀ i < npdentries, ¬KernelTable i → tableAt word d i = none) (hi : i < npdentries)
    (hkt : KernelTable i) (hnone : tableAt word d i = none) : 959 < missing word d := by
  have hnot : i ∉ userTables := by
    rw [← not_kernelTable_iff hi]
    exact not_not_intro hkt
  have hsubset : insert i userTables ⊆ (Finset.range npdentries).filter fun i => tableAt word d i = none := by
    intro k hk
    rw [Finset.mem_filter, Finset.mem_range]
    obtain rfl | hk := Finset.mem_insert.mp hk
    · exact ⟨hi, hnone⟩
    · have hk' : k < npdentries := Finset.mem_range.mp (Finset.mem_filter.mp hk).1
      exact ⟨hk', hkernel k hk' ((not_kernelTable_iff hk').mpr hk)⟩
  have hcard := Finset.card_le_card hsubset
  rw [Finset.card_insert_of_notMem hnot, card_userTables] at hcard
  exact hcard

theorem Extended.missing_gt (h : Extended d S pages m l own m' l' own')
    (hnone : ∀ i < npdentries, tableAt m.word d i = none) (hsub : ∀ n, S n → KernelPage n)
    (hn : KernelPage n) (hmissing : tableAt m'.word d (n / nptentries) = none) :
    959 < missing m'.word d := by
  have hlt : n / nptentries < npdentries := page_lt (by unfold KernelPage at hn; omega)
  refine Vm.missing_gt (fun i hi hnot => ?_) hlt ((kernelTable_iff hlt).mp ⟨n, hn, rfl⟩) hmissing
  refine (h.tables i hi).mpr ⟨hnone i hi, fun k hk heq => hnot ?_⟩
  exact (kernelTable_iff hi).mp ⟨k, hsub k hk, heq⟩

def withPage (m : Memory) (q : Nat) : Memory := { m with freelist := m.word q, word := zeroPage m.word q }

theorem memset0_run (m : Memory) (q : Nat) :
    memset0 q { m with freelist := m.word q } = .ok () (withPage m q) := rfl

theorem Owned.withDir (h : Owned m (d :: l) own) :
    Owned (withPage m d) l (update own d (some .directory)) ∧
      Grew d [d] m own (withPage m d) (update own d (some .directory)) := by
  have hd := h.head_page
  have hdir := h.takeZero.newDir (update_self d none own) hd fun a ha => zeroPage_of_eq hd.aligned ha
  rw [update_idem] at hdir
  refine ⟨hdir, rfl, rfl, ?_, ?_, ?_⟩
  · intro p hp
    rw [mem_singleton.mp hp, spaceOf, update_self]
    rfl
  · intro p hp
    exact update_of_ne (fun heq => hp (mem_singleton.mpr heq)) _ _
  · intro a ha _
    exact zeroPage_of_ne hd.aligned fun heq => ha (mem_singleton.mpr heq)

theorem tableAt_withPage (hd : d % pgsize = 0) (hi : i < npdentries) : tableAt (withPage m d).word d i = none := by
  have hzero : (withPage m d).word (d + 4 * i) = 0 := zeroPage_of_eq hd (pgrounddown_word hd hi)
  rw [tableAt, target, hzero]
  rfl

theorem setupkvm_spec (hlinked : Linked data) (h : Owned m l own) :
    Ends (setupkvm data) m (SetupEnds m l own) fun _ _ => False := by
  unfold setupkvm
  cases l with
  | nil =>
    refine .after_ok h.free.kalloc_nil ?_
    exact .pure (.full rfl)
  | cons d l₁ =>
    have hd : d ≠ 0 := h.free.chain.ne_null mem_cons_self
    have hnone : ∀ i < npdentries, tableAt (withPage m d).word d i = none := fun i hi =>
      tableAt_withPage h.head_page.aligned hi
    obtain ⟨howned, hgrew⟩ := h.withDir
    have hmissing := missing_zero hnone
    refine .after_ok h.free.kalloc_cons.1 ?_
    rw [if_neg hd]
    refine .after_ok (memset0_run m d) ?_
    rw [if_neg (by decide)]
    refine .bind (mapKernel_kmap hlinked howned (update_self ..) fun n hn => ?_) fun r m' hends => ?_
    · exact pteAt_of_none (hnone _ (page_lt hn))
    · obtain ⟨rfl, pages, l', own', hext⟩ | ⟨rfl, S, own', hext, hsub, n, hn, hmiss⟩ := hends
      · obtain ⟨htables, hcount⟩ := hext.missing_eq hnone
        have htaken := hext.taken
        refine .pure (.made d (d :: pages) l' m' own' hd (by rw [hext.split]; rfl) mem_cons_self
          ?_ hext.owned (hgrew.trans hext.grew) hext.live ⟨fun n hn => ?_, fun n hn hnot => ?_, htables⟩)
        · rw [hcount, hmissing] at htaken
          rw [length_cons, kernelTables]
          change _ = 1024 at htaken
          omega
        · exact hext.inside n (page_lt (by unfold KernelPage at hn; omega)) hn
        · rw [hext.outside n (page_lt hn) hnot, pteAt_of_none (hnone _ (page_lt hn))]
      · have hmore := hext.missing_gt hnone hsub hn hmiss
        have htaken := hext.taken
        refine .pure (.lost d m' own' mem_cons_self ?_ hext.owned (hgrew.trans hext.grew) hext.live)
        rw [hmissing] at htaken
        rw [length_cons, kernelTables]
        change _ = 1024 at htaken
        omega

end RainOS.Vm
