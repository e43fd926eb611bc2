import Mathlib.Data.Finset.Card
import RainOS.Kalloc.Code

/-!
# The free list

The pages the allocator has to give, as a list in the order `kalloc` gives them. Each function is one
operation on this list: `kalloc` takes the first page, `kfree` puts one in front, and the boot's
`kinit1` and `kinit2` put every page of memory on it.
-/

namespace RainOS.Kalloc

open List

structure FreeList (m : Memory) (l : List Nat) : Prop where
  chain : Chain m.word 0 m.freelist l
  pages : ∀ p ∈ l, Accepts m.kernelEnd p ∧ p < 2 ^ 32

variable {m : Memory} {l : List Nat} {v p kernelEnd base n i : Nat}

theorem Accepts.pos (h : Accepts kernelEnd v) : v ≠ 0 := by
  intro hv
  have hlt := h.2.2
  rw [hv] at hlt
  exact absurd hlt (by decide)

theorem FreeList.length_le (h : FreeList m l) : l.length ≤ 2 ^ 32 := by
  have hsub : l.toFinset ⊆ Finset.range (2 ^ 32) := by
    intro p hp
    exact Finset.mem_range.mpr (h.pages p (mem_toFinset.mp hp)).2
  have hcard := Finset.card_le_card hsub
  rwa [Finset.card_range, toFinset_card_of_nodup h.chain.nodup] at hcard

theorem FreeList.findFree_eq (h : FreeList m l) (frame : Nat) :
    findFree m frame = some (decide (frame ∈ l)) := by
  apply h.chain.search_eq
  have hlen := h.length_le
  omega

theorem FreeList.not_free_iff (h : FreeList m l) (frame : Nat) :
    findFree m frame ≠ some true ↔ frame ∉ l := by
  rw [h.findFree_eq]
  simp

theorem FreeList.kalloc_nil (h : FreeList m []) : kalloc m = .ok 0 m := by
  have hzero : m.freelist = 0 := h.chain
  simp [kalloc, hzero]

theorem FreeList.kalloc_cons (h : FreeList m (p :: l)) :
    kalloc m = .ok p { m with freelist := m.word p } ∧
      FreeList { m with freelist := m.word p } l := by
  obtain ⟨hhead, hne, hrest⟩ := h.chain
  refine ⟨?_, ?_, fun q hq => h.pages q (mem_cons_of_mem _ hq)⟩
  · rw [← hhead]
    simp [kalloc, hne]
  · rwa [← hhead]

theorem kfree_run (h : Accepts m.kernelEnd v) : kfree v m = .ok () (putFree m v) := by
  simp [kfree, h]

theorem fillPage_of_ne (word : Nat → Nat) (hp : Accepts kernelEnd p)
    (hv : Accepts kernelEnd v) (hne : p ≠ v) : fillPage word v p = word p := by
  apply if_neg
  have hp := hp.1
  have hv := hv.1
  simp only [pgsize] at hp hv ⊢
  omega

theorem FreeList.put (h : FreeList m l) (hv : Accepts m.kernelEnd v) (hlt : v < 2 ^ 32)
    (hnew : v ∉ l) : FreeList (putFree m v) (v :: l) := by
  refine ⟨⟨rfl, hv.pos, ?_⟩, ?_⟩
  · have hnext : (putFree m v).word v = m.freelist := Function.update_self ..
    rw [show (putFree m v).freelist = v from rfl, hnext]
    apply h.chain.congr
    intro p hp
    change Function.update (fillPage m.word v) v m.freelist p = m.word p
    have hne : p ≠ v := fun heq => hnew (heq ▸ hp)
    rw [Function.update_of_ne hne]
    exact fillPage_of_ne m.word (h.pages p hp).1 hv hne
  · intro p hp
    rcases mem_cons.mp hp with rfl | hp
    · exact ⟨hv, hlt⟩
    · exact h.pages p hp

/-- The first `n` pages from `base` on, last first. -/
def pagesFrom (base n : Nat) : List Nat := (List.range n).reverse.map fun i => base + i * pgsize

theorem pagesFrom_succ (base n : Nat) :
    pagesFrom base (n + 1) = (base + n * pgsize) :: pagesFrom base n := by
  rw [pagesFrom, range_succ, reverse_append]
  rfl

theorem length_pagesFrom (base n : Nat) : (pagesFrom base n).length = n := by
  rw [pagesFrom, length_map, length_reverse, length_range]

theorem mem_pagesFrom : p ∈ pagesFrom base n ↔ ∃ i, i < n ∧ p = base + i * pgsize := by
  simp [pagesFrom, eq_comm]

theorem freePages_spec (h : FreeList m l) (base n : Nat)
    (hpages : ∀ i, i < n → Accepts m.kernelEnd (base + i * pgsize) ∧ base + i * pgsize < 2 ^ 32 ∧
      base + i * pgsize ∉ l) :
    Ends ((range n).forM fun i => kfree (base + i * pgsize)) m
      (fun _ m' => FreeList m' (pagesFrom base n ++ l) ∧ m'.kernelEnd = m.kernelEnd ∧
        m'.ledger = m.ledger) fun _ _ => False := by
  apply Ends.forM_range (fun i m' => FreeList m' (pagesFrom base i ++ l) ∧
    m'.kernelEnd = m.kernelEnd ∧ m'.ledger = m.ledger) ⟨h, rfl, rfl⟩
  intro i hlt m₁ ⟨hfree, hend, hledger⟩
  obtain ⟨haccept, hbound, hnew⟩ := hpages i hlt
  rw [← hend] at haccept
  refine .of_run_ok (kfree_run haccept) ⟨?_, hend, hledger⟩
  rw [pagesFrom_succ]
  apply hfree.put haccept hbound
  rw [mem_append, not_or, mem_pagesFrom]
  refine ⟨?_, hnew⟩
  intro ⟨j, hj, heq⟩
  simp only [pgsize] at heq
  omega

/-- Where the kernel may end: past its load address and within the first four megabytes. -/
def KernelEnd (kernelEnd : Nat) : Prop := kernbase + extmem ≤ kernelEnd ∧ kernelEnd ≤ p2v (4 * 1024 * 1024)

instance (kernelEnd : Nat) : Decidable (KernelEnd kernelEnd) := inferInstanceAs (Decidable (_ ∧ _))

def bootPages (kernelEnd : Nat) : List Nat :=
  pagesFrom (p2v (4 * 1024 * 1024)) ((phystop - 4 * 1024 * 1024) / pgsize) ++
    pagesFrom (pgroundup kernelEnd) ((p2v (4 * 1024 * 1024) - pgroundup kernelEnd) / pgsize)

theorem low_page (h : KernelEnd kernelEnd) (hi : i < (p2v (4 * 1024 * 1024) - pgroundup kernelEnd) / pgsize) :
    Accepts kernelEnd (pgroundup kernelEnd + i * pgsize) ∧
      pgroundup kernelEnd + i * pgsize < p2v (4 * 1024 * 1024) := by
  simp only [KernelEnd, Accepts, p2v, v2p, pgroundup, pgsize, kernbase, extmem, phystop] at *
  omega

theorem high_page (h : KernelEnd kernelEnd) (hi : i < (phystop - 4 * 1024 * 1024) / pgsize) :
    Accepts kernelEnd (p2v (4 * 1024 * 1024) + i * pgsize) ∧
      p2v (4 * 1024 * 1024) + i * pgsize < 2 ^ 32 := by
  simp only [KernelEnd, Accepts, p2v, v2p, pgsize, kernbase, extmem, phystop] at *
  omega

theorem kinit_spec (hend : KernelEnd m.kernelEnd) (hnil : m.freelist = 0) :
    Ends kinit m (fun _ m' => FreeList m' (bootPages m.kernelEnd) ∧ m'.kernelEnd = m.kernelEnd ∧
      m'.ledger = m.ledger) fun _ _ => False := by
  have hempty : FreeList m [] := ⟨hnil, fun _ hp => by cases hp⟩
  unfold kinit kinit1 kinit2 freerange
  apply Ends.after_ok (get_run m)
  apply Ends.bind (freePages_spec hempty _ _ fun i hi => ?_)
  · intro _ m₁ ⟨hfree, hend₁, hledger⟩
    rw [append_nil] at hfree
    have hpages := freePages_spec hfree (p2v (4 * 1024 * 1024)) ((phystop - 4 * 1024 * 1024) / pgsize)
      fun i hi => ?_
    · apply hpages.mono _ fun _ _ hf => hf
      intro _ m₂ ⟨hfree₂, hend₂, hledger₂⟩
      exact ⟨hfree₂, hend₂.trans hend₁, hledger₂.trans hledger⟩
    · rw [hend₁]
      obtain ⟨haccept, hlt⟩ := high_page hend hi
      refine ⟨haccept, hlt, ?_⟩
      rw [mem_pagesFrom]
      intro ⟨j, hj, heq⟩
      have hlow := (low_page hend hj).2
      omega
  · obtain ⟨haccept, hlt⟩ := low_page hend hi
    refine ⟨haccept, hlt.trans (by decide), not_mem_nil⟩

end RainOS.Kalloc
