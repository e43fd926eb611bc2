import RainOS.Kalloc.Grants
import RainOS.Vm.Kernel
import RainOS.Vm.Map

/-!
# The map of the kernel's half

`setupkvm`, line by line of `kmap`, as a map: wherever the kernel's read-only part ends, the five ranges do not
overlap, and with 66 free pages the new directory maps the physical memory, the frames of the ledger behind it and
the devices, and nothing below the kernel.
-/

namespace RainOS.Vm

open Kalloc Function List

variable {m m' : Memory} {l l' : List Nat} {F : Nat → Nat} {d i n lo hi free data pa perm : Nat}

def Kmap.size (k : Kmap) : Nat := (k.physEnd + 2 ^ 32 - k.physStart) % 2 ^ 32

def Kmap.Covers (k : Kmap) (a : Nat) : Prop := (a + 2 ^ 32 - k.virt) % 2 ^ 32 < k.size

structure Split (data : Nat) : Prop where
  aligned : data % pgsize = 0
  above : kernlink < data
  below : data < p2v phystop

theorem Split.bounds (h : Split data) : data % 4096 = 0 ∧ 0x80100000 < data ∧ data < 0x8E000000 := ⟨h.aligned, h.above, h.below⟩

theorem kmap_disjoint (h : Split data) :
    (kmap data).Pairwise fun j k => ∀ a < 2 ^ 32, ¬(j.Covers a ∧ k.Covers a) := by
  obtain ⟨halign, hlo, hhi⟩ := h.bounds
  simp only [kmap, pairwise_cons, forall_mem_cons, not_mem_nil, false_imp_iff, implies_true, Pairwise.nil, and_true,
    Kmap.Covers, Kmap.size, v2p, kernlink, kernbase, extmem, phystop, phyadd, pgsize, devspace]
  refine ⟨⟨?_, ?_, ?_, ?_⟩, ⟨?_, ?_, ?_⟩, ⟨?_, ?_⟩, ?_⟩ <;> omega

/-- A directory with entries `F` that was empty when there were `free` free pages. -/
structure Half (d free : Nat) (F : Nat → Nat) (m : Memory) (l : List Nat) : Prop where
  tables : Tables m l d
  entries : ∀ n < 2 ^ 20, pteAt m.word d n = F n
  kernel : ∀ i < npdentries, ¬KernelTable i → tableAt m.word d i = none
  room : l.length + npdentries = free + missing m.word d

def laidOver (F : Nat → Nat) (lo hi pa perm n : Nat) : Nat := if lo ≤ n ∧ n < hi then entryOf pa perm (n - lo) else F n

theorem meaning_laidOver (v : Nat) (h : lo ≤ n ∧ n < hi) (hpa : pa % pgsize = 0) (hperm : perm < pgsize)
    (hv : (pa + (n - lo) * pgsize) % 2 ^ 32 = v) : meaning (laidOver F lo hi pa perm n) = some (v, perm ||| pteP) := by
  rw [laidOver, if_pos h, meaning_entryOf _ hpa hperm, hv]

theorem laidOver_outside (h : ¬(lo ≤ n ∧ n < hi)) : laidOver F lo hi pa perm n = F n := if_neg h

theorem Half.line (h : Half d free F m l) (hfree : kernelTables ≤ free) {k : Kmap} {rest : List Kmap}
    {Q : Int → Memory → Prop} (lo hi : Nat) (hvirt : k.virt = lo * pgsize) (hsize : k.size = (hi - lo) * pgsize)
    (hphys : k.physStart < 2 ^ 32) (hlt : lo < hi) (hpages : ∀ n, lo ≤ n → n < hi → KernelPage n)
    (hzero : ∀ n, lo ≤ n → n < hi → F n = 0)
    (hrest : ∀ m' l', Half d free (laidOver F lo hi k.physStart k.perm) m' l' →
      Ends (mapKernel d rest) m' Q fun _ _ => False) :
    Ends (mapKernel d (k :: rest)) m Q fun _ _ => False := by
  have hhi : hi ≤ 2 ^ 20 := by
    have hlast := hpages (hi - 1) (by omega) (by omega)
    unfold KernelPage at hlast
    omega
  have hfirst : lo * pgsize / pgsize = lo := Nat.mul_div_cancel lo (by decide)
  have hcount : pagesOf (lo * pgsize) ((hi - lo) * pgsize) = hi - lo := by
    simp only [pagesOf, pgsize]
    omega
  have hlays := mappages_lays (lo * pgsize) ((hi - lo) * pgsize) k.physStart k.perm h.tables
    (by simp only [pgsize]; omega) (by simp only [pgsize]; omega) hphys fun n hlo hle => by
      rw [hfirst] at hlo
      have hn : n < hi := by
        simp only [pgsize] at hle
        omega
      rw [h.entries n (by omega), hzero n hlo hn]
      decide
  rw [hfirst, hcount] at hlays
  unfold mapKernel
  rw [hvirt, show (k.physEnd + 2 ^ 32 - k.physStart) % 2 ^ 32 = (hi - lo) * pgsize from hsize]
  refine hlays.bind fun r m' hends => ?_
  have hkernel : ∀ c ≤ hi - lo, ∀ i < npdentries, ¬KernelTable i → ∀ k, lo ≤ k → k < lo + c → i ≠ k / nptentries := by
    intro c hc i hi hnot k hlo hhi heq
    exact hnot ((kernelTable_iff hi).mp ⟨k, hpages k hlo (by omega), heq⟩)
  obtain ⟨rfl, pages, l', hlaid⟩ | ⟨rfl, c, hc, hlaid, hnone⟩ := hends
  · rw [if_neg (by decide)]
    refine hrest m' l' ⟨hlaid.tables, ?_, ?_, ?_⟩
    · intro n hn
      rw [laidOver]
      split
      · rename_i hin
        have hentry := hlaid.inside (n - lo) (by omega)
        rwa [Nat.add_sub_cancel' hin.1] at hentry
      · rename_i hout
        rw [hlaid.outside n (page_lt hn) (by omega), h.entries n hn]
    · intro i hi hnot
      exact (hlaid.made i hi).mpr ⟨h.kernel i hi hnot, hkernel _ (Nat.le_refl _) i hi hnot⟩
    · have hroom := h.room
      have htaken := hlaid.taken
      rw [hlaid.split, length_append] at hroom
      omega
  · -- No page was left for a table, so fewer than 65 were made of at least 65 pages.
    exfalso
    have hlast := hpages (lo + c) (by omega) (by omega)
    have htable : (lo + c) / nptentries < npdentries := page_lt (by omega)
    have hgt := missing_gt (fun i hi hnot => (hlaid.made i hi).mpr ⟨h.kernel i hi hnot, hkernel c (by omega) i hi hnot⟩)
      htable ((kernelTable_iff htable).mp ⟨lo + c, hlast, rfl⟩) hnone
    have hroom := h.room
    have htaken := hlaid.taken
    rw [kernelTables] at hfree
    change l.length + 1024 = _ at hroom
    omega

theorem half_withPage (h : FreeList m (d :: l)) : Half d l.length (fun _ => 0) (withPage m d) l := by
  have hpage := (h.pages d mem_cons_self).1.1
  have hnone : ∀ i < npdentries, tableAt (withPage m d).word d i = none := fun i hi => tableAt_withPage hpage hi
  obtain ⟨hnot, -⟩ := nodup_cons.mp h.chain.nodup
  refine ⟨⟨⟨?_, h.kalloc_cons.2.pages⟩, hpage, hnot, ?_, ?_⟩, ?_, fun i hi _ => hnone i hi, ?_⟩
  · refine h.kalloc_cons.2.chain.congr fun p hp => zeroPage_of_ne hpage ?_
    rw [pgrounddown_self (h.pages p (mem_cons_of_mem d hp)).1.1]
    exact fun heq => hnot (heq ▸ hp)
  · intro i hi t ht
    rw [hnone i hi] at ht
    cases ht
  · intro i hi j hj t ht
    rw [hnone i hi] at ht
    cases ht
  · exact fun n hn => pteAt_of_none (hnone _ (page_lt hn))
  · rw [missing_zero hnone]

/-- What the kernel's half of a directory maps: physical memory and the ledger's pages, read-only where the kernel's
text is, and the devices. -/
def kernelMap (data n : Nat) : Option (Nat × Nat) :=
  if kernbase / pgsize ≤ n ∧ n < (kernbase + phystop + phyadd) / pgsize then
    some ((n - kernbase / pgsize) * pgsize,
      if kernlink ≤ n * pgsize ∧ n * pgsize < data then pteP else pteW ||| pteP)
  else if devspace / pgsize ≤ n then some (n * pgsize, pteW ||| pteP)
  else none

def kernelEntries (data : Nat) : Nat → Nat :=
  laidOver (laidOver (laidOver (laidOver (laidOver (fun _ => 0) 0x80000 0x80100 0 pteW) 0x80100 (data / 4096) (v2p kernlink) 0)
    (data / 4096) 0x8E000 (v2p data) pteW) 0x8E000 0x8E008 phystop pteW) 0xFE000 0x100000 devspace pteW

theorem mapKernel_half (hsplit : Split data) (h : Half d free (fun _ => 0) m l) (hfree : kernelTables ≤ free) :
    Ends (mapKernel d (kmap data)) m (fun r m' => r = 0 ∧ ∃ l', Half d free (kernelEntries data) m' l') fun _ _ => False := by
  obtain ⟨halign, hlo, hhi⟩ := hsplit.bounds
  have hzero : ∀ {F : Nat → Nat} {lo hi pa perm n : Nat}, F n = 0 → ¬(lo ≤ n ∧ n < hi) → laidOver F lo hi pa perm n = 0 :=
    fun hF hout => (if_neg hout).trans hF
  unfold kmap
  refine h.line hfree 0x80000 0x80100 rfl rfl (by decide) (by decide) (fun n _ _ => by unfold KernelPage; omega)
    (fun _ _ _ => rfl) fun m₁ l₁ h₁ => ?_
  refine h₁.line hfree 0x80100 (data / 4096) rfl ?_ (show v2p kernlink < 2 ^ 32 by decide) (by omega) (fun n _ _ => by unfold KernelPage; omega)
    (fun n _ _ => hzero rfl (by omega)) fun m₂ l₂ h₂ => ?_
  · simp only [Kmap.size, v2p, kernlink, kernbase, extmem, pgsize]
    omega
  refine h₂.line hfree (data / 4096) 0x8E000 ?_ ?_ (Nat.mod_lt _ (by decide)) (by omega)
    (fun n _ _ => by unfold KernelPage; omega) (fun n _ _ => hzero (hzero rfl (by omega)) (by omega)) fun m₃ l₃ h₃ => ?_
  · simp only [pgsize]
    omega
  · simp only [Kmap.size, v2p, kernbase, phystop, pgsize]
    omega
  refine h₃.line hfree 0x8E000 0x8E008 rfl rfl (by decide) (by decide) (fun n _ _ => by unfold KernelPage; omega)
    (fun n _ _ => hzero (hzero (hzero rfl (by omega)) (by omega)) (by omega)) fun m₄ l₄ h₄ => ?_
  refine h₄.line hfree 0xFE000 0x100000 rfl rfl (by decide) (by decide) (fun n _ _ => by unfold KernelPage; omega)
    (fun n _ _ => hzero (hzero (hzero (hzero rfl (by omega)) (by omega)) (by omega)) (by omega)) fun m₅ l₅ h₅ => ?_
  exact .pure ⟨rfl, l₅, h₅⟩

theorem meaning_kernelEntries (hsplit : Split data) (hn : n < 2 ^ 20) : meaning (kernelEntries data n) = kernelMap data n := by
  obtain ⟨halign, hlo, hhi⟩ := hsplit.bounds
  have hmap : kernelMap data n = if 0x80000 ≤ n ∧ n < 0x8E008 then
      some ((n - 0x80000) * 4096, if 0x80100000 ≤ n * 4096 ∧ n * 4096 < data then pteP else pteW ||| pteP)
    else if 0xFE000 ≤ n then some (n * 4096, pteW ||| pteP) else none := rfl
  have hv2p : v2p data = data - 0x80000000 := by
    simp only [v2p, kernbase]
    omega
  have hdata : v2p data % pgsize = 0 := by
    rw [hv2p, pgsize]
    omega
  rw [hmap, kernelEntries]
  by_cases hdev : 0xFE000 ≤ n
  · rw [if_neg (by omega), if_pos hdev]
    refine meaning_laidOver _ ⟨hdev, hn⟩ (by decide) (by decide) ?_
    simp only [devspace, pgsize]
    omega
  rw [if_neg hdev, laidOver_outside (by omega)]
  by_cases hledger : 0x8E000 ≤ n ∧ n < 0x8E008
  · rw [if_pos (by omega), if_neg (by omega)]
    refine meaning_laidOver _ hledger (by decide) (by decide) ?_
    simp only [phystop, pgsize]
    omega
  rw [laidOver_outside hledger]
  by_cases hmem : data / 4096 ≤ n ∧ n < 0x8E000
  · rw [if_pos (by omega), if_neg (by omega)]
    refine meaning_laidOver _ hmem hdata (by decide) ?_
    rw [hv2p]
    simp only [pgsize]
    omega
  rw [laidOver_outside hmem]
  by_cases htext : 0x80100 ≤ n ∧ n < data / 4096
  · rw [if_pos (by omega), if_pos (by omega)]
    refine meaning_laidOver _ htext (by decide) (by decide) ?_
    simp only [v2p, kernlink, kernbase, extmem, pgsize]
    omega
  rw [laidOver_outside htext]
  by_cases hio : 0x80000 ≤ n ∧ n < 0x80100
  · rw [if_pos (by omega), if_neg (by omega)]
    refine meaning_laidOver _ hio (by decide) (by decide) ?_
    simp only [pgsize]
    omega
  · rw [laidOver_outside hio, if_neg (by omega)]
    rfl

/-- The ranges of the kernel's map do not overlap, and with enough memory `setupkvm` makes a directory that maps the
kernel's half and nothing else; the pages of the ledger, which `kmap` gives by another name, are where `initframes`
looks for them. -/
theorem setupkvm_maps_kernel (hsplit : Split data) (h : FreeList m l) (henough : kernelTables + 1 ≤ l.length) :
    (kmap data).Pairwise (fun j k => ∀ a < 2 ^ 32, ¬(j.Covers a ∧ k.Covers a)) ∧
    ∃ d m', setupkvm data m = .ok d m' ∧ d ≠ 0 ∧ (∀ n < 2 ^ 20, mapping m'.word d n = kernelMap data n) ∧
      ∀ x < phyadd, mapping m'.word d (p2v (phystop + x) / pgsize) = some ((phystop + x) / pgsize * pgsize, pteW ||| pteP) := by
  refine ⟨kmap_disjoint hsplit, ?_⟩
  cases l with
  | nil => exact absurd henough (by decide)
  | cons d l₁ =>
    have hd : d ≠ 0 := h.chain.ne_null mem_cons_self
    have hmade : Ends (setupkvm data) m (fun r m' => r = d ∧ ∃ l', Half d l₁.length (kernelEntries data) m' l')
        fun _ _ => False := by
      unfold setupkvm
      refine .after_ok h.kalloc_cons.1 ?_
      rw [if_neg hd]
      refine .after_ok (memset0_run m d) ?_
      rw [if_neg (by decide)]
      refine (mapKernel_half hsplit (half_withPage h) (by simpa using henough)).bind fun r m' hr => ?_
      obtain ⟨rfl, hhalf⟩ := hr
      exact .pure ⟨rfl, hhalf⟩
    obtain ⟨r, m', hrun, hr, l', hhalf⟩ := hmade.exists_ok
    subst hr
    have hmap : ∀ n < 2 ^ 20, mapping m'.word r n = kernelMap data n := fun n hn => by
      rw [mapping, hhalf.entries n hn, meaning_kernelEntries hsplit hn]
    refine ⟨r, m', hrun, hd, hmap, fun x hx => ?_⟩
    obtain ⟨-, -, hhi⟩ := hsplit.bounds
    have hx' : x < 0x8000 := hx
    have hpage : p2v (phystop + x) / pgsize = 0x8E000 + x / 4096 := by
      simp only [p2v, phystop, kernbase, pgsize]
      omega
    have hentry := hmap (0x8E000 + x / 4096) (by omega)
    have htext : ¬((0x8E000 + x / 4096) * 4096 < data) := by omega
    have haddr : (0x8E000 + x / 4096 - 0x80000) * 4096 = (phystop + x) / pgsize * pgsize := by
      simp only [phystop, pgsize]
      omega
    have hin : kernbase / pgsize ≤ 0x8E000 + x / 4096 ∧ 0x8E000 + x / 4096 < (kernbase + phystop + phyadd) / pgsize := by
      simp only [kernbase, phystop, phyadd, pgsize]
      omega
    rw [hpage, hentry, kernelMap, if_pos hin, if_neg fun h => htext h.2]
    exact congrArg (fun a => some (a, pteW ||| pteP)) haddr

theorem setupkvm_maps_kernel_boot :
    ∃ m d m', kinit (unbuilt 0x80114000) = .ok () m ∧ setupkvm 0x80109000 m = .ok d m' ∧
      ∀ n < 2 ^ 20, mapping m'.word d n = kernelMap 0x80109000 n := by
  have hsplit : Split 0x80109000 := ⟨by decide, by decide, by decide⟩
  obtain ⟨m, hboot, hfree, -⟩ := kinit_ok (show KernelEnd 0x80114000 by decide)
  obtain ⟨-, d, m', hrun, -, hmap, -⟩ := setupkvm_maps_kernel hsplit hfree (bootPages_many _)
  exact ⟨m, d, m', hboot, hrun, hmap⟩

end RainOS.Vm
