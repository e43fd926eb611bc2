import RainOS.Vm.Ownership

/-!
# The tables of a page directory

A page directory whose tables are different pages, none of them the directory itself, and none of these pages on
the free list. This is all that `walkpgdir` needs to find a table or to make one: what the entries of the tables
point to, and who owns the pages, does not matter here.
-/

namespace RainOS.Vm

open Kalloc Function List

variable {m m' : Memory} {l l' pages : List Nat} {word word' : Nat → Nat} {p q d i j n t a v va i' n' : Nat}

theorem decode_eq_some : decode v = some p ↔ Present v ∧ p2v (pteAddr v) = p := by
  unfold decode
  split
  · rename_i hpresent
    rw [Option.some.injEq]
    exact (and_iff_right hpresent).symm
  · rename_i hpresent
    exact iff_of_false nofun fun hp => hpresent hp.1

theorem walkpgdir_found (alloc : Bool) (va : Nat) (h : tableAt m.word d (pdx va) = some t) :
    walkpgdir d va alloc m = .ok (t + 4 * ptx va) m := by
  obtain ⟨hpresent, rfl⟩ := decode_eq_some.mp h
  unfold walkpgdir
  simp [hpresent]

theorem not_present_of_none (h : decode v = none) : ¬Present v := by
  intro hpresent
  rw [decode, if_pos hpresent] at h
  cases h

theorem walkpgdir_missing (h : tableAt m.word d (pdx va) = none) : walkpgdir d va false m = .ok 0 m := by
  have hpresent := not_present_of_none h
  unfold walkpgdir
  simp [hpresent]

theorem walkpgdir_full (hfree : FreeList m []) (h : tableAt m.word d (pdx va) = none) :
    walkpgdir d va true m = .ok 0 m := by
  have hpresent := not_present_of_none h
  unfold walkpgdir
  simp [hpresent, hfree.kalloc_nil]

def withTable (m : Memory) (d i q : Nat) : Memory :=
  { m with
    freelist := m.word q
    word := update (zeroPage m.word q) (d + 4 * i) (v2p q ||| pteP ||| pteW ||| pteU) }

theorem walkpgdir_alloc (va : Nat) (hfree : FreeList m (q :: l)) (h : tableAt m.word d (pdx va) = none) :
    walkpgdir d va true m = .ok (q + 4 * ptx va) (withTable m d (pdx va) q) := by
  have hpresent := not_present_of_none h
  have hq : q ≠ 0 := hfree.chain.ne_null mem_cons_self
  unfold walkpgdir
  simp [hpresent, hfree.kalloc_cons.1, hq, memset0, setWord, withTable]

theorem zeroPage_of_ne (hq : q % pgsize = 0) (ha : pgrounddown a ≠ q) : zeroPage word q a = word a :=
  if_neg fun hin => ha ((in_page_iff hq).mp hin)

theorem zeroPage_of_eq (hq : q % pgsize = 0) (ha : pgrounddown a = q) : zeroPage word q a = 0 :=
  if_pos ((in_page_iff hq).mpr ha)

theorem entry_table (hq : Page m.kernelEnd q) : target (update word a (v2p q ||| pteP ||| pteW ||| pteU)) a = some q := by
  rw [Nat.or_assoc, Nat.or_assoc]
  exact target_update_entry hq (by decide) (by decide)

theorem pdx_page (hn : n / nptentries < npdentries) : pdx (n * pgsize) = n / nptentries := by
  have heq : n * 4096 / 4194304 % 1024 = n / 1024 := by
    change n / 1024 < 1024 at hn
    omega
  exact heq

theorem ptx_page (n : Nat) : ptx (n * pgsize) = n % nptentries := by
  have heq : n * 4096 / 4096 % 1024 = n % 1024 := by omega
  exact heq

theorem pdx_eq (h : va < 2 ^ 32) : pdx va = va / pgsize / nptentries := by
  have heq : va / 4194304 % 1024 = va / 4096 / 1024 := by omega
  exact heq

structure Tables (m : Memory) (l : List Nat) (d : Nat) : Prop where
  free : FreeList m l
  aligned : d % pgsize = 0
  taken : d ∉ l
  table : ∀ i < npdentries, ∀ t, tableAt m.word d i = some t → t ≠ 0 ∧ t ≠ d ∧ t ∉ l
  distinct : ∀ i < npdentries, ∀ j < npdentries, ∀ t, tableAt m.word d i = some t → tableAt m.word d j = some t → i = j

theorem decode_aligned (h : decode v = some p) : p % pgsize = 0 := by
  obtain ⟨-, rfl⟩ := decode_eq_some.mp h
  simp only [p2v, pteAddr, pgsize, kernbase]
  omega

namespace Tables

theorem table_aligned (_ : Tables m l d) (ht : tableAt m.word d i = some t) : t % pgsize = 0 := decode_aligned ht

theorem congr (h : Tables m l d) (hdir : ∀ i < npdentries, tableAt word' d i = tableAt m.word d i)
    (hfree : ∀ p ∈ l, word' p = m.word p) : Tables { m with word := word' } l d := by
  refine ⟨⟨h.free.chain.congr hfree, h.free.pages⟩, h.aligned, h.taken, ?_, ?_⟩
  · intro i hi t ht
    exact h.table i hi t ((hdir i hi).symm.trans ht)
  · intro i hi j hj t ht ht'
    exact h.distinct i hi j hj t ((hdir i hi).symm.trans ht) ((hdir j hj).symm.trans ht')

section

variable (h : Tables m l d) (hi : i < npdentries) (ht : tableAt m.word d i = some t) (hj : j < nptentries)
include h hi ht hj

theorem tableAt_setEntry (hi' : i' < npdentries) : tableAt (update m.word (t + 4 * j) v) d i' = tableAt m.word d i' := by
  have hne := (h.table i hi t ht).2.1
  apply target_update_of_ne
  exact word_ne h.aligned (h.table_aligned ht) hi' hj fun heq => hne heq.1.symm

theorem setEntry :
    Tables { m with word := update m.word (t + 4 * j) v } l d := by
  refine h.congr (fun i' hi' => h.tableAt_setEntry hi ht hj hi') fun p hp => update_of_ne ?_ ..
  exact free_ne_word h.free (h.table i hi t ht).2.2 (h.table_aligned ht) hj hp

end

theorem pteAt_setEntry (h : Tables m l d) (hn : n / nptentries < npdentries)
    (ht : tableAt m.word d (n / nptentries) = some t) (hn' : n' / nptentries < npdentries) :
    pteAt (update m.word (t + 4 * (n % nptentries)) v) d n' = if n' = n then v else pteAt m.word d n' := by
  have hsame := h.tableAt_setEntry (v := v) hn ht (mod_lt n) hn'
  split
  · rename_i heq
    subst heq
    rw [pteAt_of_some (hsame.trans ht), update_self]
  · rename_i hne
    refine pteAt_eq_of_eq hsame fun t' ht' => ?_
    refine update_of_ne (word_ne (h.table_aligned ht') (h.table_aligned ht) (mod_lt n') (mod_lt n) ?_) ..
    rintro ⟨rfl, hmod⟩
    have hdiv := h.distinct _ hn' _ hn t' ht' ht
    apply hne
    rw [← pageAt_div_mod n', ← pageAt_div_mod n, hdiv, hmod]

theorem head (h : Tables m (q :: l) d) : Page m.kernelEnd q ∧ q ≠ 0 ∧ d ≠ q ∧ d ∉ l ∧ q ∉ l := by
  obtain ⟨hne, hnot⟩ := not_or.mp (mt mem_cons.mpr h.taken)
  exact ⟨h.free.pages q mem_cons_self, h.free.chain.ne_null mem_cons_self, hne, hnot,
    (nodup_cons.mp h.free.chain.nodup).1⟩

section

variable (h : Tables m (q :: l) d) (hi : i < npdentries)
include h hi

theorem tableAt_withTable (hi' : i' < npdentries) :
    tableAt (withTable m d i q).word d i' = if i' = i then some q else tableAt m.word d i' := by
  obtain ⟨hpage, -, hdq, -⟩ := h.head
  split
  · rename_i heq
    rw [heq]
    exact entry_table hpage
  · rename_i hne
    apply target_eq_of_eq
    change update (zeroPage m.word q) _ _ _ = _
    rw [update_of_ne (word_ne h.aligned h.aligned hi' hi fun heq => hne heq.2)]
    apply zeroPage_of_ne hpage.aligned
    rwa [pgrounddown_word h.aligned hi']

theorem word_withTable (ha : pgrounddown a ≠ d) (ha' : pgrounddown a ≠ q) :
    (withTable m d i q).word a = m.word a := by
  have hne : a ≠ d + 4 * i := by
    rintro rfl
    exact ha (pgrounddown_word h.aligned hi)
  change update (zeroPage m.word q) _ _ a = m.word a
  rw [update_of_ne hne, zeroPage_of_ne h.head.1.aligned ha']

theorem withTable : Tables (withTable m d i q) l d := by
  obtain ⟨hpage, hne, hdq, hdl, hql⟩ := h.head
  refine ⟨⟨?_, (h.free.kalloc_cons.2).pages⟩, h.aligned, hdl, ?_, ?_⟩
  · refine (h.free.kalloc_cons.2).chain.congr fun p hp => ?_
    have hself := pgrounddown_self (h.free.pages p (mem_cons_of_mem q hp)).1.1
    refine h.word_withTable hi ?_ ?_
    · rw [hself]
      exact fun heq => hdl (heq ▸ hp)
    · rw [hself]
      exact fun heq => hql (heq ▸ hp)
  · intro i' hi' t ht
    rw [h.tableAt_withTable hi hi'] at ht
    split at ht
    · cases ht
      exact ⟨hne, hdq.symm, hql⟩
    · obtain ⟨ht₀, htd, htl⟩ := h.table i' hi' t ht
      exact ⟨ht₀, htd, fun hin => htl (mem_cons_of_mem q hin)⟩
  · intro i' hi' j hj t ht ht'
    rw [h.tableAt_withTable hi hi'] at ht
    rw [h.tableAt_withTable hi hj] at ht'
    have hnot : ∀ k < npdentries, tableAt m.word d k ≠ some q := fun k hk hq =>
      (h.table k hk q hq).2.2 mem_cons_self
    split at ht <;> split at ht'
    · rename_i heq heq'
      rw [heq, heq']
    · cases ht
      exact absurd ht' (hnot j hj)
    · cases ht'
      exact absurd ht (hnot i' hi')
    · exact h.distinct i' hi' j hj t ht ht'

theorem pteAt_withTable (hnone : tableAt m.word d i = none)
    (hn : n / nptentries < npdentries) : pteAt (Vm.withTable m d i q).word d n = pteAt m.word d n := by
  obtain ⟨hpage, -, hdq, -⟩ := h.head
  have htable := h.tableAt_withTable hi hn
  split at htable
  · rename_i heq
    rw [pteAt_of_some htable, pteAt_of_none (heq ▸ hnone)]
    change update (zeroPage m.word q) _ _ _ = 0
    rw [update_of_ne (word_ne hpage.aligned h.aligned (mod_lt n) hi fun heq => hdq heq.1.symm)]
    exact zeroPage_of_eq hpage.aligned (pgrounddown_word hpage.aligned (mod_lt n))
  · refine pteAt_eq_of_eq htable fun t ht => ?_
    obtain ⟨-, htd, htl⟩ := h.table _ hn t ht
    have hself := pgrounddown_word (h.table_aligned ht) (mod_lt n)
    refine h.word_withTable hi ?_ ?_
    · rwa [hself]
    · rw [hself]
      exact fun heq => htl (heq ▸ mem_cons_self)

end

end Tables

structure Reached (d i t : Nat) (pages : List Nat) (m : Memory) (l : List Nat) (m' : Memory) (l' : List Nat) : Prop where
  split : l = pages ++ l'
  count : pages.length = if tableAt m.word d i = none then 1 else 0
  tables : Tables m' l' d
  table : tableAt m'.word d i = some t
  entries : ∀ n, n / nptentries < npdentries → pteAt m'.word d n = pteAt m.word d n
  others : ∀ i' < npdentries, i' ≠ i → tableAt m'.word d i' = tableAt m.word d i'

theorem Tables.walkpgdir (h : Tables m l d) (hn : n / nptentries < npdentries) :
    Ends (walkpgdir d (n * pgsize) true) m
      (fun pte m' => (pte = 0 ∧ m' = m ∧ l = [] ∧ tableAt m.word d (n / nptentries) = none) ∨
        ∃ t pages l', pte = t + 4 * (n % nptentries) ∧ pte ≠ 0 ∧ Reached d (n / nptentries) t pages m l m' l')
      fun _ _ => False := by
  cases ht : tableAt m.word d (n / nptentries) with
  | some t =>
    have hrun := walkpgdir_found true (n * pgsize) (by rw [pdx_page hn, ht])
    rw [ptx_page] at hrun
    have hne : t + 4 * (n % nptentries) ≠ 0 := fun heq => (h.table _ hn t ht).1 (Nat.eq_zero_of_add_eq_zero_right heq)
    refine .of_run_ok hrun (.inr ⟨t, [], l, rfl, hne, rfl, ?_, h, ht, fun _ _ => rfl, fun _ _ _ => rfl⟩)
    rw [ht]
    rfl
  | none =>
    cases l with
    | nil => exact .of_run_ok (walkpgdir_full h.free (by rw [pdx_page hn, ht])) (.inl ⟨rfl, rfl, rfl, rfl⟩)
    | cons q l' =>
      have hrun := walkpgdir_alloc (n * pgsize) h.free (by rw [pdx_page hn, ht])
      rw [pdx_page hn, ptx_page] at hrun
      have hne : q + 4 * (n % nptentries) ≠ 0 := fun heq => h.head.2.1 (Nat.eq_zero_of_add_eq_zero_right heq)
      refine .of_run_ok hrun (.inr ⟨q, [q], l', rfl, hne, rfl, ?_, h.withTable hn, ?_,
        fun n' hn' => h.pteAt_withTable hn ht hn', fun i' hi' hne' => ?_⟩)
      · rw [ht]
        rfl
      · rw [h.tableAt_withTable hn hn, if_pos rfl]
      · rw [h.tableAt_withTable hn hi', if_neg hne']

def missing (word : Nat → Nat) (d : Nat) : Nat :=
  ((Finset.range npdentries).filter fun i => tableAt word d i = none).card

theorem missing_congr (h : ∀ i < npdentries, tableAt word' d i = none ↔ tableAt word d i = none) :
    missing word' d = missing word d := by
  have hsame := Finset.filter_congr (s := Finset.range npdentries) fun i hi => h i (Finset.mem_range.mp hi)
  rw [missing, missing, hsame]

theorem Reached.missing (h : Reached d i t pages m l m' l') (hi : i < npdentries) :
    pages.length + missing m'.word d = missing m.word d := by
  rw [h.count]
  split
  · rename_i hnone
    have hsplit : (Finset.range npdentries).filter (fun i => tableAt m.word d i = none) =
        insert i ((Finset.range npdentries).filter fun i => tableAt m'.word d i = none) := by
      ext k
      rw [Finset.mem_insert, Finset.mem_filter, Finset.mem_filter]
      by_cases hk : k = i
      · rw [hk]
        exact iff_of_true ⟨Finset.mem_range.mpr hi, hnone⟩ (.inl rfl)
      · rw [or_iff_right hk]
        apply and_congr_right
        intro hrange
        rw [h.others k (Finset.mem_range.mp hrange) hk]
    rw [Vm.missing, Vm.missing, hsplit, Finset.card_insert_of_notMem, Nat.add_comm]
    rw [Finset.mem_filter, h.table]
    exact fun hf => nomatch hf.2
  · rename_i hsome
    rw [Nat.zero_add]
    apply missing_congr
    intro k hk
    by_cases hki : k = i
    · rw [hki, h.table]
      exact iff_of_false nofun hsome
    · rw [h.others k hk hki]

section Written

variable (h : Reached d (n / nptentries) t pages m l m' l') (hn : n / nptentries < npdentries)

include h hn

theorem Reached.pteAt_written (hn' : n' / nptentries < npdentries) :
    pteAt (update m'.word (t + 4 * (n % nptentries)) v) d n' = if n' = n then v else pteAt m.word d n' := by
  rw [h.tables.pteAt_setEntry hn h.table hn', h.entries n' hn']

theorem Reached.tableAt_written (hi : i < npdentries) :
    tableAt (update m'.word (t + 4 * (n % nptentries)) v) d i = none ↔ tableAt m.word d i = none ∧ i ≠ n / nptentries := by
  rw [h.tables.tableAt_setEntry hn h.table (mod_lt n) hi]
  by_cases hin : i = n / nptentries
  · rw [hin, h.table]
    exact iff_of_false nofun fun hf => hf.2 rfl
  · rw [h.others i hi hin]
    exact (and_iff_left hin).symm

theorem Reached.missing_written :
    pages.length + Vm.missing (update m'.word (t + 4 * (n % nptentries)) v) d = Vm.missing m.word d := by
  rw [← h.missing hn]
  apply congrArg
  apply missing_congr
  intro i hi
  rw [h.tables.tableAt_setEntry hn h.table (mod_lt n) hi]

end Written

end RainOS.Vm
