import RainOS.Vm.Spec

/-!
# A page directory as a map

What a page directory says is a partial map from the numbers of virtual pages to a physical page and flags.
`walkpgdir` reads this map, and `mappages` changes it on a range and nowhere else. All that is asked of the
directory is that its tables are different pages, none of them the directory itself, and that none of these
pages is on the free list. What the entries of the tables point to does not matter.
-/

namespace RainOS.Vm

open Kalloc Function

variable {m m' m'' : Memory} {l l' l'' pages pages' : List Nat} {word : Nat → Nat}
 {p d i j n t a v va pa perm size count : Nat}

/-- The physical page and the flags of an entry that is present. -/
def meaning (pte : Nat) : Option (Nat × Nat) := if Present pte then some (pteAddr pte, pteFlags pte) else none

def mapping (word : Nat → Nat) (d n : Nat) : Option (Nat × Nat) := meaning (pteAt word d n)

theorem meaning_eq_none : meaning v = none ↔ ¬Present v := by
  rw [meaning]
  split
  · rename_i hpresent
    exact iff_of_false nofun (not_not_intro hpresent)
  · rename_i hpresent
    exact iff_of_true rfl hpresent

theorem meaning_entry (hpa : pa % pgsize = 0) (hperm : perm < pgsize) :
    meaning (pa ||| perm ||| pteP) = some (pa, perm ||| pteP) := by
  obtain ⟨hlt, hodd⟩ := or_odd_lt hperm
  rw [Nat.or_assoc, or_flags hpa hlt]
  generalize perm ||| pteP = flags at hlt hodd
  have hpresent : Present (pa + flags) := by
    simp only [Present, pgsize] at hpa ⊢
    omega
  have haddr : pteAddr (pa + flags) = pa := by
    simp only [pteAddr, pgsize] at hpa hlt ⊢
    omega
  have hflags : pteFlags (pa + flags) = flags := by
    simp only [pteFlags, pgsize] at hpa hlt ⊢
    omega
  rw [meaning, if_pos hpresent, haddr, hflags]

theorem Tables.walkpgdir_reads (h : Tables m l d) (hva : va < 2 ^ 32) : ∃ pte, Vm.walkpgdir d va false m = .ok pte m ∧
    mapping m.word d (va / pgsize) = if pte = 0 then none else meaning (m.word pte) := by
  have hpdx := pdx_eq hva
  have hlt : va / pgsize / nptentries < npdentries := by
    have hlt : va / 4096 / 1024 < 1024 := by omega
    exact hlt
  cases ht : tableAt m.word d (pdx va) with
  | none =>
    refine ⟨0, walkpgdir_missing ht, ?_⟩
    rw [hpdx] at ht
    rw [mapping, pteAt_of_none ht]
    rfl
  | some t =>
    refine ⟨t + 4 * ptx va, walkpgdir_found false va ht, ?_⟩
    rw [hpdx] at ht
    have hne : t + 4 * ptx va ≠ 0 := fun heq => (h.table _ hlt t ht).1 (Nat.eq_zero_of_add_eq_zero_right heq)
    rw [if_neg hne, mapping, pteAt_of_some ht]
    rfl

/-- The entry that `mappages` gives the page at distance `k` from the first. -/
def entryOf (pa perm k : Nat) : Nat := (pa + k * pgsize) % 2 ^ 32 ||| perm ||| pteP

theorem meaning_entryOf (k : Nat) (hpa : pa % pgsize = 0) (hperm : perm < pgsize) :
    meaning (entryOf pa perm k) = some ((pa + k * pgsize) % 2 ^ 32, perm ||| pteP) := by
  refine meaning_entry ?_ hperm
  simp only [pgsize] at hpa ⊢
  omega

/-- What mapping `count` pages from `n` on has done. -/
structure Laid (d n count pa perm : Nat) (pages : List Nat) (m : Memory) (l : List Nat) (m' : Memory) (l' : List Nat) :
    Prop where
  split : l = pages ++ l'
  tables : Tables m' l' d
  inside : ∀ k < count, pteAt m'.word d (n + k) = entryOf pa perm k
  outside : ∀ k, k / nptentries < npdentries → ¬(n ≤ k ∧ k < n + count) → pteAt m'.word d k = pteAt m.word d k
  made : ∀ i < npdentries, tableAt m'.word d i = none ↔
    tableAt m.word d i = none ∧ ∀ k, n ≤ k → k < n + count → i ≠ k / nptentries
  taken : pages.length + missing m'.word d = missing m.word d

theorem Laid.refl (h : Tables m l d) (n pa perm : Nat) : Laid d n 0 pa perm [] m l m l :=
  ⟨rfl, h, nofun, fun _ _ _ => rfl, fun _ _ => (and_iff_left fun _ hle hlt => absurd hlt (Nat.not_lt_of_le hle)).symm,
    Nat.zero_add _⟩

theorem Reached.laid (h : Reached d (n / nptentries) t pages m l m' l') (hn : n / nptentries < npdentries) (hpa : pa < 2 ^ 32)
    (perm : Nat) :
    Laid d n 1 pa perm pages m l { m' with word := update m'.word (t + 4 * (n % nptentries)) (pa ||| perm ||| pteP) } l' := by
  refine ⟨h.split, h.tables.setEntry hn h.table (mod_lt n), ?_, ?_, ?_, h.missing_written hn⟩
  · intro k hk
    obtain rfl : k = 0 := by omega
    change pteAt (update m'.word _ _) d n = _
    rw [h.pteAt_written hn hn, if_pos rfl, entryOf, Nat.zero_mul, Nat.add_zero, Nat.mod_eq_of_lt hpa]
  · intro k hk hout
    change pteAt (update m'.word _ _) d k = _
    rw [h.pteAt_written hn hk, if_neg (by omega)]
  · intro i hi
    change tableAt (update m'.word _ _) d i = none ↔ _
    rw [h.tableAt_written hn hi]
    rw [forall_range_one]

theorem Laid.trans (h : Laid d n 1 pa perm pages m l m' l')
    (h' : Laid d (n + 1) count ((pa + pgsize) % 2 ^ 32) perm pages' m' l' m'' l'') (hle : n + 1 + count ≤ 2 ^ 20) :
    Laid d n (count + 1) pa perm (pages ++ pages') m l m'' l'' := by
  refine ⟨by rw [h.split, h'.split, List.append_assoc], h'.tables, ?_, ?_, ?_, ?_⟩
  · intro k hk
    cases k with
    | zero =>
      rw [h'.outside (n + 0) (page_lt (by omega)) (by omega)]
      exact h.inside 0 (by omega)
    | succ k =>
      have hin := h'.inside k (by omega)
      have haddr : ((pa + pgsize) % 2 ^ 32 + k * pgsize) % 2 ^ 32 = (pa + (k + 1) * pgsize) % 2 ^ 32 := by
        simp only [pgsize]
        omega
      rw [show n + 1 + k = n + (k + 1) by omega] at hin
      rw [hin, entryOf, entryOf, haddr]
  · intro k hk hout
    rw [h'.outside k hk (by omega), h.outside k hk (by omega)]
  · intro i hi
    rw [h'.made i hi, h.made i hi, and_assoc, Nat.add_comm count, forall_range_add]
  · have htaken := h.taken
    have htaken' := h'.taken
    rw [List.length_append]
    omega

/-- How mapping a range ends: all of it is mapped, or there was no page for a table. -/
def LayEnds (d n count pa perm : Nat) (m : Memory) (l : List Nat) (r : Int) (m' : Memory) : Prop :=
  (r = 0 ∧ ∃ pages l', Laid d n count pa perm pages m l m' l') ∨
    (r = -1 ∧ ∃ k < count, Laid d n k pa perm l m l m' [] ∧ tableAt m'.word d ((n + k) / nptentries) = none)

theorem mapLoop_lays (count : Nat) (h : Tables m l d) (hle : n + count ≤ 2 ^ 20) (ha : 0 < count → a = n * pgsize)
    (hpa : pa < 2 ^ 32) (habsent : ∀ k, n ≤ k → k < n + count → ¬Present (pteAt m.word d k)) :
    Ends (mapLoop d perm count a pa) m (LayEnds d n count pa perm m l) fun _ _ => False := by
  induction count generalizing n a pa m l with
  | zero => exact .pure (.inl ⟨rfl, [], l, .refl h n pa perm⟩)
  | succ count ih =>
    rw [ha (Nat.succ_pos count)]
    have hn : n / nptentries < npdentries := page_lt (by omega)
    unfold mapLoop
    refine (h.walkpgdir hn).bind fun pte m₁ hpte => ?_
    obtain ⟨rfl, rfl, rfl, ht⟩ | ⟨t, pages, l₁, rfl, hne, hreached⟩ := hpte
    · rw [if_pos rfl]
      exact .pure (.inr ⟨rfl, 0, Nat.succ_pos count, .refl h n pa perm, ht⟩)
    · rw [if_neg hne]
      refine .after_ok (get_run m₁) ?_
      have hword : m₁.word (t + 4 * (n % nptentries)) = pteAt m.word d n := by
        rw [← hreached.entries n hn, pteAt_of_some hreached.table]
      rw [hword, if_neg (habsent n (Nat.le_refl n) (by omega))]
      have hone := hreached.laid hn hpa perm
      refine .after_ok rfl ?_
      refine (ih (n := n + 1) hone.tables (by omega) ?_ (Nat.mod_lt _ (by decide)) ?_).post ?_
      · intro hpos
        simp only [pgsize]
        omega
      · intro k hlo hhi
        rw [hone.outside k (page_lt (by omega)) (by omega)]
        exact habsent k (by omega) (by omega)
      · rintro r m₂ (⟨rfl, pages', l₂, hrest⟩ | ⟨rfl, k, hk, hrest, ht⟩)
        · exact .inl ⟨rfl, _, l₂, hone.trans hrest (by omega)⟩
        · have hall := hone.trans hrest (by omega)
          rw [← hone.split] at hall
          refine .inr ⟨rfl, k + 1, by omega, hall, ?_⟩
          rwa [show n + (k + 1) = n + 1 + k by omega]

def pagesOf (va size : Nat) : Nat := (va + size - 1) / pgsize - va / pgsize + 1

theorem mappages_lays (va size pa perm : Nat) (h : Tables m l d) (hpos : 0 < size) (hend : va + size - 1 < 2 ^ 32) (hpa : pa < 2 ^ 32)
    (habsent : ∀ k, va / pgsize ≤ k → k ≤ (va + size - 1) / pgsize → ¬Present (pteAt m.word d k)) :
    Ends (mappages d va size pa perm) m (LayEnds d (va / pgsize) (pagesOf va size) pa perm m l) fun _ _ => False := by
  have hlast : (va + size + (2 ^ 32 - 1)) % 2 ^ 32 = va + size - 1 := by omega
  have hcount : (pgrounddown (va + size - 1) + 2 ^ 32 - pgrounddown va) % 2 ^ 32 / pgsize + 1 = pagesOf va size := by
    simp only [pgrounddown, pagesOf, pgsize]
    omega
  unfold mappages
  rw [hlast]
  dsimp only
  rw [hcount]
  refine mapLoop_lays _ h ?_ (fun _ => rfl) hpa fun k hlo hhi => habsent k hlo ?_
  · simp only [pagesOf, pgsize]
    omega
  · simp only [pagesOf, pgsize] at hhi hlo ⊢
    omega

/-- `walkpgdir` reads the map of a directory. `mappages` on a range whose pages are not mapped extends the map by the
pages of the range, in order, or runs out of memory and changes the map inside the range only. -/
theorem mappages_refines_map (va size pa perm : Nat) (h : Tables m l d) (hpa : pa % pgsize = 0) (hword : pa < 2 ^ 32)
    (hperm : perm < pgsize) (hpos : 0 < size) (hend : va + size - 1 < 2 ^ 32)
    (habsent : ∀ n, va / pgsize ≤ n → n ≤ (va + size - 1) / pgsize → mapping m.word d n = none) :
    (∀ a < 2 ^ 32, ∃ pte, walkpgdir d a false m = .ok pte m ∧
      mapping m.word d (a / pgsize) = if pte = 0 then none else meaning (m.word pte)) ∧
    ∃ r m' l', mappages d va size pa perm m = .ok r m' ∧ Tables m' l' d ∧
      (r = 0 ∧ (∀ n < 2 ^ 20, mapping m'.word d n =
          if va / pgsize ≤ n ∧ n ≤ (va + size - 1) / pgsize then
            some ((pa + (n - va / pgsize) * pgsize) % 2 ^ 32, perm ||| pteP)
          else mapping m.word d n) ∨
        r = -1 ∧ l' = [] ∧ ∀ n < 2 ^ 20, ¬(va / pgsize ≤ n ∧ n ≤ (va + size - 1) / pgsize) →
          mapping m'.word d n = mapping m.word d n) := by
  refine ⟨fun a ha => h.walkpgdir_reads ha, ?_⟩
  have hlays := mappages_lays va size pa perm h hpos hend hword fun k hlo hhi => meaning_eq_none.mp (habsent k hlo hhi)
  have hrange : ∀ n, (va / pgsize ≤ n ∧ n < va / pgsize + pagesOf va size) ↔
      va / pgsize ≤ n ∧ n ≤ (va + size - 1) / pgsize := by
    intro n
    simp only [pagesOf, pgsize]
    omega
  obtain ⟨r, m', hrun, hends⟩ := hlays.exists_ok
  obtain ⟨rfl, pages, l', hlaid⟩ | ⟨rfl, k, hk, hlaid, -⟩ := hends
  · refine ⟨0, m', l', hrun, hlaid.tables, .inl ⟨rfl, fun n hn => ?_⟩⟩
    split
    · rename_i hin
      obtain ⟨hlo, hhi⟩ := (hrange n).mpr hin
      have hentry := hlaid.inside (n - va / pgsize) (by omega)
      rw [Nat.add_sub_cancel' hlo] at hentry
      rw [mapping, hentry, meaning_entryOf _ hpa hperm]
    · rename_i hout
      rw [mapping, hlaid.outside n (page_lt hn) fun hin => hout ((hrange n).mp hin)]
      rfl
  · refine ⟨-1, m', [], hrun, hlaid.tables, .inr ⟨rfl, rfl, fun n hn hout => ?_⟩⟩
    rw [mapping, hlaid.outside n (page_lt hn) fun hin => hout ((hrange n).mp ⟨hin.1, by omega⟩)]
    rfl

def oneFree : Memory := ⟨0x80114000, fun _ => 0, 0x80300000, []⟩

theorem tables_oneFree : Tables oneFree [0x80300000] 0x80200000 := by
  refine ⟨⟨⟨rfl, by decide, rfl⟩, ?_⟩, by decide, by decide, fun i hi t ht => (nomatch ht), fun i hi j hj t ht => (nomatch ht)⟩
  intro p hp
  obtain rfl := List.mem_singleton.mp hp
  decide

theorem mappages_refines_map_page : ∃ r m', mappages 0x80200000 0x1234 10 0x500000 (pteW ||| pteU) oneFree = .ok r m' ∧
    (r = 0 ∧ mapping m'.word 0x80200000 1 = some (0x500000, pteW ||| pteU ||| pteP) ∨ r = -1) := by
  obtain ⟨-, r, m', l', hrun, -, hcases⟩ := mappages_refines_map 0x1234 10 0x500000 (pteW ||| pteU)
    tables_oneFree (by decide) (by decide) (by decide) (by decide) (by decide) fun _ _ _ => rfl
  refine ⟨r, m', hrun, hcases.imp (fun h => ⟨h.1, ?_⟩) fun h => h.1⟩
  rw [h.2 1 (by decide)]
  decide

end RainOS.Vm
