import RainOS.Vm.Tables

/-!
# Walking and mapping

What `walkpgdir` and `mappages` do to the owners of pages. A directory only gains pages from the front of
the free list, and only its own pages are written.
-/

namespace RainOS.Vm

open Kalloc Function List

/-- A directory has gained pages, and nothing else has changed hands or been written. -/
structure Grew (d : Nat) (pages : List Nat) (m : Memory) (own : Nat → Option Owner) (m' : Memory)
    (own' : Nat → Option Owner) : Prop where
  kernelEnd : m'.kernelEnd = m.kernelEnd
  ledger : m'.ledger = m.ledger
  mine : ∀ p ∈ pages, spaceOf own' p = some d
  other : ∀ p, p ∉ pages → own' p = own p
  word : ∀ a, pgrounddown a ∉ pages → spaceOf own (pgrounddown a) ≠ some d → m'.word a = m.word a

variable {m m' m'' : Memory} {l l' pages pages' l'' : List Nat} {own own' own'' : Nat → Option Owner} {word : Nat → Nat}
  {p q d i n t a v count perm pa : Nat} {S S' : Nat → Prop} {o : Owner} {r : Int}

theorem spaceOf_eq (h : own' p = own p) : spaceOf own' p = spaceOf own p := by
  rw [spaceOf, spaceOf, h]

theorem spaceOf_of_own (h : own p = some o) : spaceOf own p = o.space p := by
  rw [spaceOf, h]
  rfl

theorem Grew.refl (d : Nat) (m : Memory) (own : Nat → Option Owner) : Grew d [] m own m own :=
  ⟨rfl, rfl, fun _ hp => (nomatch hp), fun _ _ => rfl, fun _ _ _ => rfl⟩

theorem Grew.trans (h : Grew d pages m own m' own') (h' : Grew d pages' m' own' m'' own'') :
    Grew d (pages ++ pages') m own m'' own'' where
  kernelEnd := h'.kernelEnd.trans h.kernelEnd
  ledger := h'.ledger.trans h.ledger
  mine p hp := by
    by_cases hp' : p ∈ pages'
    · exact h'.mine p hp'
    · rw [spaceOf_eq (h'.other p hp')]
      exact h.mine p ((mem_append.mp hp).resolve_right hp')
  other p hp := by
    rw [mem_append, not_or] at hp
    rw [h'.other p hp.2, h.other p hp.1]
  word a ha hspace := by
    rw [mem_append, not_or] at ha
    rw [h'.word a ha.2, h.word a ha.1 hspace]
    rwa [spaceOf_eq (h.other _ ha.1)]

/-! ### walkpgdir -/

theorem Owned.head_page (h : Owned m (q :: l) own) : Page m.kernelEnd q :=
  h.page q _ ((h.isFree q).mpr mem_cons_self)

theorem Owned.head_ne (h : Owned m (q :: l) own) (hp : own p = some o) (ho : o ≠ .free) :
    p ≠ q := by
  rintro rfl
  rw [(h.isFree p).mpr mem_cons_self] at hp
  exact ho (Option.some.inj hp).symm

theorem Owned.takeZero (h : Owned m (q :: l) own) :
    Owned { m with freelist := m.word q, word := zeroPage m.word q } l (update own q none) := by
  apply h.take.scribble (zeroPage m.word q)
  intro a o ho _
  apply zeroPage_of_ne h.head_page.aligned
  intro heq
  rw [heq, update_self] at ho
  cases ho

theorem Owned.tables (h : Owned m l own) (hd : own d = some .directory) : Tables m l d where
  free := h.free
  aligned := h.directory_aligned hd
  taken hin := by
    rw [(h.isFree d).mpr hin] at hd
    cases hd
  table i hi t ht := by
    have hown := h.own_table hd hi ht
    refine ⟨h.table_ne_zero hown 0, ?_, ?_⟩
    · rintro rfl
      rw [hd] at hown
      cases hown
    · intro hin
      rw [(h.isFree t).mpr hin] at hown
      cases hown
  distinct i hi j hj t ht ht' := by
    have hsame := (h.own_table hd hi ht).symm.trans (h.own_table hd hj ht')
    cases hsame
    rfl

theorem Owned.withTable (h : Owned m (q :: l) own) (hd : own d = some .directory) (hi : i < npdentries)
    (hnone : tableAt m.word d i = none) :
    Owned (withTable m d i q) l (update own q (some (.table d i))) ∧
      Grew d [q] m own (withTable m d i q) (update own q (some (.table d i))) := by
  have hq := h.head_page
  have hdq : d ≠ q := h.head_ne hd nofun
  have hzero := h.takeZero
  have hd' : update own q none d = some .directory := by rwa [update_of_ne hdq]
  have hnone' : tableAt (zeroPage m.word q) d i = none := by
    rw [← hnone]
    apply target_eq_of_eq
    apply zeroPage_of_ne hq.aligned
    rwa [pgrounddown_word (h.directory_aligned hd) hi]
  have hadd := hzero.addTable hd' hi hnone' (update_self q none own) hq
    (fun a ha => zeroPage_of_eq hq.aligned ha) (entry_table hq)
  rw [update_idem] at hadd
  refine ⟨hadd, rfl, rfl, ?_, ?_, ?_⟩
  · intro p hp
    rw [mem_singleton.mp hp, spaceOf, update_self]
    rfl
  · intro p hp
    exact update_of_ne (fun heq => hp (mem_singleton.mpr heq)) _ _
  · intro a ha hspace
    refine (h.tables hd).word_withTable hi ?_ fun heq => ha (mem_singleton.mpr heq)
    intro heq
    rw [heq, spaceOf_of_own hd] at hspace
    exact hspace rfl

structure Walked (d i t : Nat) (pages : List Nat) (m : Memory) (l : List Nat) (own : Nat → Option Owner)
    (m' : Memory) (l' : List Nat) (own' : Nat → Option Owner) : Prop where
  split : l = pages ++ l'
  count : pages.length = if tableAt m.word d i = none then 1 else 0
  fresh : ∀ p ∈ pages, own p = some .free
  owned : Owned m' l' own'
  grew : Grew d pages m own m' own'
  table : own' t = some (.table d i)
  entries : ∀ n, n / nptentries < npdentries → pteAt m'.word d n = pteAt m.word d n
  tables : ∀ i' < npdentries, i' ≠ i → tableAt m'.word d i' = tableAt m.word d i'

theorem walkpgdir_spec (h : Owned m l own) (hd : own d = some .directory) (hn : n / nptentries < npdentries) :
    Ends (walkpgdir d (n * pgsize) true) m
      (fun pte m' => (pte = 0 ∧ m' = m ∧ l = [] ∧ tableAt m.word d (n / nptentries) = none) ∨
        ∃ t pages l' own', pte = t + 4 * (n % nptentries) ∧ pte ≠ 0 ∧
          Walked d (n / nptentries) t pages m l own m' l' own')
      fun _ _ => False := by
  cases ht : tableAt m.word d (n / nptentries) with
  | some t =>
    have hown := h.own_table hd hn ht
    have hrun := walkpgdir_found true (n * pgsize) (by rw [pdx_page hn, ht])
    rw [ptx_page] at hrun
    refine .of_run_ok hrun (.inr ⟨t, [], l, own, rfl, h.table_ne_zero hown _, rfl, ?_,
      fun _ hp => (nomatch hp), h, .refl d m own, hown, fun _ _ => rfl, fun _ _ _ => rfl⟩)
    rw [ht]
    rfl
  | none =>
    cases l with
    | nil =>
      exact .of_run_ok (walkpgdir_full h.free (by rw [pdx_page hn, ht])) (.inl ⟨rfl, rfl, rfl, rfl⟩)
    | cons q l' =>
      have hrun := walkpgdir_alloc (n * pgsize) h.free (by rw [pdx_page hn, ht])
      rw [pdx_page hn, ptx_page] at hrun
      obtain ⟨howned, hgrew⟩ := h.withTable hd hn ht
      refine .of_run_ok hrun (.inr ⟨q, [q], l', _, rfl, howned.table_ne_zero (update_self ..) _, rfl, ?_,
        fun p hp => ?_, howned, hgrew, update_self .., fun n' hn' => (h.tables hd).pteAt_withTable hn ht hn',
        fun i' hi' hne => ?_⟩)
      · rw [ht]
        rfl
      · rw [mem_singleton.mp hp, h.isFree]
        exact mem_cons_self
      · rw [(h.tables hd).tableAt_withTable hn hi', if_neg hne]

/-! ### mappages -/

structure Mapped (d n v q : Nat) (pages : List Nat) (m : Memory) (l : List Nat) (own : Nat → Option Owner)
    (m' : Memory) (l' : List Nat) (own' : Nat → Option Owner) : Prop where
  split : l = pages ++ l'
  count : pages.length = if tableAt m.word d (n / nptentries) = none then 1 else 0
  owned : Owned m' l' own'
  grew : Grew d (q :: pages) m own m' own'
  live : own' d = some .directory
  entries : ∀ n', n' / nptentries < npdentries →
    pteAt m'.word d n' = if n' = n then v else pteAt m.word d n'
  tables : ∀ i < npdentries, tableAt m'.word d i = none ↔ tableAt m.word d i = none ∧ i ≠ n / nptentries

theorem mappages_range (hpos : 0 < count) (hle : n + count ≤ 2 ^ 20) (pa perm : Nat) :
    mappages d (n * pgsize) (count * pgsize) pa perm = mapLoop d perm count (n * pgsize) pa := by
  have hlast : pgrounddown ((n * pgsize + count * pgsize + (2 ^ 32 - 1)) % 2 ^ 32) =
      (n + count - 1) * pgsize := by
    simp only [pgrounddown, pgsize]
    omega
  have hfirst : pgrounddown (n * pgsize) = n * pgsize := by
    simp only [pgrounddown, pgsize]
    omega
  have hcount : ((n + count - 1) * pgsize + 2 ^ 32 - n * pgsize) % 2 ^ 32 / pgsize + 1 = count := by
    simp only [pgsize]
    omega
  unfold mappages
  rw [hlast, hfirst]
  dsimp only
  rw [hcount]

theorem mappages_page (hn : n / nptentries < npdentries) (pa perm : Nat) :
    mappages d (n * pgsize) pgsize pa perm = mapLoop d perm 1 (n * pgsize) pa := by
  change n / 1024 < 1024 at hn
  have hrange := mappages_range (d := d) (n := n) Nat.one_pos (by omega) pa perm
  rwa [Nat.one_mul] at hrange

theorem or_odd_lt (hperm : perm < pgsize) :
    perm ||| pteP < pgsize ∧ (perm ||| pteP) % 2 = 1 := by
  refine ⟨Nat.or_lt_two_pow (n := 12) hperm (by decide), ?_⟩
  rw [pteP, Nat.or_mod_two_eq_one]
  exact .inr rfl

theorem decode_entry (hq : Page m.kernelEnd q) (hperm : perm < pgsize) :
    decode (v2p q ||| perm ||| pteP) = some q := by
  obtain ⟨hlt, hodd⟩ := or_odd_lt hperm
  obtain ⟨haddr, -, hpresent⟩ := entry_spec hq hlt
  rw [Nat.or_assoc]
  exact decode_eq_some.mpr ⟨hpresent.mpr hodd, haddr⟩

theorem Walked.reached (h : Walked d i t pages m l own m' l' own') : Reached d i t pages m l m' l' := by
  obtain ⟨hd, -, ht⟩ := (h.owned.isTable t d i).mp h.table
  exact ⟨h.split, h.count, h.owned.tables hd, ht, h.entries, h.tables⟩

theorem Walked.word_written (h : Walked d (n / nptentries) t pages m l own m' l' own') (ha : pgrounddown a ∉ pages)
    (hspace : spaceOf own (pgrounddown a) ≠ some d) : update m'.word (t + 4 * (n % nptentries)) v a = m.word a := by
  have hne : a ≠ t + 4 * (n % nptentries) := by
    rintro rfl
    rw [pgrounddown_word (h.owned.table_aligned h.table) (mod_lt n)] at ha hspace
    rw [← spaceOf_eq (h.grew.other t ha), spaceOf_of_own h.table] at hspace
    exact hspace rfl
  rw [update_of_ne hne, h.grew.word a ha hspace]

theorem Walked.word_eq (h : Walked d (n / nptentries) t pages m l own m' l' own')
    (hn : n / nptentries < npdentries) : m'.word (t + 4 * (n % nptentries)) = pteAt m.word d n := by
  rw [← h.entries n hn]
  exact (pteAt_of_some ((h.owned.isTable t d _).mp h.table).2.2).symm

theorem mapLoop_step (h : Owned m l own) (hd : own d = some .directory) (hn : n / nptentries < npdentries) {Q : Int → Memory → Prop} {E : Halt → Memory → Prop}
    (hfull : l = [] → tableAt m.word d (n / nptentries) = none → Q (-1) m)
    (hremap : ∀ m', Present (pteAt m.word d n) → E (.panic "remap") m')
    (hnext : ∀ t pages m' l' own', Walked d (n / nptentries) t pages m l own m' l' own' → ¬Present (pteAt m.word d n) →
      Ends (mapLoop d perm count ((n * pgsize + pgsize) % 2 ^ 32) ((pa + pgsize) % 2 ^ 32))
        { m' with word := update m'.word (t + 4 * (n % nptentries)) (pa ||| perm ||| pteP) } Q E) :
    Ends (mapLoop d perm (count + 1) (n * pgsize) pa) m Q E := by
  unfold mapLoop
  refine .bind (walkpgdir_spec h hd hn).returns fun pte m' hpte => ?_
  obtain ⟨rfl, rfl, hl, ht⟩ | ⟨t, pages, l', own', rfl, hne, hwalked⟩ := hpte
  · rw [if_pos rfl]
    exact .pure (hfull hl ht)
  · rw [if_neg hne]
    refine .after_ok (get_run m') ?_
    have hword := hwalked.word_eq hn
    by_cases hpresent : Present (pteAt m.word d n)
    · rw [if_pos (hword ▸ hpresent)]
      exact .after_error rfl (hremap m' hpresent)
    · rw [if_neg (hword ▸ hpresent)]
      exact .after_ok rfl (hnext t pages m' l' own' hwalked hpresent)

theorem Walked.mapped (h : Walked d (n / nptentries) t pages m l own m' l' own') (hn : n < userPages)
    (hq : own q = none) (hpage : Page m.kernelEnd q) (hperm : perm < pgsize) (habsent : ¬Present (pteAt m.word d n)) :
    Mapped d n (v2p q ||| perm ||| pteP) q pages m l own
      { m' with word := update m'.word (t + 4 * (n % nptentries)) (v2p q ||| perm ||| pteP) } l'
      (update own' q (some (.user d n))) := by
  have hn' := div_lt hn
  have hj := mod_lt n
  have hlive := ((h.owned.isTable t d _).mp h.table).1
  have hfresh : q ∉ pages := fun hin => by
    rw [h.fresh q hin] at hq
    cases hq
  have hq' : own' q = none := by rw [h.grew.other q hfresh, hq]
  have hpage' : Page m'.kernelEnd q := by rwa [h.grew.kernelEnd]
  have htarget : target m'.word (t + 4 * (n % nptentries)) = none := by
    rw [target, h.word_eq hn', decode, if_neg habsent]
  have hnumber := pageAt_div_mod n
  have hadd := h.owned.addFrame h.table hj (by rwa [hnumber]) htarget hq' hpage'
    (decode_entry hpage' hperm)
  rw [hnumber] at hadd
  have hdq : d ≠ q := fun heq => by
    rw [heq, hq'] at hlive
    cases hlive
  refine ⟨h.split, h.count, hadd, ⟨h.grew.kernelEnd, h.grew.ledger, ?_, ?_, ?_⟩, by rwa [update_of_ne hdq],
    ?_, ?_⟩
  · intro p hp
    by_cases hpq : p = q
    · rw [hpq, spaceOf, update_self]
      rfl
    · have hsame : spaceOf (update own' q (some (.user d n))) p = spaceOf own' p :=
        spaceOf_eq (update_of_ne hpq _ _)
      rw [hsame]
      exact h.grew.mine p ((mem_cons.mp hp).resolve_left hpq)
  · intro p hp
    rw [mem_cons, not_or] at hp
    rw [update_of_ne hp.1, h.grew.other p hp.2]
  · intro a ha hspace
    rw [mem_cons, not_or] at ha
    exact h.word_written ha.2 hspace
  · intro n₁ hn₁
    exact h.reached.pteAt_written hn' hn₁
  · intro i hi
    exact h.reached.tableAt_written hn' hi

theorem mappages_user (h : Owned m l own) (hd : own d = some .directory) (hn : n < userPages)
    (hq : own q = none) (hpage : Page m.kernelEnd q) (perm : Nat) (hperm : perm < pgsize) :
    Ends (mappages d (n * pgsize) pgsize (v2p q) perm) m
      (fun r m' => (r = -1 ∧ m' = m ∧ l = [] ∧ tableAt m.word d (n / nptentries) = none) ∨
        ¬Present (pteAt m.word d n) ∧ r = 0 ∧ ∃ pages l' own',
          Mapped d n (v2p q ||| perm ||| pteP) q pages m l own m' l' own')
      fun e _ => e = .panic "remap" ∧ Present (pteAt m.word d n) := by
  have hn' := div_lt hn
  rw [mappages_page hn']
  apply mapLoop_step h hd hn'
  · intro hl ht
    exact .inl ⟨rfl, rfl, hl, ht⟩
  · intro _ hpresent
    exact ⟨rfl, hpresent⟩
  · intro t pages m' l' own' hwalked habsent
    exact .pure (.inr ⟨habsent, rfl, pages, l', _, hwalked.mapped hn hq hpage hperm habsent⟩)

/-! ### Words the kernel does not follow -/

def Unfollowed (own : Nat → Option Owner) (p : Nat) : Prop := ∀ o, own p = some o → ¬Structural o

theorem unfollowed_of_none (h : own p = none) : Unfollowed own p := fun o ho => by
  rw [h] at ho
  cases ho

theorem unfollowed_of_user (h : own p = some (.user d n)) : Unfollowed own p := fun o ho => by
  rw [h] at ho
  cases ho
  exact id

theorem ne_of_unfollowed (hp : Unfollowed own p) (hq : own q = some o) (ho : Structural o) :
    p ≠ q := by
  rintro rfl
  exact hp o hq ho

section

variable (h : Owned m l own) (hd : own d = some .directory) (hn : n / nptentries < npdentries)
include h hd hn

theorem walkpgdir_unfollowed :
    Ends (walkpgdir d (n * pgsize) true) m
      (fun _ m' => ∀ a, Unfollowed own (pgrounddown a) → m'.word a = m.word a) fun _ _ => False := by
  cases ht : tableAt m.word d (n / nptentries) with
  | some t => exact .of_run_ok (walkpgdir_found true (n * pgsize) (by rw [pdx_page hn, ht])) fun _ _ => rfl
  | none =>
    cases l with
    | nil => exact .of_run_ok (walkpgdir_full h.free (by rw [pdx_page hn, ht])) fun _ _ => rfl
    | cons q l' =>
      have hrun := walkpgdir_alloc (n * pgsize) h.free (by rw [pdx_page hn, ht])
      rw [pdx_page hn] at hrun
      refine .of_run_ok hrun fun a ha => ?_
      have hq := ne_of_unfollowed ha ((h.isFree q).mpr mem_cons_self) trivial
      exact (h.tables hd).word_withTable hn (ne_of_unfollowed ha hd trivial) hq

theorem mappages_unfollowed (pa perm : Nat) : Ends (mappages d (n * pgsize) pgsize pa perm) m
      (fun _ m' => ∀ a, Unfollowed own (pgrounddown a) → m'.word a = m.word a) fun _ _ => True := by
  rw [mappages_page hn]
  unfold mapLoop
  refine .bind ((walkpgdir_spec h hd hn).and (walkpgdir_unfollowed h hd hn)).returns fun pte m' hpte => ?_
  obtain ⟨⟨rfl, rfl, -, -⟩ | ⟨t, pages, l', own', rfl, hne, hwalked⟩, hkept⟩ := hpte
  · exact .pure fun _ _ => rfl
  · rw [if_neg hne]
    refine .after_ok (get_run m') ?_
    split
    · exact .after_error rfl trivial
    · refine .after_ok rfl (.pure fun a ha => ?_)
      have hentry : a ≠ t + 4 * (n % nptentries) := by
        rintro rfl
        rw [pgrounddown_word (hwalked.owned.table_aligned hwalked.table) (mod_lt n)] at ha
        by_cases hin : t ∈ pages
        · exact ha _ (hwalked.fresh t hin) trivial
        · exact ha (.table d (n / nptentries)) (by rw [← hwalked.grew.other t hin, hwalked.table]) trivial
      change update m'.word _ _ a = m.word a
      rw [update_of_ne hentry, hkept a ha]

end

/-! ### The kernel's half -/

def KernelFlags (pte : Nat) : Prop := pteFlags pte = pteP ∨ pteFlags pte = pteW ||| pteP

/-- What mapping the pages in `S`, all of the kernel's half, has done. -/
structure Extended (d : Nat) (S : Nat → Prop) (pages : List Nat) (m : Memory) (l : List Nat)
    (own : Nat → Option Owner) (m' : Memory) (l' : List Nat) (own' : Nat → Option Owner) : Prop where
  split : l = pages ++ l'
  owned : Owned m' l' own'
  grew : Grew d pages m own m' own'
  live : own' d = some .directory
  taken : pages.length + missing m'.word d = missing m.word d
  inside : ∀ n, n / nptentries < npdentries → S n → KernelFlags (pteAt m'.word d n)
  outside : ∀ n, n / nptentries < npdentries → ¬S n → pteAt m'.word d n = pteAt m.word d n
  tables : ∀ i < npdentries, tableAt m'.word d i = none ↔
    tableAt m.word d i = none ∧ ∀ n, S n → i ≠ n / nptentries

theorem Extended.refl (h : Owned m l own) (hd : own d = some .directory) :
    Extended d (fun _ => False) [] m l own m l own :=
  ⟨rfl, h, .refl d m own, hd, Nat.zero_add _, fun _ _ hf => hf.elim, fun _ _ _ => rfl,
    fun _ _ => (and_iff_left fun _ hf => hf.elim).symm⟩

theorem Extended.trans (h : Extended d S pages m l own m' l' own') (h' : Extended d S' pages' m' l' own' m'' l'' own'') :
    Extended d (fun n => S n ∨ S' n) (pages ++ pages') m l own m'' l'' own'' where
  split := by rw [h.split, h'.split, append_assoc]
  owned := h'.owned
  grew := h.grew.trans h'.grew
  live := h'.live
  taken := by
    have h₁ := h.taken
    have h₂ := h'.taken
    rw [length_append]
    omega
  inside n hn hS := by
    by_cases hS' : S' n
    · exact h'.inside n hn hS'
    · rw [h'.outside n hn hS']
      exact h.inside n hn (hS.resolve_right hS')
  outside n hn hnot := by
    rw [not_or] at hnot
    rw [h'.outside n hn hnot.2, h.outside n hn hnot.1]
  tables i hi := by
    rw [h'.tables i hi, h.tables i hi, and_assoc]
    apply and_congr_right
    intro _
    refine ⟨fun hall n hS => ?_, fun hall => ⟨fun n hS => hall n (.inl hS), fun n hS => hall n (.inr hS)⟩⟩
    exact hS.elim (hall.1 n) (hall.2 n)

theorem Extended.congr (h : Extended d S pages m l own m' l' own')
    (hS : ∀ n, S' n ↔ S n) : Extended d S' pages m l own m' l' own' := by
  obtain rfl : S' = S := funext fun n => propext (hS n)
  exact h

theorem pteFlags_entry (hpa : pa % pgsize = 0) (hperm : perm < pgsize) :
    pteFlags (pa ||| perm ||| pteP) = perm ||| pteP := by
  have hlt := (or_odd_lt hperm).1
  rw [Nat.or_assoc, or_flags hpa hlt]
  simp only [pteFlags, pgsize] at hpa hlt ⊢
  omega

theorem kernelFlags_entry (hpa : pa % pgsize = 0) (hperm : perm = 0 ∨ perm = pteW) :
    KernelFlags (pa ||| perm ||| pteP) := by
  obtain rfl | rfl := hperm
  · exact .inl (by rw [pteFlags_entry hpa (by decide), Nat.zero_or])
  · exact .inr (pteFlags_entry hpa (by decide))

theorem Walked.extended (h : Walked d (n / nptentries) t pages m l own m' l' own')
    (hkernel : userPages ≤ n) (hpa : pa % pgsize = 0) (hperm : perm = 0 ∨ perm = pteW) :
    Extended d (· = n) pages m l own
      { m' with word := update m'.word (t + 4 * (n % nptentries)) (pa ||| perm ||| pteP) } l' own' := by
  obtain ⟨hlive, hn, -⟩ := (h.owned.isTable t d _).mp h.table
  refine ⟨h.split, h.owned.setKernel h.table (mod_lt n) (by rwa [pageAt_div_mod]), ⟨h.grew.kernelEnd, h.grew.ledger,
    h.grew.mine, h.grew.other, ?_⟩, hlive, h.reached.missing_written hn, ?_, ?_, ?_⟩
  · intro a ha hspace
    exact h.word_written ha hspace
  · rintro n' - rfl
    change KernelFlags (pteAt (update m'.word _ _) d n')
    rw [h.reached.pteAt_written hn hn, if_pos rfl]
    exact kernelFlags_entry hpa hperm
  · intro n' hn' hnot
    change pteAt (update m'.word _ _) d n' = _
    rw [h.reached.pteAt_written hn hn', if_neg hnot]
  · intro i hi
    change tableAt (update m'.word _ _) d i = none ↔ _
    rw [h.reached.tableAt_written hn hi, forall_eq]

theorem page_lt (h : n < 2 ^ 20) : n / nptentries < npdentries := by
  have hlt : n / 1024 < 1024 := by omega
  exact hlt

/-- How mapping the pages in `S` ends: all are mapped, or there was no page for the table of one. -/
def MapEnds (d : Nat) (S : Nat → Prop) (m : Memory) (l : List Nat) (own : Nat → Option Owner) (r : Int)
    (m' : Memory) : Prop :=
  (r = 0 ∧ ∃ pages l' own', Extended d S pages m l own m' l' own') ∨
    (r = -1 ∧ ∃ S' own', Extended d S' l m l own m' [] own' ∧ (∀ n, S' n → S n) ∧
      ∃ n, S n ∧ tableAt m'.word d (n / nptentries) = none)

theorem MapEnds.after (h : Extended d S pages m l own m' l' own')
    (h' : MapEnds d S' m' l' own' r m'') : MapEnds d (fun n => S n ∨ S' n) m l own r m'' := by
  obtain ⟨rfl, pages', l'', own'', hext⟩ | ⟨rfl, T, own'', hext, hsub, n, hS, hnone⟩ := h'
  · exact .inl ⟨rfl, _, _, _, h.trans hext⟩
  · have htrans := h.trans hext
    rw [← h.split] at htrans
    exact .inr ⟨rfl, _, _, htrans, fun n => Or.imp_right (hsub n), n, .inr hS, hnone⟩

theorem MapEnds.congr (h : MapEnds d S m l own r m') (hS : ∀ n, S' n ↔ S n) : MapEnds d S' m l own r m' := by
  obtain rfl : S' = S := funext fun n => propext (hS n)
  exact h

theorem mapLoop_kernel (hperm : perm = 0 ∨ perm = pteW) (count : Nat) (h : Owned m l own) (hd : own d = some .directory) (hkernel : userPages ≤ n) (hle : n + count ≤ 2 ^ 20)
    (ha : 0 < count → a = n * pgsize) (hpa : pa % pgsize = 0)
    (habsent : ∀ k, n ≤ k → k < n + count → ¬Present (pteAt m.word d k)) :
    Ends (mapLoop d perm count a pa) m (MapEnds d (fun k => n ≤ k ∧ k < n + count) m l own)
      fun _ _ => False := by
  induction count generalizing n a pa m l own with
  | zero =>
    refine .pure (.inl ⟨rfl, [], l, own, (Extended.refl h hd).congr fun k => ?_⟩)
    exact iff_of_false (by omega) id
  | succ count ih =>
    rw [ha (Nat.succ_pos count)]
    have hn : n / nptentries < npdentries := page_lt (by omega)
    apply mapLoop_step h hd hn
    · rintro rfl hnone
      exact .inr ⟨rfl, _, own, .refl h hd, fun _ hf => hf.elim, n, ⟨Nat.le_refl n, by omega⟩, hnone⟩
    · intro m' hpresent
      exact habsent n (Nat.le_refl n) (by omega) hpresent
    · intro t pages m₁ l₁ own₁ hwalked _
      have hone := hwalked.extended hkernel hpa hperm
      refine (ih (n := n + 1) hone.owned hone.live (by omega) (by omega) ?_ ?_ ?_).post ?_
      · intro hpos
        simp only [pgsize]
        omega
      · simp only [pgsize] at hpa ⊢
        omega
      · intro k hlo hhi
        rw [hone.outside k (page_lt (by omega)) (by omega)]
        exact habsent k (by omega) (by omega)
      · intro r m₂ hends
        exact (hends.after hone).congr fun k => by omega

theorem mappages_kernel (count pa : Nat) (hperm : perm = 0 ∨ perm = pteW) (h : Owned m l own)
    (hd : own d = some .directory) (hkernel : userPages ≤ n) (hpos : 0 < count) (hle : n + count ≤ 2 ^ 20)
    (hpa : pa % pgsize = 0) (habsent : ∀ k, n ≤ k → k < n + count → ¬Present (pteAt m.word d k)) :
    Ends (mappages d (n * pgsize) (count * pgsize) pa perm) m
      (MapEnds d (fun k => n ≤ k ∧ k < n + count) m l own) fun _ _ => False := by
  rw [mappages_range hpos hle]
  exact mapLoop_kernel hperm count h hd hkernel hle (fun _ => rfl) hpa habsent

end RainOS.Vm
