import RainOS.Vm.Fill

/-!
# Giving pages back

`deallocuvm` and `freevm`: which pages go back to the free list, and what is left of the directory.
-/

namespace RainOS.Vm

open Kalloc Function List

variable {m m' m'' : Memory} {l l' l'' : List Nat} {own own' own'' : Nat → Option Owner}
 {word : Nat → Nat} {p d i n t a v : Nat}

/-! ### deallocuvm -/

/-- Frames of pages from `lo` up to `hi` have been freed. -/
structure Dropped (d lo hi : Nat) (freed : List Nat) (m : Memory) (l : List Nat) (own : Nat → Option Owner)
    (m' : Memory) (l' : List Nat) (own' : Nat → Option Owner) : Prop where
  kernelEnd : m'.kernelEnd = m.kernelEnd
  ledger : m'.ledger = m.ledger
  owned : Owned m' l' own'
  split : l' = freed ++ l
  user : ∀ p ∈ freed, ∃ n, lo ≤ n ∧ n < hi ∧ own p = some (.user d n)
  mine : ∀ p ∈ freed, own' p = some .free
  other : ∀ p, p ∉ freed → own' p = own p
  entries : ∀ n, n / nptentries < npdentries →
    pteAt m'.word d n = pteAt m.word d n ∨ lo ≤ n ∧ n < hi ∧ pteAt m'.word d n = 0
  tables : ∀ i < npdentries, tableAt m'.word d i = tableAt m.word d i
  word : ∀ a, pgrounddown a ∉ freed → spaceOf own (pgrounddown a) ≠ some d → m'.word a = m.word a

variable {lo hi d' lo' hi' sz sz' : Nat} {freed freed' : List Nat}

theorem Dropped.refl (h : Owned m l own) (d lo hi : Nat) : Dropped d lo hi [] m l own m l own :=
  ⟨rfl, rfl, h, rfl, fun _ hp => (nomatch hp), fun _ hp => (nomatch hp), fun _ _ => rfl,
    fun _ _ => .inl rfl, fun _ _ => rfl, fun _ _ _ => rfl⟩

theorem Dropped.live (h : Dropped d lo hi freed m l own m' l' own') (hd : own d' = some .directory) :
    own' d' = some .directory := by
  rw [h.other d' fun hin => ?_, hd]
  obtain ⟨n, -, -, hp⟩ := h.user d' hin
  rw [hd] at hp
  cases hp

theorem Dropped.trans (h : Dropped d lo hi freed m l own m' l' own')
    (h' : Dropped d lo' hi' freed' m' l' own' m'' l'' own'') (hlo : lo ≤ lo') (hhi : hi ≤ hi') :
    Dropped d lo hi' (freed' ++ freed) m l own m'' l'' own'' where
  kernelEnd := h'.kernelEnd.trans h.kernelEnd
  ledger := h'.ledger.trans h.ledger
  owned := h'.owned
  split := by rw [h'.split, h.split, append_assoc]
  user p hp := by
    by_cases hfreed : p ∈ freed
    · obtain ⟨n, hn, hn', hown⟩ := h.user p hfreed
      exact ⟨n, hn, by omega, hown⟩
    · obtain ⟨n, hn, hn', hown⟩ := h'.user p ((mem_append.mp hp).resolve_right hfreed)
      rw [h.other p hfreed] at hown
      exact ⟨n, by omega, hn', hown⟩
  mine p hp := by
    by_cases hfreed : p ∈ freed'
    · exact h'.mine p hfreed
    · rw [h'.other p hfreed]
      exact h.mine p ((mem_append.mp hp).resolve_left hfreed)
  other p hp := by
    rw [mem_append, not_or] at hp
    rw [h'.other p hp.1, h.other p hp.2]
  entries n hn := by
    obtain heq | ⟨hn₁, hn₂, hzero⟩ := h'.entries n hn
    · rw [heq]
      exact (h.entries n hn).imp_right fun ⟨hn₁, hn₂, hzero⟩ => ⟨hn₁, by omega, hzero⟩
    · exact .inr ⟨by omega, hn₂, hzero⟩
  tables i hi := by rw [h'.tables i hi, h.tables i hi]
  word a ha hspace := by
    rw [mem_append, not_or] at ha
    rw [h'.word a ha.1, h.word a ha.2 hspace]
    rwa [spaceOf_eq (h.other _ ha.2)]

def dropped (m : Memory) (p a : Nat) : Memory :=
  { putFree m p with word := update (putFree m p).word a 0 }

theorem dropped_eq (hp : p % pgsize = 0) (ha : pgrounddown a ≠ p) :
    dropped m p a = putFree { m with word := update m.word a 0 } p := by
  have hself : a ≠ p := fun heq => ha (by rw [heq, pgrounddown_self hp])
  have hword : update (update (fillPage m.word p) p m.freelist) a 0 =
      update (fillPage (update m.word a 0) p) p m.freelist := by
    funext x
    by_cases hx : x = a
    · rw [hx, update_self, update_of_ne hself, fillPage, if_neg fun hin => ha ((in_page_iff hp).mp hin),
        update_self]
    · rw [update_of_ne hx]
      by_cases hxp : x = p
      · rw [hxp, update_self, update_self]
      · rw [update_of_ne hxp, update_of_ne hxp, fillPage, fillPage, update_of_ne hx]
  rw [dropped, putFree, putFree, hword]

theorem Owned.dropped (h : Owned m l own) (ht : own t = some (.table d (n / nptentries)))
    (hp : own p = some (.user d n)) :
    Dropped d n (n + 1) [p] m l own (dropped m p (t + 4 * (n % nptentries))) (p :: l)
      (update own p (some .free)) ∧ pteAt (dropped m p (t + 4 * (n % nptentries))).word d n = 0 := by
  have hj := mod_lt n
  have hnumber := pageAt_div_mod n
  obtain ⟨hd, hn, htable⟩ := (h.isTable t d _).mp ht
  have hpage := h.page p _ hp
  have htp : t ≠ p := fun heq => by
    rw [heq, hp] at ht
    cases ht
  have hdp : d ≠ p := fun heq => by
    rw [heq, hp] at hd
    cases hd
  have haddr := pgrounddown_word (h.table_aligned ht) hj
  have hdrop := h.dropFrame ht hj (p := p) (by rwa [hnumber])
  have hgive := hdrop.give (update_self p none own) hpage
  rw [update_idem, ← dropped_eq hpage.aligned (by rwa [haddr])] at hgive
  have hword : ∀ a, pgrounddown a ≠ p → a ≠ t + 4 * (n % nptentries) →
      (Vm.dropped m p (t + 4 * (n % nptentries))).word a = m.word a := by
    intro a ha hne
    change update (putFree m p).word _ _ a = _
    rw [update_of_ne hne, putFree_of_ne hpage.aligned ha]
  have hd' : update own p none d = some .directory := by rwa [update_of_ne hdp]
  have hsame : ∀ a, pgrounddown a ≠ p → (Vm.dropped m p (t + 4 * (n % nptentries))).word a =
      update m.word (t + 4 * (n % nptentries)) 0 a := by
    intro a ha
    rw [dropped_eq hpage.aligned (by rwa [haddr]), putFree_of_ne hpage.aligned ha]
  have hkeep : ∀ k, k / nptentries < npdentries →
      pteAt (Vm.dropped m p (t + 4 * (n % nptentries))).word d k =
        pteAt (update m.word (t + 4 * (n % nptentries)) 0) d k := by
    intro k hk
    apply hdrop.pteAt_congr hd' hk
    · intro a ha
      exact hsame a (ha ▸ hdp)
    · intro t' ht' a ha
      apply hsame
      rintro rfl
      rw [ha, update_self] at ht'
      cases ht'
  have hself : pteAt (Vm.dropped m p (t + 4 * (n % nptentries))).word d n = 0 := by
    rw [hkeep n hn, (h.tables hd).pteAt_setEntry hn htable hn, if_pos rfl]
  refine ⟨⟨rfl, rfl, hgive, rfl, ?_, ?_, ?_, ?_, ?_, ?_⟩, hself⟩
  · intro p' hp'
    rw [mem_singleton.mp hp']
    exact ⟨n, Nat.le_refl n, Nat.lt_succ_self n, hp⟩
  · intro p' hp'
    rw [mem_singleton.mp hp', update_self]
  · intro p' hp'
    exact update_of_ne (fun heq => hp' (mem_singleton.mpr heq)) _ _
  · intro k hk
    by_cases hkn : k = n
    · rw [hkn]
      exact .inr ⟨Nat.le_refl n, Nat.lt_succ_self n, hself⟩
    · left
      rw [hkeep k hk, (h.tables hd).pteAt_setEntry hn htable hk, if_neg hkn]
  · intro i hi
    have hkeep : tableAt (Vm.dropped m p (t + 4 * (n % nptentries))).word d i =
        tableAt (update m.word (t + 4 * (n % nptentries)) 0) d i :=
      hdrop.tableAt_congr hd' hi fun a ha => hsame a (ha ▸ hdp)
    rw [hkeep, h.tableAt_setPte ht hj hd hi]
  · intro a ha hspace
    apply hword a fun heq => ha (mem_singleton.mpr heq)
    rintro rfl
    rw [haddr, spaceOf_of_own ht] at hspace
    exact hspace rfl

def npages (sz : Nat) : Nat := (sz + pgsize - 1) / pgsize

theorem npages_le (h : sz ≤ kernbase) : npages sz ≤ userPages := by
  change npages sz ≤ 524288
  simp only [npages, pgsize, kernbase] at h ⊢
  omega

theorem npages_mono (h : sz ≤ sz') : npages sz ≤ npages sz' :=
  Nat.div_le_div_right (Nat.sub_le_sub_right (Nat.add_le_add_right h pgsize) 1)

/-- A walk over tables from page `n` on meets the start of every one. -/
def Anchored (word : Nat → Nat) (d n : Nat) : Prop :=
  n % nptentries = 0 ∨ tableAt word d (n / nptentries) ≠ none

theorem Anchored.succ (h : tableAt word d (n / nptentries) ≠ none) : Anchored word d (n + 1) := by
  by_cases hn : (n + 1) % nptentries = 0
  · exact .inl hn
  · right
    change (n + 1) % 1024 ≠ 0 at hn
    have hsame : (n + 1) / nptentries = n / nptentries := by
      have heq : (n + 1) / 1024 = n / 1024 := by omega
      exact heq
    rwa [hsame]

theorem Owned.pteAddr_ne_zero (h : Owned m l own) (hend : kernbase < m.kernelEnd)
    (hp : own (p2v (pteAddr v)) = some (.user d n)) : pteAddr v ≠ 0 := by
  intro hzero
  have hle := (h.page _ _ hp).1.2.1
  rw [hzero] at hle
  have hbase : p2v 0 = kernbase := rfl
  omega

/-- What the loop of `deallocuvm` does to the pages from `n` up to `hi`. -/
def DropEnds (d n hi : Nat) (m : Memory) (l : List Nat) (own : Nat → Option Owner) (m' : Memory) : Prop :=
  ∃ freed l' own', Dropped d n hi freed m l own m' l' own' ∧
    (Anchored m.word d n → ∀ k, n ≤ k → k < hi → ¬Present (pteAt m'.word d k))

theorem DropEnds.jump (h : Owned m l own) (hn : n / nptentries < npdentries)
    (ht : tableAt m.word d (n / nptentries) = none) (hends : DropEnds d (n + nptentries) hi m l own m') :
    DropEnds d n hi m l own m' := by
  obtain ⟨freed, l', own', hdropped, hclear⟩ := hends
  refine ⟨_, l', own', (Dropped.refl h d n 0).trans hdropped (Nat.le_add_right _ _) (Nat.zero_le _),
    fun hanchor k hlo hhi => ?_⟩
  have hmod : n % 1024 = 0 := hanchor.resolve_right fun hne => hne ht
  by_cases hk : k < n + 1024
  · have hsame : k / nptentries = n / nptentries := by
      have heq : k / 1024 = n / 1024 := by omega
      exact heq
    rw [pteAt_of_none (by rw [hsame, hdropped.tables _ hn, ht])]
    decide
  · have hnext : (n + nptentries) % nptentries = 0 := by
      have heq : (n + 1024) % 1024 = 0 := by omega
      exact heq
    exact hclear (.inl hnext) k (Nat.le_of_not_lt hk) hhi

theorem DropEnds.skip (h : Owned m l own) (hn : n / nptentries < npdentries)
    (ht : tableAt m.word d (n / nptentries) ≠ none) (habsent : ¬Present (pteAt m.word d n))
    (hends : DropEnds d (n + 1) hi m l own m') : DropEnds d n hi m l own m' := by
  obtain ⟨freed, l', own', hdropped, hclear⟩ := hends
  refine ⟨_, l', own', (Dropped.refl h d n 0).trans hdropped (Nat.le_succ n) (Nat.zero_le _),
    fun _ k hlo hhi => ?_⟩
  by_cases hk : k = n
  · obtain heq | ⟨hgt, -⟩ := hdropped.entries n hn
    · rwa [hk, heq]
    · omega
  · exact hclear (.succ ht) k (by omega) hhi

theorem DropEnds.drop (hone : Dropped d n (n + 1) freed m l own m' l' own')
    (hzero : pteAt m'.word d n = 0) (hn : n < userPages) (hin : n < hi)
    (ht : tableAt m.word d (n / nptentries) ≠ none) (hends : DropEnds d (n + 1) hi m' l' own' m'') :
    DropEnds d n hi m l own m'' := by
  obtain ⟨freed', l'', own'', hdropped, hclear⟩ := hends
  refine ⟨_, l'', own'', hone.trans hdropped (Nat.le_succ n) hin, fun _ k hlo hhi => ?_⟩
  by_cases hk : k = n
  · obtain heq | ⟨hgt, -⟩ := hdropped.entries n (div_lt hn)
    · rw [hk, heq, hzero]
      decide
    · omega
  · rw [← hone.tables _ (div_lt hn)] at ht
    exact hclear (.succ ht) k (by omega) hhi

section Rounds

variable {oldsz fuel : Nat}

theorem deallocLoop_done (h : npages oldsz ≤ n) : deallocLoop d oldsz (fuel + 1) (n * pgsize) m = .ok () m := by
  have hge : ¬n * pgsize < oldsz := by
    simp only [npages, pgsize] at h ⊢
    omega
  unfold deallocLoop
  rw [if_neg hge]
  rfl

theorem deallocLoop_jump (hin : n < npages oldsz) (huser : n < userPages)
    (ht : tableAt m.word d (n / nptentries) = none) :
    deallocLoop d oldsz (fuel + 1) (n * pgsize) m = deallocLoop d oldsz fuel ((n + nptentries) * pgsize) m := by
  have hlt : n * pgsize < oldsz := by
    simp only [npages, pgsize] at hin ⊢
    omega
  have hfar : (n * pgsize + (nptentries - 1) * pgsize + pgsize) % 2 ^ 32 = (n + nptentries) * pgsize := by
    have heq : (n * 4096 + (1024 - 1) * 4096 + 4096) % 2 ^ 32 = (n + 1024) * 4096 := by
      change n < 524288 at huser
      omega
    exact heq
  conv_lhs => unfold deallocLoop
  rw [if_pos hlt, bind_ok _ (walkpgdir_missing (by rw [pdx_page (div_lt huser), ht])), if_pos rfl, hfar]

section

variable (hin : n < npages oldsz) (huser : n < userPages) (ht : tableAt m.word d (n / nptentries) = some t)
  (hne : t + 4 * (n % nptentries) ≠ 0)
include hin huser ht hne

theorem deallocLoop_found :
    deallocLoop d oldsz (fuel + 1) (n * pgsize) m = (do
      if Present (pteAt m.word d n) then
        if pteAddr (pteAt m.word d n) = 0 then throw (.panic "kfree")
        kfree (p2v (pteAddr (pteAt m.word d n)))
        setWord (t + 4 * (n % nptentries)) 0
      deallocLoop d oldsz fuel ((n + 1) * pgsize) : M Unit) m := by
  have hlt : n * pgsize < oldsz := by
    simp only [npages, pgsize] at hin ⊢
    omega
  have hstep : (n * pgsize + pgsize) % 2 ^ 32 = (n + 1) * pgsize := by
    change n < 524288 at huser
    simp only [pgsize]
    omega
  have hword : m.word (t + 4 * (n % nptentries)) = pteAt m.word d n := (pteAt_of_some ht).symm
  have hrun := walkpgdir_found false (n * pgsize) (by rw [pdx_page (div_lt huser), ht])
  rw [ptx_page] at hrun
  conv_lhs => unfold deallocLoop
  rw [if_pos hlt, bind_ok _ hrun, if_neg hne, bind_ok _ (get_run m), hword, hstep]

theorem deallocLoop_skip (habsent : ¬Present (pteAt m.word d n)) :
    deallocLoop d oldsz (fuel + 1) (n * pgsize) m = deallocLoop d oldsz fuel ((n + 1) * pgsize) m := by
  rw [deallocLoop_found hin huser ht hne, if_neg habsent]

theorem deallocLoop_drop (hpresent : Present (pteAt m.word d n)) (haddr : pteAddr (pteAt m.word d n) ≠ 0) :
    deallocLoop d oldsz (fuel + 1) (n * pgsize) m = (do
      kfree (p2v (pteAddr (pteAt m.word d n)))
      setWord (t + 4 * (n % nptentries)) 0
      deallocLoop d oldsz fuel ((n + 1) * pgsize) : M Unit) m := by
  rw [deallocLoop_found hin huser ht hne, if_pos hpresent, if_neg haddr]

end

end Rounds

theorem deallocLoop_spec {oldsz : Nat} (holdsz : oldsz ≤ kernbase) (fuel : Nat) (hpos : 0 < fuel)
    (hfuel : npages oldsz < n + fuel) (hn : n ≤ userPages + nptentries) (h : Owned m l own)
    (hd : own d = some .directory) (hend : kernbase < m.kernelEnd) :
    Ends (deallocLoop d oldsz fuel (n * pgsize)) m (fun _ => DropEnds d n (npages oldsz) m l own)
      fun _ _ => False := by
  induction fuel generalizing n m l own with
  | zero => cases hpos
  | succ fuel ih =>
    by_cases hin : n < npages oldsz
    · have huser : n < userPages := Nat.lt_of_lt_of_le hin (npages_le holdsz)
      have hnext : n + 1 ≤ userPages + nptentries := Nat.add_le_add (Nat.le_of_lt huser) (by decide)
      cases ht : tableAt m.word d (n / nptentries) with
      | none =>
        refine .congr (deallocLoop_jump hin huser ht) ?_
        refine (ih (by omega) (Nat.lt_of_lt_of_le (m := n + 1 + fuel) (by omega) ?_) ?_ h hd hend).mono
          (fun _ m' hends => hends.jump h (div_lt huser) ht) fun _ _ hf => hf
        · exact Nat.add_le_add_right (Nat.add_le_add_left (by decide) n) fuel
        · exact Nat.add_le_add_right (Nat.le_of_lt huser) nptentries
      | some t =>
        have hsome : tableAt m.word d (n / nptentries) ≠ none := by
          rw [ht]
          exact nofun
        have hown := h.own_table hd (div_lt huser) ht
        have hne := h.table_ne_zero hown (4 * (n % nptentries))
        by_cases hpresent : Present (pteAt m.word d n)
        · have hframe : own (p2v (pteAddr (pteAt m.word d n))) = some (.user d n) :=
            h.own_frame hd huser (decode_eq_some.mpr ⟨hpresent, rfl⟩)
          obtain ⟨hone, hzero⟩ := h.dropped hown hframe
          refine .congr (deallocLoop_drop hin huser ht hne hpresent (h.pteAddr_ne_zero hend hframe)) ?_
          refine .after_ok (kfree_run (h.page _ _ hframe).1) (.after_ok rfl ?_)
          exact (ih (by omega) (by omega) hnext hone.owned (hone.live hd) hend).mono
            (fun _ m' hends => hends.drop hone hzero huser hin hsome) fun _ _ hf => hf
        · refine .congr (deallocLoop_skip hin huser ht hne hpresent) ?_
          exact (ih (by omega) (by omega) hnext h hd hend).mono
            (fun _ m' hends => hends.skip h (div_lt huser) hsome hpresent) fun _ _ hf => hf
    · refine .of_run_ok (deallocLoop_done (Nat.le_of_not_lt hin)) ?_
      exact ⟨[], l, own, .refl h d n _, fun _ k hlo hhi => by omega⟩

theorem pgroundup_eq (h : sz ≤ kernbase) : pgroundup sz = npages sz * pgsize := by
  simp only [pgroundup, npages, pgsize, kernbase] at h ⊢
  omega

theorem deallocuvm_spec {oldsz : Nat} (newsz : Nat) (holdsz : oldsz ≤ kernbase) (h : Owned m l own)
    (hd : own d = some .directory) (hend : kernbase < m.kernelEnd) :
    Ends (deallocuvm d oldsz newsz) m
      (fun r m' => r = (if newsz ≥ oldsz then oldsz else newsz) ∧
        DropEnds d (npages newsz) (npages oldsz) m l own m')
      fun _ _ => False := by
  unfold deallocuvm
  by_cases hle : newsz ≥ oldsz
  · rw [if_pos hle]
    refine .pure ⟨(if_pos hle).symm, [], l, own, .refl h d _ _, fun _ k hlo hhi => ?_⟩
    have hmono := npages_mono hle
    omega
  · rw [if_neg hle, pgroundup_eq (by omega)]
    have hlt : npages newsz ≤ npages oldsz := npages_mono (by omega)
    have hmax : npages oldsz ≤ 524288 := npages_le holdsz
    refine .bind (deallocLoop_spec holdsz (2 ^ 20 + 1) (by decide) (by omega) ?_ h hd hend)
      fun _ m' hends => ?_
    · change npages newsz ≤ 524288 + 1024
      omega
    · exact .pure ⟨(if_neg hle).symm, hends⟩

/-! ### freevm -/

/-- The owners after everything a directory owns has gone back to the free list. -/
def release (own : Nat → Option Owner) (d p : Nat) : Option Owner :=
  if spaceOf own p = some d then some .free else own p

theorem forget_of_own {o : Owner} (h : own p = some o) (ho : o.space p = some d) : forget own d p = none := by
  rw [forget, spaceOf_of_own h, if_pos ho]

theorem spaceOf_eq_some : spaceOf own p = some d ↔
    p = d ∧ own p = some .directory ∨ (∃ i, own p = some (.table d i)) ∨ ∃ n, own p = some (.user d n) := by
  unfold spaceOf
  cases own p with
  | none => simp
  | some o => cases o <;> simp [Owner.space]

/-- The tables of the first `i` entries have been freed. -/
structure TablesFreed (d : Nat) (m : Memory) (own : Nat → Option Owner) (i : Nat) (m' : Memory) : Prop where
  kernelEnd : m'.kernelEnd = m.kernelEnd
  ledger : m'.ledger = m.ledger
  word : ∀ a, (∀ j, own (pgrounddown a) ≠ some (.table d j)) → m'.word a = m.word a
  owned : ∃ l' own', Owned m' l' own' ∧ (∀ p, (∃ j < i, own p = some (.table d j)) → own' p = some .free) ∧
    ∀ p, (¬∃ j < i, own p = some (.table d j)) → own' p = forget own d p

theorem TablesFreed.step (hbefore : Owned m l own) (hd : own d = some .directory) (hi : i < npdentries)
    (h : TablesFreed d m own i m') :
    Ends (do
      let m ← get
      if Present (m.word (d + 4 * i)) then kfree (p2v (pteAddr (m.word (d + 4 * i)))) : M Unit) m'
      (fun _ => TablesFreed d m own (i + 1)) fun _ _ => False := by
  obtain ⟨l', own', howned, hmine, hother⟩ := h.owned
  have hself : m'.word (d + 4 * i) = m.word (d + 4 * i) := by
    apply h.word
    intro j
    rw [pgrounddown_word (hbefore.directory_aligned hd) hi, hd]
    exact nofun
  refine .after_ok (get_run m') ?_
  rw [hself]
  by_cases hpresent : Present (m.word (d + 4 * i))
  · have ht : own (p2v (pteAddr (m.word (d + 4 * i)))) = some (.table d i) :=
      hbefore.own_table hd hi (decode_eq_some.mpr ⟨hpresent, rfl⟩)
    generalize p2v (pteAddr (m.word (d + 4 * i))) = t at ht
    have hpage : Page m'.kernelEnd t := by
      rw [h.kernelEnd]
      exact hbefore.page t _ ht
    have hnone : own' t = none := by
      rw [hother t fun ⟨j, hj, hown⟩ => ?_, forget_of_own ht rfl]
      rw [ht] at hown
      cases hown
      exact Nat.lt_irrefl _ hj
    rw [if_pos hpresent]
    refine .of_run_ok (kfree_run hpage.1) ⟨h.kernelEnd, h.ledger, ?_, _, _, howned.give hnone hpage, ?_, ?_⟩
    · intro a ha
      rw [putFree_of_ne hpage.aligned fun heq => ha i (by rw [heq, ht]), h.word a ha]
    · rintro p ⟨j, hj, hp⟩
      by_cases hpt : p = t
      · rw [hpt, update_self]
      · rw [update_of_ne hpt]
        refine hmine p ⟨j, Nat.lt_of_le_of_ne (Nat.le_of_lt_succ hj) fun heq => hpt ?_, hp⟩
        rw [heq, hbefore.isTable] at hp
        rw [hbefore.isTable] at ht
        exact Option.some.inj (hp.2.2.symm.trans ht.2.2)
    · intro p hp
      have hpt : p ≠ t := fun heq => hp ⟨i, Nat.lt_succ_self i, by rw [heq, ht]⟩
      rw [update_of_ne hpt]
      exact hother p fun ⟨j, hj, hown⟩ => hp ⟨j, Nat.lt_succ_of_lt hj, hown⟩
  · rw [if_neg hpresent]
    have hsame : ∀ p, (∃ j < i + 1, own p = some (.table d j)) ↔ ∃ j < i, own p = some (.table d j) := by
      intro p
      refine ⟨fun ⟨j, hj, hp⟩ => ⟨j, Nat.lt_of_le_of_ne (Nat.le_of_lt_succ hj) fun heq => ?_, hp⟩,
        fun ⟨j, hj, hp⟩ => ⟨j, Nat.lt_succ_of_lt hj, hp⟩⟩
      rw [heq, hbefore.isTable] at hp
      exact hpresent (decode_eq_some.mp hp.2.2).1
    refine .pure ⟨h.kernelEnd, h.ledger, h.word, l', own', howned, fun p hp => ?_, fun p hp => ?_⟩
    · exact hmine p ((hsame p).mp hp)
    · exact hother p (mt (hsame p).mpr hp)

theorem freevm_spec (h : Owned m l own) (hd : own d = some .directory) (hend : kernbase < m.kernelEnd) :
    Ends (freevm d) m (fun _ m' => (∃ l', Owned m' l' (release own d)) ∧ m'.kernelEnd = m.kernelEnd ∧
      m'.ledger = m.ledger ∧ ∀ a, spaceOf own (pgrounddown a) ≠ some d → m'.word a = m.word a)
      fun _ _ => False := by
  have hd0 : d ≠ 0 := (h.page d _ hd).1.pos
  unfold freevm
  rw [if_neg hd0]
  refine (deallocuvm_spec 0 (Nat.le_refl kernbase) h hd hend).bind fun _ m₁ hends => ?_
  obtain ⟨-, freed, l₁, own₁, hdropped, hclear⟩ := hends
  have hd₁ := hdropped.live hd
  have huser : ∀ p n, own₁ p ≠ some (.user d n) := by
    intro p n hp
    rw [hdropped.owned.isUser] at hp
    exact hclear (.inl rfl) n (Nat.zero_le n) hp.2.1 (decode_eq_some.mp hp.2.2).1
  have hstart : TablesFreed d m₁ own₁ 0 m₁ :=
    ⟨rfl, rfl, fun _ _ => rfl, l₁, _, hdropped.owned.forget d, fun _ ⟨j, hj, _⟩ => (nomatch hj), fun _ _ => rfl⟩
  refine .bind (.forM_range (TablesFreed d m₁ own₁) hstart ?_) fun _ m₂ hfreed => ?_
  · exact fun i hlt m₂ hm₂ => hm₂.step hdropped.owned hd₁ hlt
  · obtain ⟨l₂, own₂, howned, hmine, hother⟩ := hfreed.owned
    have hpage : Page m₂.kernelEnd d := by
      rw [hfreed.kernelEnd]
      exact hdropped.owned.page d _ hd₁
    have hnone : own₂ d = none := by
      rw [hother d fun ⟨j, _, hown⟩ => ?_, forget_of_own hd₁ rfl]
      rw [hd₁] at hown
      cases hown
    have hgive := howned.give hnone hpage
    have hspace : spaceOf own d = some d := spaceOf_of_own hd
    have hfreed' : ∀ p ∈ freed, ∃ n, own p = some (.user d n) := fun p hp => by
      obtain ⟨n, -, -, hown⟩ := hdropped.user p hp
      exact ⟨n, hown⟩
    have hkeep : ∀ p, spaceOf own p ≠ some d → own₁ p = own p := fun p hp =>
      hdropped.other p fun hin => hp (spaceOf_eq_some.mpr (.inr (.inr (hfreed' p hin))))
    have hnotTable : ∀ p j, spaceOf own p ≠ some d → own₁ p ≠ some (.table d j) := fun p j hp heq => by
      rw [hkeep p hp] at heq
      exact hp (spaceOf_of_own heq)
    have hown : update own₂ d (some .free) = release own d := by
      funext p
      by_cases hpd : p = d
      · rw [hpd, update_self, release, if_pos hspace]
      rw [update_of_ne hpd, release]
      split
      · rename_i hp
        obtain ⟨rfl, -⟩ | ⟨j, hj⟩ | ⟨n, hn⟩ := spaceOf_eq_some.mp hp
        · exact absurd rfl hpd
        · have htable : own₁ p = some (.table d j) := by
            rw [hdropped.other p fun hin => ?_, hj]
            obtain ⟨n, hn⟩ := hfreed' p hin
            rw [hj] at hn
            cases hn
          exact hmine p ⟨j, hdropped.owned.table_lt htable, htable⟩
        · have hin : p ∈ freed := by
            by_contra hnot
            exact huser p n (by rw [hdropped.other p hnot, hn])
          have hfree := hdropped.mine p hin
          rw [hother p fun ⟨j, _, htable⟩ => ?_]
          · exact forget_eq_some.mpr ⟨hfree, nofun⟩
          · rw [hfree] at htable
            cases htable
      · rename_i hp
        rw [hother p fun ⟨j, _, htable⟩ => hnotTable p j hp htable, forget, spaceOf_eq (hkeep p hp), if_neg hp,
          hkeep p hp]
    rw [hown] at hgive
    refine .of_run_ok (kfree_run hpage.1) ⟨⟨_, hgive⟩, hfreed.kernelEnd.trans hdropped.kernelEnd,
      hfreed.ledger.trans hdropped.ledger, fun a ha => ?_⟩
    rw [putFree_of_ne hpage.aligned fun heq => ha (heq ▸ hspace), hfreed.word a fun j => hnotTable _ j ha,
      hdropped.word a (fun hin => ha (spaceOf_eq_some.mpr (.inr (.inr (hfreed' _ hin))))) ha]

end RainOS.Vm
