import RainOS.Vm.Release

/-!
# Growing and copying address spaces

`allocuvm` and `copyuvm` as a whole: what each takes from the free list when it succeeds, and what it has
given back when it fails.
-/

namespace RainOS.Vm

open Kalloc Function List Option

variable {m m' m'' : Memory} {l l' l'' pages pages' : List Nat} {own own' own'' : Nat → Option Owner}
  {word F : Nat → Nat} {p q d i n t a b v pgdir x count sz k : Nat}

/-! ### Other address spaces -/

theorem Owned.free_of_split (h : Owned m l own) (hsplit : l = pages ++ l') (hp : p ∈ pages) :
    own p = some .free := by
  rw [h.isFree, hsplit]
  exact mem_append_left _ hp

theorem Grew.kept (h : Grew d pages m own m' own') (hfree : ∀ p ∈ pages, own p = some .free) {o : Owner}
    (hp : own p = some o) (ho : o ≠ .free) (hspace : o.space p ≠ some d) :
    own' p = some o ∧ ∀ a, pgrounddown a = p → m'.word a = m.word a := by
  have hnot : p ∉ pages := fun hin => by
    rw [hfree p hin] at hp
    exact ho (some.inj hp).symm
  refine ⟨by rw [h.other p hnot, hp], fun a ha => h.word a (ha ▸ hnot) ?_⟩
  rw [ha, spaceOf_of_own hp]
  exact hspace

theorem Grew.pteAt_other (h : Grew d pages m own m' own') (hbefore : Owned m l own)
    (hfree : ∀ p ∈ pages, own p = some .free) (hlive : own pgdir = some .directory) (hne : pgdir ≠ d)
    (hn : n / nptentries < npdentries) : pteAt m'.word pgdir n = pteAt m.word pgdir n := by
  apply hbefore.pteAt_congr hlive hn
  · exact (h.kept hfree hlive nofun fun heq => hne (some.inj heq)).2
  · intro t ht
    exact (h.kept hfree ht nofun fun heq => hne (some.inj heq)).2

/-! ### allocuvm -/

/-- How `allocuvm` ends. When a page for a table is missing it loses the page it has just taken, and if that
was the last one it does not notice. -/
inductive AllocuvmEnds (d oldsz newsz : Nat) (m : Memory) (l : List Nat) (own : Nat → Option Owner) :
    Nat → Memory → Prop
  | refused (hbig : kernbase ≤ newsz) : AllocuvmEnds d oldsz newsz m l own 0 m
  | kept (hsmall : newsz < kernbase) (hlt : newsz < oldsz) : AllocuvmEnds d oldsz newsz m l own oldsz m
  | grown (pages l' : List Nat) (m' : Memory) (own' : Nat → Option Owner) (hsmall : newsz < kernbase)
      (hle : oldsz ≤ newsz)
      (hfilled : Filled userFlags d (npages oldsz) (npages newsz - npages oldsz) pages m l own m' l' own')
      (hlen : pages.length =
        (requests (hasTable m.word d) (npages oldsz) (npages newsz - npages oldsz)).length) :
      AllocuvmEnds d oldsz newsz m l own newsz m'
  | short (k q : Nat) (pages : List Nat) (m₁ m' : Memory) (own₁ : Nat → Option Owner)
      (hsmall : newsz < kernbase) (hle : oldsz ≤ newsz) (hlast : npages oldsz + k + 1 = npages newsz)
      (hfilled : Filled userFlags d (npages oldsz) k pages m l own m₁ [q] own₁)
      (hmissing : tableAt m₁.word d ((npages oldsz + k) / nptentries) = none) (htook : Took q m₁ [q] own₁ m' [])
      (hreq : (requests (hasTable m.word d) (npages oldsz) (npages newsz - npages oldsz))[l.length]? =
        some .table)
      (hcount : (requests (hasTable m.word d) (npages oldsz) (npages newsz - npages oldsz)).length =
        l.length + 1) : AllocuvmEnds d oldsz newsz m l own newsz m'
  | failed (k : Nat) (m₁ m' : Memory) (own₁ : Nat → Option Owner) (hsmall : newsz < kernbase)
      (hle : oldsz ≤ newsz) (hk : npages oldsz + k < npages newsz)
      (hfilled : Filled userFlags d (npages oldsz) k l m l own m₁ [] own₁)
      (hreq : (requests (hasTable m.word d) (npages oldsz) (npages newsz - npages oldsz))[l.length]? =
        some .page)
      (hdrop : DropEnds d (npages oldsz) (npages newsz) m₁ [] own₁ m') : AllocuvmEnds d oldsz newsz m l own 0 m'
  | leaked (k q : Nat) (pages : List Nat) (m₁ m₂ m' : Memory) (own₁ : Nat → Option Owner)
      (hsmall : newsz < kernbase) (hle : oldsz ≤ newsz) (hk : npages oldsz + k < npages newsz)
      (hfilled : Filled userFlags d (npages oldsz) k pages m l own m₁ [q] own₁)
      (hmissing : tableAt m₁.word d ((npages oldsz + k) / nptentries) = none) (htook : Took q m₁ [q] own₁ m₂ [])
      (hreq : (requests (hasTable m.word d) (npages oldsz) (npages newsz - npages oldsz))[l.length]? =
        some .table)
      (hcount : (requests (hasTable m.word d) (npages oldsz) (npages newsz - npages oldsz)).length ≠
        l.length + 1)
      (hdrop : DropEnds d (npages oldsz) (npages newsz) m₂ [] (update own₁ q none) m') :
      AllocuvmEnds d oldsz newsz m l own 0 m'

theorem npages_sub (oldsz newsz : Nat) :
    (newsz - npages oldsz * pgsize + pgsize - 1) / pgsize = npages newsz - npages oldsz := by
  simp only [npages, pgsize]
  omega

theorem Took.live (h : Took q m l own m' l') (hd : own d = some .directory) :
    update own q none d = some .directory := by
  rwa [update_of_ne (h.ne hd nofun)]

theorem allocuvm_spec (oldsz newsz : Nat) (h : Owned m l own) (hd : own d = some .directory)
    (hend : kernbase < m.kernelEnd) :
    Ends (allocuvm d oldsz newsz) m (AllocuvmEnds d oldsz newsz m l own) fun e _ => e = .panic "remap" ∧
      ∃ k < userPages, npages oldsz ≤ k ∧ k < npages newsz ∧ Present (pteAt m.word d k) := by
  unfold allocuvm
  refine .ite (fun hbig => .pure (.refused hbig)) fun hbig => ?_
  have hsmall := Nat.lt_of_not_le hbig
  refine .ite (fun hlt => .pure (.kept hsmall hlt)) fun hlt => ?_
  have hle := Nat.le_of_not_lt hlt
  have hmono := npages_mono hle
  have hmax := npages_le (Nat.le_of_lt hsmall)
  have hround := pgroundup_eq (Nat.le_trans hle (Nat.le_of_lt hsmall))
  rw [hround, npages_sub]
  refine .bind ((allocLoop_spec _ h hd (by omega)).stop fun _ _ he => ?_) fun r m₁ hr => ?_
  · obtain ⟨heq, k, hlo, hhi, hpresent⟩ := he
    exact ⟨heq, k, by omega, hlo, by omega, hpresent⟩
  · cases hr with
    | done pages l₁ _ own₁ hfilled hlen =>
      rw [if_pos rfl]
      exact .pure (.grown pages l₁ m₁ own₁ hsmall hle hfilled hlen)
    | full k _ own₁ hk hfilled hreq =>
      have hdrop := deallocuvm_spec oldsz (Nat.le_of_lt hsmall) hfilled.owned hfilled.live
        (by rwa [hfilled.grew.kernelEnd])
      rw [if_neg Bool.false_ne_true]
      refine hdrop.returns.bind fun _ m₂ hends => ?_
      exact .pure (.failed k m₁ m₂ own₁ hsmall hle (by omega) hfilled hreq hends.2)
    | lost k q pages m₂ _ own₂ hk hfilled hmissing htook hreq hcount =>
      by_cases hlast : k + 1 = npages newsz - npages oldsz
      · rw [decide_eq_true hlast, if_pos rfl]
        exact .pure (.short k q pages m₂ m₁ own₂ hsmall hle (by omega) hfilled hmissing htook hreq
          (hcount.mpr hlast))
      · have hdrop := deallocuvm_spec oldsz (Nat.le_of_lt hsmall) htook.owned (htook.live hfilled.live)
          (by rwa [htook.kernelEnd, hfilled.grew.kernelEnd])
        rw [decide_eq_false hlast, if_neg Bool.false_ne_true]
        refine hdrop.returns.bind fun _ m₃ hends => ?_
        exact .pure (.leaked k q pages m₂ m₁ m₃ own₂ hsmall hle (by omega) hfilled hmissing htook hreq
          (mt hcount.mp hlast) hends.2)

/-! ### copyuvm -/

/-- The memory after the first free page has become a copy of another page. -/
def withCopy (m : Memory) (q src : Nat) : Memory :=
  { m with freelist := m.word q, word := copyPage m.word q src }

theorem copyPage_of_ne (hq : q % pgsize = 0) (ha : pgrounddown a ≠ q) : copyPage word q b a = word a :=
  if_neg fun hin => ha ((in_page_iff hq).mp hin)

theorem copyPage_of_eq (hx : x < pgsize) : copyPage word q b (q + x) = word (b + x) := by
  rw [copyPage, if_pos ⟨Nat.le_add_right q x, Nat.add_lt_add_left hx q⟩, Nat.add_sub_cancel_left]

theorem copy_run (m : Memory) (q src : Nat) :
    (modify fun m' => { m' with word := copyPage m'.word q src } : M Unit) { m with freelist := m.word q } =
      .ok () (withCopy m q src) := rfl

theorem Owned.took_copy (h : Owned m (q :: l) own) (src : Nat) : Took q m (q :: l) own (withCopy m q src) l := by
  have hother : ∀ a, pgrounddown a ≠ q → copyPage m.word q src a = m.word a := fun a ha =>
    copyPage_of_ne h.head_page.aligned ha
  refine ⟨rfl, rfl, rfl, h, h.take.scribble _ fun a o ho _ => hother a fun heq => ?_, hother⟩
  rw [heq, update_self] at ho
  cases ho

inductive CopyEnds (F : Nat → Nat) (d n count : Nat) (m : Memory) (l : List Nat) (own : Nat → Option Owner) :
    Bool → Memory → Prop
  | done (pages l' : List Nat) (m' : Memory) (own' : Nat → Option Owner) (hle : n + count ≤ userPages)
      (hfilled : Filled F d n count pages m l own m' l' own')
      (hlen : pages.length = (requests (hasTable m.word d) n count).length) : CopyEnds F d n count m l own true m'
  | full (k : Nat) (m' : Memory) (own' : Nat → Option Owner) (hk : k < count) (hle : n + k ≤ userPages)
      (hfilled : Filled F d n k l m l own m' [] own')
      (hreq : (requests (hasTable m.word d) n count)[l.length]? = some .page) : CopyEnds F d n count m l own false m'
  | lost (k q : Nat) (pages : List Nat) (m₁ m' : Memory) (own₁ : Nat → Option Owner) (hk : k < count)
      (hle : n + k < userPages) (hfilled : Filled F d n k pages m l own m₁ [q] own₁)
      (hmissing : tableAt m₁.word d ((n + k) / nptentries) = none) (htook : Took q m₁ [q] own₁ m' [])
      (hreq : (requests (hasTable m.word d) n count)[l.length]? = some .table) : CopyEnds F d n count m l own false m'

theorem CopyEnds.after {r : Bool}
    (h : OneFilled F d n pages m l own m' l' own') (h' : CopyEnds F d (n + 1) count m' l' own' r m'') :
    CopyEnds F d n (count + 1) m l own r m'' := by
  cases h' with
  | done pages' l'' _ own'' hle hfilled hlen =>
    have htrans := h.toFilled.trans hfilled hle
    rw [Nat.add_comm 1 count] at htrans
    exact .done _ _ _ _ (by omega) htrans (by rw [length_append, hlen, h.requests_length])
  | full k _ own'' hk hle hfilled hreq =>
    have htrans := h.toFilled.trans hfilled hle
    rw [Nat.add_comm 1 k, ← h.split] at htrans
    exact .full (k + 1) _ _ (by omega) (by omega) htrans (by rw [h.requests_get, hreq])
  | lost k q pages' m₁ _ own₁ hk hle hfilled hmissing htook hreq =>
    have htrans := h.toFilled.trans hfilled (by omega)
    rw [Nat.add_comm 1 k] at htrans
    refine .lost (k + 1) q _ m₁ _ own₁ (by omega) (by omega) htrans ?_ htook (by rw [h.requests_get, hreq])
    rwa [show n + (k + 1) = n + 1 + k by omega]

theorem mappages_present (h : Owned m l own) (hd : own d = some .directory) (hn : n / nptentries < npdentries)
    (hpresent : Present (pteAt m.word d n)) (pa perm : Nat) :
    Ends (mappages d (n * pgsize) pgsize pa perm) m (fun _ _ => False) fun e _ => e = .panic "remap" := by
  rw [mappages_page hn]
  apply mapLoop_step h hd hn
  · intro _ hnone
    rw [pteAt_of_none hnone] at hpresent
    exact absurd hpresent (by decide)
  · intro _ _
    rfl
  · intro t pages m' l' own' _ habsent
    exact absurd hpresent habsent

theorem pteFlags_lt (v : Nat) : pteFlags v < pgsize := Nat.mod_lt v (by decide)

theorem present_iff_flags : Present v ↔ pteFlags v % 2 = 1 := by
  simp only [Present, pteFlags, pgsize]
  omega

theorem or_pteP_of_present (h : Present v) : pteFlags v ||| pteP = pteFlags v := by
  have hodd := present_iff_flags.mp h
  obtain ⟨k, hk⟩ : ∃ k, pteFlags v = 2 ^ 1 * k + 1 := ⟨pteFlags v / 2, by omega⟩
  rw [hk, Nat.two_pow_add_eq_or_of_lt (by decide) k, pteP, Nat.or_assoc, Nat.or_self]

def sourceOf (word : Nat → Nat) (pgdir n : Nat) : Nat := p2v (pteAddr (pteAt word pgdir n))

theorem copyLoop_step (h : Owned m l own) (hd : own d = some .directory) (hpgdir : own pgdir = some .directory)
    (hkernel : Present (pteAt m.word d userPages)) (hn : n ≤ userPages) {Q : Bool → Memory → Prop}
    {E : Halt → Memory → Prop} (hbad : ∀ e m', ¬Present (pteAt m.word pgdir n) ∨ Present (pteAt m.word d n) → E e m')
    (hfull : l = [] → Q false m) (hlost : ∀ q, l = [q] → n < userPages → tableAt m.word d (n / nptentries) = none →
      Took q m [q] own (withCopy m q (sourceOf m.word pgdir n)) [] → Q false (withCopy m q (sourceOf m.word pgdir n)))
    (hnext : ∀ q pages m' l' own', n < userPages → Present (pteAt m.word pgdir n) →
      (∀ F : Nat → Nat, F n = pteFlags (pteAt m.word pgdir n) → OneFilled F d n (q :: pages) m l own m' l' own') →
      Placed d n q own (withCopy m q (sourceOf m.word pgdir n)) m' →
      Ends (copyLoop d pgdir count ((n + 1) * pgsize)) m' Q E) :
    Ends (copyLoop d pgdir (count + 1) (n * pgsize)) m Q E := by
  have hmax : userPages = 524288 := rfl
  have hpage : n / nptentries < npdentries := page_lt (by omega)
  unfold copyLoop
  cases ht : tableAt m.word pgdir (n / nptentries) with
  | none =>
    refine .after_ok (walkpgdir_missing (by rw [pdx_page hpage, ht])) ?_
    refine .after_error rfl (hbad _ _ (.inl ?_))
    rw [pteAt_of_none ht]
    decide
  | some t =>
    have hown := h.own_table hpgdir hpage ht
    have hword : m.word (t + 4 * (n % nptentries)) = pteAt m.word pgdir n := (pteAt_of_some ht).symm
    have hrun := walkpgdir_found false (n * pgsize) (by rw [pdx_page hpage, ht])
    rw [ptx_page] at hrun
    refine .after_ok hrun ?_
    rw [if_neg (h.table_ne_zero hown _)]
    refine .after_ok (get_run m) ?_
    rw [hword]
    by_cases hpresent : Present (pteAt m.word pgdir n)
    · rw [if_neg (not_not.mpr hpresent)]
      cases l with
      | nil =>
        refine .after_ok h.free.kalloc_nil ?_
        exact .pure (hfull rfl)
      | cons q l₁ =>
        have hq : q ≠ 0 := h.free.chain.ne_null mem_cons_self
        have htook := h.took_copy (sourceOf m.word pgdir n)
        refine .after_ok h.free.kalloc_cons.1 ?_
        rw [if_neg hq]
        refine .after_ok (copy_run m q _) ?_
        by_cases huser : n = userPages
        · have hagain := mappages_present htook.owned (htook.live hd) hpage
            (by rwa [htook.pteAt_eq hd hpage, huser]) (v2p q) (pteFlags (pteAt m.word pgdir n))
          refine .bind (hagain.stop fun e m' _ => ?_) fun _ _ hf => hf.elim
          exact hbad e m' (.inr (by rwa [huser]))
        · have hlt : n < userPages := by omega
          have hmap := htook.mappages hd hlt (pteFlags (pteAt m.word pgdir n)) (pteFlags_lt _)
          refine (hmap.stop fun e m' he => hbad e m' (.inr he.2)).bind fun r m₂ hr => ?_
          obtain ⟨rfl, rfl, rfl, hmissing⟩ | ⟨rfl, pages, l₂, own₂, hfilled, hplaced⟩ := hr
          · exact .pure (hlost q rfl hlt hmissing htook)
          · rw [if_neg (by decide), show n * pgsize + pgsize = (n + 1) * pgsize from
              (Nat.succ_mul n pgsize).symm]
            refine hnext q pages m₂ l₂ own₂ hlt hpresent (fun F hF => hfilled F ?_) hplaced
            rw [hF, or_pteP_of_present hpresent]
    · rw [if_pos hpresent]
      exact .after_error rfl (hbad _ _ (.inl hpresent))

theorem OneFilled.parent (h : OneFilled F d n pages m l own m' l' own') (hbefore : Owned m l own)
    (hpgdir : own pgdir = some .directory) (hne : pgdir ≠ d) :
    own' pgdir = some .directory ∧ ∀ k < 2 ^ 20, pteAt m'.word pgdir k = pteAt m.word pgdir k := by
  have hfree : ∀ p ∈ pages, own p = some .free := fun p hp => hbefore.free_of_split h.split hp
  exact ⟨(h.grew.kept hfree hpgdir nofun fun heq => hne (some.inj heq)).1,
    fun k hk => h.grew.pteAt_other hbefore hfree hpgdir hne (page_lt hk)⟩

theorem copyLoop_spec (count : Nat) (h : Owned m l own) (hd : own d = some .directory)
    (hpgdir : own pgdir = some .directory) (hne : pgdir ≠ d) (hkernel : Present (pteAt m.word d userPages))
    (hn : n ≤ userPages) (hle : n + count ≤ 2 ^ 20) (hF : ∀ k < 2 ^ 20, F k = pteFlags (pteAt m.word pgdir k)) :
    Ends (copyLoop d pgdir count (n * pgsize)) m (CopyEnds F d n count m l own) fun _ _ =>
      ∃ k, n ≤ k ∧ k < n + count ∧ (¬Present (pteAt m.word pgdir k) ∨ Present (pteAt m.word d k)) := by
  induction count generalizing n m l own with
  | zero => exact .pure (.done [] l m own hn (.refl h hd n) rfl)
  | succ count ih =>
    apply copyLoop_step h hd hpgdir hkernel hn
    · intro _ _ hbad
      exact ⟨n, Nat.le_refl n, by omega, hbad⟩
    · rintro rfl
      exact .full 0 m own (Nat.succ_pos count) hn (.refl h hd n) (requests_nil ..)
    · rintro q rfl hlt hmissing htook
      exact .lost 0 q [] m _ own (Nat.succ_pos count) hlt (.refl h hd n) hmissing htook
        (requests_one _ count (decide_eq_false fun hf => hf.2 hmissing))
    · intro q pages m₂ l₂ own₂ hlt _ hall _
      have hfilled := hall F (hF n (by omega))
      obtain ⟨hpgdir', hparent⟩ := hfilled.parent h hpgdir hne
      refine (ih (n := n + 1) hfilled.owned hfilled.live hpgdir' ?_ (by omega) (by omega)
        fun k hk => by rw [hparent k hk, hF k hk]).mono (fun _ _ hends => hends.after hfilled) fun _ _ he => ?_
      · rwa [hfilled.outside _ (by decide) (by omega)]
      · obtain ⟨k, hlo, hhi, hbad⟩ := he
        rw [hparent k (by omega), hfilled.outside k (page_lt (by omega)) (by omega)] at hbad
        exact ⟨k, by omega, by omega, hbad⟩

theorem Owned.spaceOf_ne (h : Owned m l own) (hd : own d ≠ some .directory) (p : Nat) : spaceOf own p ≠ some d := by
  intro hspace
  obtain ⟨rfl, hp⟩ | ⟨i, hp⟩ | ⟨n, hp⟩ := spaceOf_eq_some.mp hspace
  · exact hd hp
  · exact hd ((h.isTable p d i).mp hp).1
  · exact hd ((h.isUser p d n).mp hp).1

def copyRequests (sz : Nat) : List Request :=
  .page :: List.replicate kernelTables .table ++
    requests (fun i => decide (i < npdentries ∧ KernelTable i)) 0 (npages sz)

theorem copyRequests_kernel (hpos : 0 < k) (hk : k ≤ kernelTables) :
    (copyRequests sz)[k]? = some .table := by
  obtain ⟨j, rfl⟩ := Nat.exists_eq_succ_of_ne_zero (Nat.ne_of_gt hpos)
  have hlt : j < (replicate kernelTables Request.table).length := by
    rw [length_replicate]
    exact hk
  rw [copyRequests, cons_append, getElem?_cons_succ, getElem?_append_left hlt,
    getElem?_replicate, if_pos (by simpa using hlt)]

theorem copyRequests_user (sz k : Nat) : (copyRequests sz)[kernelTables + 1 + k]? =
    (requests (fun i => decide (i < npdentries ∧ KernelTable i)) 0 (npages sz))[k]? := by
  have hlen : (Request.page :: replicate kernelTables Request.table).length = kernelTables + 1 := by
    rw [length_cons, length_replicate]
  rw [copyRequests, getElem?_append_right (by rw [hlen]; exact Nat.le_add_right _ _), hlen,
    Nat.add_sub_cancel_left]

theorem Fresh.hasTable_eq (h : Fresh d m) :
    hasTable m.word d = fun i => decide (i < npdentries ∧ KernelTable i) := by
  funext i
  rw [hasTable, decide_eq_decide]
  apply and_congr_right
  intro hi
  rw [Ne, h.tables i hi, not_not]

/-- Some free pages are lost, and nothing else has changed hands. -/
def Leaked (l : List Nat) (own own' : Nat → Option Owner) : Prop :=
  (∃ q ∈ l, own' q = none) ∧ ∀ p, own' p = own p ∨ p ∈ l ∧ own' p = none

theorem Grew.leaked_setup (h : Grew d l m own m' own') (hbefore : Owned m l own) (hin : d ∈ l) :
    Leaked l own (forget own' d) := by
  have hd : own d ≠ some .directory := by
    rw [(hbefore.isFree d).mpr hin]
    exact nofun
  have hmine : ∀ p ∈ l, forget own' d p = none := fun p hp => by rw [forget, if_pos (h.mine p hp)]
  refine ⟨⟨d, hin, hmine d hin⟩, fun p => ?_⟩
  by_cases hp : p ∈ l
  · exact .inr ⟨hp, hmine p hp⟩
  · left
    rw [forget, spaceOf_eq (h.other p hp), if_neg (hbefore.spaceOf_ne hd p), h.other p hp]

end RainOS.Vm
