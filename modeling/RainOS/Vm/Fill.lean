import RainOS.Vm.Kernel

/-!
# Frames for user memory

The loops of `allocuvm` and `copyuvm`, which take a page from the free list and map it, page by page. A
page that was taken when there is none left for its table is lost.
-/

namespace RainOS.Vm

open Kalloc Function List

variable {m m' m'' : Memory} {l l' l'' pages pages' : List Nat} {own own' own'' : Nat → Option Owner} {word : Nat → Nat}
  {p q d i n a v c c' perm count : Nat}

structure Took (q : Nat) (m : Memory) (l : List Nat) (own : Nat → Option Owner) (m' : Memory) (l' : List Nat) :
    Prop where
  split : l = q :: l'
  kernelEnd : m'.kernelEnd = m.kernelEnd
  ledger : m'.ledger = m.ledger
  before : Owned m l own
  owned : Owned m' l' (update own q none)
  word : ∀ a, pgrounddown a ≠ q → m'.word a = m.word a

theorem Took.page (h : Took q m l own m' l') : Page m'.kernelEnd q := by
  rw [h.kernelEnd]
  have howned := h.before
  rw [h.split] at howned
  exact howned.head_page

theorem Took.ne (h : Took q m l own m' l') {o : Owner} (hp : own p = some o) (ho : o ≠ .free) : p ≠ q := by
  have howned := h.before
  rw [h.split] at howned
  exact howned.head_ne hp ho

theorem Owned.took_zero (h : Owned m (q :: l) own) : Took q m (q :: l) own (withPage m q) l :=
  ⟨rfl, rfl, rfl, h, h.takeZero, fun _ ha => zeroPage_of_ne h.head_page.aligned ha⟩

theorem Took.tableAt_eq (h : Took q m l own m' l') (hd : own d = some .directory) (hi : i < npdentries) :
    tableAt m'.word d i = tableAt m.word d i :=
  h.before.tableAt_congr hd hi fun _ ha => h.word _ (ha ▸ h.ne hd nofun)

theorem Took.pteAt_eq (h : Took q m l own m' l') (hd : own d = some .directory)
    (hn : n / nptentries < npdentries) : pteAt m'.word d n = pteAt m.word d n :=
  h.before.pteAt_congr hd hn (fun _ ha => h.word _ (ha ▸ h.ne hd nofun)) fun _ ht _ ha =>
    h.word _ (ha ▸ h.ne ht nofun)

/-- What giving frames to the pages from `n` up to `n + count` has done; `F` are the flags they have. -/
structure Filled (F : Nat → Nat) (d n count : Nat) (pages : List Nat) (m : Memory) (l : List Nat)
    (own : Nat → Option Owner) (m' : Memory) (l' : List Nat) (own' : Nat → Option Owner) : Prop where
  split : l = pages ++ l'
  owned : Owned m' l' own'
  grew : Grew d pages m own m' own'
  live : own' d = some .directory
  inside : ∀ k, n ≤ k → k < n + count → Present (pteAt m'.word d k) ∧ pteFlags (pteAt m'.word d k) = F k
  outside : ∀ k, k / nptentries < npdentries → ¬(n ≤ k ∧ k < n + count) →
    pteAt m'.word d k = pteAt m.word d k
  tables : ∀ i < npdentries, tableAt m'.word d i = none ↔
    tableAt m.word d i = none ∧ ∀ k, n ≤ k → k < n + count → i ≠ k / nptentries

theorem Filled.refl {F : Nat → Nat} (h : Owned m l own) (hd : own d = some .directory) (n : Nat) :
    Filled F d n 0 [] m l own m l own :=
  ⟨rfl, h, .refl d m own, hd, fun _ _ _ => by omega, fun _ _ _ => rfl,
    fun _ _ => (and_iff_left fun _ _ _ => by omega).symm⟩

theorem Filled.trans {F : Nat → Nat} (h : Filled F d n c pages m l own m' l' own')
    (h' : Filled F d (n + c) c' pages' m' l' own' m'' l'' own'') (hle : n + c + c' ≤ userPages) :
    Filled F d n (c + c') (pages ++ pages') m l own m'' l'' own'' where
  split := by rw [h.split, h'.split, append_assoc]
  owned := h'.owned
  grew := h.grew.trans h'.grew
  live := h'.live
  inside k hlo hhi := by
    by_cases hk : k < n + c
    · rw [h'.outside k (div_lt (by omega)) (by omega)]
      exact h.inside k hlo hk
    · exact h'.inside k (by omega) (by omega)
  outside k hk hnot := by
    rw [h'.outside k hk (by omega), h.outside k hk (by omega)]
  tables i hi := by
    rw [h'.tables i hi, h.tables i hi, and_assoc, forall_range_add]

theorem Took.filled {F : Nat → Nat} (h : Took q m l own m' l') (hd : own d = some .directory)
    (hn : n < userPages) (hF : F n = perm ||| pteP) (hperm : perm < pgsize)
    (hmap : Mapped d n (v2p q ||| perm ||| pteP) q pages m' l' (update own q none) m'' l'' own'') :
    Filled F d n 1 (q :: pages) m l own m'' l'' own'' := by
  have halign := v2p_aligned h.page.aligned
  refine ⟨by rw [h.split, hmap.split]; rfl, hmap.owned, ⟨hmap.grew.kernelEnd.trans h.kernelEnd,
    hmap.grew.ledger.trans h.ledger, hmap.grew.mine, ?_, ?_⟩, hmap.live, ?_, ?_, ?_⟩
  · intro p hp
    rw [hmap.grew.other p hp, update_of_ne (ne_of_not_mem_cons hp)]
  · intro a ha hspace
    have hne : pgrounddown a ≠ q := ne_of_not_mem_cons ha
    rw [hmap.grew.word a ha, h.word a hne]
    have hsame : spaceOf (update own q none) (pgrounddown a) = spaceOf own (pgrounddown a) :=
      spaceOf_eq (update_of_ne hne _ _)
    rwa [hsame]
  · intro k hlo hhi
    obtain rfl : k = n := by omega
    rw [hmap.entries k (div_lt hn), if_pos rfl, hF]
    refine ⟨?_, pteFlags_entry halign hperm⟩
    exact (decode_eq_some.mp (decode_entry h.page hperm)).1
  · intro k hk hnot
    rw [hmap.entries k hk, if_neg (by omega), h.pteAt_eq hd hk]
  · intro i hi
    rw [hmap.tables i hi, h.tableAt_eq hd hi, forall_range_one]

/-! ### Requests for pages -/

inductive Request
  | page
  | table
  deriving DecidableEq

def hasTable (word : Nat → Nat) (d i : Nat) : Bool := decide (i < npdentries ∧ tableAt word d i ≠ none)

/-- The requests for mapping pages from `n` on, when some tables are there already. -/
def requests (has : Nat → Bool) : Nat → Nat → List Request
  | _, 0 => []
  | n, count + 1 =>
    (.page :: if has (n / nptentries) then [] else [.table]) ++
      requests (fun i => has i || i == n / nptentries) (n + 1) count

theorem Took.hasTable_eq (h : Took q m l own m' l') (hd : own d = some .directory) :
    hasTable m'.word d = hasTable m.word d := by
  funext i
  rw [hasTable, hasTable, decide_eq_decide]
  apply and_congr_right
  intro hi
  rw [h.tableAt_eq hd hi]

theorem Mapped.hasTable_eq (h : Mapped d n v q pages m l own m' l' own') (hn : n / nptentries < npdentries) :
    hasTable m'.word d = fun i => hasTable m.word d i || i == n / nptentries := by
  funext i
  rw [Bool.eq_iff_iff, Bool.or_eq_true, beq_iff_eq, hasTable, hasTable, decide_eq_true_iff, decide_eq_true_iff]
  by_cases hi : i < npdentries
  · rw [Ne, h.tables i hi, not_and_or, not_not, and_iff_right hi, and_iff_right hi]
  · refine iff_of_false (fun hf => hi hf.1) fun hf => ?_
    exact hf.elim (fun hf => hi hf.1) fun heq => hi (heq ▸ hn)

theorem Mapped.length_eq (h : Mapped d n v q pages m l own m' l' own') (hn : n / nptentries < npdentries) :
    pages.length = (if hasTable m.word d (n / nptentries) then [] else [Request.table]).length := by
  rw [h.count]
  by_cases hnone : tableAt m.word d (n / nptentries) = none
  · have hhas : hasTable m.word d (n / nptentries) = false := decide_eq_false fun hf => hf.2 hnone
    rw [if_pos hnone, hhas]
    rfl
  · have hhas : hasTable m.word d (n / nptentries) = true := decide_eq_true ⟨hn, hnone⟩
    rw [if_neg hnone, hhas]
    rfl

/-- One page has been mapped: the requests that are left. -/
structure OneFilled (F : Nat → Nat) (d n : Nat) (pages : List Nat) (m : Memory) (l : List Nat)
    (own : Nat → Option Owner) (m' : Memory) (l' : List Nat) (own' : Nat → Option Owner) : Prop
    extends Filled F d n 1 pages m l own m' l' own' where
  first : pages.length = (Request.page :: if hasTable m.word d (n / nptentries) then [] else [.table]).length
  has : hasTable m'.word d = fun i => hasTable m.word d i || i == n / nptentries

section

variable {F : Nat → Nat} (h : OneFilled F d n pages m l own m' l' own')
include h

theorem OneFilled.length_eq :
    l.length = pages.length + l'.length := by
  rw [h.split, length_append]

theorem OneFilled.requests_length (count : Nat) :
    (requests (hasTable m.word d) n (count + 1)).length =
      pages.length + (requests (hasTable m'.word d) (n + 1) count).length := by
  rw [requests, length_append, ← h.first, h.has]

theorem OneFilled.requests_get (count : Nat) :
    (requests (hasTable m.word d) n (count + 1))[l.length]? =
      (requests (hasTable m'.word d) (n + 1) count)[l'.length]? := by
  rw [requests, h.length_eq, h.first, getElem?_append_right (Nat.le_add_right _ _), Nat.add_sub_cancel_left, h.has]

end

theorem Took.oneFilled {F : Nat → Nat} (h : Took q m l own m' l') (hd : own d = some .directory)
    (hn : n < userPages) (hF : F n = perm ||| pteP) (hperm : perm < pgsize)
    (hmap : Mapped d n (v2p q ||| perm ||| pteP) q pages m' l' (update own q none) m'' l'' own'') :
    OneFilled F d n (q :: pages) m l own m'' l'' own'' := by
  refine ⟨h.filled hd hn hF hperm hmap, ?_, ?_⟩
  · rw [length_cons, length_cons, hmap.length_eq (div_lt hn), h.hasTable_eq hd]
  · rw [hmap.hasTable_eq (div_lt hn), h.hasTable_eq hd]

/-! ### allocuvm -/

def userFlags (_ : Nat) : Nat := pteW ||| pteU ||| pteP

/-- How the loop of `allocuvm` ends. A page for which there is no table is lost, and the loop goes on. -/
inductive AllocEnds (d n count : Nat) (m : Memory) (l : List Nat) (own : Nat → Option Owner) :
    Bool → Memory → Prop
  | done (pages l' : List Nat) (m' : Memory) (own' : Nat → Option Owner)
      (hfilled : Filled userFlags d n count pages m l own m' l' own')
      (hlen : pages.length = (requests (hasTable m.word d) n count).length) : AllocEnds d n count m l own true m'
  | full (k : Nat) (m' : Memory) (own' : Nat → Option Owner) (hk : k < count)
      (hfilled : Filled userFlags d n k l m l own m' [] own')
      (hreq : (requests (hasTable m.word d) n count)[l.length]? = some .page) :
      AllocEnds d n count m l own false m'
  | lost (k q : Nat) (pages : List Nat) (m₁ m' : Memory) (own₁ : Nat → Option Owner) (hk : k < count)
      (hfilled : Filled userFlags d n k pages m l own m₁ [q] own₁)
      (hmissing : tableAt m₁.word d ((n + k) / nptentries) = none) (htook : Took q m₁ [q] own₁ m' [])
      (hreq : (requests (hasTable m.word d) n count)[l.length]? = some .table)
      (hlast : (requests (hasTable m.word d) n count).length = l.length + 1 ↔ k + 1 = count) :
      AllocEnds d n count m l own (decide (k + 1 = count)) m'

theorem AllocEnds.after {r : Bool} (h : OneFilled userFlags d n pages m l own m' l' own')
    (h' : AllocEnds d (n + 1) count m' l' own' r m'') (hle : n + 1 + count ≤ userPages) :
    AllocEnds d n (count + 1) m l own r m'' := by
  cases h' with
  | done pages' l'' _ own'' hfilled hlen =>
    have htrans := h.toFilled.trans hfilled hle
    rw [Nat.add_comm 1 count] at htrans
    exact .done _ _ _ _ htrans (by rw [length_append, hlen, h.requests_length])
  | full k _ own'' hk hfilled hreq =>
    have htrans := h.toFilled.trans hfilled (by omega)
    rw [Nat.add_comm 1 k, ← h.split] at htrans
    exact .full (k + 1) _ _ (by omega) htrans (by rw [h.requests_get, hreq])
  | lost k q pages' m₁ _ own₁ hk hfilled hmissing htook hreq hlast =>
    have htrans := h.toFilled.trans hfilled (by omega)
    rw [Nat.add_comm 1 k] at htrans
    have hsame : decide (k + 1 = count) = decide (k + 1 + 1 = count + 1) := by
      rw [decide_eq_decide, Nat.add_right_cancel_iff]
    rw [hsame]
    refine .lost (k + 1) q _ m₁ _ own₁ (by omega) htrans ?_ htook (by rw [h.requests_get, hreq]) ?_
    · rwa [show n + (k + 1) = n + 1 + k by omega]
    · rw [h.requests_length, h.length_eq, Nat.add_assoc, Nat.add_left_cancel_iff, hlast, Nat.add_right_cancel_iff]

theorem requests_nil (has : Nat → Bool) (n count : Nat) : (requests has n (count + 1))[0]? = some .page := rfl

theorem requests_one (has : Nat → Bool) (count : Nat) (h : has (n / nptentries) = false) :
    (requests has n (count + 1))[1]? = some .table := by
  rw [requests, h]
  rfl

theorem requests_length_eq_zero (has : Nat → Bool) (n count : Nat) :
    (requests has n count).length = 0 ↔ count = 0 := by
  cases count with
  | zero => exact iff_of_true rfl rfl
  | succ count =>
    rw [requests, cons_append, length_cons]
    exact iff_of_false (Nat.succ_ne_zero _) (Nat.succ_ne_zero _)

theorem requests_last (has : Nat → Bool) (count : Nat) (h : has (n / nptentries) = false) :
    (requests has n (count + 1)).length = 1 + 1 ↔ 0 + 1 = count + 1 := by
  have hrest := requests_length_eq_zero (fun i => has i || i == n / nptentries) (n + 1) count
  rw [requests, h, length_append]
  change 2 + _ = 2 ↔ _
  omega

theorem allocLoop_nil (hfree : FreeList m []) (count a : Nat) :
    allocLoop d count a m = .ok (decide (count = 0)) m := by
  cases count with
  | zero => rfl
  | succ count =>
    unfold allocLoop
    rw [bind_ok _ hfree.kalloc_nil]
    rfl

/-- What mapping the page `q` that was taken into `m'` leaves alone: what was put into it, and all the other words
that the kernel does not follow. -/
structure Placed (d n q : Nat) (own : Nat → Option Owner) (m' m'' : Memory) : Prop where
  frame : frameAt m''.word d n = some q
  words : ∀ a, pgrounddown a = q ∨ Unfollowed own (pgrounddown a) → m''.word a = m'.word a

theorem Took.mappages (h : Took q m l own m' l') (hd : own d = some .directory) (hn : n < userPages) (perm : Nat)
    (hperm : perm < pgsize) :
    Ends (mappages d (n * pgsize) pgsize (v2p q) perm) m'
      (fun r m'' => (r = -1 ∧ m'' = m' ∧ l' = [] ∧ tableAt m.word d (n / nptentries) = none) ∨
        r = 0 ∧ ∃ pages l'' own'', (∀ F : Nat → Nat, F n = perm ||| pteP → OneFilled F d n (q :: pages) m l own m'' l'' own'') ∧
          Placed d n q own m' m'')
      fun e _ => e = .panic "remap" ∧ Present (pteAt m.word d n) := by
  have hd' : update own q none d = some .directory := by rwa [update_of_ne (h.ne hd nofun)]
  have hmap := mappages_user h.owned hd' hn (update_self ..) h.page perm hperm
  refine (hmap.and (mappages_unfollowed h.owned hd' (div_lt hn) (v2p q) perm)).mono (fun r m'' hr => ?_) fun e _ he => ?_
  · obtain ⟨⟨rfl, rfl, rfl, hmissing⟩ | ⟨-, rfl, pages, l'', own'', hmapped⟩, hkept⟩ := hr
    · rw [h.tableAt_eq hd (div_lt hn)] at hmissing
      exact .inl ⟨rfl, rfl, rfl, hmissing⟩
    · refine .inr ⟨rfl, pages, l'', own'', fun F hF => h.oneFilled hd hn hF hperm hmapped, ?_, fun a ha => hkept a ?_⟩
      · rw [frameAt, hmapped.entries n (div_lt hn), if_pos rfl, decode_entry h.page hperm]
      · obtain rfl | ha := ha
        · exact unfollowed_of_none (update_self ..)
        · by_cases haq : pgrounddown a = q
          · rw [haq]
            exact unfollowed_of_none (update_self ..)
          · intro o ho
            rw [update_of_ne haq] at ho
            exact ha o ho
  · exact ⟨he.1, by rw [← h.pteAt_eq hd (div_lt hn)]; exact he.2⟩

theorem allocLoop_step (h : Owned m l own) (hd : own d = some .directory) (hn : n < userPages) {Q : Bool → Memory → Prop} {E : Halt → Memory → Prop} (hfull : l = [] → Q false m)
    (hremap : ∀ m', Present (pteAt m.word d n) → E (.panic "remap") m')
    (hlost : ∀ q, l = [q] → tableAt m.word d (n / nptentries) = none → Took q m [q] own (withPage m q) [] →
      Q (decide (count = 0)) (withPage m q))
    (hnext : ∀ q pages m' l' own', OneFilled userFlags d n (q :: pages) m l own m' l' own' →
      Placed d n q own (withPage m q) m' → Ends (allocLoop d count ((n + 1) * pgsize)) m' Q E) :
    Ends (allocLoop d (count + 1) (n * pgsize)) m Q E := by
  unfold allocLoop
  cases l with
  | nil =>
    refine .after_ok h.free.kalloc_nil ?_
    exact .pure (hfull rfl)
  | cons q l₁ =>
    have hq : q ≠ 0 := h.free.chain.ne_null mem_cons_self
    have htook := h.took_zero
    refine .after_ok h.free.kalloc_cons.1 ?_
    rw [if_neg hq]
    refine .after_ok (memset0_run m q) ?_
    have hmap := htook.mappages hd hn (pteW ||| pteU) (by decide)
    rw [show n * pgsize + pgsize = (n + 1) * pgsize from (Nat.succ_mul n pgsize).symm]
    refine .bind (hmap.stop fun e m' he => ?_) fun r m₂ hr => ?_
    · rw [he.1]
      exact hremap m' he.2
    · obtain ⟨-, rfl, rfl, hmissing⟩ | ⟨-, pages, l₂, own₂, hfilled, hplaced⟩ := hr
      · exact .of_run_ok (allocLoop_nil htook.owned.free count _) (hlost q rfl hmissing htook)
      · exact hnext q pages m₂ l₂ own₂ (hfilled userFlags rfl) hplaced

theorem allocLoop_spec (count : Nat) (h : Owned m l own) (hd : own d = some .directory)
    (hle : n + count ≤ userPages) :
    Ends (allocLoop d count (n * pgsize)) m (AllocEnds d n count m l own) fun e _ =>
      e = .panic "remap" ∧ ∃ k, n ≤ k ∧ k < n + count ∧ Present (pteAt m.word d k) := by
  induction count generalizing n m l own with
  | zero => exact .pure (.done [] l m own (.refl h hd n) rfl)
  | succ count ih =>
    apply allocLoop_step h hd (by omega)
    · rintro rfl
      exact .full 0 m own (Nat.succ_pos count) (.refl h hd n) (requests_nil ..)
    · intro m' hpresent
      exact ⟨rfl, n, Nat.le_refl n, by omega, hpresent⟩
    · rintro q rfl hmissing htook
      have hsame : decide (count = 0) = decide (0 + 1 = count + 1) := by
        rw [decide_eq_decide]
        omega
      have hhas : hasTable m.word d (n / nptentries) = false := decide_eq_false fun hf => hf.2 hmissing
      rw [hsame]
      exact .lost 0 q [] m _ own (Nat.succ_pos count) (.refl h hd n) hmissing htook
        (requests_one _ count hhas) (requests_last _ count hhas)
    · intro q pages m₂ l₂ own₂ hfilled _
      refine (ih (n := n + 1) hfilled.owned hfilled.live (by omega)).mono (fun r m₃ hends =>
        hends.after hfilled (by omega)) fun e m₃ he => ⟨he.1, ?_⟩
      obtain ⟨k, hlo, hhi, hpresent⟩ := he.2
      rw [hfilled.outside k (div_lt (by omega)) (by omega)] at hpresent
      exact ⟨k, by omega, by omega, hpresent⟩

end RainOS.Vm
