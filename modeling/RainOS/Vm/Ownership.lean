import RainOS.Kalloc.FreeList
import RainOS.Lib.Store
import RainOS.Vm.Code

/-!
# Who owns a page

Every page of memory has at most one owner: the free list, a page directory, an entry of a directory
whose page table it is, a page of user memory whose frame it is, or a client of `kalloc`. A page without
an owner is in the hands of the code that runs, or lost. `Owned` ties an assignment of owners to the
words of memory; the lemmas say which assignment is right after each write the code makes.
-/

namespace RainOS.Vm

open Kalloc Function List

inductive Owner
  | free
  | directory
  | table (d i : Nat)
  | user (d n : Nat)
  | client
  deriving DecidableEq

def decode (pte : Nat) : Option Nat := if Present pte then some (p2v (pteAddr pte)) else none

def target (word : Nat → Nat) (a : Nat) : Option Nat := decode (word a)

def tableAt (word : Nat → Nat) (d i : Nat) : Option Nat := target word (d + 4 * i)

/-- The entry of a page of the address space, zero without a table. -/
def pteAt (word : Nat → Nat) (d n : Nat) : Nat :=
  match tableAt word d (n / nptentries) with
  | some t => word (t + 4 * (n % nptentries))
  | none => 0

def frameAt (word : Nat → Nat) (d n : Nat) : Option Nat := decode (pteAt word d n)

def Page (kernelEnd p : Nat) : Prop := Accepts kernelEnd p ∧ p < 2 ^ 32

def userPages : Nat := kernbase / pgsize

structure Owned (m : Memory) (l : List Nat) (own : Nat → Option Owner) : Prop where
  free : FreeList m l
  page : ∀ p o, own p = some o → Page m.kernelEnd p
  isFree : ∀ p, own p = some .free ↔ p ∈ l
  isTable : ∀ p d i, own p = some (.table d i) ↔
    own d = some .directory ∧ i < npdentries ∧ tableAt m.word d i = some p
  isUser : ∀ p d n, own p = some (.user d n) ↔
    own d = some .directory ∧ n < userPages ∧ frameAt m.word d n = some p

def Structural (o : Owner) : Prop :=
  match o with
  | .free | .directory | .table _ _ => True
  | .user _ _ | .client => False

variable {m : Memory} {l : List Nat} {own own' : Nat → Option Owner} {word word' : Nat → Nat}
  {kernelEnd p q d i n t a b v flags d' n' i' : Nat} {x o : Option Owner} {P : Nat → Prop}

def Plain (o : Option Owner) : Prop :=
  match o with
  | none | some .free | some .client => True
  | some .directory | some (.table _ _) | some (.user _ _) => False

theorem Plain.ne (h : Plain x) {o : Owner} (ho : ¬Plain (some o)) : x ≠ some o := fun heq => ho (heq ▸ h)

theorem own_ne_of_none (h : own p = none) (o : Owner) : own p ≠ some o := by
  rw [h]
  exact nofun

theorem update_eq_some_iff {o : Owner} (hp : own p ≠ some o) (hx : x ≠ some o) :
    update own p x q = some o ↔ own q = some o := by
  by_cases hq : q = p
  · rw [hq, update_self]
    exact iff_of_false hx hp
  · rw [update_of_ne hq]

/-- The directory an owner belongs to, if it owns page `p`. -/
def Owner.space (p : Nat) : Owner → Option Nat
  | .directory => some p
  | .table d _ | .user d _ => some d
  | .free | .client => none

def spaceOf (own : Nat → Option Owner) (p : Nat) : Option Nat := (own p).bind (Owner.space p)

def forget (own : Nat → Option Owner) (d p : Nat) : Option Owner :=
  if spaceOf own p = some d then none else own p

theorem forget_eq_some {o : Owner} : forget own d p = some o ↔ own p = some o ∧ o.space p ≠ some d := by
  unfold forget
  split
  · rename_i hspace
    refine iff_of_false nofun fun ho => ?_
    rw [spaceOf, ho.1] at hspace
    exact ho.2 hspace
  · rename_i hspace
    refine ⟨fun ho => ⟨ho, fun heq => hspace ?_⟩, And.left⟩
    rw [spaceOf, ho]
    exact heq

/-! ### Addresses and entries -/

theorem Page.aligned (h : Page kernelEnd p) : p % pgsize = 0 := h.1.1

theorem Page.kernbase_le (h : Page kernelEnd p) : kernbase ≤ p := by
  have htop := h.1.2.2
  have hlt := h.2
  simp only [v2p, kernbase, phystop] at htop ⊢
  omega

theorem Page.p2v_v2p (h : Page kernelEnd p) : p2v (v2p p) = p := by
  have hle := h.kernbase_le
  have hlt := h.2
  simp only [p2v, v2p, kernbase] at hle ⊢
  omega

theorem v2p_aligned (h : p % pgsize = 0) : v2p p % pgsize = 0 := by
  simp only [v2p, kernbase, pgsize] at h ⊢
  omega

theorem pgrounddown_word (h : p % pgsize = 0) (hi : i < 1024) : pgrounddown (p + 4 * i) = p := by
  simp only [pgrounddown, pgsize] at h ⊢
  omega

theorem pgrounddown_self (h : p % pgsize = 0) : pgrounddown p = p := by
  simp only [pgrounddown, pgsize] at h ⊢
  omega

theorem in_page_iff (h : p % pgsize = 0) : (p ≤ a ∧ a < p + pgsize) ↔ pgrounddown a = p := by
  simp only [pgrounddown, pgsize] at h ⊢
  omega

theorem or_flags (h : p % pgsize = 0) (hflags : flags < pgsize) : p ||| flags = p + flags := by
  obtain ⟨k, rfl⟩ := Nat.dvd_of_mod_eq_zero h
  exact (Nat.two_pow_add_eq_or_of_lt (i := 12) hflags k).symm

theorem entry_spec (hp : Page kernelEnd p) (hflags : flags < pgsize) :
    p2v (pteAddr (v2p p ||| flags)) = p ∧ pteFlags (v2p p ||| flags) = flags ∧
      (Present (v2p p ||| flags) ↔ flags % 2 = 1) := by
  have halign := v2p_aligned hp.aligned
  rw [or_flags halign hflags]
  have haddr : pteAddr (v2p p + flags) = v2p p := by
    simp only [pteAddr, pgsize] at halign hflags ⊢
    omega
  refine ⟨?_, ?_, ?_⟩
  · rw [haddr, hp.p2v_v2p]
  · simp only [pteFlags, pgsize] at halign hflags ⊢
    omega
  · simp only [Present, pgsize] at halign ⊢
    omega

theorem target_eq_of_eq (h : word' a = word b) : target word' a = target word b := by
  rw [target, target, h]

theorem target_update_of_ne (h : a ≠ b) : target (update word b v) a = target word a :=
  target_eq_of_eq (update_of_ne h _ _)

theorem target_update_entry (hp : Page kernelEnd p) (hflags : flags < pgsize) (hodd : flags % 2 = 1) :
    target (update word a (v2p p ||| flags)) a = some p := by
  obtain ⟨haddr, -, hpresent⟩ := entry_spec hp hflags
  rw [target, update_self, decode, if_pos (hpresent.mpr hodd), haddr]

theorem div_lt (hn : n < userPages) : n / nptentries < npdentries := by
  have huser : userPages = 524288 := rfl
  have hn' : n / 1024 < 1024 := by omega
  exact hn'

theorem mod_lt (n : Nat) : n % nptentries < nptentries := by
  have hlt : n % 1024 < 1024 := by omega
  exact hlt

theorem word_ne (hp : p % pgsize = 0) (hq : q % pgsize = 0) (hi : i < 1024) {j : Nat} (hj : j < 1024)
    (hne : ¬(p = q ∧ i = j)) : p + 4 * i ≠ q + 4 * j := by
  simp only [pgsize] at hp hq
  omega

theorem free_ne_word (h : FreeList m l) (hq : q ∉ l) (halign : q % pgsize = 0) (hi : i < 1024) (hp : p ∈ l) : p ≠ q + 4 * i := by
  rintro rfl
  have hpage := pgrounddown_self (h.pages _ hp).1.1
  rw [pgrounddown_word halign hi] at hpage
  rw [← hpage] at hp
  exact hq hp

theorem pteAt_of_none (h : tableAt word d (n / nptentries) = none) : pteAt word d n = 0 := by
  rw [pteAt, h]

theorem pteAt_of_some (h : tableAt word d (n / nptentries) = some t) :
    pteAt word d n = word (t + 4 * (n % nptentries)) := by
  rw [pteAt, h]

theorem pteAt_eq_of_eq (htable : tableAt word' d (n / nptentries) = tableAt word d (n / nptentries))
    (hentry : ∀ t, tableAt word d (n / nptentries) = some t →
      word' (t + 4 * (n % nptentries)) = word (t + 4 * (n % nptentries))) : pteAt word' d n = pteAt word d n := by
  unfold pteAt
  rw [htable]
  split
  · exact hentry _ ‹_›
  · rfl

theorem frameAt_eq_of_eq (h : pteAt word' d' n' = pteAt word d n) :
    frameAt word' d' n' = frameAt word d n := by
  rw [frameAt, frameAt, h]

theorem frameAt_of_none (h : tableAt word d (n / nptentries) = none) : frameAt word d n = none := by
  rw [frameAt, pteAt_of_none h]
  rfl

theorem frameAt_of_some (h : tableAt word d (n / nptentries) = some t) :
    frameAt word d n = target word (t + 4 * (n % nptentries)) := by
  rw [frameAt, pteAt_of_some h, target]

def pageAt (i j : Nat) : Nat := nptentries * i + j

theorem pageAt_div {j : Nat} (hj : j < nptentries) : pageAt i j / nptentries = i := by
  have heq : (1024 * i + j) / 1024 = i := by
    change j < 1024 at hj
    omega
  exact heq

theorem pageAt_mod {j : Nat} (hj : j < nptentries) : pageAt i j % nptentries = j := by
  have heq : (1024 * i + j) % 1024 = j := by
    change j < 1024 at hj
    omega
  exact heq

theorem pageAt_div_mod (n : Nat) : pageAt (n / nptentries) (n % nptentries) = n := Nat.div_add_mod n nptentries

theorem putFree_of_ne (hp : p % pgsize = 0) (ha : pgrounddown a ≠ p) : (putFree m p).word a = m.word a := by
  have hself : a ≠ p := fun heq => ha (by rw [heq, pgrounddown_self hp])
  change update (fillPage m.word p) p m.freelist a = m.word a
  rw [update_of_ne hself]
  exact if_neg fun hin => ha ((in_page_iff hp).mp hin)

/-! ### Ranges of pages -/

theorem forall_range_one : (∀ k, n ≤ k → k < n + 1 → P k) ↔ P n := by
  refine ⟨fun hall => hall n (Nat.le_refl n) (Nat.lt_succ_self n), fun hn k hlo hhi => ?_⟩
  obtain rfl : k = n := by omega
  exact hn

theorem forall_range_add (c c' : Nat) : (∀ k, n ≤ k → k < n + (c + c') → P k) ↔
    (∀ k, n ≤ k → k < n + c → P k) ∧ ∀ k, n + c ≤ k → k < n + c + c' → P k := by
  refine ⟨fun hall => ⟨fun k hlo hhi => hall k hlo (by omega), fun k hlo hhi => hall k (by omega) (by omega)⟩,
    fun hall k hlo hhi => ?_⟩
  by_cases hk : k < n + c
  · exact hall.1 k hlo hk
  · exact hall.2 k (by omega) (by omega)

namespace Owned

section

variable (h : Owned m l own)
include h

theorem table_lt (ht : own t = some (.table d i)) : i < npdentries :=
  ((h.isTable t d i).mp ht).2.1

theorem directory_aligned (hd : own d = some .directory) : d % pgsize = 0 :=
  (h.page d _ hd).aligned

theorem table_aligned (ht : own t = some (.table d i)) : t % pgsize = 0 :=
  (h.page t _ ht).aligned

theorem table_ne_zero (ht : own t = some (.table d i)) (x : Nat) : t + x ≠ 0 := by
  have hle := (h.page t _ ht).kernbase_le
  simp only [kernbase] at hle
  omega

theorem own_table (hd : own d = some .directory) (hi : i < npdentries)
    (ht : tableAt m.word d i = some t) : own t = some (.table d i) :=
  (h.isTable t d i).mpr ⟨hd, hi, ht⟩

theorem own_frame (hd : own d = some .directory) (hn : n < userPages)
    (hp : frameAt m.word d n = some p) : own p = some (.user d n) :=
  (h.isUser p d n).mpr ⟨hd, hn, hp⟩

end

/-! ### Words that matter -/

theorem tableAt_congr (h : Owned m l own) (hd : own d = some .directory) (hi : i < npdentries)
    (hword : ∀ a, pgrounddown a = d → word' a = m.word a) : tableAt word' d i = tableAt m.word d i :=
  target_eq_of_eq (hword _ (pgrounddown_word (h.directory_aligned hd) hi))

theorem pteAt_congr (h : Owned m l own) (hd : own d = some .directory) (hn : n / nptentries < npdentries)
    (hword : ∀ a, pgrounddown a = d → word' a = m.word a)
    (htable : ∀ t, own t = some (.table d (n / nptentries)) → ∀ a, pgrounddown a = t → word' a = m.word a) :
    pteAt word' d n = pteAt m.word d n := by
  refine pteAt_eq_of_eq (h.tableAt_congr hd hn hword) fun t ht => ?_
  have hown := h.own_table hd hn ht
  apply htable t hown
  exact pgrounddown_word (h.table_aligned hown) (mod_lt n)

theorem scribble (h : Owned m l own) (word' : Nat → Nat)
    (hword : ∀ a o, own (pgrounddown a) = some o → Structural o → word' a = m.word a) :
    Owned { m with word := word' } l own := by
  have hdir : ∀ d, own d = some .directory → ∀ a, pgrounddown a = d → word' a = m.word a := by
    intro d hd a ha
    exact hword a .directory (ha ▸ hd) trivial
  have htable : ∀ d i t, own t = some (.table d i) → ∀ a, pgrounddown a = t → word' a = m.word a := by
    intro d i t ht a ha
    exact hword a (.table d i) (ha ▸ ht) trivial
  refine ⟨⟨?_, h.free.pages⟩, h.page, h.isFree, ?_, ?_⟩
  · apply h.free.chain.congr
    intro p hp
    apply hword p .free _ trivial
    rw [pgrounddown_self (h.free.pages p hp).1.1]
    exact (h.isFree p).mpr hp
  · intro p d i
    rw [h.isTable]
    apply and_congr_right
    intro hd
    apply and_congr_right
    intro hi
    rw [h.tableAt_congr hd hi (hdir d hd)]
  · intro p d n
    rw [h.isUser]
    apply and_congr_right
    intro hd
    apply and_congr_right
    intro hn
    rw [frameAt_eq_of_eq (h.pteAt_congr hd (div_lt hn) (hdir d hd) (htable d _))]

/-! ### Pages that change hands -/

theorem isTable_retag (h : Owned m l own) (hp : Plain (own p)) (ho : Plain o) (q d i : Nat) :
    update own p o q = some (.table d i) ↔
      update own p o d = some .directory ∧ i < npdentries ∧ tableAt m.word d i = some q := by
  rw [update_eq_some_iff (hp.ne id) (ho.ne id), update_eq_some_iff (hp.ne id) (ho.ne id)]
  exact h.isTable q d i

theorem isUser_retag (h : Owned m l own) (hp : Plain (own p)) (ho : Plain o) (q d n : Nat) :
    update own p o q = some (.user d n) ↔
      update own p o d = some .directory ∧ n < userPages ∧ frameAt m.word d n = some q := by
  rw [update_eq_some_iff (hp.ne id) (ho.ne id), update_eq_some_iff (hp.ne id) (ho.ne id)]
  exact h.isUser q d n

theorem page_update (h : Owned m l own) (hp : Page m.kernelEnd p) (o : Option Owner) (q : Nat) (o' : Owner)
    (hq : update own p o q = some o') : Page m.kernelEnd q := by
  by_cases hqp : q = p
  · rwa [hqp]
  · rw [update_of_ne hqp] at hq
    exact h.page q o' hq

theorem isFree_update (h : Owned m l own) (hp : own p ≠ some .free) (ho : o ≠ some .free) (q : Nat) :
    update own p o q = some .free ↔ q ∈ l := by
  rw [update_eq_some_iff hp ho, h.isFree]

theorem take (h : Owned m (p :: l) own) :
    Owned { m with freelist := m.word p } l (update own p none) := by
  have hnodup := nodup_cons.mp h.free.chain.nodup
  have hp : own p = some .free := (h.isFree p).mpr mem_cons_self
  have hplain : Plain (own p) := by
    rw [hp]
    trivial
  refine ⟨h.free.kalloc_cons.2, ?_, ?_, h.isTable_retag hplain trivial, h.isUser_retag hplain trivial⟩
  · exact h.page_update (h.page p _ hp) none
  · intro q
    by_cases hq : q = p
    · rw [hq, update_self]
      exact iff_of_false nofun hnodup.1
    · rw [update_of_ne hq, h.isFree, mem_cons]
      exact or_iff_right hq

theorem not_mem_free (h : Owned m l own) (hp : own p ≠ some .free) : p ∉ l := fun hin =>
  hp ((h.isFree p).mpr hin)

theorem give (h : Owned m l own) (hp : own p = none) (hpage : Page m.kernelEnd p) :
    Owned (putFree m p) (p :: l) (update own p (some .free)) := by
  have hplain : Plain (own p) := by
    rw [hp]
    trivial
  have hfree : p ∉ l := h.not_mem_free (own_ne_of_none hp _)
  have hsame := h.scribble (putFree m p).word fun a o ho _ => putFree_of_ne hpage.aligned fun heq => by
    rw [heq, hp] at ho
    cases ho
  refine ⟨h.free.put hpage.1 hpage.2 hfree, h.page_update hpage _, ?_, hsame.isTable_retag hplain trivial,
    hsame.isUser_retag hplain trivial⟩
  intro q
  by_cases hq : q = p
  · rw [hq, update_self]
    exact iff_of_true rfl mem_cons_self
  · rw [update_of_ne hq, h.isFree, mem_cons]
    exact (or_iff_right hq).symm

theorem retag (h : Owned m l own) (hpage : Page m.kernelEnd p) (hp : Plain (own p)) (hnot : own p ≠ some .free) (ho : Plain o) (hfree : o ≠ some .free) : Owned m l (update own p o) := by
  exact ⟨h.free, h.page_update hpage _, h.isFree_update hnot hfree, h.isTable_retag hp ho, h.isUser_retag hp ho⟩

theorem newDir (h : Owned m l own) (hp : own p = none) (hpage : Page m.kernelEnd p)
    (hzero : ∀ a, pgrounddown a = p → m.word a = 0) : Owned m l (update own p (some .directory)) := by
  have hnone : ∀ i < npdentries, tableAt m.word p i = none := by
    intro i hi
    rw [tableAt, target, hzero _ (pgrounddown_word hpage.aligned hi)]
    rfl
  have hnot := own_ne_of_none hp
  refine ⟨h.free, h.page_update hpage _, h.isFree_update (hnot _) nofun, ?_, ?_⟩
  · intro q d i
    rw [update_eq_some_iff (x := some .directory) (hnot (.table d i)) nofun, h.isTable]
    by_cases hd : d = p
    · rw [hd, update_self]
      refine iff_of_false (fun hq => hnot _ hq.1) fun hq => ?_
      rw [hnone i hq.2.1] at hq
      cases hq.2.2
    · rw [update_of_ne hd]
  · intro q d n
    rw [update_eq_some_iff (x := some .directory) (hnot (.user d n)) nofun, h.isUser]
    by_cases hd : d = p
    · rw [hd, update_self]
      refine iff_of_false (fun hq => hnot _ hq.1) fun hq => ?_
      rw [frameAt_of_none (hnone _ (div_lt hq.2.1))] at hq
      cases hq.2.2
    · rw [update_of_ne hd]

/-! ### Entries that change -/

theorem tableAt_setPde (h : Owned m l own) (hd : own d = some .directory) (hi : i < npdentries) (hd' : own d' = some .directory) (hi' : i' < npdentries) (hne : ¬(d' = d ∧ i' = i)) :
    tableAt (update m.word (d + 4 * i) v) d' i' = tableAt m.word d' i' :=
  target_update_of_ne (word_ne (h.directory_aligned hd') (h.directory_aligned hd) hi' hi hne)

section

variable (h : Owned m l own) (hd : own d = some .directory) (hi : i < npdentries) (hnone : tableAt m.word d i = none)
  (hq : own q = none) (hpage : Page m.kernelEnd q) (hzero : ∀ a, pgrounddown a = q → m.word a = 0)
  (hv : tableAt (update m.word (d + 4 * i) v) d i = some q)
include h hd hi hnone hq hpage hzero hv

theorem pteAt_setPde (hd' : own d' = some .directory) (hn' : n' / nptentries < npdentries) :
    pteAt (update m.word (d + 4 * i) v) d' n' = pteAt m.word d' n' := by
  by_cases hsame : d' = d ∧ n' / nptentries = i
  · obtain ⟨rfl, rfl⟩ := hsame
    have hne : q + 4 * (n' % nptentries) ≠ d' + 4 * (n' / nptentries) := by
      apply word_ne hpage.aligned (h.directory_aligned hd) (mod_lt n') hi
      intro heq
      rw [heq.1, hd] at hq
      cases hq
    rw [pteAt_of_none hnone, pteAt_of_some hv, update_of_ne hne]
    exact hzero _ (pgrounddown_word hpage.aligned (mod_lt n'))
  · refine pteAt_eq_of_eq (h.tableAt_setPde hd hi hd' hn' hsame) fun t ht => ?_
    have hown := h.own_table hd' hn' ht
    apply update_of_ne
    apply word_ne (h.table_aligned hown) (h.directory_aligned hd) (mod_lt n') hi
    intro heq
    rw [heq.1, hd] at hown
    cases hown

theorem addTable :
    Owned { m with word := update m.word (d + 4 * i) v } l (update own q (some (.table d i))) := by
  have hnot := own_ne_of_none hq
  have hdir : ∀ d', update own q (some (.table d i)) d' = some .directory ↔ own d' = some .directory := fun _ =>
    update_eq_some_iff (hnot _) nofun
  refine ⟨⟨?_, h.free.pages⟩, h.page_update hpage _, h.isFree_update (hnot _) nofun, ?_, ?_⟩
  · apply h.free.chain.congr
    intro p hp
    apply update_of_ne
    refine free_ne_word h.free (h.not_mem_free ?_) (h.directory_aligned hd) hi hp
    rw [hd]
    exact nofun
  · intro p d' i'
    rw [hdir]
    by_cases hsame : d' = d ∧ i' = i
    · obtain ⟨rfl, rfl⟩ := hsame
      rw [hv]
      by_cases hp : p = q
      · rw [hp, update_self]
        exact iff_of_true rfl ⟨hd, hi, rfl⟩
      · rw [update_of_ne hp, h.isTable, hnone]
        exact iff_of_false (fun hf => nomatch hf.2.2) fun hf => hp (Option.some.inj hf.2.2).symm
    · have hother : some (Owner.table d i) ≠ some (.table d' i') := by
        rintro ⟨⟩
        exact hsame ⟨rfl, rfl⟩
      rw [update_eq_some_iff (hnot _) hother, h.isTable]
      apply and_congr_right
      intro hd'
      apply and_congr_right
      intro hi'
      rw [h.tableAt_setPde hd hi hd' hi' hsame]
  · intro p d' n'
    rw [hdir, update_eq_some_iff (x := some (.table d i)) (hnot (.user d' n')) nofun, h.isUser]
    apply and_congr_right
    intro hd'
    apply and_congr_right
    intro hn'
    rw [frameAt_eq_of_eq (h.pteAt_setPde hd hi hnone hq hpage hzero hv hd' (div_lt hn'))]

end

section

variable (h : Owned m l own) (ht : own t = some (.table d i)) {j : Nat} (hj : j < nptentries)
include h ht hj

theorem tableAt_setPte (hd' : own d' = some .directory) (hi' : i' < npdentries) :
    tableAt (update m.word (t + 4 * j) v) d' i' = tableAt m.word d' i' := by
  apply target_update_of_ne
  apply word_ne (h.directory_aligned hd') (h.table_aligned ht) hi' hj
  intro heq
  rw [← heq.1, hd'] at ht
  cases ht

theorem pteAt_setPte_self :
    pteAt (update m.word (t + 4 * j) v) d (pageAt i j) = v := by
  obtain ⟨hd, hi, htable⟩ := (h.isTable t d i).mp ht
  have hsame := (h.tableAt_setPte (v := v) ht hj hd hi).trans htable
  rw [← pageAt_div (i := i) hj] at hsame
  rw [pteAt_of_some hsame, pageAt_mod hj, update_self]

theorem pteAt_setPte_of_ne (hd' : own d' = some .directory)
    (hn' : n' / nptentries < npdentries) (hne : ¬(d' = d ∧ n' = pageAt i j)) :
    pteAt (update m.word (t + 4 * j) v) d' n' = pteAt m.word d' n' := by
  refine pteAt_eq_of_eq (h.tableAt_setPte ht hj hd' hn') fun t' htable => ?_
  have hown := h.own_table hd' hn' htable
  apply update_of_ne
  apply word_ne (h.table_aligned hown) (h.table_aligned ht) (mod_lt n') hj
  rintro ⟨rfl, rfl⟩
  rw [ht] at hown
  cases hown
  exact hne ⟨rfl, (pageAt_div_mod n').symm⟩

theorem setPte (hpage : ∀ p o, own' p = some o → Page m.kernelEnd p)
    (hstruct : ∀ p o, Structural o → (own' p = some o ↔ own p = some o))
    (huser : ∀ p d' n', ¬(d' = d ∧ n' = pageAt i j) → (own' p = some (.user d' n') ↔ own p = some (.user d' n')))
    (hself : ∀ p, own' p = some (.user d (pageAt i j)) ↔ pageAt i j < userPages ∧ decode v = some p) :
    Owned { m with word := update m.word (t + 4 * j) v } l own' := by
  have hlive : own d = some .directory := ((h.isTable t d i).mp ht).1
  refine ⟨⟨?_, h.free.pages⟩, hpage, ?_, ?_, ?_⟩
  · apply h.free.chain.congr
    intro p hp
    apply update_of_ne
    refine free_ne_word h.free (h.not_mem_free ?_) (h.table_aligned ht) hj hp
    rw [ht]
    exact nofun
  · intro p
    rw [hstruct p .free trivial, h.isFree]
  · intro p d' i'
    rw [hstruct p (.table d' i') trivial, hstruct d' .directory trivial, h.isTable]
    apply and_congr_right
    intro hd'
    apply and_congr_right
    intro hi'
    rw [h.tableAt_setPte ht hj hd' hi']
  · intro p d' n'
    rw [hstruct d' .directory trivial]
    by_cases hsame : d' = d ∧ n' = pageAt i j
    · obtain ⟨rfl, rfl⟩ := hsame
      rw [hself, frameAt, h.pteAt_setPte_self ht hj]
      exact (and_iff_right hlive).symm
    · rw [huser p d' n' hsame, h.isUser]
      apply and_congr_right
      intro hd'
      apply and_congr_right
      intro hn'
      rw [frameAt_eq_of_eq (h.pteAt_setPte_of_ne ht hj hd' (div_lt hn') hsame)]

theorem addFrame (hn : pageAt i j < userPages) (hnone : target m.word (t + 4 * j) = none) (hq : own q = none)
    (hpage : Page m.kernelEnd q) (hv : decode v = some q) :
    Owned { m with word := update m.word (t + 4 * j) v } l (update own q (some (.user d (pageAt i j)))) := by
  obtain ⟨hd, hi, htable⟩ := (h.isTable t d i).mp ht
  have hfree : ∀ p, own p ≠ some (.user d (pageAt i j)) := by
    intro p hp
    rw [h.isUser, frameAt_of_some (t := t) (by rw [pageAt_div hj, htable]), pageAt_mod hj, hnone] at hp
    cases hp.2.2
  apply h.setPte ht hj (h.page_update hpage _)
  · intro p o ho
    apply update_eq_some_iff (own_ne_of_none hq o)
    rintro ⟨⟩
    exact ho
  · intro p d' n' hne
    apply update_eq_some_iff (own_ne_of_none hq _)
    rintro ⟨⟩
    exact hne ⟨rfl, rfl⟩
  · intro p
    rw [hv]
    by_cases hp : p = q
    · rw [hp, update_self]
      exact iff_of_true rfl ⟨hn, rfl⟩
    · rw [update_of_ne hp]
      exact iff_of_false (hfree p) fun heq => hp (Option.some.inj heq.2).symm

theorem dropFrame (hp : own p = some (.user d (pageAt i j))) :
    Owned { m with word := update m.word (t + 4 * j) 0 } l (update own p none) := by
  have honly : ∀ p', own p' = some (.user d (pageAt i j)) → p' = p := by
    intro p' hp'
    rw [h.isUser] at hp hp'
    exact Option.some.inj (hp'.2.2.symm.trans hp.2.2)
  apply h.setPte ht hj (h.page_update (h.page p _ hp) none)
  · intro p' o ho
    refine update_eq_some_iff ?_ nofun
    rw [hp]
    rintro ⟨⟩
    exact ho
  · intro p' d' n' hne
    refine update_eq_some_iff ?_ nofun
    rw [hp]
    rintro ⟨⟩
    exact hne ⟨rfl, rfl⟩
  · intro p'
    refine iff_of_false (fun heq => ?_) fun heq => (nomatch heq.2)
    obtain ⟨hpp, heq⟩ := update_eq heq nofun
    exact hpp (honly p' heq)

theorem setKernel (hn : userPages ≤ pageAt i j) : Owned { m with word := update m.word (t + 4 * j) v } l own := by
  refine h.setPte ht hj h.page (fun _ _ _ => Iff.rfl) (fun _ _ _ _ => Iff.rfl) fun p => ?_
  refine iff_of_false (fun hp => ?_) fun hp => ?_
  · exact absurd ((h.isUser p d _).mp hp).2.1 (Nat.not_lt.mpr hn)
  · exact absurd hp.1 (Nat.not_lt.mpr hn)

end

/-! ### Pages of one address space -/

theorem forget (h : Owned m l own) (d : Nat) : Owned m l (Vm.forget own d) := by
  refine ⟨h.free, fun p o hp => h.page p o (forget_eq_some.mp hp).1, ?_, ?_, ?_⟩
  · intro p
    rw [forget_eq_some, h.isFree]
    exact and_iff_left nofun
  · intro p d' i
    rw [forget_eq_some, forget_eq_some, h.isTable]
    change _ ∧ some d' ≠ some d ↔ (_ ∧ some d' ≠ some d) ∧ _
    tauto
  · intro p d' n
    rw [forget_eq_some, forget_eq_some, h.isUser]
    change _ ∧ some d' ≠ some d ↔ (_ ∧ some d' ≠ some d) ∧ _
    tauto

theorem boot (h : FreeList m l) : Owned m l fun p => if p ∈ l then some .free else none where
  free := h
  page p o hp := by
    split at hp
    · rename_i hin
      exact h.pages p hin
    · cases hp
  isFree p := by
    by_cases hp : p ∈ l
    · rw [if_pos hp]
      exact iff_of_true rfl hp
    · rw [if_neg hp]
      exact iff_of_false nofun hp
  isTable p d i := by
    refine iff_of_false (fun hp => ?_) fun hd => ?_
    · split at hp <;> cases hp
    · have hd := hd.1
      split at hd <;> cases hd
  isUser p d n := by
    refine iff_of_false (fun hp => ?_) fun hd => ?_
    · split at hp <;> cases hp
    · have hd := hd.1
      split at hd <;> cases hd

end Owned

end RainOS.Vm
