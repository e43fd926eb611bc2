import RainOS.Vm.Map
import RainOS.Vm.Shape

/-!
# What new pages hold

The loops of `allocuvm` and `copyuvm` once more, for the words of the pages: a page that is mapped keeps what was put
into it, zeros or a copy, and nothing else that a process can see is written. With the requests for pages this says
when `allocuvm` is right: always but when it runs out of memory at the table of its last page.
-/

namespace RainOS.Vm

open Kalloc Function List

variable {m m₁ m' m'' : Memory} {l l₁ l' pages : List Nat} {own own' own₁ : Nat → Option Owner} {word word' : Nat → Nat}
  {p q d k n a count oldsz newsz pgdir x va : Nat} {F : Nat → Nat} {G : Nat → Nat → Nat}

/-- The pages from `n` up to `n + count` that have frames hold `G`; no other entry has changed, and no word that the
kernel does not follow. -/
structure Stored (G : Nat → Nat → Nat) (d n count : Nat) (m : Memory) (own : Nat → Option Owner) (m' : Memory) :
    Prop where
  kept : ∀ a, Unfollowed own (pgrounddown a) → m'.word a = m.word a
  outside : ∀ k, k / nptentries < npdentries → ¬(n ≤ k ∧ k < n + count) → pteAt m'.word d k = pteAt m.word d k
  new : ∀ k, n ≤ k → k < n + count → ∀ p, frameAt m'.word d k = some p → ∀ x < pgsize, m'.word (p + x) = G k x

theorem pgrounddown_add (hp : p % pgsize = 0) (hx : x < pgsize) : pgrounddown (p + x) = p :=
  (in_page_iff hp).mp ⟨Nat.le_add_right p x, Nat.add_lt_add_left hx p⟩

theorem Stored.none (hsame : ∀ k, k / nptentries < npdentries → pteAt m'.word d k = pteAt m.word d k)
    (hkept : ∀ a, Unfollowed own (pgrounddown a) → m'.word a = m.word a) (hle : n + count ≤ userPages)
    (habsent : ∀ k, n ≤ k → k < n + count → ¬Present (pteAt m.word d k)) : Stored G d n count m own m' := by
  refine ⟨hkept, fun k hk _ => hsame k hk, fun k hlo hhi p hp => ?_⟩
  rw [frameAt_eq_of_eq (hsame k (div_lt (by omega)))] at hp
  exact absurd (decode_eq_some.mp hp).1 (habsent k hlo hhi)

theorem Took.stored (h : Took q m l own m' l') (hd : own d = some .directory) (hle : n + count ≤ userPages)
    (habsent : ∀ k, n ≤ k → k < n + count → ¬Present (pteAt m.word d k)) : Stored G d n count m own m' := by
  refine .none (fun k hk => h.pteAt_eq hd hk) (fun a ha => h.word a ?_) hle habsent
  have hfree : own q = some .free := by
    rw [h.before.isFree, h.split]
    exact mem_cons_self
  exact ne_of_unfollowed ha hfree trivial

theorem Stored.after (htook : Took q m l own m₁ l₁) (hfilled : OneFilled F d n (q :: pages) m l own m' l' own')
    (hplaced : Placed d n q own m₁ m') (hG : ∀ x < pgsize, m₁.word (q + x) = G n x) (hle : n + 1 + count ≤ userPages)
    (h : Stored G d (n + 1) count m' own' m'') : Stored G d n (count + 1) m own m'' := by
  have hfree : ∀ p ∈ q :: pages, own p = some .free := fun p hp => htook.before.free_of_split hfilled.split hp
  have huser : own' q = some (.user d n) := hfilled.owned.own_frame hfilled.live (by omega) hplaced.frame
  refine ⟨fun a ha => ?_, fun k hk hnot => ?_, fun k hlo hhi p hp x hx => ?_⟩
  · have hout : pgrounddown a ∉ q :: pages := fun hin => ha _ (hfree _ hin) trivial
    have ha' : Unfollowed own' (pgrounddown a) := by
      intro o ho
      rw [hfilled.grew.other _ hout] at ho
      exact ha o ho
    rw [h.kept a ha', hplaced.words a (.inr ha), htook.word a (ne_of_not_mem_cons hout)]
  · rw [h.outside k hk (by omega), hfilled.outside k hk (by omega)]
  · obtain rfl | hgt := Nat.eq_or_lt_of_le hlo
    · rw [frameAt_eq_of_eq (h.outside n (div_lt (by omega)) (by omega)), hplaced.frame] at hp
      cases hp
      have hround := pgrounddown_add htook.page.aligned hx
      rw [h.kept _ (by rw [hround]; exact unfollowed_of_user huser), hplaced.words _ (.inl hround), hG x hx]
    · exact h.new k hgt (by omega) p hp x hx

theorem allocLoop_stores (count : Nat) (h : Owned m l own) (hd : own d = some .directory) (hle : n + count ≤ userPages)
    (habsent : ∀ k, n ≤ k → k < n + count → ¬Present (pteAt m.word d k)) :
    Ends (allocLoop d count (n * pgsize)) m (fun _ => Stored (fun _ _ => 0) d n count m own) fun _ _ => False := by
  induction count generalizing n m l own with
  | zero => exact .pure (.none (fun _ _ => rfl) (fun _ _ => rfl) hle habsent)
  | succ count ih =>
    apply allocLoop_step h hd (by omega)
    · intro _
      exact .none (fun _ _ => rfl) (fun _ _ => rfl) hle habsent
    · intro _ hpresent
      exact habsent n (Nat.le_refl n) (by omega) hpresent
    · rintro q rfl - htook
      exact htook.stored hd hle habsent
    · intro q pages m₂ l₂ own₂ hfilled hplaced
      have hsplit : l = q :: (pages ++ l₂) := hfilled.split
      subst hsplit
      have htook := h.took_zero
      refine (ih (n := n + 1) hfilled.owned hfilled.live (by omega) fun k hlo hhi => ?_).post fun _ m₃ hstored =>
        .after htook hfilled hplaced (fun x hx => ?_) (by omega) hstored
      · rw [hfilled.outside k (div_lt (by omega)) (by omega)]
        exact habsent k (by omega) (by omega)
      · exact zeroPage_of_eq htook.page.aligned (pgrounddown_add htook.page.aligned hx)

theorem copyLoop_stores (count : Nat) (h : Owned m l own) (hd : own d = some .directory)
    (hpgdir : own pgdir = some .directory) (hne : pgdir ≠ d) (hkernel : Present (pteAt m.word d userPages))
    (hle : n + count ≤ userPages) (hpresent : ∀ k, n ≤ k → k < n + count → Present (pteAt m.word pgdir k))
    (habsent : ∀ k, n ≤ k → k < n + count → ¬Present (pteAt m.word d k))
    (hG : ∀ k, n ≤ k → k < n + count → ∀ x < pgsize, G k x = m.word (sourceOf m.word pgdir k + x)) :
    Ends (copyLoop d pgdir count (n * pgsize)) m (fun _ => Stored G d n count m own) fun _ _ => False := by
  induction count generalizing n m l own with
  | zero => exact .pure (.none (fun _ _ => rfl) (fun _ _ => rfl) hle habsent)
  | succ count ih =>
    have hmax : userPages = 524288 := rfl
    apply copyLoop_step h hd hpgdir hkernel (by omega)
    · intro _ _ hbad
      exact hbad.elim (fun hno => hno (hpresent n (Nat.le_refl n) (by omega))) (habsent n (Nat.le_refl n) (by omega))
    · intro _
      exact .none (fun _ _ => rfl) (fun _ _ => rfl) hle habsent
    · rintro q rfl - - htook
      exact htook.stored hd hle habsent
    · intro q pages m₂ l₂ own₂ hlt hpn hall hplaced
      have hfilled := hall (fun k => pteFlags (pteAt m.word pgdir k)) rfl
      have hsplit : l = q :: (pages ++ l₂) := hfilled.split
      subst hsplit
      have htook := h.took_copy (sourceOf m.word pgdir n)
      obtain ⟨hpgdir₂, hparent⟩ := hfilled.parent h hpgdir hne
      -- The frames that are still to be copied are user pages of the parent, so they are as they were.
      have hsource : ∀ k, n + 1 ≤ k → k < n + 1 + count → ∀ x < pgsize, G k x = m₂.word (sourceOf m₂.word pgdir k + x) := by
        intro k hlo hhi x hx
        obtain ⟨huser, haccepts⟩ := h.accepts hpgdir (n := k) (by omega) (hpresent k (by omega) (by omega))
        have hkept : m₂.word (sourceOf m.word pgdir k + x) = m.word (sourceOf m.word pgdir k + x) := by
          have hround := pgrounddown_add (p := sourceOf m.word pgdir k) haccepts.1 hx
          have hunfollowed : Unfollowed own (pgrounddown (sourceOf m.word pgdir k + x)) := by
            rw [hround]
            exact unfollowed_of_user huser
          rw [hplaced.words _ (.inr hunfollowed), htook.word _ (by rw [hround]; exact htook.ne huser nofun)]
        have hsame : sourceOf m₂.word pgdir k = sourceOf m.word pgdir k := by
          rw [sourceOf, sourceOf, hparent k (by omega)]
        rw [hG k (by omega) (by omega) x hx, hsame, hkept]
      refine (ih (n := n + 1) hfilled.owned hfilled.live hpgdir₂ ?_ (by omega) (fun k hlo hhi => ?_) (fun k hlo hhi => ?_)
        hsource).post fun _ m₃ hstored => .after htook hfilled hplaced (fun x hx => ?_) (by omega) hstored
      · rwa [hfilled.outside _ (by decide) (by omega)]
      · rw [hparent k (by omega)]
        exact hpresent k (by omega) (by omega)
      · rw [hfilled.outside k (div_lt (by omega)) (by omega)]
        exact habsent k (by omega) (by omega)
      · rw [hG n (Nat.le_refl n) (by omega) x hx]
        exact copyPage_of_eq hx

/-! ### What a process sees -/

def byteAt (word : Nat → Nat) (d va : Nat) : Option Nat :=
  (translate word d va).map fun a => word (a / 4 * 4) / 256 ^ (a % 4) % 256

theorem translate_eq (hva : va < 2 ^ 32) :
    translate word d va = (frameAt word d (va / pgsize)).map (· + va % pgsize) := by
  have hptx : ptx va = va / pgsize % nptentries := rfl
  unfold translate
  rw [pdx_eq hva, hptx]
  by_cases hpde : Present (word (d + 4 * (va / pgsize / nptentries)))
  · have htable : tableAt word d (va / pgsize / nptentries) = some (p2v (pteAddr (word (d + 4 * (va / pgsize / nptentries))))) :=
      decode_eq_some.mpr ⟨hpde, rfl⟩
    rw [frameAt_of_some htable, target, decode]
    by_cases hpte : Present (word (p2v (pteAddr (word (d + 4 * (va / pgsize / nptentries)))) + 4 * (va / pgsize % nptentries)))
    · rw [if_pos ⟨hpde, hpte⟩, if_pos hpte]
      rfl
    · rw [if_neg fun hf => hpte hf.2, if_neg hpte]
      rfl
  · have htable : tableAt word d (va / pgsize / nptentries) = none := if_neg hpde
    rw [if_neg fun hf => hpde hf.1, frameAt_of_none htable]
    rfl

theorem pgrounddown_frame (hp : p % pgsize = 0) (hx : x < pgsize) : pgrounddown ((p + x) / 4 * 4) = p := by
  simp only [pgrounddown, pgsize] at hp hx ⊢
  omega

theorem byteAt_congr (hva : va < 2 ^ 32) (hframe : frameAt word' d (va / pgsize) = frameAt word d (va / pgsize))
    (hword : ∀ p, frameAt word d (va / pgsize) = some p → ∀ a, pgrounddown a = p → word' a = word a) :
    byteAt word' d va = byteAt word d va := by
  rw [byteAt, byteAt, translate_eq hva, translate_eq hva, hframe]
  cases hp : frameAt word d (va / pgsize) with
  | none => rfl
  | some p =>
    have hround := pgrounddown_frame (decode_aligned hp) (x := va % pgsize) (Nat.mod_lt _ (by decide))
    rw [Option.map_some, Option.map_some, Option.map_some, hword p hp _ hround]

/-! ### allocuvm -/

theorem allocuvm_stores (h : Owned m l own) (hd : own d = some .directory) (hle : oldsz ≤ newsz) (hsmall : newsz < kernbase)
    (habsent : ∀ k, npages oldsz ≤ k → k < npages newsz → ¬Present (pteAt m.word d k)) :
    Ends (allocuvm d oldsz newsz) m (fun r m' => r ≠ 0 →
      Stored (fun _ _ => 0) d (npages oldsz) (npages newsz - npages oldsz) m own m') fun _ _ => True := by
  have hmono := npages_mono hle
  have hmax := npages_le (Nat.le_of_lt hsmall)
  unfold allocuvm
  rw [if_neg (Nat.not_le_of_lt hsmall), if_neg (Nat.not_lt_of_le hle), pgroundup_eq (by omega), npages_sub]
  refine .bind (allocLoop_stores _ h hd (by omega) fun k hlo hhi => habsent k hlo (by omega)).returns fun r m₁ hr => ?_
  cases r with
  | true => exact .pure fun _ => hr
  | false =>
    rw [if_neg Bool.false_ne_true]
    exact Ends.always.bind fun _ _ _ => Ends.pure fun hne => absurd rfl hne

/-- Every page from the old size up to the new one is present, for the user and writable; its frame was free and holds
zeros, and no two pages have the same. No other entry has changed. -/
structure Grown (d oldsz newsz : Nat) (m : Memory) (l : List Nat) (m' : Memory) : Prop where
  fresh : ∀ k, npages oldsz ≤ k → k < npages newsz → ∃ p ∈ l, frameAt m'.word d k = some p ∧
    pteFlags (pteAt m'.word d k) = pteW ||| pteU ||| pteP ∧ ∀ x < pgsize, m'.word (p + x) = 0
  distinct : ∀ j, npages oldsz ≤ j → j < npages newsz → ∀ k, npages oldsz ≤ k → k < npages newsz →
    frameAt m'.word d j = frameAt m'.word d k → j = k
  other : ∀ k < 2 ^ 20, ¬(npages oldsz ≤ k ∧ k < npages newsz) → pteAt m'.word d k = pteAt m.word d k

/-- No page from the old size up to the new one is present, and no other entry has changed. -/
structure Undone (d oldsz newsz : Nat) (m m' : Memory) : Prop where
  absent : ∀ k, npages oldsz ≤ k → k < npages newsz → ¬Present (pteAt m'.word d k)
  other : ∀ k < 2 ^ 20, ¬(npages oldsz ≤ k ∧ k < npages newsz) → pteAt m'.word d k = pteAt m.word d k

/-- There is a page for every request but the last, and that one is for a table. -/
def LastTable (word : Nat → Nat) (d oldsz newsz free : Nat) : Prop :=
  growRequest word d oldsz newsz free = some .table ∧
    (requests (hasTable word d) (npages oldsz) (npages newsz - npages oldsz)).length = free + 1

theorem Filled.grown (h : Filled userFlags d (npages oldsz) (npages newsz - npages oldsz) pages m l own m' l' own')
    (hbefore : Owned m l own) (hshape : Shaped m own d oldsz) (hle : oldsz ≤ newsz) (hsmall : newsz < kernbase)
    (hstored : Stored (fun _ _ => 0) d (npages oldsz) (npages newsz - npages oldsz) m own m') :
    Grown d oldsz newsz m l m' := by
  have hmono := npages_mono hle
  have hmax := npages_le (Nat.le_of_lt hsmall)
  have hin : ∀ k, npages oldsz ≤ k → k < npages newsz → frameAt m'.word d k = some (p2v (pteAddr (pteAt m'.word d k))) :=
    fun k hlo hhi => decode_eq_some.mpr ⟨(h.inside k hlo (by omega)).1, rfl⟩
  have hown : ∀ k, npages oldsz ≤ k → k < npages newsz → ∀ p, frameAt m'.word d k = some p → own' p = some (.user d k) :=
    fun k _ hhi p hp => h.owned.own_frame h.live (by omega) hp
  refine ⟨fun k hlo hhi => ⟨_, ?_, hin k hlo hhi, (h.inside k hlo (by omega)).2, ?_⟩, fun j hj hj' k hk hk' heq => ?_,
    fun k hk hnot => h.outside k (page_lt hk) (by omega)⟩
  · -- A frame that was the page's before the call would make the page present before it.
    by_contra hnot
    have hsame := h.grew.other _ fun hin => hnot (h.split ▸ mem_append_left _ hin)
    have huser := hown k hlo hhi _ (hin k hlo hhi)
    rw [hsame, hbefore.isUser] at huser
    exact hshape.absent k hlo huser.2.1 (decode_eq_some.mp huser.2.2).1
  · exact hstored.new k hlo (by omega) _ (hin k hlo hhi)
  · have hj'' := hown j hj hj' _ (hin j hj hj')
    have hk'' := hown k hk hk' _ (heq ▸ hin j hj hj')
    rw [hj''] at hk''
    cases hk''
    rfl

theorem Partway.undone (h : Partway d oldsz n pages m₁ own₁)
    (howned : Owned m₁ [] own₁) (hle : npages oldsz + n ≤ npages newsz) (hsmall : newsz < kernbase)
    (hsame : ∀ k < 2 ^ 20, ¬(npages oldsz ≤ k ∧ k < npages newsz) → pteAt m₁.word d k = pteAt m.word d k)
    (hdrop : DropEnds d (npages oldsz) (npages newsz) m₁ [] own₁ m') : Undone d oldsz newsz m m' := by
  have hmax := npages_le (Nat.le_of_lt hsmall)
  obtain ⟨_, _, -, -, hshape, -⟩ := h.dropped howned hle hdrop
  obtain ⟨freed, l', own', hdropped, -⟩ := hdrop
  refine ⟨fun k hlo hhi => hshape.absent k hlo (by omega), fun k hk hout => ?_⟩
  obtain heq | ⟨hge, hlt, -⟩ := hdropped.entries k (page_lt hk)
  · rw [heq, hsame k hk hout]
  · exact absurd ⟨hge, hlt⟩ hout

/-- How `allocuvm` ends: everything is mapped, or the last page is not and it does not notice, or nothing is. -/
inductive AllocuvmStores (d oldsz newsz : Nat) (m : Memory) (l : List Nat) (own : Nat → Option Owner) :
    Nat → Memory → Prop
  | grown (m' : Memory) (henough : ¬LastTable m.word d oldsz newsz l.length)
      (hother : ∀ k < 2 ^ 20, ¬(npages oldsz ≤ k ∧ k < npages newsz) → pteAt m'.word d k = pteAt m.word d k)
      (hgrown : newsz ≠ 0 → Grown d oldsz newsz m l m' ∧ ∀ a, Unfollowed own (pgrounddown a) → m'.word a = m.word a) :
      AllocuvmStores d oldsz newsz m l own newsz m'
  | short (m' : Memory) (hlast : LastTable m.word d oldsz newsz l.length) (hpos : newsz ≠ 0)
      (hmissing : ∃ k, npages oldsz ≤ k ∧ k < npages newsz ∧ frameAt m'.word d k = none) :
      AllocuvmStores d oldsz newsz m l own newsz m'
  | undone (m' : Memory) (henough : ¬LastTable m.word d oldsz newsz l.length) (hpos : newsz ≠ 0)
      (hundone : Undone d oldsz newsz m m') : AllocuvmStores d oldsz newsz m l own 0 m'

theorem allocuvm_stored (h : Owned m l own) (hshape : Shaped m own d oldsz) (hend : kernbase < m.kernelEnd)
    (hle : oldsz ≤ newsz) (hsmall : newsz < kernbase) :
    Ends (allocuvm d oldsz newsz) m (AllocuvmStores d oldsz newsz m l own) fun _ _ => False := by
  have hmono := npages_mono hle
  have hmax := npages_le (Nat.le_of_lt hsmall)
  have hpos : ∀ k, k < npages newsz → newsz ≠ 0 := by
    rintro k hk rfl
    cases hk
  have hspec : Ends (allocuvm d oldsz newsz) m (AllocuvmEnds d oldsz newsz m l own) fun _ _ => False :=
    (allocuvm_spec oldsz newsz h hshape.live hend).stop fun _ _ ⟨_, k, hk, hlo, _, hpresent⟩ =>
      hshape.absent k hlo hk hpresent
  have hstores := allocuvm_stores h hshape.live hle hsmall fun k hlo hhi => hshape.absent k hlo (by omega)
  refine (hspec.and hstores).post fun r m' hr => ?_
  obtain ⟨hends, hstored⟩ := hr
  cases hends with
  | refused hbig => exact absurd hbig (Nat.not_le_of_lt hsmall)
  | kept _ hlt => exact absurd hlt (Nat.not_lt_of_le hle)
  | grown pages l' _ own' _ _ hfilled hlen =>
    refine .grown m' (fun hlast => ?_) (fun k hk hnot => hfilled.outside k (page_lt hk) (by omega)) fun hne =>
      ⟨hfilled.grown h hshape hle hsmall (hstored hne), (hstored hne).kept⟩
    have hlength := hlast.2
    rw [← hlen, hfilled.split, length_append] at hlength
    omega
  | short k q pages m₁ _ own₁ _ _ hlast hfilled hmissing htook hreq hcount =>
    have hk : npages oldsz + k < npages newsz := by omega
    refine .short m' ⟨hreq, hcount⟩ (hpos _ hk) ⟨npages oldsz + k, Nat.le_add_right _ _, hk, ?_⟩
    rw [frameAt_eq_of_eq (htook.pteAt_eq hfilled.live (div_lt (by omega))), frameAt_of_none hmissing]
  | failed k m₁ _ own₁ _ _ hk hfilled hreq hdrop =>
    have hpage : growRequest m.word d oldsz newsz l.length = some .page := hreq
    refine .undone m' (fun hlast => ?_) (hpos _ hk) ?_
    · rw [hlast.1] at hpage
      cases hpage
    · exact (hfilled.partway h hshape).undone hfilled.owned (Nat.le_of_lt hk) hsmall
        (fun j hj hout => hfilled.outside j (page_lt hj) (by omega)) hdrop
  | leaked k q pages m₁ m₂ _ own₁ _ _ hk hfilled hmissing htook hreq hcount hdrop =>
    refine .undone m' (fun hlast => hcount hlast.2) (hpos _ hk) ?_
    refine ((hfilled.partway h hshape).took htook).undone htook.owned (Nat.le_of_lt hk) hsmall (fun j hj hout => ?_) hdrop
    rw [htook.pteAt_eq hfilled.live (page_lt hj), hfilled.outside j (page_lt hj) (by omega)]

/-- `allocuvm` either maps everything or nothing, and says which, unless the page it cannot get is one for the table of
the last page. -/
theorem allocuvm_all_or_nothing_iff (oldsz newsz : Nat) (h : Owned m l own) (hshape : Shaped m own d oldsz)
    (hend : kernbase < m.kernelEnd) (hle : oldsz ≤ newsz) (hsmall : newsz < kernbase) :
    ∃ r m', allocuvm d oldsz newsz m = .ok r m' ∧ (r = newsz ∨ r = 0) ∧
      (((r = newsz ∧ newsz ≠ 0 → Grown d oldsz newsz m l m') ∧ (r = 0 → Undone d oldsz newsz m m')) ↔
        ¬LastTable m.word d oldsz newsz l.length) := by
  obtain ⟨r, m', hrun, hends⟩ := (allocuvm_stored h hshape hend hle hsmall).exists_ok
  refine ⟨r, m', hrun, ?_⟩
  cases hends with
  | grown _ henough hother hgrown =>
    refine ⟨.inl rfl, iff_of_true ⟨fun hr => (hgrown hr.2).1, fun hzero => ⟨fun k _ hk => ?_, hother⟩⟩ henough⟩
    rw [hzero] at hk
    cases hk
  | short _ hlast hpos hmissing =>
    refine ⟨.inl rfl, iff_of_false (fun hright => ?_) (not_not_intro hlast)⟩
    obtain ⟨k, hlo, hhi, hnone⟩ := hmissing
    obtain ⟨p, -, hframe, -⟩ := (hright.1 ⟨rfl, hpos⟩).fresh k hlo hhi
    rw [hnone] at hframe
    cases hframe
  | undone _ henough hpos hundone =>
    exact ⟨.inr rfl, iff_of_true ⟨fun hr => absurd hr.1.symm hpos, fun _ => hundone⟩ henough⟩

theorem owned_oneFree : ∃ own, Owned oneFree [0x80300000] own ∧ Shaped oneFree own 0x80200000 0 := by
  have hd : 0x80200000 ∉ [0x80300000] := by decide
  have howned := (Owned.boot tables_oneFree.free).newDir (if_neg hd) ⟨by decide, by decide⟩ fun _ _ => rfl
  refine ⟨_, howned, update_self .., by decide, fun k hk => (nomatch hk), fun k _ hk => ?_⟩
  have hzero : pteAt oneFree.word 0x80200000 k = 0 := pteAt_of_none rfl
  rw [hzero]
  decide

theorem allocuvm_all_or_nothing_iff_oneFree : ∃ r m', allocuvm 0x80200000 0 8192 oneFree = .ok r m' ∧
    (r = 0 → Undone 0x80200000 0 8192 oneFree m') := by
  obtain ⟨own, howned, hshape⟩ := owned_oneFree
  obtain ⟨r, m', hrun, -, hiff⟩ := allocuvm_all_or_nothing_iff 0 8192 howned hshape (by decide) (by decide) (by decide)
  exact ⟨r, m', hrun, (hiff.mpr fun hlast => absurd hlast.2 (by decide)).2⟩

/-- The only free page becomes the frame, there is none for the table, and the call succeeds. -/
theorem allocuvm_overlooks_table : ∃ m', allocuvm 0x80200000 0 4096 oneFree = .ok 4096 m' ∧
    npages 0 ≤ 0 ∧ 0 < npages 4096 ∧ ¬Present (pteAt m'.word 0x80200000 0) := by
  obtain ⟨own, howned, -⟩ := owned_oneFree
  have hmap : mappages 0x80200000 0 pgsize (v2p 0x80300000) (pteW ||| pteU) (withPage oneFree 0x80300000) =
      .ok (-1) (withPage oneFree 0x80300000) := by
    rw [show (0 : Nat) = 0 * pgsize from rfl, mappages_page (by decide)]
    unfold mapLoop
    rw [bind_ok _ (walkpgdir_full howned.took_zero.owned.free (by decide))]
    rfl
  have hloop : allocLoop 0x80200000 1 0 oneFree = .ok true (withPage oneFree 0x80300000) := by
    unfold allocLoop
    rw [bind_ok _ howned.free.kalloc_cons.1, if_neg (by decide), bind_ok _ (memset0_run ..), bind_ok _ hmap]
    rfl
  refine ⟨withPage oneFree 0x80300000, ?_, by decide, by decide, by decide⟩
  unfold allocuvm
  rw [if_neg (by decide), if_neg (by decide)]
  exact bind_ok _ hloop

end RainOS.Vm
