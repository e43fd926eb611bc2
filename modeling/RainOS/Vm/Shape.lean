import RainOS.Vm.Space

/-!
# The shape of an address space

The pages a process may use are those below its size: exactly these are present. Growing, shrinking and
copying an address space keep this, and leave every page alone that is neither free nor the address
space's own.
-/

namespace RainOS.Vm

open Kalloc Function List

variable {m m' m'' : Memory} {l l' pages freed : List Nat} {own own' own'' : Nat → Option Owner} {word F : Nat → Nat}
  {p q d i n t a lo hi sz oldsz newsz count k : Nat}

/-! ### What is left alone -/

/-- The pages outside `S` have the owners and the words they had. -/
structure Frame (S : Nat → Prop) (m : Memory) (own : Nat → Option Owner) (m' : Memory)
    (own' : Nat → Option Owner) : Prop where
  kernelEnd : m'.kernelEnd = m.kernelEnd
  own : ∀ p, ¬S p → own' p = own p
  word : ∀ a, ¬S (pgrounddown a) → m'.word a = m.word a

variable {S S' : Nat → Prop}

theorem Frame.refl (S : Nat → Prop) (m : Memory) (own : Nat → Option Owner) : Frame S m own m own :=
  ⟨rfl, fun _ _ => rfl, fun _ _ => rfl⟩

theorem Frame.trans (h : Frame S m own m' own') (h' : Frame S m' own' m'' own'') : Frame S m own m'' own'' :=
  ⟨h'.kernelEnd.trans h.kernelEnd, fun p hp => (h'.own p hp).trans (h.own p hp),
    fun a ha => (h'.word a ha).trans (h.word a ha)⟩

theorem Frame.mono (h : Frame S m own m' own') (hS : ∀ p, S p → S' p) : Frame S' m own m' own' :=
  ⟨h.kernelEnd, fun p hp => h.own p (mt (hS p) hp), fun a ha => h.word a (mt (hS _) ha)⟩

/-- The pages that changing one address space may touch: the free ones and its own. -/
def Free (l : List Nat) (own : Nat → Option Owner) (d p : Nat) : Prop := p ∈ l ∨ spaceOf own p = some d

theorem Grew.frame (h : Grew d pages m own m' own') (hsub : ∀ p ∈ pages, p ∈ l) : Frame (Free l own d) m own m' own' :=
  ⟨h.kernelEnd, fun p hp => h.other p fun hin => hp (.inl (hsub p hin)),
    fun a ha => h.word a (fun hin => ha (.inl (hsub _ hin))) fun hspace => ha (.inr hspace)⟩

theorem Filled.frame (h : Filled F d n count pages m l own m' l' own') :
    Frame (Free l own d) m own m' own' :=
  h.grew.frame fun p hp => by
    rw [h.split]
    exact mem_append_left _ hp

theorem Took.frame (h : Took q m l own m' l') : Frame (· = q) m own m' (update own q none) :=
  ⟨h.kernelEnd, fun _ hp => update_of_ne hp _ _, fun a ha => h.word a ha⟩

theorem Dropped.frame (h : Dropped d lo hi freed m l own m' l' own') :
    Frame (fun p => spaceOf own p = some d) m own m' own' := by
  have hfreed : ∀ p, ¬spaceOf own p = some d → p ∉ freed := by
    intro p hp hin
    obtain ⟨n, -, -, huser⟩ := h.user p hin
    exact hp (spaceOf_of_own huser)
  exact ⟨h.kernelEnd, fun p hp => h.other p (hfreed p hp), fun a ha => h.word a (hfreed _ ha) ha⟩

theorem Grew.keeps_space (h : Grew d pages m own m' own') (hp : spaceOf own p = some d) :
    spaceOf own' p = some d := by
  by_cases hin : p ∈ pages
  · exact h.mine p hin
  · rwa [spaceOf_eq (h.other p hin)]

theorem Took.keeps_space (h : Took q m l own m' l') (hp : spaceOf own p = some d) :
    spaceOf (update own q none) p = some d := by
  have hne : p ≠ q := by
    rintro rfl
    have hfree : own p = some .free := by
      rw [h.before.isFree, h.split]
      exact mem_cons_self
    rw [spaceOf_of_own hfree] at hp
    cases hp
  rwa [spaceOf_eq (update_of_ne hne _ _)]

theorem Dropped.keeps_space (h : Dropped d lo hi freed m l own m' l' own') (hp : spaceOf own p = some d) :
    Free l' own' d p := by
  by_cases hin : p ∈ freed
  · exact .inl ((h.owned.isFree p).mp (h.mine p hin))
  · right
    rwa [spaceOf_eq (h.other p hin)]

theorem freevm_frame (h : Owned m l own) (hd : own d = some .directory) (hend : kernbase < m.kernelEnd) :
    Ends (freevm d) m (fun _ m' => (∃ l', Owned m' l' (release own d)) ∧
      Frame (fun p => spaceOf own p = some d) m own m' (release own d)) fun _ _ => False :=
  (freevm_spec h hd hend).post fun _ _ ⟨howned, hend', _, hword⟩ => ⟨howned, hend', fun _ hp => if_neg hp, hword⟩

theorem Frame.free_sub (h : Frame (Free l own d) m own m' own') (hbefore : Owned m l own)
    (hafter : Owned m' l' own') (hp : Free l' own' d p) : Free l own d p := by
  by_contra hnot
  have hsame := h.own p hnot
  obtain hin | hspace := hp
  · rw [← hafter.isFree, hsame] at hin
    exact hnot (.inl ((hbefore.isFree p).mp hin))
  · rw [Vm.spaceOf_eq hsame] at hspace
    exact hnot (.inr hspace)

theorem Frame.pteAt_eq (h : Frame S m own m' own') (hbefore : Owned m l own) (hd : own d = some .directory)
    (hS : ∀ p, spaceOf own p = some d → ¬S p) (hn : n / nptentries < npdentries) :
    pteAt m'.word d n = pteAt m.word d n := by
  apply hbefore.pteAt_congr hd hn
  · intro a ha
    exact h.word a (hS _ (by rw [ha]; exact spaceOf_of_own hd))
  · intro t ht a ha
    exact h.word a (hS _ (by rw [ha]; exact spaceOf_of_own ht))

/-! ### Shapes -/

/-- The present user pages are exactly those below the size. -/
structure Shaped (m : Memory) (own : Nat → Option Owner) (d sz : Nat) : Prop where
  live : own d = some .directory
  small : sz < kernbase
  present : ∀ k < npages sz, Present (pteAt m.word d k)
  absent : ∀ k, npages sz ≤ k → k < userPages → ¬Present (pteAt m.word d k)

theorem Shaped.congr (h : Shaped m own d sz) (hlive : own' d = some .directory)
    (hsame : ∀ k < userPages, pteAt m'.word d k = pteAt m.word d k) : Shaped m' own' d sz := by
  have hmax := npages_le (Nat.le_of_lt h.small)
  refine ⟨hlive, h.small, fun k hk => ?_, fun k hlo hhi => ?_⟩
  · rw [hsame k (by omega)]
    exact h.present k hk
  · rw [hsame k hhi]
    exact h.absent k hlo hhi

theorem Shaped.frame (h : Shaped m own d sz) (hbefore : Owned m l own) (hframe : Frame S m own m' own')
    (hS : ∀ p, spaceOf own p = some d → ¬S p) : Shaped m' own' d sz :=
  h.congr (by rw [hframe.own d (hS d (spaceOf_of_own h.live)), h.live]) fun _ hk =>
    hframe.pteAt_eq hbefore h.live hS (div_lt hk)

theorem Owned.accepts (h : Owned m l own) (hd : own d = some .directory) (hn : n < userPages)
    (hpresent : Present (pteAt m.word d n)) :
    own (p2v (pteAddr (pteAt m.word d n))) = some (.user d n) ∧
      Accepts m.kernelEnd (p2v (pteAddr (pteAt m.word d n))) := by
  have hframe : own (p2v (pteAddr (pteAt m.word d n))) = some (.user d n) :=
    h.own_frame hd hn (decode_eq_some.mpr ⟨hpresent, rfl⟩)
  exact ⟨hframe, (h.page _ _ hframe).1⟩

theorem Filled.shaped (h : Filled F d (npages sz) n pages m l own m' l' own')
    (hshape : Shaped m own d sz) (hsmall : newsz < kernbase) (hcount : npages sz + n = npages newsz) :
    Shaped m' own' d newsz := by
  have hmax := npages_le (Nat.le_of_lt hsmall)
  refine ⟨h.live, hsmall, fun k hk => ?_, fun k hlo hhi => ?_⟩
  · by_cases hin : npages sz ≤ k
    · exact (h.inside k hin (by omega)).1
    · rw [h.outside k (div_lt (by omega)) (by omega)]
      exact hshape.present k (by omega)
  · rw [h.outside k (div_lt hhi) (by omega)]
    exact hshape.absent k (by omega) hhi

theorem Dropped.shaped (h : Dropped d (npages newsz) hi freed m l own m' l' own')
    (hd : own d = some .directory) (hsmall : newsz < kernbase)
    (hpresent : ∀ k < npages newsz, Present (pteAt m.word d k))
    (habsent : ∀ k, npages newsz ≤ k → k < userPages → Present (pteAt m.word d k) → k < hi ∧
      ¬Present (pteAt m'.word d k)) : Shaped m' own' d newsz := by
  have hmax := npages_le (Nat.le_of_lt hsmall)
  refine ⟨h.live hd, hsmall, fun k hk => ?_, fun k hlo hhi hp => ?_⟩
  · obtain heq | ⟨hge, -⟩ := h.entries k (div_lt (by omega))
    · rw [heq]
      exact hpresent k hk
    · omega
  · obtain heq | ⟨-, -, hzero⟩ := h.entries k (div_lt hhi)
    · exact (habsent k hlo hhi (heq ▸ hp)).2 hp
    · rw [hzero] at hp
      exact absurd hp (by decide)

/-! ### Growing a shape -/

/-- The free pages a call has not given back: tables that stay, and a page that was lost. -/
structure Returned (d : Nat) (l : List Nat) (m' : Memory) (l' : List Nat) (own' : Nat → Option Owner)
    (lost : Option Nat) : Prop where
  sub : ∀ p ∈ l', p ∈ l
  back : ∀ p ∈ l, some p ≠ lost → p ∈ l' ∨ ∃ i < npdentries, tableAt m'.word d i = some p
  gone : ∀ q, lost = some q → q ∈ l ∧ own' q = none

def growRequest (word : Nat → Nat) (d oldsz newsz free : Nat) : Option Request :=
  (requests (hasTable word d) (npages oldsz) (npages newsz - npages oldsz))[free]?

inductive GrowEnds (d oldsz newsz : Nat) (m : Memory) (l : List Nat) (own : Nat → Option Owner) :
    Nat → Memory → Prop
  | refused (hbig : kernbase ≤ newsz) : GrowEnds d oldsz newsz m l own 0 m
  | kept (hsmall : newsz < kernbase) (hlt : newsz < oldsz) : GrowEnds d oldsz newsz m l own oldsz m
  | grown (pages l' : List Nat) (m' : Memory) (own' : Nat → Option Owner) (hsmall : newsz < kernbase)
      (hle : oldsz ≤ newsz)
      (hfilled : Filled userFlags d (npages oldsz) (npages newsz - npages oldsz) pages m l own m' l' own')
      (hlen : pages.length =
        (requests (hasTable m.word d) (npages oldsz) (npages newsz - npages oldsz)).length)
      (hshape : Shaped m' own' d newsz) : GrowEnds d oldsz newsz m l own newsz m'
  | short (m' : Memory) (l' : List Nat) (own' : Nat → Option Owner) (hsmall : newsz < kernbase)
      (hle : oldsz ≤ newsz) (hreq : growRequest m.word d oldsz newsz l.length = some .table)
      (hlast : (requests (hasTable m.word d) (npages oldsz) (npages newsz - npages oldsz)).length = l.length + 1)
      (howned : Owned m' l' own') (hframe : Frame (Free l own d) m own m' own')
      (hmissing : ∃ k < npages newsz, ¬Present (pteAt m'.word d k)) : GrowEnds d oldsz newsz m l own newsz m'
  | failed (m' : Memory) (l' : List Nat) (own' : Nat → Option Owner) (lost : Option Nat) (hsmall : newsz < kernbase)
      (hle : oldsz ≤ newsz) (howned : Owned m' l' own') (hframe : Frame (Free l own d) m own m' own')
      (hshape : Shaped m' own' d oldsz) (hmine : ∀ p, spaceOf own p = some d → Free l' own' d p)
      (hreturned : Returned d l m' l' own' lost)
      (hreq : growRequest m.word d oldsz newsz l.length = some (if lost = none then .page else .table)) :
      GrowEnds d oldsz newsz m l own 0 m'

/-- An address space that has grown by some pages and is to shrink again. -/
structure Partway (d oldsz k : Nat) (pages : List Nat) (m : Memory) (own : Nat → Option Owner) : Prop where
  live : own d = some .directory
  small : oldsz < kernbase
  mine : ∀ p ∈ pages, (∃ i, own p = some (.table d i)) ∨ ∃ n, npages oldsz ≤ n ∧ own p = some (.user d n)
  new : ∀ p n, own p = some (.user d n) → npages oldsz ≤ n → p ∈ pages
  present : ∀ j < npages oldsz, Present (pteAt m.word d j)
  anchored : ∀ j, npages oldsz ≤ j → j < userPages → Present (pteAt m.word d j) →
    j < npages oldsz + k ∧ Anchored m.word d (npages oldsz)

theorem tableAt_ne_none (h : Present (pteAt word d n)) : tableAt word d (n / nptentries) ≠ none := by
  intro hnone
  rw [pteAt_of_none hnone] at h
  exact absurd h (by decide)

theorem Filled.partway (h : Filled F d (npages sz) k pages m l own m' l' own')
    (hbefore : Owned m l own) (hshape : Shaped m own d sz) : Partway d sz k pages m' own' := by
  have hmax := npages_le (Nat.le_of_lt hshape.small)
  have hfree : ∀ p ∈ pages, own p = some .free := fun p hp => hbefore.free_of_split h.split hp
  have hsame : ∀ j < userPages, ¬(npages sz ≤ j ∧ j < npages sz + k) → pteAt m'.word d j = pteAt m.word d j :=
    fun j hj hnot => h.outside j (div_lt hj) hnot
  refine ⟨h.live, hshape.small, fun p hp => ?_, fun p n hp hn => ?_, fun j hj => ?_, fun j hlo hhi hp => ?_⟩
  · obtain ⟨heq, -⟩ | htable | ⟨n, huser⟩ := spaceOf_eq_some.mp (h.grew.mine p hp)
    · have hd := hfree p hp
      rw [heq, hshape.live] at hd
      cases hd
    · exact .inl htable
    · refine .inr ⟨n, ?_, huser⟩
      by_contra hlt
      obtain ⟨-, hn, hframe⟩ := (h.owned.isUser p d n).mp huser
      rw [frameAt_eq_of_eq (hsame n hn (by omega))] at hframe
      have hown := hbefore.own_frame hshape.live hn hframe
      rw [hfree p hp] at hown
      cases hown
  · by_contra hnot
    rw [h.grew.other p hnot] at hp
    obtain ⟨-, hlt, hframe⟩ := (hbefore.isUser p d n).mp hp
    exact hshape.absent n hn hlt (decode_eq_some.mp hframe).1
  · rw [hsame j (by omega) (by omega)]
    exact hshape.present j hj
  · have hlt : j < npages sz + k := by
      by_contra hge
      rw [hsame j hhi (by omega)] at hp
      exact hshape.absent j hlo hhi hp
    exact ⟨hlt, .inr (tableAt_ne_none (h.inside (npages sz) (Nat.le_refl _) (by omega)).1)⟩

theorem Partway.took (h : Partway d sz k pages m own) (htook : Took q m l own m' l') :
    Partway d sz k pages m' (update own q none) := by
  have hpte : ∀ j < userPages, pteAt m'.word d j = pteAt m.word d j := fun j hj => htook.pteAt_eq h.live (div_lt hj)
  have hmax := npages_le (Nat.le_of_lt h.small)
  refine ⟨htook.live h.live, h.small, fun p hp => ?_, fun p n hp => ?_, fun j hj => ?_, fun j hlo hhi hp => ?_⟩
  · obtain ⟨i, htable⟩ | ⟨n, hn, huser⟩ := h.mine p hp
    · rw [update_of_ne (htook.ne htable nofun)]
      exact .inl ⟨i, htable⟩
    · rw [update_of_ne (htook.ne huser nofun)]
      exact .inr ⟨n, hn, huser⟩
  · exact h.new p n (update_eq hp nofun).2
  · rw [hpte j (by omega)]
    exact h.present j hj
  · rw [hpte j hhi] at hp
    obtain ⟨hlt, hanchor⟩ := h.anchored j hlo hhi hp
    refine ⟨hlt, hanchor.imp_right fun hne => ?_⟩
    rwa [htook.tableAt_eq h.live (div_lt (by omega))]

theorem Partway.dropped (h : Partway d sz k pages m own) (hbefore : Owned m [] own)
    (hle : npages sz + k ≤ hi) (hends : DropEnds d (npages sz) hi m [] own m') :
    ∃ l' own', Owned m' l' own' ∧ Frame (fun p => spaceOf own p = some d) m own m' own' ∧ Shaped m' own' d sz ∧
      (∀ p, spaceOf own p = some d → Free l' own' d p) ∧ Returned d pages m' l' own' none := by
  obtain ⟨freed, l', own', hdropped, hclear⟩ := hends
  have hfreed : ∀ p, p ∈ l' ↔ p ∈ freed := by
    intro p
    rw [hdropped.split, append_nil]
  have hgone : ∀ j, npages sz ≤ j → j < userPages → Present (pteAt m.word d j) → ¬Present (pteAt m'.word d j) :=
    fun j hlo hhi hp => hclear (h.anchored j hlo hhi hp).2 j hlo (by have := (h.anchored j hlo hhi hp).1; omega)
  refine ⟨l', own', hdropped.owned, hdropped.frame, ?_, fun _ hp => hdropped.keeps_space hp, fun p hp => ?_,
    fun p hp _ => ?_, fun _ hq => (nomatch hq)⟩
  · refine hdropped.shaped h.live h.small h.present fun j hlo hhi hp => ⟨?_, hgone j hlo hhi hp⟩
    have hlt := (h.anchored j hlo hhi hp).1
    omega
  · obtain ⟨n, hlo, -, huser⟩ := hdropped.user p ((hfreed p).mp hp)
    exact h.new p n huser hlo
  · rw [hfreed]
    by_cases hin : p ∈ freed
    · exact .inl hin
    · have hsame := hdropped.other p hin
      obtain ⟨i, htable⟩ | ⟨n, hn, huser⟩ := h.mine p hp
      · rw [← hsame] at htable
        have hentry := (hdropped.owned.isTable p d i).mp htable
        exact .inr ⟨i, hentry.2⟩
      · have hlt := ((hbefore.isUser p d n).mp huser).2
        rw [← hsame] at huser
        have hframe := ((hdropped.owned.isUser p d n).mp huser).2.2
        exact absurd (decode_eq_some.mp hframe).1 (hgone n hn hlt.1 (decode_eq_some.mp hlt.2).1)

theorem allocuvm_shaped (newsz : Nat) (h : Owned m l own) (hshape : Shaped m own d oldsz)
    (hend : kernbase < m.kernelEnd) :
    Ends (allocuvm d oldsz newsz) m (GrowEnds d oldsz newsz m l own) fun _ _ => False := by
  refine (allocuvm_spec oldsz newsz h hshape.live hend).mono (fun r m' hends => ?_) fun e _ he => ?_
  · cases hends with
    | refused hbig => exact .refused hbig
    | kept hsmall hlt => exact .kept hsmall hlt
    | grown pages l' _ own' hsmall hle hfilled hlen =>
      have hmono := npages_mono hle
      exact .grown pages l' _ own' hsmall hle hfilled hlen (hfilled.shaped hshape hsmall (by omega))
    | short k q pages m₁ _ own₁ hsmall hle hlast hfilled hmissing htook hreq hcount =>
      have hq : q ∈ l := by
        rw [hfilled.split]
        exact mem_append_right _ mem_cons_self
      have hmax := npages_le (Nat.le_of_lt hsmall)
      refine .short m' [] _ hsmall hle hreq hcount htook.owned
        (hfilled.frame.trans (htook.frame.mono fun p hp => .inl (hp ▸ hq))) ⟨npages oldsz + k, by omega, ?_⟩
      rw [htook.pteAt_eq hfilled.live (div_lt (by omega)), pteAt_of_none hmissing]
      decide
    | failed k m₁ _ own₁ hsmall hle hk hfilled hreq hdrop =>
      obtain ⟨l', own', howned, hframe, hshape', hmine, hreturned⟩ :=
        (hfilled.partway h hshape).dropped hfilled.owned (by omega) hdrop
      refine .failed m' l' own' none hsmall hle howned (hfilled.frame.trans (hframe.mono fun p hp => ?_)) hshape'
        (fun p hp => hmine p (hfilled.grew.keeps_space hp)) hreturned hreq
      exact hfilled.frame.free_sub h hfilled.owned (.inr hp)
    | leaked k q pages m₁ m₂ _ own₁ hsmall hle hk hfilled hmissing htook hreq hcount hdrop =>
      have hsplit := hfilled.split
      have hq : q ∈ l := by
        rw [hsplit]
        exact mem_append_right _ mem_cons_self
      have hbuilt := hfilled.frame.trans (htook.frame.mono fun p hp => .inl (hp ▸ hq))
      obtain ⟨l', own', howned, hframe, hshape', hmine, hreturned⟩ :=
        ((hfilled.partway h hshape).took htook).dropped htook.owned (by omega) hdrop
      refine .failed m' l' own' (some q) hsmall hle howned (hbuilt.trans (hframe.mono fun p hp => ?_)) hshape'
        (fun p hp => hmine p (htook.keeps_space (hfilled.grew.keeps_space hp))) ?_ hreq
      · exact hbuilt.free_sub h htook.owned (.inr hp)
      · refine ⟨fun p hp => ?_, fun p hp hne => ?_, fun p hp => ?_⟩
        · rw [hsplit]
          exact mem_append_left _ (hreturned.sub p hp)
        · rw [hsplit, mem_append, mem_singleton] at hp
          exact hreturned.back p (hp.resolve_right fun heq => hne (congrArg some heq)) nofun
        · cases hp
          refine ⟨hq, ?_⟩
          rw [hframe.own q, update_self]
          unfold spaceOf
          rw [update_self]
          exact nofun
  · obtain ⟨-, k, hk, hlo, -, hpresent⟩ := he
    exact hshape.absent k hlo hk hpresent

/-! ### Shrinking a shape -/

theorem deallocuvm_shaped (newsz : Nat) (h : Owned m l own) (hshape : Shaped m own d oldsz)
    (hend : kernbase < m.kernelEnd) :
    Ends (deallocuvm d oldsz newsz) m (fun r m' => r = min oldsz newsz ∧ ∃ l' own', Owned m' l' own' ∧
      Frame (fun p => spaceOf own p = some d) m own m' own' ∧ Shaped m' own' d (min oldsz newsz))
      fun _ _ => False := by
  refine (deallocuvm_spec newsz (Nat.le_of_lt hshape.small) h hshape.live hend).post fun r m' hends => ?_
  obtain ⟨hr, freed, l', own', hdropped, hclear⟩ := hends
  have hmin : min oldsz newsz = if newsz ≥ oldsz then oldsz else newsz := by
    rw [Nat.min_def]
  refine ⟨hr.trans hmin.symm, l', own', hdropped.owned, hdropped.frame, ?_⟩
  by_cases hle : oldsz ≤ newsz
  · have hmono := npages_mono hle
    rw [Nat.min_eq_left hle]
    have hmax := npages_le (Nat.le_of_lt hshape.small)
    have hsame : ∀ k < userPages, pteAt m'.word d k = pteAt m.word d k := fun k hk =>
      (hdropped.entries k (div_lt hk)).resolve_right fun hin => by omega
    refine ⟨hdropped.live hshape.live, hshape.small, fun k hk => ?_, fun k hlo hhi => ?_⟩
    · rw [hsame k (by omega)]
      exact hshape.present k hk
    · rw [hsame k hhi]
      exact hshape.absent k hlo hhi
  · have hlt := Nat.lt_of_not_le hle
    have hmono := npages_mono (Nat.le_of_lt hlt)
    rw [Nat.min_eq_right (Nat.le_of_lt hlt)]
    refine hdropped.shaped hshape.live (Nat.lt_trans hlt hshape.small)
      (fun k hk => hshape.present k (by omega)) fun k hlo hhi hp => ?_
    have hk : k < npages oldsz := by
      by_contra hge
      exact hshape.absent k (by omega) hhi hp
    refine ⟨hk, hclear (.inr (tableAt_ne_none (hshape.present _ ?_))) k hlo hk⟩
    omega

end RainOS.Vm
