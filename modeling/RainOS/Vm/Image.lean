import RainOS.Vm.Shape

/-!
# Building an image

A new directory that is being filled with a program. Until it takes the place of an old one, everything
but the pages that were free when its building began is as it was, and each of those is still free or
belongs to the new directory. So freeing the directory undoes the building.
-/

namespace RainOS.Vm

open Kalloc Function List

variable {m₀ m m' : Memory} {l₀ l l' pages : List Nat} {own₀ own own' : Nat → Option Owner} {word word' F : Nat → Nat}
  {lost : Option Nat} {p q d i k n t a v sz newsz va cur pgdir data off : Nat} {bytes buf : List UInt8} {leaks : Prop}

/-! ### Images -/

/-- A directory that maps the kernel and the pages below a size. -/
structure Image (m : Memory) (own : Nat → Option Owner) (d sz : Nat) : Prop where
  live : own d = some .directory
  small : sz < kernbase
  inside : ∀ k < npages sz, Present (pteAt m.word d k)
  empty : ∀ k < 2 ^ 20, npages sz ≤ k → ¬KernelPage k → pteAt m.word d k = 0
  kernel : ∀ k, KernelPage k → KernelFlags (pteAt m.word d k)
  tables : ∀ i < npdentries, tableAt m.word d i = none ↔ ¬KernelTable i ∧ npages sz ≤ nptentries * i

def imageHas (sz i : Nat) : Bool := decide (i < npdentries ∧ (KernelTable i ∨ nptentries * i < npages sz))

def growRequests (sz newsz : Nat) : List Request := requests (imageHas sz) (npages sz) (npages newsz - npages sz)

theorem Fresh.image (h : Fresh d m) (hd : own d = some .directory) : Image m own d 0 := by
  refine ⟨hd, by decide, fun k hk => (nomatch hk), fun k hk _ => h.empty k hk, h.mapped, fun i hi => ?_⟩
  rw [h.tables i hi]
  exact (and_iff_left (Nat.zero_le _)).symm

theorem Image.user_empty (h : Image m own d sz) (hlo : npages sz ≤ k) (hhi : k < userPages) :
    pteAt m.word d k = 0 := by
  change k < 524288 at hhi
  exact h.empty k (by omega) hlo (by unfold KernelPage; omega)

theorem Image.shaped (h : Image m own d sz) : Shaped m own d sz := by
  refine ⟨h.live, h.small, h.inside, fun k hlo hhi => ?_⟩
  rw [h.user_empty hlo hhi]
  decide

theorem Image.hasTable_eq (h : Image m own d sz) : hasTable m.word d = imageHas sz := by
  funext i
  rw [hasTable, imageHas, decide_eq_decide]
  apply and_congr_right
  intro hi
  rw [Ne, h.tables i hi, not_and_or, not_not, Nat.not_le]

theorem Image.congr (h : Image m own d sz) (hpte : ∀ k < 2 ^ 20, pteAt m'.word d k = pteAt m.word d k)
    (htable : ∀ i < npdentries, tableAt m'.word d i = tableAt m.word d i) (hd : own' d = some .directory) :
    Image m' own' d sz := by
  have hmax := npages_le (Nat.le_of_lt h.small)
  change npages sz ≤ 524288 at hmax
  refine ⟨hd, h.small, fun k hk => ?_, fun k hk => ?_, fun k hk => ?_, fun i hi => ?_⟩
  · rw [hpte k (by omega)]
    exact h.inside k hk
  · rw [hpte k hk]
    exact h.empty k hk
  · rw [hpte k (by unfold KernelPage at hk; omega)]
    exact h.kernel k hk
  · rw [htable i hi]
    exact h.tables i hi

theorem Filled.image (h : Filled F d (npages sz) n pages m l own m' l' own')
    (himage : Image m own d sz) (hsmall : newsz < kernbase) (hcount : npages sz + n = npages newsz) :
    Image m' own' d newsz := by
  have hmax := npages_le (Nat.le_of_lt hsmall)
  change npages newsz ≤ 524288 at hmax
  refine ⟨h.live, hsmall, fun k hk => ?_, fun k hk hlo hnot => ?_, fun k hk => ?_, fun i hi => ?_⟩
  · by_cases hin : npages sz ≤ k
    · exact (h.inside k hin (by omega)).1
    · rw [h.outside k (page_lt (by omega)) (by omega)]
      exact himage.inside k (by omega)
  · rw [h.outside k (page_lt hk) (by omega)]
    exact himage.empty k hk (by omega) hnot
  · have hlt : k < 2 ^ 20 := by
      unfold KernelPage at hk
      omega
    rw [h.outside k (page_lt hlt) (by unfold KernelPage at hk; omega)]
    exact himage.kernel k hk
  · rw [h.tables i hi, himage.tables i hi, and_assoc]
    apply and_congr_right
    intro _
    change npages sz ≤ 1024 * i ∧ _ ↔ npages newsz ≤ 1024 * i
    refine ⟨fun ⟨hlo, hall⟩ => ?_, fun hle => ⟨by omega, fun k _ hk heq => ?_⟩⟩
    · by_contra hlt
      have heq : i = 1024 * i / 1024 := by omega
      exact hall (1024 * i) hlo (by omega) heq
    · have hdiv : i = k / 1024 := heq
      omega

def Accessible (m : Memory) (d sz : Nat) : Prop := ∀ k < npages sz, pteFlags (pteAt m.word d k) = userFlags k

theorem Filled.accessible (h : Filled userFlags d (npages sz) n pages m l own m' l' own')
    (hflags : Accessible m d sz) (hsmall : newsz < kernbase) (hcount : npages sz + n = npages newsz) :
    Accessible m' d newsz := by
  have hmax := npages_le (Nat.le_of_lt hsmall)
  intro k hk
  by_cases hin : npages sz ≤ k
  · exact (h.inside k hin (by omega)).2
  · rw [h.outside k (div_lt (by omega)) (by omega)]
    exact hflags k (by omega)

/-! ### What a building holds -/

/-- The free pages `l₀` are still free or belong to directory `d`, but for one that may be lost. -/
structure Held (m₀ : Memory) (l₀ : List Nat) (own₀ : Nat → Option Owner) (d : Nat) (lost : Option Nat)
    (m : Memory) (l : List Nat) (own : Nat → Option Owner) : Prop where
  before : Owned m₀ l₀ own₀
  above : kernbase < m₀.kernelEnd
  new : d ∈ l₀
  owned : Owned m l own
  live : own d = some .directory
  frame : Frame (· ∈ l₀) m₀ own₀ m own
  back : ∀ p ∈ l₀, some p ≠ lost → Free l own d p
  gone : ∀ q, lost = some q → q ∈ l₀ ∧ own q = none

section

variable (h : Held m₀ l₀ own₀ d lost m l own)
include h

theorem Held.not_space (p : Nat) : spaceOf own₀ p ≠ some d := by
  apply h.before.spaceOf_ne
  rw [(h.before.isFree d).mpr h.new]
  exact nofun

theorem Held.sub (hp : Free l own d p) : p ∈ l₀ := by
  by_contra hnot
  have hsame := h.frame.own p hnot
  obtain hin | hspace := hp
  · rw [← h.owned.isFree, hsame] at hin
    exact hnot ((h.before.isFree p).mp hin)
  · rw [spaceOf_eq hsame] at hspace
    exact h.not_space p hspace

theorem Held.above' : kernbase < m.kernelEnd := by
  rw [h.frame.kernelEnd]
  exact h.above

end

def without (own : Nat → Option Owner) (lost : Option Nat) (p : Nat) : Option Owner :=
  if some p = lost then none else own p

theorem Held.release_eq (h : Held m₀ l₀ own₀ d lost m l own) : release own d = without own₀ lost := by
  funext p
  unfold release without
  by_cases hp : p ∈ l₀
  · have hfree := (h.before.isFree p).mpr hp
    by_cases hlost : some p = lost
    · have hnone := (h.gone p hlost.symm).2
      rw [if_pos hlost, if_neg (by unfold spaceOf; rw [hnone]; exact nofun), hnone]
    · rw [if_neg hlost, hfree]
      obtain hin | hspace := h.back p hp hlost
      · have hown := (h.owned.isFree p).mpr hin
        rw [if_neg (by rw [spaceOf_of_own hown]; exact nofun), hown]
      · rw [if_pos hspace]
  · have hsame := h.frame.own p hp
    have hlost : ¬some p = lost := fun hlost => hp (h.gone p hlost.symm).1
    rw [if_neg hlost, if_neg (by rw [spaceOf_eq hsame]; exact h.not_space p), hsame]

theorem Held.step (h : Held m₀ l₀ own₀ d none m l own) (howned : Owned m' l' own')
    (hframe : Frame (Free l own d) m own m' own') (hlive : own' d = some .directory)
    (hback : ∀ p ∈ l, some p ≠ lost → Free l' own' d p) (hmine : ∀ p, spaceOf own p = some d → Free l' own' d p)
    (hgone : ∀ q, lost = some q → q ∈ l ∧ own' q = none) : Held m₀ l₀ own₀ d lost m' l' own' := by
  refine ⟨h.before, h.above, h.new, howned, hlive, h.frame.trans (hframe.mono fun _ hp => h.sub hp),
    fun p hp hne => ?_, fun q hq => ⟨h.sub (.inl (hgone q hq).1), (hgone q hq).2⟩⟩
  exact (h.back p hp nofun).elim (fun hin => hback p hin hne) (hmine p)

structure Building (m₀ : Memory) (l₀ : List Nat) (own₀ : Nat → Option Owner) (d sz : Nat) (m : Memory)
    (l : List Nat) (own : Nat → Option Owner) : Prop extends Held m₀ l₀ own₀ d none m l own where
  image : Image m own d sz
  flags : Accessible m d sz

theorem building_start (h : Owned m l own) (habove : kernbase < m.kernelEnd) (hsplit : l = pages ++ l')
    (hin : d ∈ pages) (howned : Owned m' l' own') (hgrew : Grew d pages m own m' own')
    (hlive : own' d = some .directory) (hfresh : Fresh d m') : Building m l own d 0 m' l' own' := by
  have hsub : ∀ p ∈ pages, p ∈ l := fun p hp => by
    rw [hsplit]
    exact mem_append_left _ hp
  have hnew : ∀ p, spaceOf own p ≠ some d := by
    apply h.spaceOf_ne
    rw [(h.isFree d).mpr (hsub d hin)]
    exact nofun
  refine ⟨⟨h, habove, hsub d hin, howned, hlive, ?_, fun p hp _ => ?_, fun _ hq => (nomatch hq)⟩,
    hfresh.image hlive, fun k hk => (nomatch hk)⟩
  · exact (hgrew.frame hsub).mono fun p hp => hp.resolve_right (hnew p)
  · rw [hsplit, mem_append] at hp
    exact hp.elim (fun hp => .inr (hgrew.mine p hp)) .inl

theorem Held.filled (h : Held m₀ l₀ own₀ d none m l own)
    (hfilled : Filled F d n k pages m l own m' l' own') : Held m₀ l₀ own₀ d none m' l' own' := by
  refine h.step hfilled.owned hfilled.frame hfilled.live (fun p hp _ => ?_) (fun p hp => ?_) fun _ hq => (nomatch hq)
  · rw [hfilled.split, mem_append] at hp
    exact hp.elim (fun hp => .inr (hfilled.grew.mine p hp)) .inl
  · exact .inr (hfilled.grew.keeps_space hp)

theorem Held.took (h : Held m₀ l₀ own₀ d none m l own) (htook : Took q m l own m' l') :
    Held m₀ l₀ own₀ d (some q) m' l' (update own q none) := by
  have hq : q ∈ l := by
    rw [htook.split]
    exact mem_cons_self
  refine h.step htook.owned (htook.frame.mono fun p hp => .inl (hp ▸ hq)) (htook.live h.live) (fun p hp hne => ?_)
    (fun p hp => .inr (htook.keeps_space hp)) fun p hp => ?_
  · rw [htook.split, mem_cons] at hp
    exact .inl (hp.resolve_left fun heq => hne (congrArg some heq))
  · cases hp
    exact ⟨hq, update_self ..⟩

/-- A call that failed: everything but the free pages is as it was, and unless it leaks so are they. -/
structure Failed (leaks : Prop) (l : List Nat) (own : Nat → Option Owner) (m m' : Memory) (l' : List Nat)
    (own' : Nat → Option Owner) : Prop where
  owned : Owned m' l' own'
  frame : Frame (· ∈ l) m own m' own'
  same : ¬leaks → own' = own
  lost : leaks → Leaked l own own'

theorem without_none (own : Nat → Option Owner) : without own none = own := by
  funext p
  exact if_neg nofun

theorem leaked_without (h : q ∈ l) : Leaked l own (without own (some q)) := by
  refine ⟨⟨q, h, if_pos rfl⟩, fun p => ?_⟩
  by_cases hp : p = q
  · rw [hp]
    exact .inr ⟨h, if_pos rfl⟩
  · exact .inl (if_neg fun heq => hp (Option.some.inj heq))

theorem Held.freevm (h : Held m₀ l₀ own₀ d lost m l own) (hleaks : leaks ↔ lost ≠ none) :
    Ends (freevm d) m (fun _ m' => ∃ l' own', Failed leaks l₀ own₀ m₀ m' l' own') fun _ _ => False := by
  refine (freevm_frame h.owned h.live h.above').post fun _ m' hends => ?_
  obtain ⟨⟨l', howned⟩, hframe⟩ := hends
  rw [h.release_eq] at howned hframe
  refine ⟨l', _, howned, h.frame.trans (hframe.mono fun _ hp => h.sub (.inr hp)), fun hl => ?_, fun hl => ?_⟩
  · rw [hleaks, not_not] at hl
    rw [hl, without_none]
  · rw [hleaks] at hl
    obtain ⟨q, rfl⟩ := Option.ne_none_iff_exists'.mp hl
    exact leaked_without (h.gone q rfl).1

theorem Grew.failed_setup (hgrew : Grew d l m own m' own') (h : Owned m l own) (hin : d ∈ l)
    (howned : Owned m' [] own') (hleaks : leaks) : Failed leaks l own m m' [] (Vm.forget own' d) := by
  have hleaked := hgrew.leaked_setup h hin
  refine ⟨howned.forget d, ⟨hgrew.kernelEnd, fun p hp => ?_, fun a ha => ?_⟩, fun hl => absurd hleaks hl,
    fun _ => hleaked⟩
  · exact (hleaked.2 p).resolve_right fun hlost => hp hlost.1
  · refine hgrew.word a ha (h.spaceOf_ne ?_ _)
    rw [(h.isFree d).mpr hin]
    exact nofun

/-! ### copyuvm -/

/-- A directory that was there before the building has its pages and entries as they were. -/
structure Beside (pgdir d : Nat) (m₀ : Memory) (own₀ : Nat → Option Owner) (m : Memory) (own : Nat → Option Owner) :
    Prop where
  ne : pgdir ≠ d
  live : own pgdir = some .directory
  entries : ∀ k < 2 ^ 20, pteAt m.word pgdir k = pteAt m₀.word pgdir k
  words : ∀ a, spaceOf own₀ (pgrounddown a) = some pgdir → m.word a = m₀.word a

theorem Held.beside (h : Held m₀ l₀ own₀ d lost m l own) (hpgdir : own₀ pgdir = some .directory) :
    Beside pgdir d m₀ own₀ m own := by
  have hnot : pgdir ∉ l₀ := h.before.not_mem_free (by rw [hpgdir]; exact nofun)
  have hspace : ∀ p, spaceOf own₀ p = some pgdir → p ∉ l₀ := fun p hp hin => by
    rw [spaceOf_of_own ((h.before.isFree p).mpr hin)] at hp
    cases hp
  refine ⟨fun heq => hnot (heq ▸ h.new), by rw [h.frame.own pgdir hnot, hpgdir], fun k hk => ?_, fun a ha => ?_⟩
  · exact h.frame.pteAt_eq h.before hpgdir hspace (page_lt hk)
  · exact h.frame.word a (hspace _ ha)

theorem Fresh.kernel_present (h : Fresh d m) : Present (pteAt m.word d userPages) := by
  rw [present_iff_flags]
  obtain hflags | hflags := h.mapped userPages (by unfold KernelPage; decide)
  · rw [hflags]
    rfl
  · rw [hflags]
    rfl

inductive CopyuvmEnds (pgdir sz : Nat) (m : Memory) (l : List Nat) (own : Nat → Option Owner) :
    Nat → Memory → Prop
  | failed (m' : Memory) (l' : List Nat) (own' : Nat → Option Owner)
      (hfailed : Failed ((copyRequests sz)[l.length]? = some .table) l own m m' l' own') :
      CopyuvmEnds pgdir sz m l own 0 m'
  | made (d : Nat) (m' : Memory) (l' : List Nat) (own' : Nat → Option Owner) (hne : d ≠ 0)
      (hheld : Held m l own d none m' l' own') (himage : sz < kernbase → Image m' own' d sz)
      (hflags : ∀ k < npages sz, pteFlags (pteAt m'.word d k) = pteFlags (pteAt m.word pgdir k)) :
      CopyuvmEnds pgdir sz m l own d m'

theorem copyuvm_spec (hlinked : Linked data) (h : Owned m l own)
    (hpgdir : own pgdir = some .directory) (hend : kernbase < m.kernelEnd) (hsz : sz < 2 ^ 32) :
    Ends (copyuvm data pgdir sz) m (CopyuvmEnds pgdir sz m l own) fun _ _ =>
      ∃ k < npages sz, ¬Present (pteAt m.word pgdir k) ∨ userPages ≤ k := by
  have hmax : npages sz ≤ 2 ^ 20 := by
    unfold npages pgsize
    omega
  unfold copyuvm
  refine .bind (setupkvm_spec hlinked h).returns fun d m₁ hsetup => ?_
  cases hsetup with
  | full hl =>
    subst hl
    exact .pure (.failed m [] own ⟨h, .refl _ _ _, fun _ => rfl, nofun⟩)
  | lost d₀ _ own₁ hin hfew howned hgrew hlive =>
    have hreq : (copyRequests sz)[l.length]? = some .table := copyRequests_kernel (length_pos_of_mem hin) hfew
    exact .pure (.failed m₁ [] _ (hgrew.failed_setup h hin howned hreq))
  | made _ pages l₁ _ own₁ hne hsplit hin hlen howned hgrew hlive hfresh =>
    have hbuild := building_start h hend hsplit hin howned hgrew hlive hfresh
    have hparent := hbuild.toHeld.beside hpgdir
    have hreq : (copyRequests sz)[l.length]? = (requests (hasTable m₁.word d) 0 (npages sz))[l₁.length]? := by
      rw [hsplit, length_append, hlen, copyRequests_user, hfresh.hasTable_eq]
    rw [if_neg hne]
    have hloop := copyLoop_spec (F := fun k => pteFlags (pteAt m.word pgdir k)) (n := 0) (npages sz) howned hlive
      hparent.live hparent.ne hfresh.kernel_present (Nat.zero_le _) (by omega) fun k hk => by rw [hparent.entries k hk]
    rw [Nat.zero_mul] at hloop
    refine .bind (hloop.stop fun _ _ he => ?_) fun r m₂ hr => ?_
    · obtain ⟨k, -, hk, hbad⟩ := he
      rw [Nat.zero_add] at hk
      refine ⟨k, hk, hbad.imp (fun hbad => by rwa [← hparent.entries k (by omega)]) fun hbad => ?_⟩
      by_contra hlt
      change ¬524288 ≤ k at hlt
      rw [hfresh.empty k (by omega) (by unfold KernelPage; omega)] at hbad
      exact absurd hbad (by decide)
    · cases hr with
      | done pages₂ l₂ _ own₂ hle hfilled hlen₂ =>
        have hcount : npages 0 + npages sz = npages sz := Nat.zero_add _
        exact .pure (.made d m₂ l₂ own₂ hne (hbuild.toHeld.filled hfilled)
          (fun hsmall => hfilled.image hbuild.image hsmall hcount) fun k hk => (hfilled.inside k (Nat.zero_le k) (by omega)).2)
      | full k _ own₂ hk hle hfilled hfail =>
        refine .bind ((hbuild.toHeld.filled hfilled).freevm ?_).returns fun _ m₃ ⟨l₃, own₃, hfailed⟩ =>
          Ends.pure (.failed m₃ l₃ own₃ hfailed)
        rw [hreq, hfail]
        exact iff_of_false nofun fun hne => hne rfl
      | lost k q pages₂ m₃ _ own₃ hk hle hfilled hmissing htook hfail =>
        refine .bind (((hbuild.toHeld.filled hfilled).took htook).freevm ?_).returns
          fun _ m₄ ⟨l₄, own₄, hfailed⟩ => .pure (.failed m₄ l₄ own₄ hfailed)
        rw [hreq, hfail]
        exact iff_of_true rfl nofun

/-! ### Growing the image -/

inductive BuildEnds (m₀ : Memory) (l₀ : List Nat) (own₀ : Nat → Option Owner) (d sz newsz : Nat) (m : Memory)
    (l : List Nat) : Nat → Memory → Prop
  | refused (hbig : kernbase ≤ newsz) : BuildEnds m₀ l₀ own₀ d sz newsz m l 0 m
  | kept (hsmall : newsz < kernbase) (hlt : newsz < sz) : BuildEnds m₀ l₀ own₀ d sz newsz m l sz m
  | grown (m' : Memory) (l' : List Nat) (own' : Nat → Option Owner) (hsmall : newsz < kernbase)
      (hle : sz ≤ newsz) (hbuild : Building m₀ l₀ own₀ d newsz m' l' own')
      (hlen : l.length = (growRequests sz newsz).length + l'.length) : BuildEnds m₀ l₀ own₀ d sz newsz m l newsz m'
  | short (m' : Memory) (hsmall : newsz < kernbase) (hle : sz ≤ newsz)
      (hreq : (growRequests sz newsz)[l.length]? = some .table)
      (hlast : (growRequests sz newsz).length = l.length + 1) : BuildEnds m₀ l₀ own₀ d sz newsz m l newsz m'
  | failed (lost : Option Nat) (m' : Memory) (l' : List Nat) (own' : Nat → Option Owner) (hsmall : newsz < kernbase)
      (hle : sz ≤ newsz) (hheld : Held m₀ l₀ own₀ d lost m' l' own')
      (hreq : (growRequests sz newsz)[l.length]? = some (if lost = none then .page else .table)) :
      BuildEnds m₀ l₀ own₀ d sz newsz m l 0 m'

theorem Building.allocuvm (h : Building m₀ l₀ own₀ d sz m l own) (newsz : Nat) :
    Ends (allocuvm d sz newsz) m (BuildEnds m₀ l₀ own₀ d sz newsz m l) fun _ _ => False := by
  have hhas : hasTable m.word d = imageHas sz := h.image.hasTable_eq
  refine (allocuvm_shaped newsz h.owned h.image.shaped h.above').post fun r m' hends => ?_
  cases hends with
  | refused hbig => exact .refused hbig
  | kept hsmall hlt => exact .kept hsmall hlt
  | grown pages l' _ own' hsmall hle hfilled hlen hshape =>
    have hcount : npages sz + (npages newsz - npages sz) = npages newsz := Nat.add_sub_of_le (npages_mono hle)
    rw [hhas] at hlen
    exact .grown m' l' own' hsmall hle ⟨h.toHeld.filled hfilled, hfilled.image h.image hsmall hcount,
      hfilled.accessible h.flags hsmall hcount⟩ (by rw [hfilled.split, length_append, hlen]; rfl)
  | short _ l' own' hsmall hle hreq hlast howned hframe hmissing =>
    rw [growRequest, hhas] at hreq
    rw [hhas] at hlast
    exact .short m' hsmall hle hreq hlast
  | failed _ l' own' lost hsmall hle howned hframe hshape hmine hreturned hreq =>
    rw [growRequest, hhas] at hreq
    refine .failed lost m' l' own' hsmall hle (h.toHeld.step howned hframe hshape.live (fun p hp hne => ?_) hmine
      hreturned.gone) hreq
    refine (hreturned.back p hp hne).imp_right fun ⟨i, hi, htable⟩ => ?_
    exact spaceOf_of_own (howned.own_table hshape.live hi htable)

/-! ### Writing to the image -/

theorem putBytes_of_ne (hq : q % pgsize = 0) (hlen : off + bytes.length ≤ pgsize)
    (ha : pgrounddown a ≠ q) : putBytes word (q + off) bytes a = word a := by
  refine if_neg fun hin => ha ((in_page_iff hq).mp ?_)
  simp only [pgsize] at hq hlen ⊢
  omega

theorem Held.poke (h : Held m₀ l₀ own₀ d none m l own) (hq : own q = some (.user d k))
    (hword : ∀ a, pgrounddown a ≠ q → word' a = m.word a) :
    Held m₀ l₀ own₀ d none { m with word := word' } l own ∧
      (∀ n < 2 ^ 20, pteAt word' d n = pteAt m.word d n) ∧
      ∀ i < npdentries, tableAt word' d i = tableAt m.word d i := by
  have hne : ∀ p o, own p = some o → Structural o → p ≠ q := by
    rintro p o hp ho rfl
    rw [hq] at hp
    cases hp
    exact ho
  refine ⟨h.step (h.owned.scribble word' fun a o ha ho => hword a (hne _ o ha ho)) ⟨rfl, fun _ _ => rfl, ?_⟩ h.live
    (fun p hp _ => .inl hp) (fun _ hp => .inr hp) (fun _ hq => (nomatch hq)), fun n hn => ?_, fun i hi => ?_⟩
  · intro a ha
    apply hword
    intro heq
    exact ha (.inr (by rw [heq]; exact spaceOf_of_own hq))
  · exact h.owned.pteAt_congr h.live (page_lt hn) (fun a ha => hword a (ha ▸ hne _ _ h.live trivial))
      fun t ht a ha => hword a (ha ▸ hne _ _ ht trivial)
  · exact h.owned.tableAt_congr h.live hi fun a ha => hword a (ha ▸ hne _ _ h.live trivial)

theorem memmove_spec (cur : Nat) (hq : Page m.kernelEnd q) (hlen : off + bytes.length ≤ pgsize) :
    Ends (memmove cur (q + off) bytes) m (fun _ m' => ∃ word', m' = { m with word := word' } ∧
      ∀ a, pgrounddown a ≠ q → word' a = m.word a) fun _ _ => False := by
  unfold memmove
  by_cases hbytes : bytes = []
  · rw [if_neg (not_not.mpr hbytes)]
    exact .pure ⟨m.word, rfl, fun _ _ => rfl⟩
  · have hrun : kaddr cur (q + off) m = .ok (q + off) m := by
      rw [kaddr, if_pos (Nat.le_trans hq.kernbase_le (Nat.le_add_right q off))]
      rfl
    rw [if_pos hbytes]
    refine .after_ok hrun (.modify ⟨_, rfl, fun a ha => ?_⟩)
    exact putBytes_of_ne hq.aligned hlen ha

theorem Building.memmove (cur : Nat) (h : Building m₀ l₀ own₀ d sz m l own) (hk : k < npages sz)
    (hlen : bytes.length ≤ pgsize) :
    Ends (Vm.memmove cur (p2v (pteAddr (pteAt m.word d k))) bytes) m
      (fun _ m' => Building m₀ l₀ own₀ d sz m' l own) fun _ _ => False := by
  have hmax := npages_le (Nat.le_of_lt h.image.small)
  have huser := (h.owned.accepts h.live (by omega) (h.image.inside k hk)).1
  have hpage := h.owned.page _ _ huser
  have hmove := memmove_spec cur hpage (show 0 + bytes.length ≤ pgsize by omega)
  rw [Nat.add_zero] at hmove
  refine hmove.post fun _ m' hm' => ?_
  obtain ⟨word', rfl, hother⟩ := hm'
  obtain ⟨hheld, hpte, htables⟩ := h.toHeld.poke huser hother
  refine ⟨hheld, h.image.congr hpte htables h.live, fun j hj => ?_⟩
  change npages sz ≤ 524288 at hmax
  change pteFlags (pteAt word' d j) = _
  rw [hpte j (by omega)]
  exact h.flags j hj

theorem ptx_eq (va : Nat) : ptx va = va / pgsize % nptentries := rfl

theorem translate_some (hva : va < 2 ^ 32) (h : translate word d va = some a) :
    Present (pteAt word d (va / pgsize)) ∧ a = p2v (pteAddr (pteAt word d (va / pgsize))) + va % pgsize := by
  unfold translate at h
  dsimp only at h
  split at h
  · rename_i hpresent
    obtain ⟨hpde, hpte⟩ := hpresent
    have htable : tableAt word d (va / pgsize / nptentries) = some (p2v (pteAddr (word (d + 4 * pdx va)))) := by
      rw [← pdx_eq hva]
      exact decode_eq_some.mpr ⟨hpde, rfl⟩
    rw [pteAt_of_some htable, ← ptx_eq va]
    exact ⟨hpte, (Option.some.inj h).symm⟩
  · cases h

theorem walkpgdir_entry (h : Owned m l own) (hd : own d = some .directory) (hva : va < 2 ^ 32)
    (htable : tableAt m.word d (va / pgsize / nptentries) ≠ none) :
    ∃ t i, own t = some (.table d (va / pgsize / nptentries)) ∧ i < nptentries ∧
      pageAt (va / pgsize / nptentries) i = va / pgsize ∧
      walkpgdir d va false m = .ok (t + 4 * i) m ∧ m.word (t + 4 * i) = pteAt m.word d (va / pgsize) := by
  obtain ⟨t, ht⟩ := Option.ne_none_iff_exists'.mp htable
  have hlt : va / pgsize / nptentries < npdentries := by
    have hdiv : va / 4096 / 1024 < 1024 := by omega
    exact hdiv
  refine ⟨t, va / pgsize % nptentries, h.own_table hd hlt ht, mod_lt _, pageAt_div_mod _, ?_, (pteAt_of_some ht).symm⟩
  rw [← ptx_eq va]
  exact walkpgdir_found false va (by rw [pdx_eq hva, ht])

theorem Image.table_of_inside (h : Image m own d sz) (hk : k < npages sz) :
    tableAt m.word d (k / nptentries) ≠ none := tableAt_ne_none (h.inside k hk)

theorem clearU_eq (v : Nat) : pteAddr (clearU v) = pteAddr v ∧ (Present (clearU v) ↔ Present v) := by
  unfold clearU
  split
  · rename_i hbit
    simp only [pteU, pteAddr, Present, pgsize] at hbit ⊢
    omega
  · exact ⟨rfl, Iff.rfl⟩

section

variable (h : Owned m l own) (hd : own d = some .directory) (hva : va < 2 ^ 32)
  (htable : tableAt m.word d (va / pgsize / nptentries) ≠ none)
include h hd hva htable

theorem clearpteu_run :
    ∃ t j, own t = some (.table d (va / pgsize / nptentries)) ∧ j < nptentries ∧
      pageAt (va / pgsize / nptentries) j = va / pgsize ∧ clearpteu d va m =
        .ok () { m with word := update m.word (t + 4 * j) (clearU (pteAt m.word d (va / pgsize))) } := by
  obtain ⟨t, j, ht, hj, hpage, hrun, hword⟩ := walkpgdir_entry h hd hva htable
  refine ⟨t, j, ht, hj, hpage, ?_⟩
  unfold clearpteu
  rw [bind_ok _ hrun, if_neg (h.table_ne_zero ht _), ← hword]
  rfl

theorem clearpteu_others :
    Ends (clearpteu d va) m (fun _ m' => ∀ n < 2 ^ 20, n ≠ va / pgsize → pteAt m'.word d n = pteAt m.word d n)
      fun _ _ => False := by
  obtain ⟨t, j, ht, hj, hpage, hrun⟩ := clearpteu_run h hd hva htable
  exact .of_run_ok hrun fun n hn hne => h.pteAt_setPte_of_ne ht hj hd (page_lt hn) fun heq => hne (heq.2.trans hpage)

end

theorem clearpteu_spec (h : Held m₀ l₀ own₀ d none m l own) (himage : Image m own d sz) (hva : va < sz) :
    Ends (clearpteu d va) m (fun _ m' => Held m₀ l₀ own₀ d none m' l own ∧ Image m' own d sz) fun _ _ => False := by
  have hmax := npages_le (Nat.le_of_lt himage.small)
  have hsmall := himage.small
  have hk : va / pgsize < npages sz := by
    simp only [npages, pgsize]
    omega
  have hlt : va < 2 ^ 32 := by
    simp only [kernbase] at hsmall
    omega
  have htable := himage.table_of_inside hk
  have hothers := clearpteu_others h.owned h.live hlt htable
  obtain ⟨t, j, ht, hj, hpage, hrun⟩ := clearpteu_run h.owned h.live hlt htable
  have hpte := hothers.of_ok hrun
  refine .of_run_ok hrun ?_
  have hdecode : decode (clearU (pteAt m.word d (va / pgsize))) = decode (pteAt m.word d (va / pgsize)) := by
    obtain ⟨haddr, hpresent⟩ := clearU_eq (pteAt m.word d (va / pgsize))
    simp only [decode, hpresent, haddr]
  have howned : Owned _ l own := h.owned.setPte (v := clearU (pteAt m.word d (va / pgsize))) ht hj h.owned.page
    (fun _ _ _ => Iff.rfl) (fun _ _ _ _ => Iff.rfl) fun p => by
      rw [hpage, hdecode, h.owned.isUser]
      exact and_iff_right h.live
  have hself := h.owned.pteAt_setPte_self (v := clearU (pteAt m.word d (va / pgsize))) ht hj
  rw [hpage] at hself
  refine ⟨h.step howned ⟨rfl, fun _ _ => rfl, fun a ha => ?_⟩ h.live (fun p hp _ => .inl hp) (fun _ hp => .inr hp)
    (fun _ hq => absurd hq.symm (Option.some_ne_none _)), h.live, hsmall, fun k hk => ?_, fun k hk hlo hnot => ?_, fun k hk => ?_, fun i hi => ?_⟩
  · apply update_of_ne
    rintro rfl
    rw [pgrounddown_word (h.owned.table_aligned ht) hj] at ha
    exact ha (.inr (spaceOf_of_own ht))
  · change npages sz ≤ 524288 at hmax
    by_cases heq : k = va / pgsize
    · rw [heq, hself, (clearU_eq _).2, ← heq]
      exact himage.inside k hk
    · rw [hpte k (by omega) heq]
      exact himage.inside k hk
  · rw [hpte k hk (by omega)]
    exact himage.empty k hk hlo hnot
  · change npages sz ≤ 524288 at hmax
    rw [hpte k (by unfold KernelPage at hk; omega) (by unfold KernelPage at hk; omega)]
    exact himage.kernel k hk
  · rw [h.owned.tableAt_setPte ht hj h.live hi]
    exact himage.tables i hi

/-! ### copyout -/

theorem KernelFlags.not_user (h : KernelFlags v) : v / pteU % 2 = 0 := by
  have hor : pteW ||| pteP = 3 := rfl
  rw [KernelFlags, hor] at h
  simp only [pteFlags, pteP, pteU, pgsize] at h ⊢
  omega

theorem uva2ka_run (cur : Nat) (h : Owned m l own) (hd : own d = some .directory) (hva : va < 2 ^ 32)
    (hpresent : Present (pteAt m.word d (va / pgsize))) (huser : pteAt m.word d (va / pgsize) / pteU % 2 ≠ 0) :
    uva2ka cur d va m = .ok (p2v (pteAddr (pteAt m.word d (va / pgsize)))) m := by
  obtain ⟨t, j, ht, hj, hpage, hrun, hword⟩ := walkpgdir_entry h hd hva (tableAt_ne_none hpresent)
  have hkaddr : kaddr cur (t + 4 * j) m = .ok (t + 4 * j) m := by
    rw [kaddr, if_pos (Nat.le_trans (h.page t _ ht).kernbase_le (Nat.le_add_right t _))]
    rfl
  unfold uva2ka
  rw [bind_ok _ hrun, bind_ok _ hkaddr, bind_ok _ (get_run m), hword, if_neg (not_not_intro hpresent), if_neg huser]
  rfl

theorem uva2ka_spec (cur : Nat) (h : Held m₀ l₀ own₀ d none m l own) (himage : Image m own d sz) (hva : va < 2 ^ 32)
    (htable : tableAt m.word d (va / pgsize / nptentries) ≠ none) :
    Ends (uva2ka cur d va) m (fun r m' => m' = m ∧ (r = 0 ∨ va / pgsize < npages sz ∧
      own r = some (.user d (va / pgsize)))) fun _ _ => False := by
  obtain ⟨t, j, ht, hj, hpage, hrun, hword⟩ := walkpgdir_entry h.owned h.live hva htable
  have hpte : kernbase ≤ t + 4 * j := Nat.le_trans (h.owned.page t _ ht).kernbase_le (Nat.le_add_right t _)
  have hkaddr : kaddr cur (t + 4 * j) m = .ok (t + 4 * j) m := by
    rw [kaddr, if_pos hpte]
    rfl
  unfold uva2ka
  refine .after_ok hrun (.after_ok hkaddr (.after_ok (get_run m) ?_))
  rw [hword]
  refine .ite (fun _ => .pure ⟨rfl, .inl rfl⟩) fun hpresent => ?_
  refine .ite (fun _ => .pure ⟨rfl, .inl rfl⟩) fun hbit => .pure ⟨rfl, .inr ?_⟩
  rw [not_not] at hpresent
  have hk : va / pgsize < npages sz := by
    by_contra hge
    have hlt : va / pgsize < 2 ^ 20 := by
      simp only [pgsize]
      omega
    by_cases hkernel : KernelPage (va / pgsize)
    · exact hbit (himage.kernel _ hkernel).not_user
    · rw [himage.empty _ hlt (by omega) hkernel] at hpresent
      exact absurd hpresent (by decide)
  have hmax := npages_le (Nat.le_of_lt himage.small)
  exact ⟨hk, (h.owned.accepts h.live (by omega) hpresent).1⟩

/-- Bytes below the size, or at a page above it that has a table. -/
def CopyTo (sz va : Nat) (buf : List UInt8) : Prop :=
  buf = [] ∨ va + buf.length ≤ sz ∨ va < 2 ^ 32 ∧ npages sz ≤ va / pgsize ∧ imageHas sz (va / pgsize / nptentries)

theorem CopyTo.table (h : CopyTo sz va buf) (hbuf : buf ≠ []) (himage : Image m own d sz) :
    va < 2 ^ 32 ∧ tableAt m.word d (va / pgsize / nptentries) ≠ none := by
  have hlen := length_pos_iff.mpr hbuf
  have hsmall := himage.small
  simp only [kernbase] at hsmall
  obtain hnil | hin | ⟨hlt, -, hhas⟩ := h
  · exact absurd hnil hbuf
  · refine ⟨by omega, himage.table_of_inside ?_⟩
    simp only [npages, pgsize]
    omega
  · rw [← himage.hasTable_eq] at hhas
    exact ⟨hlt, (of_decide_eq_true hhas).2⟩

theorem copyoutLoop_spec (fuel : Nat) (h : Held m₀ l₀ own₀ d none m l own)
    (himage : Image m own d sz) (hto : CopyTo sz va buf) :
    Ends (copyoutLoop cur d fuel va buf) m
      (fun r m' => (r < 0 ∨ fuel = 0 ∨ buf = [] ∨ va / pgsize < npages sz) ∧ Held m₀ l₀ own₀ d none m' l own ∧
        Image m' own d sz) fun _ _ => False := by
  induction fuel generalizing m va buf with
  | zero => exact .pure ⟨.inr (.inl rfl), h, himage⟩
  | succ fuel ih =>
    unfold copyoutLoop
    by_cases hbuf : buf = []
    · rw [if_pos hbuf]
      exact .pure ⟨.inr (.inr (.inl hbuf)), h, himage⟩
    · obtain ⟨hva, htable⟩ := hto.table hbuf himage
      have hround : pgrounddown va / pgsize = va / pgsize := Nat.mul_div_cancel _ (by decide)
      have hle : pgrounddown va ≤ va := Nat.div_mul_le_self va pgsize
      have hmod : va - pgrounddown va < pgsize := by
        simp only [pgrounddown, pgsize]
        omega
      have huva := uva2ka_spec cur h himage (Nat.lt_of_le_of_lt hle hva) (by rwa [hround])
      rw [hround] at huva
      rw [if_neg hbuf]
      refine huva.bind fun pa0 m₁ hpa => ?_
      obtain ⟨rfl, hzero | ⟨hk, huser⟩⟩ := hpa
      · rw [if_pos hzero]
        exact .pure ⟨.inl (by decide), h, himage⟩
      · have hpage := h.owned.page _ _ huser
        have hword : (pa0 + (va - pgrounddown va)) % 2 ^ 32 = pa0 + (va - pgrounddown va) := by
          have halign := hpage.aligned
          have hlt := hpage.2
          simp only [pgsize] at halign hmod
          omega
        have hlen : va - pgrounddown va + (buf.take (pgsize - (va - pgrounddown va))).length ≤ pgsize := by
          rw [length_take]
          omega
        rw [if_neg hpage.1.pos, hword]
        refine (memmove_spec cur hpage hlen).bind fun _ m₂ hm₂ => ?_
        obtain ⟨word', rfl, hother⟩ := hm₂
        obtain ⟨hheld, hpte, htables⟩ := h.poke huser hother
        refine (ih hheld (himage.congr hpte htables h.live) ?_).mono
          (fun _ _ hr => ⟨.inr (.inr (.inr hk)), hr.2⟩) fun _ _ hf => hf
        by_cases hrest : buf.drop (pgsize - (va - pgrounddown va)) = []
        · exact .inl hrest
        · have hsmall := himage.small
          have hmore : pgsize - (va - pgrounddown va) < buf.length := by
            by_contra hge
            exact hrest (drop_of_length_le (Nat.le_of_not_lt hge))
          obtain hnil | hin | ⟨-, hge, -⟩ := hto
          · exact absurd hnil hbuf
          · refine .inr (.inl ?_)
            rw [length_drop]
            simp only [kernbase, pgsize] at hsmall hmore hmod ⊢
            omega
          · exact absurd hge (Nat.not_le_of_lt hk)

theorem copyout_spec (h : Held m₀ l₀ own₀ d none m l own) (himage : Image m own d sz) (hto : CopyTo sz va buf) :
    Ends (copyout cur d va buf) m
      (fun r m' => (r < 0 ∨ buf = [] ∨ va / pgsize < npages sz) ∧ Held m₀ l₀ own₀ d none m' l own ∧
        Image m' own d sz) fun _ _ => False := by
  unfold copyout
  refine (copyoutLoop_spec buf.length h himage hto).post fun r m' hr => ⟨?_, hr.2⟩
  have hcases := hr.1
  rwa [length_eq_zero_iff, or_self_left] at hcases

theorem copyoutLoop_nil (cur d fuel va : Nat) (m : Memory) : copyoutLoop cur d fuel va [] m = .ok 0 m := by
  cases fuel <;> rfl

theorem copyout_page (cur : Nat) (buf : List UInt8) (h : Owned m l own) (hd : own d = some .directory) (hva : va < kernbase)
    (hpresent : Present (pteAt m.word d (va / pgsize))) (huser : pteAt m.word d (va / pgsize) / pteU % 2 ≠ 0)
    (hlen : va % pgsize + buf.length ≤ pgsize) :
    Ends (copyout cur d va buf) m (fun r _ => r = 0) fun _ _ => False := by
  have hpage : va / pgsize < userPages := by
    simp only [kernbase] at hva
    change va / 4096 < 524288
    omega
  have hround : pgrounddown va / pgsize = va / pgsize := Nat.mul_div_cancel _ (by decide)
  have hlow : pgrounddown va < 2 ^ 32 :=
    Nat.lt_of_le_of_lt (Nat.div_mul_le_self va pgsize) (Nat.lt_trans hva (by decide))
  have hmod : va - pgrounddown va = va % pgsize := by
    simp only [pgrounddown, pgsize]
    omega
  have hrun := uva2ka_run cur h hd hlow (by rwa [hround]) (by rwa [hround])
  rw [hround] at hrun
  have hframe := h.page _ _ (h.accepts hd hpage hpresent).1
  generalize p2v (pteAddr (pteAt m.word d (va / pgsize))) = pa at hrun hframe
  have hword : (pa + va % pgsize) % 2 ^ 32 = pa + va % pgsize := by
    have halign := hframe.aligned
    have hlt := hframe.2
    simp only [pgsize] at halign ⊢
    omega
  unfold copyout
  generalize buf.length = fuel
  cases fuel with
  | zero => exact .pure rfl
  | succ fuel =>
    unfold copyoutLoop
    split
    · exact .pure rfl
    · refine .after_ok hrun ?_
      rw [if_neg hframe.1.pos, hmod, hword]
      have htake : va % pgsize + (buf.take (pgsize - va % pgsize)).length ≤ pgsize := by
        rw [length_take]
        omega
      have hdrop : buf.drop (pgsize - va % pgsize) = [] := drop_of_length_le (by omega)
      refine (memmove_spec cur hframe htake).bind fun _ m₁ _ => ?_
      rw [hdrop]
      exact .of_run_ok (copyoutLoop_nil ..) rfl

end RainOS.Vm
