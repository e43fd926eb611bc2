import RainOS.Process.Runs
import RainOS.Vm.Contents

/-!
# Copies of an address space

`copyuvm` makes a directory whose pages hold what the parent's held, in frames of their own. Since no page has two
owners, a process that writes through one of the two directories cannot change what the other shows.
-/

namespace RainOS.Process

open Kalloc Vm Function List

variable {m m' : Memory} {l l' : List Nat} {own own' : Nat → Option Owner} {word : Nat → Nat}
  {p q d e k n a sz data pgdir va : Nat}

theorem lt_of_request {r : Request} (hr : (copyRequests sz)[n]? = some r) : n < (copyRequests sz).length :=
  (List.getElem?_eq_some_iff.mp hr).1

/-- With a page for each request `copyuvm` succeeds, and then the child's pages hold what the parent's held. -/
theorem copyuvm_copies (hlinked : Linked data) (h : Owned m l own) (hshape : Shaped m own pgdir sz)
    (hend : kernbase < m.kernelEnd) :
    Ends (copyuvm data pgdir sz) m (fun d m' => (d = 0 → l.length < (copyRequests sz).length) ∧
      (d ≠ 0 → ∀ k < npages sz, ∀ q, frameAt m'.word d k = some q →
        ∀ x < pgsize, m'.word (q + x) = m.word (sourceOf m.word pgdir k + x))) fun _ _ => True := by
  have hmax := npages_le (Nat.le_of_lt hshape.small)
  have hpages : npages sz ≤ 524288 := hmax
  unfold copyuvm
  refine .bind (setupkvm_spec hlinked h).returns fun d m₁ hsetup => ?_
  cases hsetup with
  | full hl =>
    subst hl
    exact .pure ⟨fun _ => Nat.succ_pos _, fun hne => absurd rfl hne⟩
  | lost _ _ _ hin hfew _ _ _ =>
    exact .pure ⟨fun _ => lt_of_request (copyRequests_kernel (length_pos_of_mem hin) hfew),
      fun hne => absurd rfl hne⟩
  | made _ pages l₁ _ own₁ hne hsplit hin hlen howned hgrew hlive hfresh =>
    have hbuild := building_start h hend hsplit hin howned hgrew hlive hfresh
    have hparent := hbuild.toHeld.beside hshape.live
    have hreq : (copyRequests sz)[l.length]? = (requests (hasTable m₁.word d) 0 (npages sz))[l₁.length]? := by
      rw [hsplit, length_append, hlen, copyRequests_user, hfresh.hasTable_eq]
    have hsource : ∀ k, 0 ≤ k → k < 0 + npages sz → ∀ x < pgsize,
        m.word (sourceOf m.word pgdir k + x) = m₁.word (sourceOf m₁.word pgdir k + x) := by
      intro k _ hk x hx
      have hsame : sourceOf m₁.word pgdir k = sourceOf m.word pgdir k := by
        unfold sourceOf
        rw [hparent.entries k (by omega)]
      obtain ⟨huser, haccepts⟩ := h.accepts hshape.live (n := k) (by omega) (hshape.present k (by omega))
      rw [hsame, hparent.words]
      rw [pgrounddown_add (p := sourceOf m.word pgdir k) haccepts.1 hx]
      exact spaceOf_of_own huser
    have hstores := copyLoop_stores (npages sz) howned hlive hparent.live hparent.ne hfresh.kernel_present (by omega)
      (fun k _ hk => by
        rw [hparent.entries k (by omega)]
        exact hshape.present k (by omega))
      (fun k _ hk => by
        rw [hbuild.image.user_empty (Nat.zero_le k) (by omega)]
        decide) hsource
    have hends := copyLoop_spec (F := fun k => pteFlags (pteAt m.word pgdir k)) (n := 0) (npages sz) howned hlive
      hparent.live hparent.ne hfresh.kernel_present (Nat.zero_le _) (by omega) fun k hk => by rw [hparent.entries k hk]
    have hloop := hstores.and hends
    rw [Nat.zero_mul] at hloop
    rw [if_neg hne]
    refine hloop.returns.bind fun r m₂ ⟨hstored, hends⟩ => ?_
    have hfails : ∀ r, (requests (hasTable m₁.word d) 0 (npages sz))[l₁.length]? = some r →
        l.length < (copyRequests sz).length := fun r hr => lt_of_request (hreq.trans hr)
    cases hends with
    | done => exact .pure ⟨fun hzero => absurd hzero hne, fun _ k hk => hstored.new k (Nat.zero_le k) (by omega)⟩
    | full _ _ _ _ _ _ hr =>
      exact Ends.always.bind fun _ _ _ => Ends.pure ⟨fun _ => hfails _ hr, fun hne => absurd rfl hne⟩
    | lost _ _ _ _ _ _ _ _ _ _ _ hr =>
      exact Ends.always.bind fun _ _ _ => Ends.pure ⟨fun _ => hfails _ hr, fun hne => absurd rfl hne⟩

/-- The child maps the pages below the size, with the parent's flags, to frames of its own that hold what the parent's
held at the call, and no other page of user memory; the parent has what it had. -/
structure Copied (pgdir d sz : Nat) (m m' : Memory) : Prop where
  pages : ∀ k < npages sz, ∃ p q, frameAt m.word pgdir k = some p ∧ frameAt m'.word d k = some q ∧
    pteFlags (pteAt m'.word d k) = pteFlags (pteAt m.word pgdir k) ∧ ∀ x < pgsize, m'.word (q + x) = m.word (p + x)
  distinct : ∀ j < npages sz, ∀ k < npages sz, frameAt m'.word d j = frameAt m'.word d k → j = k
  apart : ∀ k < npages sz, ∀ q, frameAt m'.word d k = some q → q ≠ pgdir ∧
    (∀ i < npdentries, tableAt m.word pgdir i ≠ some q) ∧ ∀ j < userPages, frameAt m.word pgdir j ≠ some q
  absent : ∀ k, npages sz ≤ k → k < userPages → ¬Present (pteAt m'.word d k)
  entries : ∀ k < 2 ^ 20, pteAt m'.word pgdir k = pteAt m.word pgdir k
  contents : ∀ k < userPages, ∀ p, frameAt m.word pgdir k = some p → ∀ x < pgsize, m'.word (p + x) = m.word (p + x)

theorem copied_of_held (hheld : Held m l own d none m' l' own') (hshape : Shaped m own pgdir sz)
    (himage : Image m' own' d sz)
    (hflags : ∀ k < npages sz, pteFlags (pteAt m'.word d k) = pteFlags (pteAt m.word pgdir k))
    (hcopies : ∀ k < npages sz, ∀ q, frameAt m'.word d k = some q →
      ∀ x < pgsize, m'.word (q + x) = m.word (sourceOf m.word pgdir k + x)) : Copied pgdir d sz m m' := by
  have hmax := npages_le (Nat.le_of_lt hshape.small)
  have hparent := hheld.beside hshape.live
  have huser : ∀ k < npages sz, ∀ q, frameAt m'.word d k = some q → own' q = some (.user d k) :=
    fun k hk q hq => hheld.owned.own_frame hheld.live (by omega) hq
  -- A page of the child was free, so nothing of the parent is in it.
  have hnew : ∀ k < npages sz, ∀ q, frameAt m'.word d k = some q → own q = some .free := fun k hk q hq => by
    rw [hheld.before.isFree]
    exact hheld.sub (.inr (spaceOf_of_own (huser k hk q hq)))
  refine ⟨fun k hk => ?_, fun j hj k hk heq => ?_, fun k hk q hq => ⟨?_, fun i hi ht => ?_, fun j hj hf => ?_⟩,
    himage.shaped.absent, hparent.entries, fun k hk p hp x hx => ?_⟩
  · have hframe : frameAt m'.word d k = some (p2v (pteAddr (pteAt m'.word d k))) :=
      decode_eq_some.mpr ⟨himage.inside k hk, rfl⟩
    exact ⟨_, _, decode_eq_some.mpr ⟨hshape.present k hk, rfl⟩, hframe, hflags k hk, hcopies k hk _ hframe⟩
  · have hframe : frameAt m'.word d j = some (p2v (pteAddr (pteAt m'.word d j))) :=
      decode_eq_some.mpr ⟨himage.inside j hj, rfl⟩
    have hj' := huser j hj _ hframe
    rw [huser k hk _ (heq ▸ hframe)] at hj'
    cases hj'
    rfl
  · rintro rfl
    have hfree := hnew k hk q hq
    rw [hshape.live] at hfree
    cases hfree
  · have hfree := hnew k hk q hq
    rw [hheld.before.own_table hshape.live hi ht] at hfree
    cases hfree
  · have hfree := hnew k hk q hq
    rw [hheld.before.own_frame hshape.live hj hf] at hfree
    cases hfree
  · refine hparent.words _ ?_
    rw [pgrounddown_add (decode_aligned hp) hx]
    exact spaceOf_of_own (hheld.before.own_frame hshape.live hk hp)

def UserWritable (pte : Nat) : Prop := Present pte ∧ pte / pteW % 2 = 1 ∧ pte / pteU % 2 = 1

instance (pte : Nat) : Decidable (UserWritable pte) := inferInstanceAs (Decidable (_ ∧ _ ∧ _))

/-- A store of a byte by a process, which traps unless its directory lets it write there. -/
def storeByte (d : Nat) (word : Nat → Nat) (c : Nat × UInt8) : Nat → Nat :=
  match translate word d c.1 with
  | some a => if c.1 < kernbase ∧ UserWritable (pteAt word d (c.1 / pgsize)) then putBytes word a [c.2] else word
  | none => word

theorem storeByte_of_unowned (h : Owned m l own) (hd : own d = some .directory) (c : Nat × UInt8)
    (ha : ∀ k, own (pgrounddown a) ≠ some (.user d k)) : storeByte d m.word c a = m.word a := by
  unfold storeByte
  cases hx : translate m.word d c.1 with
  | none => rfl
  | some x =>
    dsimp only
    split
    · rename_i hwrite
      have hva : c.1 < 2147483648 := hwrite.1
      have hpage : c.1 / pgsize < userPages := by
        change c.1 / 4096 < 524288
        omega
      rw [translate_eq (by omega), Option.map_eq_some_iff] at hx
      obtain ⟨p, hp, rfl⟩ := hx
      have hoff : c.1 % pgsize + 1 ≤ pgsize := Nat.mod_lt _ (by decide)
      refine putBytes_of_ne (decode_aligned hp) hoff ?_
      rintro rfl
      exact ha (c.1 / pgsize) (h.own_frame hd hpage hp)
    · rfl

theorem storeByte_other (h : Owned m l own) (hd : own d = some .directory) (he : own e = some .directory) (hne : e ≠ d)
    (c : Nat × UInt8) : Owned { m with word := storeByte d m.word c } l own ∧
      ∀ va < kernbase, byteAt (storeByte d m.word c) e va = byteAt m.word e va := by
  have hword : ∀ a, (∀ k, own (pgrounddown a) ≠ some (.user d k)) → storeByte d m.word c a = m.word a :=
    fun a ha => storeByte_of_unowned h hd c ha
  refine ⟨h.scribble _ fun a o ho hstructural => hword a fun k hk => ?_, fun va hva => ?_⟩
  · rw [hk] at ho
    cases ho
    exact hstructural
  · change va < 2147483648 at hva
    have hpage : va / pgsize < userPages := by
      change va / 4096 < 524288
      omega
    have hentry : pteAt (storeByte d m.word c) e (va / pgsize) = pteAt m.word e (va / pgsize) := by
      refine h.pteAt_congr he (div_lt hpage) (fun a ha => hword a fun k hk => ?_) fun t ht a ha => hword a fun k hk => ?_
      · rw [ha, he] at hk
        cases hk
      · rw [ha, ht] at hk
        cases hk
    refine byteAt_congr (by omega) (frameAt_eq_of_eq hentry) fun p hp a ha => hword a fun k hk => ?_
    rw [ha, h.own_frame he hpage hp] at hk
    cases hk
    exact hne rfl

theorem storeBytes_other (stores : List (Nat × UInt8)) (h : Owned m l own) (hd : own d = some .directory)
    (he : own e = some .directory) (hne : e ≠ d) (hva : va < kernbase) :
    byteAt (stores.foldl (storeByte d) m.word) e va = byteAt m.word e va := by
  induction stores generalizing m with
  | nil => rfl
  | cons c stores ih =>
    obtain ⟨howned, hbyte⟩ := storeByte_other h hd he hne c
    rw [foldl_cons, ← hbyte va hva]
    exact ih howned

/-- `copyuvm` returns a directory if there are pages enough. The directory is then a copy of the parent's, and neither
process can change what the other sees by writing to its own memory. -/
theorem copyuvm_isolates (hlinked : Linked data) (h : Owned m l own) (hshape : Shaped m own pgdir sz)
    (hend : kernbase < m.kernelEnd) :
    ∃ d m', copyuvm data pgdir sz m = .ok d m' ∧ ((copyRequests sz).length ≤ l.length → d ≠ 0) ∧
      (d ≠ 0 → Copied pgdir d sz m m' ∧
        ∀ (stores : List (Nat × UInt8)), ∀ va < kernbase,
          byteAt (stores.foldl (storeByte d) m'.word) pgdir va = byteAt m'.word pgdir va ∧
          byteAt (stores.foldl (storeByte pgdir) m'.word) d va = byteAt m'.word d va) := by
  have hmax := npages_le (Nat.le_of_lt hshape.small)
  have hsmall : sz < 2147483648 := hshape.small
  have hspec := copyuvm_spec hlinked h hshape.live hend (show sz < 2 ^ 32 by omega)
  have hreturns : Ends (copyuvm data pgdir sz) m (CopyuvmEnds pgdir sz m l own) fun _ _ => False :=
    hspec.stop fun _ _ ⟨k, hk, hbad⟩ =>
      hbad.elim (fun habsent => habsent (hshape.present k hk)) fun hge => by omega
  obtain ⟨d, m', hrun, hends, hmany, hcopies⟩ := (hreturns.and (copyuvm_copies hlinked h hshape hend)).exists_ok
  refine ⟨d, m', hrun, fun henough hzero => absurd (hmany hzero) (Nat.not_lt_of_le henough), fun hne => ?_⟩
  cases hends with
  | failed => exact absurd rfl hne
  | made _ _ l' own' _ hheld himage hflags =>
    have hparent := hheld.beside hshape.live
    refine ⟨copied_of_held hheld hshape (himage hshape.small) hflags (hcopies hne), fun stores va hva => ⟨?_, ?_⟩⟩
    · exact storeBytes_other stores hheld.owned hheld.live hparent.live hparent.ne hva
    · exact storeBytes_other stores hheld.owned hparent.live hheld.live hparent.ne.symm hva

/-- The first process is copied. -/
theorem copyuvm_isolates_boot : ∃ s d m', main 0x80109000 [] poweredOn = .ok () s ∧
    copyuvm 0x80109000 (s.procs initproc).pgdir pgsize s.mem = .ok d m' ∧ d ≠ 0 ∧
    Copied (s.procs initproc).pgdir d pgsize s.mem m' := by
  obtain ⟨s, l, own, hboot, hbooted, hmany⟩ := boot_ok
  have hlinked : Linked 0x80109000 := by decide
  obtain ⟨d, m', hrun, henough, hcopied⟩ := copyuvm_isolates hlinked hbooted.owned hbooted.shape hbooted.above
  have hne : d ≠ 0 := henough (Nat.le_trans (by decide) hmany)
  exact ⟨s, d, m', hboot, hrun, hne, (hcopied hne).1⟩

end RainOS.Process
