import RainOS.Process.Runs

/-!
# Calls that fail for lack of memory

Which pages a failing `fork`, `exec` or `sbrk` keeps. The pages a call asks for come in an order that its
arguments decide, and so the number of free pages decides which request finds none. A call that finds no
page for the user gives back what it took. One that finds no page for a page table does not: `mappages` has
failed, and the page that was to be mapped, or the directory that `setupkvm` fills, is forgotten.
-/

namespace RainOS.Process

open Kalloc Vm Function List

variable {s s' : Machine} {m m' : Memory} {l l' : List Nat} {own own' : Nat → Option Owner} {p : Slot}
  {data d q oldsz newsz r k sz : Nat} {n : Int} {ip : File} {argv : List (List UInt8)}

def FreeSame (s s' : Machine) : Prop := ∀ q, findFree s'.mem q = some true ↔ findFree s.mem q = some true

/-- The same pages are free but for the tables that are installed in a directory. -/
structure FreeSameBut (d : Nat) (s s' : Machine) : Prop where
  sub : ∀ q, findFree s'.mem q = some true → findFree s.mem q = some true
  back : ∀ q, findFree s.mem q = some true →
    findFree s'.mem q = some true ∨ ∃ i < npdentries, tableAt s'.mem.word d i = some q

theorem findFree_iff (h : Owned m l own) : findFree m q = some true ↔ q ∈ l := by
  have hnot := h.free.not_free_iff q
  tauto

theorem not_free_of_none (h : Owned m l own) (hq : own q = none) : q ∉ l := fun hin => by
  rw [(h.isFree q).mpr hin] at hq
  cases hq

theorem Failed.freeSame_iff {leaks : Prop} (hbefore : Owned s.mem l own)
    (h : Failed leaks l own s.mem s'.mem l' own') : FreeSame s s' ↔ ¬leaks := by
  constructor
  · intro hsame hleaks
    obtain ⟨⟨q, hq, hnone⟩, -⟩ := h.lost hleaks
    have hback := (hsame q).mpr ((findFree_iff hbefore).mpr hq)
    exact not_free_of_none h.owned hnone ((findFree_iff h.owned).mp hback)
  · intro hno q
    rw [findFree_iff h.owned, findFree_iff hbefore, ← h.owned.isFree, ← hbefore.isFree, h.same hno]

theorem ForkEnds.freeSame_iff (h : ForkEnds p l own s (-1) s') (hbefore : Owned s.mem l own) :
    FreeSame s s' ↔ (∀ q, (s.procs q).state ≠ .unused) ∨ forkRequest (s.procs p).sz l.length ≠ some .table := by
  generalize hr : (-1 : Int) = r at h
  cases h with
  | full hno => exact iff_of_true (fun _ => Iff.rfl) (.inl hno)
  | failed np _ l' own' hunused hothers hstate hloads hfailed =>
    rw [Failed.freeSame_iff hbefore hfailed]
    exact (or_iff_right fun hno => hno np hunused).symm
  | made np pid _ l' own' hunused hothers hloads howned hframe hpgdir hkstack hclient hshape hflags => omega

theorem GrowEnds.freeSameBut_iff (h : GrowEnds d oldsz newsz s.mem l own r s'.mem)
    (hbefore : Owned s.mem l own) (hr : r = 0) (hpos : 0 < newsz) (hle : oldsz ≤ newsz) :
    FreeSameBut d s s' ↔ kernbase ≤ newsz ∨ growRequest s.mem.word d oldsz newsz l.length ≠ some .table := by
  generalize hm : s'.mem = m' at h
  cases h with
  | refused hbig => exact iff_of_true ⟨fun q hq => hm ▸ hq, fun q hq => .inl (hm ▸ hq)⟩ (.inl hbig)
  | kept hsmall hlt => omega
  | grown pages l' _ own' hsmall _ hfilled hlen hshape => omega
  | short _ l' own' hsmall _ hreq hlast howned hframe hmissing => omega
  | failed _ l' own' lost hsmall _ howned hframe hshape hmine hreturned hreq =>
    subst hm
    rw [or_iff_right (Nat.not_le_of_lt hsmall), hreq]
    cases lost with
    | none =>
      refine iff_of_true ⟨fun q hq => ?_, fun q hq => ?_⟩ (by simp)
      · exact (findFree_iff hbefore).mpr (hreturned.sub q ((findFree_iff howned).mp hq))
      · rw [findFree_iff howned]
        exact hreturned.back q ((findFree_iff hbefore).mp hq) nofun
    | some q =>
      refine iff_of_false (fun hsame => ?_) (by simp)
      obtain ⟨hq, hnone⟩ := hreturned.gone q rfl
      obtain hfree | ⟨i, hi, htable⟩ := hsame.back q ((findFree_iff hbefore).mpr hq)
      · exact not_free_of_none howned hnone ((findFree_iff howned).mp hfree)
      · rw [howned.own_table hshape.live hi htable] at hnone
        cases hnone

theorem GrowprocEnds.freeSameBut_iff {r : Int} (h : GrowprocEnds p n l own s r s') (hbefore : Owned s.mem l own)
    (hsmall : (s.procs p).sz < kernbase) (hr : r < 0) (hpos : 0 < n) (hn : n < 2 ^ 31) :
    FreeSameBut (s.procs p).pgdir s s' ↔ kernbase ≤ sbrkSize (s.procs p).sz n ∨
      growRequest s.mem.word (s.procs p).pgdir (s.procs p).sz (sbrkSize (s.procs p).sz n) l.length ≠ some .table := by
  have hsize : (sbrkSize (s.procs p).sz n : Int) = (s.procs p).sz + n := by
    simp only [kernbase] at hsmall
    rw [sbrkSize]
    omega
  cases h with
  | grown _ _ r m' hgrow hs' =>
    have hzero : r = 0 := by
      by_contra hne
      rw [if_neg hne] at hr
      omega
    rw [if_pos hzero] at hs'
    subst hs'
    exact GrowEnds.freeSameBut_iff hgrow hbefore hzero (by omega) (by omega)
  | shrunk _ hneg _ _ _ _ _ _ _ _ _ => omega
  | same hzero => omega

theorem ExecEnds.freeSame_iff (h : ExecEnds p ip l own s (-1) s') (hbefore : Owned s.mem l own) :
    FreeSame s s' ↔ ¬ExecLeaks ip l.length := by
  generalize hr : (-1 : Int) = r at h
  cases h with
  | refused hno =>
    refine iff_of_true (fun _ => Iff.rfl) ?_
    rintro (⟨helf, -⟩ | ⟨g, hg, -⟩)
    · exact helf hno
    · rw [programSegments, hno] at hg
      cases hg
  | failed _ l' own' hloaded hfailed => exact Failed.freeSame_iff hbefore hfailed
  | done pgdir sz _ l' own' hin hloaded howned hframe hshape => omega

/-- A call that fails leaks nothing exactly if the page it did not find was not to be a page table. For
`exec` this is about programs whose segments lie inside. -/
theorem failed_call_leaks_nothing_iff (hlinked : Linked data) (h : Owned s.mem l own)
    (hend : kernbase < s.mem.kernelEnd) (hp : Live s p)
    (hshape : Shaped s.mem own (s.procs p).pgdir (s.procs p).sz) :
    (∀ s', fork data p s = .ok (-1) s' → (FreeSame s s' ↔
      (∀ q, (s.procs q).state ≠ .unused) ∨ forkRequest (s.procs p).sz l.length ≠ some .table)) ∧
    (∀ n s', 0 < n → n < 2 ^ 31 → sbrk p n s = .ok (-1) s' → (FreeSameBut (s.procs p).pgdir s s' ↔
      kernbase ≤ sbrkSize (s.procs p).sz n ∨ growRequest s.mem.word (s.procs p).pgdir (s.procs p).sz
        (sbrkSize (s.procs p).sz n) l.length ≠ some .table)) ∧
    (∀ argv s', exec data p none argv s = .ok (-1) s' → FreeSame s s') ∧
    ∀ ip argv s', ArgsFit argv → (∀ g ∈ programSegments ip l.length, g.Inside ip ∧ ¬g.Short) →
      exec data p (some ip) argv s = .ok (-1) s' → (FreeSame s s' ↔ ¬ExecLeaks ip l.length) := by
  refine ⟨fun s' hrun => ?_, fun n s' hpos hn hrun => ?_, fun argv s' hrun => ?_,
    fun ip argv s' hargs hsegs hrun => ?_⟩
  · exact ((fork_spec hlinked h hend hp hshape).of_ok hrun).freeSame_iff h
  · obtain ⟨r', hends, hneg⟩ := (sbrk_spec h hend hshape).of_ok hrun
    exact hends.freeSameBut_iff h hshape.small (hneg.mp rfl) hpos hn
  · unfold Process.exec at hrun
    cases hrun
    exact fun _ => Iff.rfl
  · exact ((exec_spec hlinked p h hend hshape.live (fun g hg => (hsegs g hg).1) (fun g hg => (hsegs g hg).2)
      hargs).of_ok hrun).freeSame_iff h

theorem owned_drain (h : Owned m l own) (hk : k ≤ l.length) :
    ∃ m' l' own', Owned m' l' own' ∧ l'.length = k ∧ Frame (· ∈ l) m own m' own' := by
  induction l generalizing m own with
  | nil => exact ⟨m, [], own, h, (Nat.le_zero.mp hk).symm, .refl _ _ _⟩
  | cons q l ih =>
    by_cases heq : k = (q :: l).length
    · exact ⟨m, q :: l, own, h, heq.symm, .refl _ _ _⟩
    · have hle : k ≤ l.length := Nat.le_of_lt_succ (Nat.lt_of_le_of_ne hk heq)
      obtain ⟨m', l', own', howned, hlen, hframe⟩ := ih (owned_kalloc h) hle
      have hstart : Frame (· ∈ q :: l) m own { m with freelist := m.word q } (update own q (some .client)) :=
        ⟨rfl, fun r hr => update_of_ne (ne_of_not_mem_cons hr) _ _, fun _ _ => rfl⟩
      exact ⟨m', l', own', howned, hlen, hstart.trans (hframe.mono fun _ hr => mem_cons_of_mem _ hr)⟩

theorem boot_drained (hk : k ≤ 50000) :
    ∃ s l own, Inv s l own ∧ Live s initproc ∧ (s.procs initproc).sz = pgsize ∧ l.length = k ∧
      (s.procs ⟨1, by decide⟩).state = .unused := by
  obtain ⟨s, l, own, hrun, hbooted, hlen⟩ := boot_ok
  obtain ⟨m', l', own', howned, hlen', hframe⟩ := owned_drain hbooted.owned (Nat.le_trans hk hlen)
  have hinv : Inv { s with mem := m' } l' own' :=
    hbooted.inv.same howned hframe (fun q hq => hbooted.inv.not_free hq) fun q hq => ⟨hq, rfl, rfl, rfl⟩
  refine ⟨_, l', own', hinv, ?_, hbooted.size, hlen', hbooted.others _ (by decide)⟩
  unfold Live
  rw [hbooted.runnable]
  exact nofun

theorem three_pages (hbefore : Owned m l own) (h : Owned m' l' own') (hframe : Frame (· ∈ l) m own m' own')
    (hd : d ∈ l) (hq : q ∈ l) (hclient : own' q = some .client) (hshape : Shaped m' own' d sz)
    (hsz : 0 < npages sz) : 3 ≤ l.length := by
  have hmax := npages_le (Nat.le_of_lt hshape.small)
  have huser := (h.accepts hshape.live (by omega) (hshape.present 0 hsz)).1
  have hin : p2v (pteAddr (pteAt m'.word d 0)) ∈ l := by
    by_contra hnot
    rw [hframe.own _ hnot] at huser
    have hdir := ((hbefore.isUser _ d 0).mp huser).1
    rw [(hbefore.isFree d).mpr hd] at hdir
    cases hdir
  have hnodup : [q, d, p2v (pteAddr (pteAt m'.word d 0))].Nodup := by
    have hdir := hshape.live
    have hne : ∀ r r' o o', own' r = some o → own' r' = some o' → o ≠ o' → r ≠ r' := by
      rintro r _ o o' ho ho' hoo rfl
      exact hoo (Option.some.inj (ho.symm.trans ho'))
    simp only [nodup_cons, mem_cons, not_mem_nil, or_false, not_or, not_false_eq_true, and_true,
      nodup_nil]
    exact ⟨⟨hne q d _ _ hclient hdir nofun, hne q _ _ _ hclient huser nofun⟩, hne d _ _ _ hdir huser nofun⟩
  refine (subperm_of_subset hnodup fun r hr => ?_).length_le
  simp only [mem_cons, not_mem_nil, or_false] at hr
  obtain heq | heq | heq := hr
  · exact heq ▸ hq
  · exact heq ▸ hd
  · exact heq ▸ hin

theorem failed_call_leaks_nothing_iff_full :
    ∃ s s', Live s initproc ∧ s.mem.freelist = 0 ∧ fork 0x80109000 initproc s = .ok (-1) s' ∧ FreeSame s s' := by
  obtain ⟨s, l, own, hinv, hlive, hsize, hlen, -⟩ := boot_drained (Nat.zero_le 50000)
  have hlinked : Linked 0x80109000 := by decide
  have hshape := hinv.shape initproc hlive
  obtain rfl := eq_nil_of_length_eq_zero hlen
  obtain ⟨r, s', hrun, hends⟩ := (fork_spec hlinked hinv.owned hinv.above hlive hshape).exists_ok
  have hneg : r = -1 := by
    cases hends with
    | full _ => rfl
    | failed => rfl
    | made _ _ _ _ _ _ _ _ _ _ hpgdir => cases hpgdir
  subst hneg
  refine ⟨s, s', hlive, hinv.owned.free.chain, hrun, ?_⟩
  exact ((failed_call_leaks_nothing_iff hlinked hinv.owned hinv.above hlive hshape).1 s' hrun).mpr (.inr nofun)

/-- With two pages left, `fork` takes one for the kernel stack and one for the directory, finds none for the
first table, and loses the directory. -/
theorem fork_leaks_directory :
    ∃ s l own s', Inv s l own ∧ Live s initproc ∧ l.length = 2 ∧ fork 0x80109000 initproc s = .ok (-1) s' ∧
      ¬FreeSame s s' := by
  obtain ⟨s, l, own, hinv, hlive, hsize, hlen, hunused⟩ := boot_drained (k := 2) (by decide)
  have hlinked : Linked 0x80109000 := by decide
  have hshape := hinv.shape initproc hlive
  obtain ⟨r, s', hrun, hends⟩ := (fork_spec hlinked hinv.owned hinv.above hlive hshape).exists_ok
  have hneg : r = -1 := by
    cases hends with
    | full _ => rfl
    | failed => rfl
    | made np pid _ l' own' _ _ _ howned hframe hpgdir hkstack hclient hshape' hflags =>
      have hsz : 0 < npages (s'.procs np).sz := by
        rw [hflags.1, hsize]
        decide
      have hthree := three_pages hinv.owned howned hframe hpgdir hkstack hclient hshape' hsz
      omega
  subst hneg
  refine ⟨s, l, own, s', hinv, hlive, hlen, hrun, fun hsame => ?_⟩
  obtain hno | hreq := (hends.freeSame_iff hinv.owned).mp hsame
  · exact hno _ hunused
  · rw [hlen] at hreq
    have htable : (copyRequests (s.procs initproc).sz)[1]? = some .table := copyRequests_kernel (by decide) (by decide)
    exact hreq htable

end RainOS.Process
