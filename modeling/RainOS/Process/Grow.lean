import RainOS.Process.Runs
import RainOS.Vm.Contents
import RainOS.Vm.Sweep

/-!
# Growing and shrinking a process

`growproc` takes the result 0 of `allocuvm` and `deallocuvm` for an error, and hands them `sz + n` as an unsigned
word. So a size of zero is reached and then reported as a failure, and a negative size is taken for a large one and
reported as a success. In between it does all that is asked or nothing, unless `allocuvm` overlooks a missing table.
-/

namespace RainOS.Process

open Kalloc Vm Function

variable {s : Machine} {m' : Memory} {l : List Nat} {own own' : Nat → Option Owner} {p : Slot} {n : Int} {r sz va : Nat}

/-- The process has the size it asked for: the pages below it are mapped and no others, what was there before is
unchanged, and what is new is zero. -/
structure Resized (p : Slot) (n : Int) (s s' : Machine) : Prop where
  pgdir : (s'.procs p).pgdir = (s.procs p).pgdir
  size : ((s'.procs p).sz : Int) = (s.procs p).sz + n
  small : (s'.procs p).sz < kernbase
  pages : ∀ k < userPages, Present (pteAt s'.mem.word (s'.procs p).pgdir k) ↔ k < npages (s'.procs p).sz
  contents : ∀ va < min (s.procs p).sz (s'.procs p).sz,
    byteAt s'.mem.word (s'.procs p).pgdir va = byteAt s.mem.word (s.procs p).pgdir va
  zero : ∀ k, npages (s.procs p).sz ≤ k → k < npages (s'.procs p).sz →
    ∀ q, frameAt s'.mem.word (s'.procs p).pgdir k = some q → ∀ x < pgsize, s'.mem.word (q + x) = 0

structure Unchanged (p : Slot) (s s' : Machine) : Prop where
  pgdir : (s'.procs p).pgdir = (s.procs p).pgdir
  size : (s'.procs p).sz = (s.procs p).sz
  table : ∀ k < 2 ^ 20, mapping s'.mem.word (s'.procs p).pgdir k = mapping s.mem.word (s.procs p).pgdir k

/-- The size stays above zero, and memory does not run out at the table of the last page. -/
def Fits (m : Memory) (q : Proc) (n : Int) (free : Nat) : Prop :=
  (n < 0 → 0 < q.sz + n) ∧
    (0 < n → q.sz + n < kernbase → ¬LastTable m.word q.pgdir q.sz (sbrkSize q.sz n) free)

theorem sbrkSize_eq (hsz : sz < kernbase) (hlo : 0 ≤ sz + n) (hhi : n < 2 ^ 31) : (sbrkSize sz n : Int) = sz + n := by
  rw [sbrkSize]
  change sz < 2147483648 at hsz
  omega

theorem proc_resized (s : Machine) (p : Slot) (m' : Memory) (hr : r ≠ 0) : (resized s p r m').procs p = { s.procs p with sz := r } := by
  rw [resized, if_neg hr]
  exact update_self ..

theorem mem_resized : (resized s p r m').mem = m' := by
  rw [resized]
  split <;> rfl

theorem page_of_lt (h : va < sz) : va / pgsize < npages sz := by
  simp only [npages, pgsize]
  omega

theorem resized_of_grown (h : Owned s.mem l own) (hshape : Shaped s.mem own (s.procs p).pgdir (s.procs p).sz)
    (hsize : (r : Int) = (s.procs p).sz + n) (hle : (s.procs p).sz ≤ r) (hsmall : r < kernbase) (hr : r ≠ 0)
    (hgrown : Grown (s.procs p).pgdir (s.procs p).sz r s.mem l m')
    (hkept : ∀ a, Unfollowed own (pgrounddown a) → m'.word a = s.mem.word a) : Resized p n s (resized s p r m') := by
  have hmono := npages_mono hle
  have hmax : npages r ≤ 524288 := npages_le (Nat.le_of_lt hsmall)
  have hproc := proc_resized s p m' hr
  refine ⟨by rw [hproc], by rw [hproc]; exact hsize, by rw [hproc]; exact hsmall, ?_, ?_, ?_⟩ <;> rw [hproc, mem_resized] <;>
    dsimp only
  · intro k hk
    change k < 524288 at hk
    by_cases hin : npages (s.procs p).sz ≤ k ∧ k < npages r
    · obtain ⟨q, -, hframe, -⟩ := hgrown.fresh k hin.1 hin.2
      exact iff_of_true (decode_eq_some.mp hframe).1 hin.2
    · rw [hgrown.other k (by omega) hin]
      by_cases hlt : k < npages (s.procs p).sz
      · exact iff_of_true (hshape.present k hlt) (by omega)
      · exact iff_of_false (hshape.absent k (by omega) hk) (by omega)
  · intro va hva
    have hpage := page_of_lt (Nat.lt_of_lt_of_le hva (Nat.min_le_left _ _))
    have hword : va < 2 ^ 32 := by
      change r < 2147483648 at hsmall
      omega
    refine byteAt_congr hword (frameAt_eq_of_eq (hgrown.other _ (by omega) (by omega))) fun q hq a ha => hkept a ?_
    rw [ha]
    exact unfollowed_of_user (h.own_frame hshape.live (Nat.lt_of_lt_of_le hpage (by change _ ≤ 524288; omega)) hq)
  · intro k hlo hhi q hq
    obtain ⟨q', -, hframe, -, hzero⟩ := hgrown.fresh k hlo hhi
    rw [hframe] at hq
    cases hq
    exact hzero

theorem unchanged_of_undone (hshape : Shaped s.mem own (s.procs p).pgdir (s.procs p).sz) (hsmall : r < kernbase)
    (hundone : Undone (s.procs p).pgdir (s.procs p).sz r s.mem m') : Unchanged p s (resized s p 0 m') := by
  have hmax := npages_le (Nat.le_of_lt hsmall)
  refine ⟨rfl, rfl, fun k hk => ?_⟩
  change meaning (pteAt m'.word (s.procs p).pgdir k) = meaning (pteAt s.mem.word (s.procs p).pgdir k)
  by_cases hin : npages (s.procs p).sz ≤ k ∧ k < npages r
  · rw [meaning_eq_none.mpr (hundone.absent k hin.1 hin.2), meaning_eq_none.mpr (hshape.absent k hin.1 (by omega))]
  · rw [hundone.other k hk hin]

theorem resized_of_dropped (hlt : r < (s.procs p).sz) (hsize : (r : Int) = (s.procs p).sz + n) (hr : r ≠ 0)
    (hshape : Shaped m' own' (s.procs p).pgdir r)
    (hkeeps : ∀ k < npages r, pteAt m'.word (s.procs p).pgdir k = pteAt s.mem.word (s.procs p).pgdir k ∧
      ∀ q, frameAt s.mem.word (s.procs p).pgdir k = some q → ∀ a, pgrounddown a = q → m'.word a = s.mem.word a) :
    Resized p n s (resized s p r m') := by
  have hproc := proc_resized s p m' hr
  have hmono := npages_mono (Nat.le_of_lt hlt)
  refine ⟨by rw [hproc], by rw [hproc]; exact hsize, by rw [hproc]; exact hshape.small, ?_, ?_, ?_⟩ <;>
    rw [hproc, mem_resized] <;> dsimp only
  · intro k hk
    by_cases hin : k < npages r
    · exact iff_of_true (hshape.present k hin) hin
    · exact iff_of_false (hshape.absent k (by omega) hk) hin
  · intro va hva
    obtain ⟨hentry, hword⟩ := hkeeps _ (page_of_lt (Nat.lt_of_lt_of_le hva (Nat.min_le_right _ _)))
    have hva' : va < 2 ^ 32 := by
      have hsmall : r < 2147483648 := hshape.small
      omega
    exact byteAt_congr hva' (frameAt_eq_of_eq hentry) hword
  · intro k hlo hhi
    omega

theorem resized_same (hshape : Shaped s.mem own (s.procs p).pgdir (s.procs p).sz) : Resized p 0 s s := by
  refine ⟨rfl, (Int.add_zero _).symm, hshape.small, fun k hk => ?_, fun _ _ => rfl, fun k hlo hhi => by omega⟩
  by_cases hin : k < npages (s.procs p).sz
  · exact iff_of_true (hshape.present k hin) hin
  · exact iff_of_false (hshape.absent k (by omega) hk) hin

def AllOrNothing (p : Slot) (n r : Int) (s s' : Machine) : Prop := (r = 0 → Resized p n s s') ∧ (r = -1 → Unchanged p s s')

theorem allOrNothing_succeeded (hr : r ≠ 0) :
    AllOrNothing p n (if r = 0 then -1 else 0) s (resized s p r m') ↔ Resized p n s (resized s p r m') := by
  rw [if_neg hr]
  exact ⟨fun h => h.1 rfl, fun h => ⟨fun _ => h, fun hf => absurd hf (by decide)⟩⟩

theorem allOrNothing_failed :
    AllOrNothing p n (if (0 : Nat) = 0 then -1 else 0) s (resized s p 0 m') ↔ Unchanged p s (resized s p 0 m') := by
  rw [if_pos rfl]
  exact ⟨fun h => h.2 rfl, fun h => ⟨fun hf => absurd hf (by decide), fun _ => h⟩⟩

theorem grow_iff (hpos : 0 < n) (hhi : n < 2 ^ 31) (h : Owned s.mem l own) (hend : kernbase < s.mem.kernelEnd)
    (hshape : Shaped s.mem own (s.procs p).pgdir (s.procs p).sz) :
    Ends (allocuvm (s.procs p).pgdir (s.procs p).sz (sbrkSize (s.procs p).sz n)) s.mem
      (fun r m' => AllOrNothing p n (if r = 0 then -1 else 0) s (resized s p r m') ↔ Fits s.mem (s.procs p) n l.length)
      fun _ _ => False := by
  have hsize := sbrkSize_eq hshape.small (n := n) (by omega) hhi
  by_cases hsmall : sbrkSize (s.procs p).sz n < kernbase
  · have hle : (s.procs p).sz ≤ sbrkSize (s.procs p).sz n := by omega
    have hfits : Fits s.mem (s.procs p) n l.length ↔
        ¬LastTable s.mem.word (s.procs p).pgdir (s.procs p).sz (sbrkSize (s.procs p).sz n) l.length :=
      ⟨fun hf => hf.2 hpos (by omega), fun hf => ⟨fun hneg => by omega, fun _ _ => hf⟩⟩
    refine (allocuvm_stored h hshape hend hle hsmall).post fun r m' hends => ?_
    cases hends with
    | grown _ henough _ hgrown =>
      have hr : sbrkSize (s.procs p).sz n ≠ 0 := by omega
      rw [allOrNothing_succeeded hr, hfits]
      refine iff_of_true ?_ henough
      exact resized_of_grown h hshape hsize hle hsmall hr (hgrown hr).1 (hgrown hr).2
    | short _ hlast hr hmissing =>
      rw [allOrNothing_succeeded hr, hfits]
      refine iff_of_false (fun hresized => ?_) (not_not_intro hlast)
      obtain ⟨k, -, hhi', hnone⟩ := hmissing
      have hmax := npages_le (Nat.le_of_lt hsmall)
      have hpages := hresized.pages k (by omega)
      rw [proc_resized s p _ hr, mem_resized] at hpages
      rw [frameAt, decode, if_pos (hpages.mpr hhi')] at hnone
      cases hnone
    | undone _ henough _ hundone =>
      rw [allOrNothing_failed, hfits]
      exact iff_of_true (unchanged_of_undone hshape hsmall hundone) henough
  · refine (allocuvm_shaped _ h hshape hend).post fun r m' hends => ?_
    have hfits : Fits s.mem (s.procs p) n l.length := ⟨fun hneg => by omega, fun _ hlt => by omega⟩
    cases hends with
    | refused _ =>
      rw [allOrNothing_failed]
      exact iff_of_true ⟨rfl, rfl, fun _ _ => rfl⟩ hfits
    | kept hlt => exact absurd hlt hsmall
    | grown _ _ _ _ hlt => exact absurd hlt hsmall
    | short _ _ _ hlt => exact absurd hlt hsmall
    | failed _ _ _ _ hlt => exact absurd hlt hsmall

theorem shrink_iff (hneg : n < 0) (hlo : -2 ^ 31 ≤ n) (h : Owned s.mem l own) (hend : kernbase < s.mem.kernelEnd)
    (hshape : Shaped s.mem own (s.procs p).pgdir (s.procs p).sz) (hsz : 0 < (s.procs p).sz) :
    Ends (deallocuvm (s.procs p).pgdir (s.procs p).sz (sbrkSize (s.procs p).sz n)) s.mem
      (fun r m' => AllOrNothing p n (if r = 0 then -1 else 0) s (resized s p r m') ↔ Fits s.mem (s.procs p) n l.length)
      fun _ _ => False := by
  have hbase : (s.procs p).sz < 2147483648 := hshape.small
  have hfits : Fits s.mem (s.procs p) n l.length ↔ 0 < (s.procs p).sz + n :=
    ⟨fun hf => hf.1 hneg, fun hf => ⟨fun _ => hf, fun hpos => by omega⟩⟩
  rw [hfits]
  have hspec := deallocuvm_shaped (sbrkSize (s.procs p).sz n) h hshape hend
  by_cases hwrap : (s.procs p).sz + n < 0
  · -- The sum wraps to a word above the old size, which stays.
    have hbig : (s.procs p).sz ≤ sbrkSize (s.procs p).sz n := by
      rw [sbrkSize]
      omega
    refine hspec.post fun r m' hends => ?_
    rw [Nat.min_eq_left hbig] at hends
    obtain ⟨rfl, -⟩ := hends
    rw [allOrNothing_succeeded (by omega)]
    refine iff_of_false (fun hresized => ?_) (by omega)
    have hsize := hresized.size
    rw [proc_resized s p m' (by omega)] at hsize
    dsimp only at hsize
    omega
  · have hsize := sbrkSize_eq hshape.small (n := n) (by omega) (by omega)
    have hlt : sbrkSize (s.procs p).sz n < (s.procs p).sz := by omega
    refine (hspec.and (deallocuvm_keeps hlt (Nat.le_of_lt hshape.small) h hshape.live hend)).post fun r m' hends => ?_
    rw [Nat.min_eq_right (Nat.le_of_lt hlt)] at hends
    obtain ⟨⟨rfl, l', own', -, -, hshape'⟩, hkeeps⟩ := hends
    by_cases hzero : sbrkSize (s.procs p).sz n = 0
    · -- The first page has gone, and the call reports a failure.
      rw [hzero] at hshape' ⊢
      rw [allOrNothing_failed]
      refine iff_of_false (fun hunchanged => ?_) (by omega)
      have hfirst := hshape.present 0 (page_of_lt hsz)
      have htable : meaning (pteAt m'.word (s.procs p).pgdir 0) = meaning (pteAt s.mem.word (s.procs p).pgdir 0) :=
        hunchanged.table 0 (by decide)
      rw [meaning_eq_none.mpr (hshape'.absent 0 (Nat.zero_le _) (by decide))] at htable
      exact meaning_eq_none.mp htable.symm hfirst
    · rw [allOrNothing_succeeded hzero]
      exact iff_of_true (resized_of_dropped hlt hsize hzero hshape' hkeeps) (by omega)

/-- A call of `growproc` does all or nothing, and says which, unless it shrinks to a size of zero or below or memory
runs out at the table of the last page. -/
theorem growproc_all_or_nothing_iff (p : Slot) (n : Int) (hlo : -2 ^ 31 ≤ n) (hhi : n < 2 ^ 31) (h : Owned s.mem l own)
    (hend : kernbase < s.mem.kernelEnd) (hshape : Shaped s.mem own (s.procs p).pgdir (s.procs p).sz)
    (hsz : 0 < (s.procs p).sz) :
    ∃ r s', growproc p n s = .ok r s' ∧ (r = 0 ∨ r = -1) ∧
      ((r = 0 → Resized p n s s') ∧ (r = -1 → Unchanged p s s') ↔ Fits s.mem (s.procs p) n l.length) := by
  suffices hends : Ends (growproc p n) s (fun r s' => (r = 0 ∨ r = -1) ∧
      (AllOrNothing p n r s s' ↔ Fits s.mem (s.procs p) n l.length)) fun _ _ => False from hends.exists_ok
  have hresult : ∀ r : Nat, (if r = 0 then (-1 : Int) else 0) = 0 ∨ (if r = 0 then (-1 : Int) else 0) = -1 := fun r => by
    split
    · exact .inr rfl
    · exact .inl rfl
  obtain hneg | rfl | hpos := Int.lt_trichotomy n 0
  · refine growproc_ends (by omega) ?_ fun r m' hiff => ⟨hresult r, hiff⟩
    rw [if_neg (by omega)]
    exact shrink_iff hneg hlo h hend hshape hsz
  · refine (growproc_spec 0 h hend hshape).post fun r s' hends => ?_
    cases hends with
    | grown _ hpos => exact absurd hpos (by decide)
    | shrunk _ hneg => exact absurd hneg (by decide)
    | same _ =>
      refine ⟨.inl rfl, iff_of_true ⟨fun _ => resized_same hshape, fun hf => absurd hf (by decide)⟩ ?_⟩
      exact ⟨fun hneg => absurd hneg (by decide), fun hpos => absurd hpos (by decide)⟩
  · refine growproc_ends (by omega) ?_ fun r m' hiff => ⟨hresult r, hiff⟩
    rw [if_pos hpos]
    exact grow_iff hpos hhi h hend hshape

theorem growproc_all_or_nothing_iff_boot : ∃ s r s', main 0x80109000 [] poweredOn = .ok () s ∧
    growproc initproc (-96) s = .ok r s' ∧ (r = 0 → Resized initproc (-96) s s') ∧ (r = -1 → Unchanged initproc s s') := by
  obtain ⟨s, l, own, hboot, hbooted, -⟩ := boot_ok
  have hshape : Shaped s.mem own (s.procs initproc).pgdir (s.procs initproc).sz := hbooted.size ▸ hbooted.shape
  have hsz : 0 < (s.procs initproc).sz := by
    rw [hbooted.size]
    decide
  obtain ⟨r, s', hrun, -, hiff⟩ := growproc_all_or_nothing_iff initproc (-96) (by decide) (by decide) hbooted.owned
    hbooted.above hshape hsz
  refine ⟨s, r, s', hboot, hrun, hiff.mpr ⟨fun _ => ?_, fun hpos => absurd hpos (by decide)⟩⟩
  rw [hbooted.size]
  decide

/-- The first process gives its only page back: the page goes, and the call reports a failure. -/
theorem growproc_fails_and_frees : ∃ s s', main 0x80109000 [] poweredOn = .ok () s ∧
    growproc initproc (-4096) s = .ok (-1) s' ∧ (s.procs initproc).sz = pgsize ∧
    (mapping s.mem.word (s.procs initproc).pgdir 0).isSome ∧ mapping s'.mem.word (s'.procs initproc).pgdir 0 = none := by
  obtain ⟨s, l, own, hboot, hbooted, -⟩ := boot_ok
  have hshape : Shaped s.mem own (s.procs initproc).pgdir (s.procs initproc).sz := hbooted.size ▸ hbooted.shape
  obtain ⟨r, s', hrun, hends⟩ := (growproc_spec (-4096) hbooted.owned hbooted.above hshape).exists_ok
  cases hends with
  | grown _ hpos => exact absurd hpos (by decide)
  | same hzero => exact absurd hzero (by decide)
  | shrunk _ _ r m' l' own' hr howned hframe hshape' hs' =>
    have hzero : r = 0 := by
      rw [hr, hbooted.size]
      decide
    subst hzero
    refine ⟨s, s', hboot, hrun, hbooted.size, ?_, ?_⟩
    · rw [mapping, meaning, if_pos (hbooted.shape.present 0 (by decide))]
      rfl
    · rw [hs']
      exact meaning_eq_none.mpr (hshape'.absent 0 (by decide) (by decide))

end RainOS.Process
