import RainOS.Process.Calls
import RainOS.Kalloc.Grants
import RainOS.Vm.Contents

/-!
# Adding a page of one's own

`sys_ExAddPage` takes a kernel address and writes it into the page table as if it were a physical one, so the page
that it maps is not the frame. It also relies on `allocadd`, which takes another page than the frame off the free
list, and follows the null pointer of the last one. So the call either traps or maps the wrong page.
-/

namespace RainOS.Process

open Kalloc Vm Function

variable {s s' : Machine} {m : Memory} {l : List Nat} {p : Slot} {d i n va frame low pid : Nat}

/-- `allocadd` traps: it follows a null pointer with nothing at address 0, or the ledger is full. -/
def Faults (m : Memory) (d frame : Nat) : Prop :=
  translate m.word d 0 = none ∧ m.word frame = 0 ∨ ledgerSlots ≤ m.ledger.length + 1

theorem allocadd_found (low pid : Nat) (hne : frame ≠ 0) (hlist : m.freelist ≠ 0) (hfind : findFree m frame = some true) :
    Ends (allocadd low pid frame) m
      (fun r m' => r = 1 ∧ ¬ledgerSlots ≤ m.ledger.length + 1 ∧ m' = granted m low pid frame)
      fun _ _ => ledgerSlots ≤ m.ledger.length + 1 := by
  unfold allocadd
  refine .after_ok (get_run m) ?_
  rw [if_neg hne, if_neg hlist, hfind]
  refine .after_ok (set_run ..) (.ite (fun hfull => .after_error rfl hfull) fun hfull => ?_)
  exact .after_ok (modify_run ..) (.pure ⟨rfl, hfull, rfl⟩)

theorem allocaddAt_found (pid : Nat) (hne : frame ≠ 0) (hlist : m.freelist ≠ 0) (hfind : findFree m frame = some true) :
    Ends (allocaddAt d pid frame) m (fun r m' => r = 1 ∧ ¬Faults m d frame ∧ ∃ low, m' = granted m low pid frame)
      fun _ _ => Faults m d frame := by
  unfold allocaddAt
  refine .after_ok (get_run m) ?_
  cases hzero : translate m.word d 0 with
  | some a =>
    refine (allocadd_found _ pid hne hlist hfind).mono ?_ fun _ _ hfull => .inr hfull
    rintro _ _ ⟨rfl, hroom, rfl⟩
    refine ⟨rfl, fun hfaults => hfaults.elim (fun hf => ?_) hroom, _, rfl⟩
    rw [hzero] at hf
    cases hf.1
  | none =>
    dsimp only
    by_cases hlast : m.word frame = 0
    · rw [if_pos ⟨hfind, hlast⟩]
      exact .after_error rfl (.inl ⟨hzero, hlast⟩)
    · rw [if_neg fun hf => hlast hf.2]
      refine (allocadd_found 0 pid hne hlist hfind).mono ?_ fun _ _ hfull => .inr hfull
      rintro _ _ ⟨rfl, hroom, rfl⟩
      exact ⟨rfl, fun hfaults => hfaults.elim (fun hf => hlast hf.2) hroom, _, rfl⟩

theorem word_granted_of_ne (hne : i ≠ frame) : (granted m low pid frame).word i = m.word i := update_of_ne hne _ _

theorem word_ne_free (hfree : FreeList m l) (hd : d % pgsize = 0) (hnot : d ∉ l) (hi : i < 1024) (hframe : frame ∈ l) :
    d + 4 * i ≠ frame := by
  rintro rfl
  have hself := pgrounddown_self (hfree.pages _ hframe).1.1
  rw [pgrounddown_word hd hi] at hself
  exact hnot (hself ▸ hframe)

theorem tableAt_granted (h : Tables m l d) (hframe : frame ∈ l) (hi : i < npdentries) :
    tableAt (granted m low pid frame).word d i = tableAt m.word d i :=
  target_eq_of_eq (word_granted_of_ne (word_ne_free h.free h.aligned h.taken hi hframe))

theorem pteAt_granted (h : Tables m l d) (hframe : frame ∈ l) (hn : n / nptentries < npdentries) :
    pteAt (granted m low pid frame).word d n = pteAt m.word d n := by
  refine pteAt_eq_of_eq (tableAt_granted h hframe hn) fun t ht => ?_
  exact word_granted_of_ne (word_ne_free h.free (h.table_aligned ht) (h.table _ hn t ht).2.2 (mod_lt n) hframe)

theorem translate_zero_granted (h : Tables m l d) (hframe : frame ∈ l) :
    translate (granted m low pid frame).word d 0 = translate m.word d 0 := by
  rw [translate_eq (by decide), translate_eq (by decide), frameAt_eq_of_eq (pteAt_granted h hframe (by decide))]

theorem head_granted (h : FreeList m l) (hframe : frame ∈ l) (hnext : m.word frame ≠ 0) :
    (granted m low pid frame).word m.freelist = 0 ↔ l.length = 2 := by
  obtain ⟨hchain, -⟩ := h
  match l, hchain with
  | [a], ⟨hhead, _, hend⟩ =>
    obtain rfl := List.mem_singleton.mp hframe
    exact absurd (hhead ▸ hend) hnext
  | a :: b :: rest, ⟨hhead, _, hab, hb, hrest⟩ =>
    by_cases hfirst : m.freelist = frame
    · have hself : (granted m low pid frame).word m.freelist = m.word (m.word frame) := by
        rw [hfirst]
        exact (update_self ..).trans (if_neg hnext)
      rw [hself, ← hfirst, ← hrest.nil_iff]
      simp
    · rw [word_granted_of_ne hfirst]
      refine iff_of_false hb fun hlen => hnext ?_
      have hnil : rest = [] := by simpa using hlen
      subst hnil
      have hlast : frame = b := by
        have hne : frame ≠ a := fun heq => hfirst (hhead.trans heq.symm)
        simpa [hne] using hframe
      rw [hlast, ← hab]
      exact hrest

/-- The call traps: in the first grant, or in the one for the page table. -/
def Traps (m : Memory) (l : List Nat) (d va frame : Nat) : Prop :=
  translate m.word d 0 = none ∧ (l.getLast? = some frame ∨ tableAt m.word d (pdx va) = none ∧ l.length = 2) ∨
    ledgerSlots ≤ m.ledger.length + if tableAt m.word d (pdx va) = none then 2 else 1

instance : Decidable (Traps m l d va frame) := inferInstanceAs (Decidable (_ ∨ _))

theorem traps_iff (pid low : Nat) (h : Tables m l d) (hframe : frame ∈ l) : Traps m l d va frame ↔ Faults m d frame ∨
    ¬Faults m d frame ∧ tableAt m.word d (pdx va) = none ∧ Faults (granted m low pid frame) d m.freelist := by
  have hledger : (granted m low pid frame).ledger.length = m.ledger.length + 1 := by simp [granted]
  unfold Traps Faults
  rw [h.free.chain.last_iff hframe, translate_zero_granted h hframe, hledger]
  by_cases hnext : m.word frame = 0
  · by_cases ht : tableAt m.word d (pdx va) = none
    · simp only [hnext, ht, if_true]
      grind
    · simp only [hnext, ht, if_false]
      grind
  · rw [head_granted h.free hframe hnext]
    by_cases ht : tableAt m.word d (pdx va) = none
    · simp only [hnext, ht, if_true]
      grind
    · simp only [hnext, ht, if_false]
      grind

theorem getpgtab_ends (va low pid : Nat) (h : Tables m l d) (hframe : frame ∈ l) :
    Ends (getpgtab pid d va true) (granted m low pid frame)
      (fun a m' => ¬(tableAt m.word d (pdx va) = none ∧ Faults (granted m low pid frame) d m.freelist) ∧
        ∃ t, tableAt m'.word d (pdx va) = some t ∧ t % pgsize = 0 ∧ t ≠ 0 ∧ t ≠ d ∧ a = t + 4 * ptx va)
      fun _ _ => tableAt m.word d (pdx va) = none ∧ Faults (granted m low pid frame) d m.freelist := by
  have hi : pdx va < npdentries := Nat.mod_lt _ (by decide)
  have hsame : tableAt (granted m low pid frame).word d (pdx va) = _ := tableAt_granted h hframe hi
  have hlist : m.freelist ≠ 0 := fun hzero => by
    rw [h.free.chain.nil_iff.mpr hzero] at hframe
    cases hframe
  unfold getpgtab
  refine .after_ok (get_run _) ?_
  cases ht : tableAt m.word d (pdx va) with
  | some t =>
    obtain ⟨hpresent, hat⟩ := decode_eq_some.mp (hsame.trans ht)
    obtain ⟨hne, hdir, -⟩ := h.table _ hi t ht
    rw [if_pos hpresent]
    exact .pure ⟨nofun, t, hsame.trans ht, h.table_aligned ht, hne, hdir, by rw [hat]⟩
  | none =>
    have habsent : ¬Present ((granted m low pid frame).word (d + 4 * pdx va)) := fun hpresent => by
      have hsome := decode_eq_some.mpr ⟨hpresent, rfl⟩
      rw [show decode _ = none from hsame.trans ht] at hsome
      cases hsome
    have hfind : findFree (granted m low pid frame) m.freelist = some true := by
      change search _ _ _ (2 ^ 32 + 1) m.freelist = _
      rw [search, if_neg hlist, if_pos rfl]
    have hhead : (granted m low pid frame).freelist = m.freelist := rfl
    rw [if_neg habsent, if_neg (by decide), hhead]
    dsimp only
    rw [if_neg hlist]
    have hgrant := allocaddAt_found (m := granted m low pid frame) (d := d) pid hlist hlist hfind
    refine (hgrant.stop fun _ _ hf => ⟨rfl, hf⟩).bind ?_
    rintro _ _ ⟨-, hroom, low', rfl⟩
    refine .after_ok (modify_run ..) (.after_ok (modify_run ..) (.pure ⟨fun hf => hroom hf.2, ?_⟩))
    obtain ⟨rest, rfl⟩ : ∃ rest, l = m.freelist :: rest := by
      cases l with
      | nil => cases hframe
      | cons a rest => exact ⟨rest, by rw [h.free.chain.1]⟩
    obtain ⟨hpage, hne, hdq, -⟩ := h.head
    exact ⟨m.freelist, entry_table hpage, hpage.aligned, hne, hdq.symm, rfl⟩

theorem exAddPage_ends (h : Tables s.mem l (s.procs p).pgdir) (hva : va % pgsize = 0) (hlow : va < 2 ^ 32)
    (hframe : frame ∈ l) : Ends (exAddPage p va frame) s
      (fun r s' => r = 1 ∧ ¬Traps s.mem l (s.procs p).pgdir va frame ∧ (s'.procs p).pgdir = (s.procs p).pgdir ∧
        pteAt s'.mem.word (s.procs p).pgdir (va / pgsize) = frame ||| pteU ||| pteW ||| pteP)
      fun _ _ => Traps s.mem l (s.procs p).pgdir va frame := by
  have hne : frame ≠ 0 := h.free.chain.ne_null hframe
  have hlist : s.mem.freelist ≠ 0 := fun hzero => by
    rw [h.free.chain.nil_iff.mpr hzero] at hframe
    cases hframe
  have hfind : findFree s.mem frame = some true := by simp [h.free.findFree_eq, hframe]
  unfold exAddPage
  refine .after_ok (get_run s) ?_
  rw [if_neg (not_not_intro hva)]
  have hgrant := allocaddAt_found (d := (s.procs p).pgdir) (s.procs p).pid hne hlist hfind
  refine ((lift_spec hgrant).stop fun _ _ hf => ((traps_iff 0 0 h hframe).mpr (.inl hf))).bind ?_
  rintro _ _ ⟨_, rfl, rfl, hroom, low, rfl⟩
  rw [if_neg (by decide)]
  have htable := getpgtab_ends va low (s.procs p).pid h hframe
  refine ((lift_spec htable).stop fun _ _ hf =>
    (traps_iff _ low h hframe).mpr (.inr ⟨hroom, hf⟩)).bind ?_
  rintro a _ ⟨m₂, rfl, hroom₂, t, ht, haligned, hne, hdir, rfl⟩
  rw [if_neg (by omega)]
  refine .after_ok (lift_run rfl) (.after_ok (setProc_run ..) (.pure ⟨rfl, ?_, ?_, ?_⟩))
  · intro htraps
    exact ((traps_iff _ low h hframe).mp htraps).elim hroom fun hf => hroom₂ hf.2
  · change (update s.procs p _ p).pgdir = _
    rw [update_self]
  · have hi : pdx va < npdentries := Nat.mod_lt _ (by decide)
    have hj : ptx va < nptentries := Nat.mod_lt _ (by decide)
    have hsame : tableAt (update m₂.word (t + 4 * ptx va) (frame ||| pteU ||| pteW ||| pteP)) (s.procs p).pgdir (pdx va) =
        some t := (target_update_of_ne (word_ne h.aligned haligned hi hj fun heq => hdir heq.1.symm)).trans ht
    rw [pdx_eq hlow] at hsame
    exact (pteAt_of_some hsame).trans (update_self ..)

/-- The frame is mapped for the process at `va` and no longer free, nor is a page that became a table. -/
structure Added (p : Slot) (va frame : Nat) (s s' : Machine) : Prop where
  entry : mapping s'.mem.word (s'.procs p).pgdir (va / pgsize) = some (v2p frame, pteU ||| pteW ||| pteP)
  others : ∀ n < 2 ^ 20, n ≠ va / pgsize →
    mapping s'.mem.word (s'.procs p).pgdir n = mapping s.mem.word (s.procs p).pgdir n
  taken : findFree s'.mem frame ≠ some true
  table : ∀ t, tableAt s.mem.word (s.procs p).pgdir (pdx va) = none →
    tableAt s'.mem.word (s'.procs p).pgdir (pdx va) = some t → t ≠ frame ∧ findFree s'.mem t ≠ some true

/-- The directory, the free list, the ledger and the size are as before. -/
structure Refused (p : Slot) (s s' : Machine) : Prop where
  entries : ∀ n < 2 ^ 20, mapping s'.mem.word (s'.procs p).pgdir n = mapping s.mem.word (s.procs p).pgdir n
  free : ∀ q, findFree s'.mem q = findFree s.mem q
  ledger : s'.mem.ledger = s.mem.ledger
  size : (s'.procs p).sz = (s.procs p).sz

theorem not_added (hfree : FreeList s.mem l) (hframe : frame ∈ l)
    (hentry : pteAt s'.mem.word (s'.procs p).pgdir (va / pgsize) = frame ||| pteU ||| pteW ||| pteP) :
    ¬Added p va frame s s' := by
  intro hadded
  obtain ⟨⟨haligned, -⟩, hlt⟩ := hfree.pages frame hframe
  have hmap := hadded.entry
  rw [mapping, hentry, Nat.or_assoc frame, meaning_entry haligned (by decide)] at hmap
  have haddr : frame = (frame + 2147483648) % 4294967296 := congrArg Prod.fst (Option.some.inj hmap)
  omega

/-- A frame on the free list and a free place: the call does what it should exactly if it traps. -/
theorem exAddPage_adds_iff (h : Tables s.mem l (s.procs p).pgdir) (hva : va % pgsize = 0) (hlow : va < kernbase)
    (hframe : frame ∈ l) :
    (∀ r s', exAddPage p va frame s = .ok r s' → (r = 1 → Added p va frame s s') ∧ (r = 0 → Refused p s s')) ↔
      Traps s.mem l (s.procs p).pgdir va frame := by
  have hword : va < 2 ^ 32 := Nat.lt_trans hlow (by decide)
  have hends := exAddPage_ends h hva hword hframe
  cases hrun : exAddPage p va frame s with
  | error e s' => exact iff_of_true nofun (hends.of_error hrun)
  | ok r s' =>
    obtain ⟨rfl, hroom, hpgdir, hentry⟩ := hends.of_ok hrun
    refine iff_of_false (fun hall => ?_) hroom
    rw [← hpgdir] at hentry
    exact not_added h.free hframe hentry ((hall 1 s' rfl).1 rfl)

/-- A process with an empty directory, in a memory with three free pages. -/
def threeFree : Machine :=
  let next := fun a => if a = 0x80300000 then 0x80301000 else if a = 0x80301000 then 0x80302000 else 0
  ⟨⟨0x80114000, next, 0x80300000, []⟩, fun _ => ⟨.runnable, 1, none, 0x80200000, 0, 0⟩, 2, []⟩

theorem tables_threeFree : Tables threeFree.mem [0x80300000, 0x80301000, 0x80302000] 0x80200000 := by
  have htables : ∀ i < npdentries, tableAt threeFree.mem.word 0x80200000 i = none := fun i hi => by
    have hi : i < 1024 := hi
    have hzero : threeFree.mem.word (0x80200000 + 4 * i) = 0 :=
      (if_neg (by omega)).trans (if_neg (by omega))
    rw [tableAt, target, hzero]
    rfl
  refine ⟨⟨⟨rfl, by decide, rfl, by decide, rfl, by decide, rfl⟩, by decide⟩, by decide, by decide, fun i hi t ht => ?_,
    fun i hi j hj t ht => ?_⟩
  all_goals
    rw [htables i hi] at ht
    cases ht

theorem exAddPage_adds_iff_threeFree : ¬∀ r s', exAddPage initproc 0x1000 0x80300000 threeFree = .ok r s' →
    (r = 1 → Added initproc 0x1000 0x80300000 threeFree s') ∧ (r = 0 → Refused initproc threeFree s') := by
  rw [exAddPage_adds_iff tables_threeFree (by decide) (by decide) (by decide)]
  decide

/-- The page that is mapped is not the frame, and the frame is the page table too and still free. -/
theorem exAddPage_maps_another : ∃ s', exAddPage initproc 0x1000 0x80300000 threeFree = .ok 1 s' ∧
    mapping s'.mem.word (s'.procs initproc).pgdir 1 = some (0x80300000, pteU ||| pteW ||| pteP) ∧
    v2p 0x80300000 = 0x300000 ∧ tableAt s'.mem.word (s'.procs initproc).pgdir 0 = some 0x80300000 ∧
    findFree s'.mem 0x80300000 = some true := by
  unfold exAddPage allocaddAt getpgtab allocaddAt
  exact ⟨_, rfl, by decide, by decide, by decide, by decide⟩

end RainOS.Process
