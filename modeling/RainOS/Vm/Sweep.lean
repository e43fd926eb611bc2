import RainOS.Vm.Map
import RainOS.Vm.Shape

/-!
# What deallocuvm clears

The walk of `deallocuvm` over a directory of any shape. Where a table is missing it goes on 1024 pages further, at the
same place of a later table. A walk that begins in the middle of a missing table therefore misses the first pages of
the next table there is, and only these. `calls` says in advance which pages the walk frees; `deallocuvm` is the same as
freeing these one after the other.
-/

namespace RainOS.Vm

open Kalloc Function List

variable {m m' : Memory} {l ks : List Nat} {own : Nat → Option Owner} {word word' f : Nat → Nat}
  {p d i k n t a lo hi oldsz newsz j x : Nat}

/-! ### Pages that are passed over -/

/-- A walk from page `n` on does not see page `k`: it comes to the table of `k`, the first there is, after it. -/
def Missed (word : Nat → Nat) (d n k : Nat) : Prop :=
  n / nptentries < k / nptentries ∧ k % nptentries < n % nptentries ∧
    ∀ i < k / nptentries, n / nptentries ≤ i → tableAt word d i = none

instance (word : Nat → Nat) (d n k : Nat) : Decidable (Missed word d n k) := inferInstanceAs (Decidable (_ ∧ _ ∧ _))

theorem Missed.congr (h : ∀ i < npdentries, tableAt word' d i = tableAt word d i) (hk : k / nptentries < npdentries) :
    Missed word' d n k ↔ Missed word d n k := by
  refine and_congr_right fun _ => and_congr_right fun _ => forall_congr' fun i => ?_
  refine imp_congr_right fun hi => imp_congr_right fun _ => ?_
  rw [h i (Nat.lt_trans hi hk)]

theorem not_missed_of_some (h : tableAt word d (n / nptentries) ≠ none) : ¬Missed word d n k := fun hmissed =>
  h (hmissed.2.2 _ hmissed.1 (Nat.le_refl _))

theorem not_missed_succ (h : tableAt word d (n / nptentries) ≠ none) : ¬Missed word d (n + 1) k := by
  rintro ⟨hlt, hmod, hall⟩
  change (n + 1) / 1024 < k / 1024 at hlt
  change k % 1024 < (n + 1) % 1024 at hmod
  have hsame : (n + 1) / 1024 = n / 1024 := by omega
  exact h (hall (n / 1024) (hsame ▸ hlt) (Nat.le_of_eq hsame))

theorem missed_jump (h : tableAt word d (n / nptentries) = none) (hk : n + nptentries ≤ k) :
    Missed word d n k ↔ Missed word d (n + nptentries) k := by
  change n + 1024 ≤ k at hk
  have hdiv : (n + nptentries) / nptentries = n / nptentries + 1 := Nat.add_div_right n (by decide)
  have hmod : (n + nptentries) % nptentries = n % nptentries := Nat.add_mod_right n _
  rw [Missed, Missed, hdiv, hmod]
  have hlt : n / 1024 < k / 1024 := by omega
  refine ⟨fun ⟨_, hless, hall⟩ => ⟨?_, hless, fun i hhi hlo => hall i hhi (Nat.le_of_succ_le hlo)⟩,
    fun ⟨_, hless, hall⟩ => ⟨hlt, hless, fun i hhi hlo => ?_⟩⟩
  · change k % 1024 < n % 1024 at hless
    have hgt : n / 1024 + 1 < k / 1024 := by omega
    exact hgt
  · obtain rfl | hgt := Nat.eq_or_lt_of_le hlo
    · exact h
    · exact hall i hhi hgt

theorem missed_of_passed (h : tableAt word d (n / nptentries) = none) (hlo : n ≤ k) (hhi : k < n + nptentries)
    (hpresent : Present (pteAt word d k)) : Missed word d n k := by
  change k < n + 1024 at hhi
  have hne : k / 1024 ≠ n / 1024 := by
    intro heq
    have hnone : tableAt word d (k / nptentries) = none := by
      rw [← h]
      exact congrArg _ heq
    rw [pteAt_of_none hnone] at hpresent
    exact absurd hpresent (by decide)
  have hnext : k / 1024 = n / 1024 + 1 := by omega
  have hmod : k % 1024 < n % 1024 := by omega
  refine ⟨?_, hmod, fun i hlt hge => ?_⟩
  · change n / 1024 < k / 1024
    omega
  · change i < k / 1024 at hlt
    change n / 1024 ≤ i at hge
    obtain rfl : i = n / 1024 := by omega
    exact h

/-! ### Directories -/

/-- A directory whose frames are not among its own pages. -/
structure Walkable (word : Nat → Nat) (d : Nat) : Prop where
  aligned : d % pgsize = 0
  table : ∀ i < npdentries, ∀ t, tableAt word d i = some t → t ≠ 0 ∧ t ≠ d
  distinct : ∀ i < npdentries, ∀ j < npdentries, ∀ t, tableAt word d i = some t → tableAt word d j = some t → i = j
  frame : ∀ k < userPages, ∀ p, frameAt word d k = some p → p ≠ d ∧ ∀ i < npdentries, tableAt word d i ≠ some p
  nonzero : ∀ k < userPages, Present (pteAt word d k) → pteAddr (pteAt word d k) ≠ 0

def entryAddr (word : Nat → Nat) (d k : Nat) : Nat :=
  match tableAt word d (k / nptentries) with
  | some t => t + 4 * (k % nptentries)
  | none => 0

theorem entryAddr_of_some (h : tableAt word d (k / nptentries) = some t) :
    entryAddr word d k = t + 4 * (k % nptentries) := by
  rw [entryAddr, h]

theorem frameAt_of_present (h : Present (pteAt word d k)) : frameAt word d k = some (p2v (pteAddr (pteAt word d k))) :=
  decode_eq_some.mpr ⟨h, rfl⟩

/-- Writes to frames and to some entries: the directory keeps its tables, and the other entries are as they were. -/
theorem Walkable.congr (h : Walkable word d) (pages entries : List Nat)
    (hpages : ∀ p ∈ pages, ∃ k < userPages, frameAt word d k = some p)
    (hentries : ∀ a ∈ entries, ∃ k < userPages, Present (pteAt word d k) ∧ a = entryAddr word d k)
    (hsame : ∀ a, pgrounddown a ∉ pages → a ∉ entries → word' a = word a)
    (hzero : ∀ a ∈ entries, pgrounddown a ∉ pages → word' a = 0) :
    (∀ i < npdentries, tableAt word' d i = tableAt word d i) ∧
      ∀ k, k / nptentries < npdentries → pteAt word' d k =
        if Present (pteAt word d k) ∧ entryAddr word d k ∈ entries then 0 else pteAt word d k := by
  have hpage : ∀ a ∈ entries, ∃ i < npdentries, tableAt word d i = some (pgrounddown a) := by
    intro a ha
    obtain ⟨k, hk, hpresent, rfl⟩ := hentries a ha
    obtain ⟨t, ht⟩ := Option.ne_none_iff_exists'.mp (tableAt_ne_none hpresent)
    refine ⟨_, div_lt hk, ?_⟩
    rw [entryAddr_of_some ht, pgrounddown_word (decode_aligned ht) (mod_lt k), ht]
  have htables : ∀ i < npdentries, tableAt word' d i = tableAt word d i := by
    intro i hi
    refine target_eq_of_eq (hsame _ (fun hin => ?_) fun hin => ?_)
    · rw [pgrounddown_word h.aligned hi] at hin
      obtain ⟨k, hk, hframe⟩ := hpages d hin
      exact (h.frame k hk d hframe).1 rfl
    · obtain ⟨j, hj, htable⟩ := hpage _ hin
      rw [pgrounddown_word h.aligned hi] at htable
      exact (h.table j hj d htable).2 rfl
  refine ⟨htables, fun k hk => ?_⟩
  cases ht : tableAt word d (k / nptentries) with
  | none =>
    rw [pteAt_of_none ht, pteAt_of_none ((htables _ hk).trans ht), if_neg fun hin => absurd hin.1 (by decide)]
  | some t =>
    have hout : pgrounddown (entryAddr word d k) ∉ pages := by
      rw [entryAddr_of_some ht, pgrounddown_word (decode_aligned ht) (mod_lt k)]
      intro hin
      obtain ⟨j, hj, hframe⟩ := hpages t hin
      exact (h.frame j hj t hframe).2 _ hk ht
    have hnew : pteAt word' d k = word' (entryAddr word d k) := by
      rw [pteAt_of_some ((htables _ hk).trans ht), entryAddr_of_some ht]
    have hold : pteAt word d k = word (entryAddr word d k) := by
      rw [pteAt_of_some ht, entryAddr_of_some ht]
    rw [hnew]
    by_cases hin : entryAddr word d k ∈ entries
    · obtain ⟨j, hj, hpresent, heq⟩ := hentries _ hin
      obtain ⟨u, hu⟩ := Option.ne_none_iff_exists'.mp (tableAt_ne_none hpresent)
      have hself : pteAt word d k = pteAt word d j := by
        rw [hold, heq, pteAt_of_some hu, entryAddr_of_some hu]
      rw [hzero _ hin hout, if_pos ⟨hself ▸ hpresent, hin⟩]
    · rw [hsame _ hout hin, if_neg fun hf => hin hf.2, hold]

theorem Walkable.entryAddr_inj (h : Walkable word d) (hk : k / nptentries < npdentries)
    (hj : j / nptentries < npdentries) (hpk : Present (pteAt word d k)) (hpj : Present (pteAt word d j))
    (heq : entryAddr word d k = entryAddr word d j) : k = j := by
  obtain ⟨t, ht⟩ := Option.ne_none_iff_exists'.mp (tableAt_ne_none hpk)
  obtain ⟨u, hu⟩ := Option.ne_none_iff_exists'.mp (tableAt_ne_none hpj)
  rw [entryAddr_of_some ht, entryAddr_of_some hu] at heq
  have htu : t = u := by
    rw [← pgrounddown_word (decode_aligned ht) (mod_lt k), heq, pgrounddown_word (decode_aligned hu) (mod_lt j)]
  subst htu
  have hdiv : k / nptentries = j / nptentries := h.distinct _ hk _ hj t ht hu
  have hmod : k % nptentries = j % nptentries := by omega
  rw [← Nat.div_add_mod k nptentries, hdiv, hmod, Nat.div_add_mod]

/-! ### The pages that are freed -/

/-- The pages that a walk from `lo` on sees, below `hi`. -/
def seen (word : Nat → Nat) (d lo hi : Nat) : List Nat :=
  (List.range' lo (hi - lo)).filter fun k => Present (pteAt word d k) ∧ ¬Missed word d lo k

/-- Their frames, in the order in which they are freed, each with the address of its entry. -/
def calls (word : Nat → Nat) (d lo hi : Nat) : List (Nat × Nat) :=
  (seen word d lo hi).map fun k => (p2v (pteAddr (pteAt word d k)), entryAddr word d k)

def drop (c : Nat × Nat) : M Unit := do
  kfree c.1
  setWord c.2 0

theorem mem_seen : k ∈ seen word d lo hi ↔
    (lo ≤ k ∧ k < hi) ∧ Present (pteAt word d k) ∧ ¬Missed word d lo k := by
  rw [seen, mem_filter, mem_range'_1, decide_eq_true_iff]
  refine and_congr_left fun _ => and_congr_right fun hle => ?_
  omega

theorem filter_range'_skip {P : Nat → Bool} (c : Nat) (h : ∀ k, lo ≤ k → k < lo + c → k < hi → P k = false) :
    (range' lo (hi - lo)).filter P = (range' (lo + c) (hi - (lo + c))).filter P := by
  induction c with
  | zero => rfl
  | succ c ih =>
    rw [ih fun k hge hlt => h k hge (by omega)]
    by_cases hlt : lo + c < hi
    · have hlen : hi - (lo + c) = hi - (lo + (c + 1)) + 1 := by omega
      rw [hlen, range'_succ, filter_cons_of_neg]
      · rfl
      · rw [h (lo + c) (by omega) (by omega) hlt]
        exact Bool.false_ne_true
    · rw [show hi - (lo + c) = 0 by omega, show hi - (lo + (c + 1)) = 0 by omega]
      rfl

theorem seen_jump (h : tableAt word d (n / nptentries) = none) : seen word d n hi = seen word d (n + nptentries) hi := by
  rw [seen, filter_range'_skip nptentries fun k hlo hlt _ => decide_eq_false fun hin =>
    hin.2 (missed_of_passed h hlo hlt hin.1)]
  refine filter_congr fun k hk => ?_
  rw [mem_range'_1] at hk
  rw [decide_eq_decide, missed_jump h hk.1]

theorem seen_succ (h : tableAt word d (n / nptentries) ≠ none) (hlt : n < hi) :
    seen word d n hi = (if Present (pteAt word d n) then [n] else []) ++ seen word d (n + 1) hi := by
  have hlen : hi - n = hi - (n + 1) + 1 := by omega
  have hrest : (range' (n + 1) (hi - (n + 1))).filter (fun k => Present (pteAt word d k) ∧ ¬Missed word d n k) =
      seen word d (n + 1) hi := by
    refine filter_congr fun k _ => ?_
    rw [decide_eq_decide, and_congr_right_iff]
    exact fun _ => iff_of_true (not_missed_of_some h) (not_missed_succ h)
  rw [seen, hlen, range'_succ, filter_cons, hrest]
  by_cases hpresent : Present (pteAt word d n)
  · rw [if_pos hpresent, if_pos (decide_eq_true ⟨hpresent, not_missed_of_some h⟩)]
    rfl
  · rw [if_neg hpresent, if_neg fun hf => hpresent (of_decide_eq_true hf).1]
    rfl

theorem calls_jump (h : tableAt word d (n / nptentries) = none) : calls word d n hi = calls word d (n + nptentries) hi := by
  rw [calls, calls, seen_jump h]

theorem calls_skip (h : tableAt word d (n / nptentries) ≠ none) (hlt : n < hi) (habsent : ¬Present (pteAt word d n)) :
    calls word d n hi = calls word d (n + 1) hi := by
  rw [calls, calls, seen_succ h hlt, if_neg habsent]
  rfl

theorem calls_drop (h : tableAt word d (n / nptentries) ≠ none) (hlt : n < hi) (hpresent : Present (pteAt word d n)) :
    calls word d n hi = (p2v (pteAddr (pteAt word d n)), entryAddr word d n) :: calls word d (n + 1) hi := by
  rw [calls, calls, seen_succ h hlt, if_pos hpresent]
  rfl

theorem calls_congr (hhi : hi ≤ userPages) (htables : ∀ i < npdentries, tableAt word' d i = tableAt word d i)
    (hentries : ∀ k, lo ≤ k → k < hi → pteAt word' d k = pteAt word d k) : calls word' d lo hi = calls word d lo hi := by
  have hseen : seen word' d lo hi = seen word d lo hi := by
    refine filter_congr fun k hk => ?_
    rw [mem_range'_1] at hk
    rw [decide_eq_decide, hentries k hk.1 (by omega), Missed.congr htables (div_lt (by omega))]
  rw [calls, calls, hseen]
  refine map_congr_left fun k hk => ?_
  obtain ⟨⟨hlo, hlt⟩, -⟩ := mem_seen.mp hk
  rw [hentries k hlo hlt, entryAddr, entryAddr, htables _ (div_lt (by omega))]

/-! ### The walk -/

theorem kfree_error (h : ¬Accepts m.kernelEnd p) : kfree p m = .error (.panic "kfree") m := by
  simp [kfree, h]

theorem drop_run (h : Accepts m.kernelEnd p) : drop (p, a) m = .ok () (dropped m p a) := by
  rw [drop, bind_ok _ (kfree_run h)]
  rfl

theorem drop_error (h : ¬Accepts m.kernelEnd p) : drop (p, a) m = .error (.panic "kfree") m :=
  bind_error _ (kfree_error h)

theorem drops_cons (c : Nat × Nat) (cs : List (Nat × Nat)) : (c :: cs).forM drop = drop c >>= fun _ => cs.forM drop := rfl

theorem dropped_word (hp : p % pgsize = 0) (hx : pgrounddown x ≠ p) (hne : x ≠ a) :
    (dropped m p a).word x = m.word x := by
  change update (putFree m p).word a 0 x = m.word x
  rw [update_of_ne hne, putFree_of_ne hp hx]

theorem dropped_word_self : (dropped m p a).word a = 0 := update_self a 0 _

/-- What is left of a directory when one of its pages is freed. -/
theorem Walkable.dropped (h : Walkable m.word d) (hn : n < userPages) (hpresent : Present (pteAt m.word d n))
    (hp : p2v (pteAddr (pteAt m.word d n)) = p) :
    Walkable (dropped m p (entryAddr m.word d n)).word d ∧
      (∀ i < npdentries, tableAt (dropped m p (entryAddr m.word d n)).word d i = tableAt m.word d i) ∧
      ∀ k, k / nptentries < npdentries → k ≠ n →
        pteAt (dropped m p (entryAddr m.word d n)).word d k = pteAt m.word d k := by
  have hframe : frameAt m.word d n = some p := hp ▸ frameAt_of_present hpresent
  have halign : p % pgsize = 0 := decode_aligned hframe
  obtain ⟨htables, hentries⟩ := h.congr [p] [entryAddr m.word d n] (fun q hq => ⟨n, hn, mem_singleton.mp hq ▸ hframe⟩)
    (fun a ha => ⟨n, hn, hpresent, mem_singleton.mp ha⟩)
    (fun a ha hne => dropped_word halign (mt mem_singleton.mpr ha) (mt mem_singleton.mpr hne))
    (fun a ha _ => by rw [mem_singleton.mp ha, dropped_word_self])
  have hframes : ∀ k < userPages, ∀ q, frameAt (Vm.dropped m p (entryAddr m.word d n)).word d k = some q →
      pteAt (Vm.dropped m p (entryAddr m.word d n)).word d k = pteAt m.word d k := by
    intro k hk q hq
    unfold frameAt at hq
    rw [hentries k (div_lt hk)] at hq ⊢
    split at hq
    · cases hq
    · rename_i hnot
      rw [if_neg hnot]
  refine ⟨⟨h.aligned, fun i hi t ht => ?_, fun i hi j hj t hti htj => ?_, fun k hk q hq => ?_, fun k hk hpk => ?_⟩, htables,
    fun k hk hne => ?_⟩
  · rw [htables i hi] at ht
    exact h.table i hi t ht
  · rw [htables i hi] at hti
    rw [htables j hj] at htj
    exact h.distinct i hi j hj t hti htj
  · have hold := hframes k hk q hq
    rw [frameAt_eq_of_eq hold] at hq
    refine ⟨(h.frame k hk q hq).1, fun i hi => ?_⟩
    rw [htables i hi]
    exact (h.frame k hk q hq).2 i hi
  · have hold := hframes k hk _ (frameAt_of_present hpk)
    rw [hold] at hpk ⊢
    exact h.nonzero k hk hpk
  · rw [hentries k hk]
    refine if_neg fun ⟨hpk, hin⟩ => hne ?_
    exact h.entryAddr_inj hk (div_lt hn) hpk hpresent (mem_singleton.mp hin)

theorem deallocLoop_eq_calls (holdsz : oldsz ≤ kernbase) (fuel : Nat) (hpos : 0 < fuel) (hfuel : npages oldsz < n + fuel)
    (h : Walkable m.word d) :
    deallocLoop d oldsz fuel (n * pgsize) m = (calls m.word d n (npages oldsz)).forM drop m := by
  induction fuel generalizing n m with
  | zero => cases hpos
  | succ fuel ih =>
    by_cases hin : n < npages oldsz
    · have hmax := npages_le holdsz
      have huser : n < userPages := Nat.lt_of_lt_of_le hin hmax
      cases ht : tableAt m.word d (n / nptentries) with
      | none =>
        have hfar : npages oldsz < n + nptentries + fuel :=
          Nat.lt_of_lt_of_le (m := n + 1 + fuel) (by omega)
            (Nat.add_le_add_right (Nat.add_le_add_left (by decide) n) fuel)
        rw [deallocLoop_jump hin huser ht, ih (by omega) hfar h, calls_jump ht]
      | some t =>
        have hsome : tableAt m.word d (n / nptentries) ≠ none := by
          rw [ht]
          exact nofun
        have hne : t + 4 * (n % nptentries) ≠ 0 := by
          have ht0 := (h.table _ (div_lt huser) t ht).1
          omega
        by_cases hpresent : Present (pteAt m.word d n)
        · rw [deallocLoop_drop hin huser ht hne hpresent (h.nonzero n huser hpresent), ← entryAddr_of_some ht,
            calls_drop hsome hin hpresent, drops_cons]
          by_cases hok : Accepts m.kernelEnd (p2v (pteAddr (pteAt m.word d n)))
          · obtain ⟨hwalk, htables, hentries⟩ := h.dropped huser hpresent rfl
            have hsame : calls (Vm.dropped m (p2v (pteAddr (pteAt m.word d n))) (entryAddr m.word d n)).word d (n + 1)
                (npages oldsz) = calls m.word d (n + 1) (npages oldsz) :=
              calls_congr hmax htables fun k hlo hhi => hentries k (div_lt (by omega)) (by omega)
            have hrest := ih (n := n + 1) (by omega) (by omega) hwalk
            rw [hsame] at hrest
            rw [bind_ok _ (kfree_run hok), bind_ok _ (drop_run hok)]
            exact hrest
          · rw [bind_error _ (kfree_error hok), bind_error _ (drop_error hok)]
        · rw [deallocLoop_skip hin huser ht hne hpresent, ih (by omega) (by omega) h, calls_skip hsome hin hpresent]
    · rw [deallocLoop_done (Nat.le_of_not_lt hin), calls, seen, show npages oldsz - n = 0 by omega]
      rfl

theorem deallocuvm_eq_calls (hlt : newsz < oldsz) (holdsz : oldsz ≤ kernbase) (h : Walkable m.word d) :
    deallocuvm d oldsz newsz m = (do
      (calls m.word d (npages newsz) (npages oldsz)).forM drop
      return newsz : M Nat) m := by
  have hmax : npages oldsz ≤ 524288 := npages_le holdsz
  have hloop := deallocLoop_eq_calls (n := npages newsz) holdsz (2 ^ 20 + 1) (by decide) (by omega) h
  unfold deallocuvm
  rw [if_neg (Nat.not_le_of_lt hlt), pgroundup_eq (by omega), bind_run, bind_run, hloop]

theorem drops_spec (cs : List (Nat × Nat)) :
    Ends (cs.forM drop) m (fun _ m' => (∀ c ∈ cs, Accepts m.kernelEnd c.1) ∧
      (∀ a, pgrounddown a ∉ cs.map Prod.fst → a ∉ cs.map Prod.snd → m'.word a = m.word a) ∧
      ∀ a ∈ cs.map Prod.snd, pgrounddown a ∉ cs.map Prod.fst → m'.word a = 0)
      fun _ _ => ∃ c ∈ cs, ¬Accepts m.kernelEnd c.1 := by
  induction cs generalizing m with
  | nil => exact .pure ⟨fun _ hc => (nomatch hc), fun _ _ _ => rfl, fun _ ha => (nomatch ha)⟩
  | cons c cs ih =>
    obtain ⟨p, a⟩ := c
    rw [drops_cons]
    by_cases hok : Accepts m.kernelEnd p
    · refine .after_ok (drop_run hok) ((ih (m := dropped m p a)).mono (fun _ m' hends => ?_) fun _ _ he => ?_)
      · obtain ⟨hall, hsame, hzero⟩ := hends
        refine ⟨forall_mem_cons.mpr ⟨hok, hall⟩, fun x hx hxa => ?_, fun x hx hxp => ?_⟩
        · rw [map_cons, mem_cons, not_or] at hx hxa
          rw [hsame x hx.2 hxa.2, dropped_word hok.1 hx.1 hxa.1]
        · rw [map_cons, mem_cons, not_or] at hxp
          by_cases hin : x ∈ cs.map Prod.snd
          · exact hzero x hin hxp.2
          · obtain rfl := (mem_cons.mp hx).resolve_right hin
            rw [hsame x hxp.2 hin, dropped_word_self]
      · obtain ⟨c, hc, hbad⟩ := he
        exact ⟨c, mem_cons_of_mem _ hc, hbad⟩
    · exact .after_error (drop_error hok) ⟨(p, a), mem_cons_self, hok⟩

def freedPages (word : Nat → Nat) (d lo hi : Nat) : List Nat := (calls word d lo hi).map Prod.fst

theorem freedPages_eq (word : Nat → Nat) (d lo hi : Nat) :
    freedPages word d lo hi = (seen word d lo hi).map fun k => p2v (pteAddr (pteAt word d k)) := by
  rw [freedPages, calls, map_map]
  rfl

theorem mem_entries : a ∈ (calls word d lo hi).map Prod.snd ↔ ∃ k ∈ seen word d lo hi, entryAddr word d k = a := by
  rw [calls, map_map, mem_map]
  rfl

theorem Walkable.swept (h : Walkable m.word d) (hhi : hi ≤ userPages)
    (hsame : ∀ a, pgrounddown a ∉ (calls m.word d lo hi).map Prod.fst → a ∉ (calls m.word d lo hi).map Prod.snd →
      m'.word a = m.word a)
    (hzero : ∀ a ∈ (calls m.word d lo hi).map Prod.snd, pgrounddown a ∉ (calls m.word d lo hi).map Prod.fst →
      m'.word a = 0) (hk : k / nptentries < npdentries) :
    pteAt m'.word d k = if k ∈ seen m.word d lo hi then 0 else pteAt m.word d k := by
  have hseen : ∀ j ∈ seen m.word d lo hi, j < userPages ∧ Present (pteAt m.word d j) := fun j hj =>
    ⟨by have := (mem_seen.mp hj).1; omega, (mem_seen.mp hj).2.1⟩
  have hentries := (h.congr ((calls m.word d lo hi).map Prod.fst) ((calls m.word d lo hi).map Prod.snd)
    (fun p hp => ?_) (fun a ha => ?_) hsame hzero).2 k hk
  · rw [hentries]
    refine if_congr ⟨fun ⟨hpk, hin⟩ => ?_, fun hin => ⟨(hseen k hin).2, mem_entries.mpr ⟨k, hin, rfl⟩⟩⟩ rfl rfl
    obtain ⟨j, hj, heq⟩ := mem_entries.mp hin
    exact h.entryAddr_inj (div_lt (hseen j hj).1) hk (hseen j hj).2 hpk heq ▸ hj
  · change p ∈ freedPages m.word d lo hi at hp
    rw [freedPages_eq, mem_map] at hp
    obtain ⟨j, hj, rfl⟩ := hp
    exact ⟨j, (hseen j hj).1, frameAt_of_present (hseen j hj).2⟩
  · obtain ⟨j, hj, rfl⟩ := mem_entries.mp ha
    exact ⟨j, (hseen j hj).1, (hseen j hj).2, rfl⟩

/-! ### Frames that stay -/

theorem Owned.walkable (h : Owned m l own) (hd : own d = some .directory) (hend : kernbase < m.kernelEnd) :
    Walkable m.word d := by
  refine ⟨h.directory_aligned hd, fun i hi t ht => ?_, fun i hi j hj t hti htj => ?_, fun k hk p hp => ?_, fun k hk hp => ?_⟩
  · have hown := h.own_table hd hi ht
    refine ⟨h.table_ne_zero hown 0, ?_⟩
    rintro rfl
    rw [hd] at hown
    cases hown
  · have hown := h.own_table hd hi hti
    rw [h.own_table hd hj htj] at hown
    cases hown
    rfl
  · have hown := h.own_frame hd hk hp
    refine ⟨?_, fun i hi ht => ?_⟩
    · rintro rfl
      rw [hd] at hown
      cases hown
    · rw [h.own_table hd hi ht] at hown
      cases hown
  · exact h.pteAddr_ne_zero hend (h.own_frame hd hk (frameAt_of_present hp))

theorem deallocuvm_keeps (hlt : newsz < oldsz) (holdsz : oldsz ≤ kernbase) (h : Owned m l own) (hd : own d = some .directory)
    (hend : kernbase < m.kernelEnd) :
    Ends (deallocuvm d oldsz newsz) m (fun _ m' => ∀ k < npages newsz, pteAt m'.word d k = pteAt m.word d k ∧
      ∀ p, frameAt m.word d k = some p → ∀ a, pgrounddown a = p → m'.word a = m.word a) fun _ _ => True := by
  have hmax := npages_le holdsz
  have hmono := npages_mono (Nat.le_of_lt hlt)
  refine .congr (deallocuvm_eq_calls hlt holdsz (h.walkable hd hend))
    (((drops_spec _).stop fun _ _ _ => trivial).bind fun _ m' hr => .pure ?_)
  intro k hk
  refine ⟨?_, fun p hp a ha => ?_⟩
  · rw [(h.walkable hd hend).swept hmax hr.2.1 hr.2.2 (div_lt (by omega)), if_neg]
    intro hin
    have hge := (mem_seen.mp hin).1.1
    omega
  have huser := h.own_frame hd (n := k) (by omega) hp
  have hseen : ∀ j ∈ seen m.word d (npages newsz) (npages oldsz), (npages newsz ≤ j ∧ j < userPages) ∧ Present (pteAt m.word d j) :=
    fun j hj => ⟨by have := (mem_seen.mp hj).1; omega, (mem_seen.mp hj).2.1⟩
  refine hr.2.1 a (fun hin => ?_) fun hin => ?_
  · change pgrounddown a ∈ freedPages m.word d _ _ at hin
    rw [freedPages_eq, mem_map] at hin
    obtain ⟨j, hj, heq⟩ := hin
    have hown := h.own_frame hd (hseen j hj).1.2 (frameAt_of_present (hseen j hj).2)
    rw [heq, ha, huser] at hown
    cases hown
    have hge := (hseen k hj).1.1
    omega
  · obtain ⟨j, hj, rfl⟩ := mem_entries.mp hin
    obtain ⟨t, ht⟩ := Option.ne_none_iff_exists'.mp (tableAt_ne_none (hseen j hj).2)
    have hown := h.own_table hd (div_lt (hseen j hj).1.2) ht
    rw [entryAddr_of_some ht, pgrounddown_word (decode_aligned ht) (mod_lt j)] at ha
    rw [ha, huser] at hown
    cases hown

/-! ### The range afterwards -/

/-- No entry from `lo` up to `hi` is present, every page that was mapped there was freed once, and every other entry is
as it was. -/
structure Clears (d lo hi : Nat) (freed : List Nat) (m m' : Memory) : Prop where
  absent : ∀ k, lo ≤ k → k < hi → ¬Present (pteAt m'.word d k)
  once : ∀ k, lo ≤ k → k < hi → ∀ p, frameAt m.word d k = some p → freed.count p = 1
  other : ∀ k < 2 ^ 20, ¬(lo ≤ k ∧ k < hi) → pteAt m'.word d k = pteAt m.word d k

theorem seen_nodup (word : Nat → Nat) (d lo hi : Nat) : (seen word d lo hi).Nodup := List.Nodup.filter _ nodup_range'

def Separate (word : Nat → Nat) (d lo hi : Nat) : Prop :=
  ∀ j, lo ≤ j → j < hi → ∀ k, lo ≤ k → k < hi → ∀ p, frameAt word d j = some p → frameAt word d k = some p → j = k

theorem eq_of_count_map (hj : j ∈ ks) (hk : k ∈ ks) (heq : f j = f k)
    (hcount : (ks.map f).count (f k) = 1) : j = k := by
  rw [count, countP_map, countP_eq_length_filter, length_eq_one_iff] at hcount
  obtain ⟨x, hx⟩ := hcount
  have hmem : ∀ i ∈ ks, f i = f k → i = x := fun i hi hfi => by
    rw [← mem_singleton, ← hx, mem_filter]
    exact ⟨hi, beq_iff_eq.mpr hfi⟩
  rw [hmem j hj heq, hmem k hk rfl]

theorem Missed.lt (h : Missed word d n k) : n < k := by
  have hlt : n / 1024 < k / 1024 := h.1
  omega

/-- Whether the range is clear, from the entries after the walk. -/
theorem clears_iff (hhi : hi ≤ userPages) (hentries : ∀ k, k / nptentries < npdentries →
      pteAt m'.word d k = if k ∈ seen m.word d lo hi then 0 else pteAt m.word d k) :
    Clears d lo hi (freedPages m.word d lo hi) m m' ↔
      (∀ k < hi, Missed m.word d lo k → ¬Present (pteAt m.word d k)) ∧ Separate m.word d lo hi := by
  change hi ≤ 524288 at hhi
  rw [freedPages_eq]
  refine ⟨fun h => ?_, fun ⟨hnone, hseparate⟩ => ?_⟩
  · have hseen : ∀ k, lo ≤ k → k < hi → Present (pteAt m.word d k) → k ∈ seen m.word d lo hi := by
      intro k hlo hlt hpresent
      by_contra hnot
      refine h.absent k hlo hlt ?_
      rwa [hentries k (page_lt (by omega)), if_neg hnot]
    refine ⟨fun k hlt hmissed hpresent => ?_, fun j hj hj' k hk hk' p hpj hpk => ?_⟩
    · exact (mem_seen.mp (hseen k (Nat.le_of_lt hmissed.lt) hlt hpresent)).2.2 hmissed
    · obtain ⟨hpresj, hfj⟩ := decode_eq_some.mp hpj
      obtain ⟨hpresk, hfk⟩ := decode_eq_some.mp hpk
      have hcount := h.once k hk hk' p hpk
      rw [← hfk] at hcount
      exact eq_of_count_map (f := fun k => p2v (pteAddr (pteAt m.word d k))) (hseen j hj hj' hpresj)
        (hseen k hk hk' hpresk) (hfj.trans hfk.symm) hcount
  · have hseen : ∀ k, lo ≤ k → k < hi → Present (pteAt m.word d k) → k ∈ seen m.word d lo hi :=
      fun k hlo hlt hpresent => mem_seen.mpr ⟨⟨hlo, hlt⟩, hpresent, fun hmissed => hnone k hlt hmissed hpresent⟩
    refine ⟨fun k hlo hlt hpresent => ?_, fun k hlo hlt p hp => ?_, fun k hk hout => ?_⟩
    · rw [hentries k (page_lt (by omega))] at hpresent
      split at hpresent
      · exact absurd hpresent (by decide)
      · rename_i hnot
        exact hnot (hseen k hlo hlt hpresent)
    · obtain ⟨hpresent, rfl⟩ := decode_eq_some.mp hp
      refine count_eq_one_of_mem (List.Nodup.map_on (fun i hi j hj heq => ?_) (seen_nodup ..))
        (mem_map.mpr ⟨k, hseen k hlo hlt hpresent, rfl⟩)
      obtain ⟨⟨hilo, hihi⟩, hpi, -⟩ := mem_seen.mp hi
      obtain ⟨⟨hjlo, hjhi⟩, hpj, -⟩ := mem_seen.mp hj
      exact hseparate i hilo hihi j hjlo hjhi _ (frameAt_of_present hpi) 
        ((frameAt_of_present hpj).trans (congrArg some heq.symm))
    · rw [hentries k (page_lt hk), if_neg fun hin => hout (mem_seen.mp hin).1]

/-- One page at four megabytes, and no table for the pages below. -/
def sparse : Memory :=
  { kernelEnd := 0x80114000
    word := update (update (fun _ => 0) 0x80200004 0x201007) 0x80201000 0x202007
    freelist := 0
    ledger := [] }

theorem tableAt_sparse (hi : i < npdentries) :
    tableAt sparse.word 0x80200000 i = if i = 1 then some 0x80201000 else none := by
  change i < 1024 at hi
  by_cases hone : i = 1
  · rw [hone]
    rfl
  · rw [if_neg hone, tableAt, target]
    change decode (update (update (fun _ => 0) _ _) _ _ _) = none
    rw [update_of_ne (by omega), update_of_ne (by omega)]
    rfl

theorem pteAt_sparse (hk : k / nptentries < npdentries) :
    pteAt sparse.word 0x80200000 k = if k = 1024 then 0x202007 else 0 := by
  have htable := tableAt_sparse hk
  change k / 1024 < 1024 at hk
  by_cases hone : k / nptentries = 1
  · rw [if_pos hone] at htable
    change k / 1024 = 1 at hone
    rw [pteAt_of_some htable]
    by_cases hfirst : k = 1024
    · rw [hfirst]
      rfl
    · have hmod : 0 < k % nptentries ∧ k % nptentries < 1024 := by
        change 0 < k % 1024 ∧ k % 1024 < 1024
        omega
      change update (update (fun _ => 0) _ _) _ _ _ = _
      rw [if_neg hfirst, update_of_ne (by omega), update_of_ne (by omega)]
  · rw [if_neg hone] at htable
    rw [pteAt_of_none htable, if_neg]
    rintro rfl
    exact hone rfl

theorem present_sparse (hk : k / nptentries < npdentries) (h : Present (pteAt sparse.word 0x80200000 k)) : k = 1024 := by
  by_contra hne
  rw [pteAt_sparse hk, if_neg hne] at h
  exact absurd h (by decide)

theorem walkable_sparse : Walkable sparse.word 0x80200000 := by
  have htable : ∀ i < npdentries, ∀ t, tableAt sparse.word 0x80200000 i = some t → i = 1 ∧ t = 0x80201000 := by
    intro i hi t ht
    rw [tableAt_sparse hi] at ht
    split at ht
    · rename_i hone
      exact ⟨hone, (Option.some.inj ht).symm⟩
    · cases ht
  have hframe : ∀ k < userPages, ∀ p, frameAt sparse.word 0x80200000 k = some p → k = 1024 ∧ p = 0x80202000 := by
    intro k hk p hp
    obtain ⟨hpresent, rfl⟩ := decode_eq_some.mp hp
    obtain rfl := present_sparse (div_lt hk) hpresent
    exact ⟨rfl, rfl⟩
  refine ⟨by decide, fun i hi t ht => ?_, fun i hi j hj t hti htj => ?_, fun k hk p hp => ?_, fun k hk hp => ?_⟩
  · rw [(htable i hi t ht).2]
    decide
  · rw [(htable i hi t hti).1, (htable j hj t htj).1]
  · obtain ⟨-, rfl⟩ := hframe k hk p hp
    exact ⟨by decide, fun i hi ht => absurd (htable i hi _ ht).2 (by decide)⟩
  · obtain rfl := present_sparse (div_lt hk) hp
    decide

end RainOS.Vm
