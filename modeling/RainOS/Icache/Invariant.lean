import RainOS.Icache.Code
import RainOS.Lib.Store

/-!
# The references and the locks of the inode cache

The entries in use and the references to them, and the locks and the processes that hold them, change independently of each
other, except that an entry is taken for another inode when it has no references, and so no process is at its lock. An
inode is valid in memory only while it is locked, because `iunlock` clears the flag: each `ilock` reads the inode again, and
`iput` never finds one to free.
-/

namespace RainOS.Icache

open Function List

variable {n : Nat} {P : Type}

structure Refs (key : Fin n → Key) (ref : Fin n → Nat) (refs : List (Fin n × Key)) : Prop where
  count : ∀ ip, ref ip = refs.countP (·.1 = ip)
  keys : ∀ x ∈ refs, key x.1 = x.2
  unique : ∀ i j, 0 < ref i → 0 < ref j → key i = key j → i = j

namespace Refs

variable {key : Fin n → Key} {ref : Fin n → Nat} {refs : List (Fin n × Key)} {ip : Fin n} {k : Key}

theorem ref_pos (h : Refs key ref refs) {x : Fin n × Key} (hx : x ∈ refs) : 0 < ref x.1 := by
  rw [h.count, countP_pos_iff]
  exact ⟨x, hx, decide_eq_true rfl⟩

theorem add (h : Refs key ref refs) (hpos : 0 < ref ip) (hkey : key ip = k) :
    Refs key (update ref ip (ref ip + 1)) ((ip, k) :: refs) where
  count j := by
    rw [countP_cons, ← h.count]
    by_cases hj : j = ip
    · subst hj
      rw [update_self, decide_eq_true rfl]
      rfl
    · rw [update_of_ne hj, decide_eq_false (Ne.symm hj)]
      rfl
  keys x hx := by
    rcases mem_cons.mp hx with rfl | hx
    · exact hkey
    · exact h.keys x hx
  unique i j hi hj := by
    have hused : ∀ i, 0 < update ref ip (ref ip + 1) i → 0 < ref i := by
      intro i hi
      by_cases hip : i = ip
      · exact hip ▸ hpos
      · rwa [update_of_ne hip] at hi
    exact h.unique i j (hused i hi) (hused j hj)

theorem recycle (h : Refs key ref refs) (hzero : ref ip = 0) (hnone : ∀ i, 0 < ref i → key i ≠ k) :
    Refs (update key ip k) (update ref ip 1) ((ip, k) :: refs) where
  count j := by
    rw [countP_cons, ← h.count]
    by_cases hj : j = ip
    · subst hj
      rw [update_self, hzero, decide_eq_true rfl]
      rfl
    · rw [update_of_ne hj, decide_eq_false (Ne.symm hj)]
      rfl
  keys x hx := by
    rcases mem_cons.mp hx with rfl | hx
    · exact update_self ..
    · have hne : x.1 ≠ ip := by
        intro heq
        have hpos := h.ref_pos hx
        rw [heq, hzero] at hpos
        exact Nat.lt_irrefl 0 hpos
      rw [update_of_ne hne]
      exact h.keys x hx
  unique i j hi hj hkey := by
    by_cases hip : i = ip <;> by_cases hjp : j = ip
    · rw [hip, hjp]
    · rw [update_of_ne hjp] at hj hkey
      rw [hip, update_self] at hkey
      exact absurd hkey.symm (hnone j hj)
    · rw [update_of_ne hip] at hi hkey
      rw [hjp, update_self] at hkey
      exact absurd hkey (hnone i hi)
    · rw [update_of_ne hip] at hi hkey
      rw [update_of_ne hjp] at hj hkey
      exact h.unique i j hi hj hkey

theorem drop (h : Refs key ref refs) (hmem : (ip, k) ∈ refs) :
    Refs key (update ref ip (ref ip - 1)) (refs.erase (ip, k)) where
  count j := by
    have hsplit : refs.countP (·.1 = j) = (refs.erase (ip, k)).countP (·.1 = j) + if ip = j then 1 else 0 := by
      rw [(perm_cons_erase hmem).countP_eq, countP_cons]
      simp only [decide_eq_true_eq]
    rw [← h.count] at hsplit
    by_cases hj : j = ip
    · subst hj
      rw [if_pos rfl] at hsplit
      rw [update_self]
      omega
    · rw [if_neg (Ne.symm hj)] at hsplit
      rw [update_of_ne hj]
      omega
  keys x hx := h.keys x (mem_of_mem_erase hx)
  unique i j hi hj := by
    have hused : ∀ i, 0 < update ref ip (ref ip - 1) i → 0 < ref i := by
      intro i hi
      by_cases hip : i = ip
      · exact hip ▸ h.ref_pos hmem
      · rwa [update_of_ne hip] at hi
    exact h.unique i j (hused i hi) (hused j hj)

end Refs

def Uses (call : P → Call n) (locked : P → Fin n → Bool) (p : P) (ip : Fin n) : Prop :=
  locked p ip = true ∨ call p = .ilock ip ∨ call p = .asleep ip ∨ call p = .load ip

structure Locks (busy valid : Fin n → Bool) (call : P → Call n) (locked : P → Fin n → Bool) : Prop where
  held : ∀ ip, busy ip = true ↔ ∃ p, locked p ip = true
  one : ∀ p q ip, locked p ip = true → locked q ip = true → p = q
  inside : ∀ ip, valid ip = true → busy ip = true
  loading : ∀ p ip, call p = .load ip → locked p ip = true ∧ valid ip = false
  itrunc : ∀ p ip, call p ≠ .itrunc ip
  ifree : ∀ p ip key, call p ≠ .ifree ip key

namespace Locks

variable {busy valid : Fin n → Bool} {call : P → Call n} {locked : P → Fin n → Bool} {p : P} {ip j : Fin n}
  {c d : Call n}

theorem reset (h : Locks busy valid call locked) (hunused : ∀ q, ¬ Uses call locked q ip) :
    Locks (update busy ip false) (update valid ip false) call locked where
  held j := by
    by_cases hj : j = ip
    · subst hj
      rw [update_self]
      exact ⟨nofun, fun ⟨q, hq⟩ => absurd (.inl hq) (hunused q)⟩
    · rw [update_of_ne hj]
      exact h.held j
  one := h.one
  inside j hj := by
    obtain ⟨hjp, hj⟩ := update_eq hj nofun
    rw [update_of_ne hjp]
    exact h.inside j hj
  loading q j hq := by
    obtain ⟨hlocked, hvalid⟩ := h.loading q j hq
    have hjp : j ≠ ip := by
      rintro rfl
      exact hunused q (.inl hlocked)
    rw [update_of_ne hjp]
    exact ⟨hlocked, hvalid⟩
  itrunc := h.itrunc
  ifree := h.ifree

theorem wake_eq_load (h : c.wake ip = .load j) : c = .load j := by
  cases c with
  | asleep i =>
    rw [Call.wake] at h
    split at h <;> cases h
  | _ => exact h

theorem wake_ne (hc : c ≠ d) (hd : ∀ i, d ≠ .ilock i) (hd' : ∀ i, d ≠ .asleep i) : c.wake ip ≠ d := by
  cases c with
  | asleep i =>
    rw [Call.wake]
    split
    · exact (hd i).symm
    · exact (hd' i).symm
  | _ => exact hc

variable [DecidableEq P]

section

variable (h : Locks busy valid call locked)
include h

theorem setCall {c : Call n} (hc : c = .idle ∨ ∃ j, c = .ilock j ∨ c = .asleep j) :
    Locks busy valid (update call p c) locked := by
  have hne : ∀ d, (∀ j, d ≠ .ilock j) → (∀ j, d ≠ .asleep j) → d ≠ .idle → c ≠ d := by
    rintro d hd hd' hidle rfl
    rcases hc with rfl | ⟨j, rfl | rfl⟩
    · exact hidle rfl
    · exact hd j rfl
    · exact hd' j rfl
  have hcall : ∀ q d, (∀ j, d ≠ .ilock j) → (∀ j, d ≠ .asleep j) → d ≠ .idle → update call p c q = d → call q = d := by
    intro q d hd hd' hidle hq
    exact (update_eq hq (hne d hd hd' hidle)).2
  exact ⟨h.held, h.one, h.inside, fun q j hq => h.loading q j (hcall q _ nofun nofun nofun hq),
    fun q j hq => h.itrunc q j (hcall q _ nofun nofun nofun hq),
    fun q j key hq => h.ifree q j key (hcall q _ nofun nofun nofun hq)⟩

theorem acquire (hfree : busy ip = false) :
    Locks (update busy ip true) valid (update call p (.load ip)) (update locked p (update (locked p) ip true)) := by
  have hnobody : ∀ q, locked q ip = false := by
    intro q
    rw [← Bool.not_eq_true]
    exact fun hq => nomatch hfree.symm.trans ((h.held ip).mpr ⟨q, hq⟩)
  have hlocked : ∀ q j, update locked p (update (locked p) ip true) q j = true ↔ (q = p ∧ j = ip) ∨ locked q j = true := by
    intro q j
    by_cases hq : q = p
    · subst hq
      rw [update_self]
      by_cases hj : j = ip
      · subst hj
        rw [update_self]
        exact ⟨fun _ => .inl ⟨rfl, rfl⟩, fun _ => rfl⟩
      · rw [update_of_ne hj]
        exact ⟨.inr, fun hor => hor.elim (fun hand => absurd hand.2 hj) id⟩
    · rw [update_of_ne hq]
      exact ⟨.inr, fun hor => hor.elim (fun hand => absurd hand.1 hq) id⟩
  refine ⟨fun j => ?_, fun q r j hq hr => ?_, fun j hj => ?_, fun q j hq => ?_, fun q j => ?_, fun q j key => ?_⟩
  · simp only [hlocked]
    by_cases hj : j = ip
    · subst hj
      rw [update_self]
      exact ⟨fun _ => ⟨p, .inl ⟨rfl, rfl⟩⟩, fun _ => rfl⟩
    · rw [update_of_ne hj, h.held]
      exact exists_congr fun q => ⟨.inr, fun hor => hor.elim (fun hand => absurd hand.2 hj) id⟩
  · rw [hlocked] at hq hr
    rcases hq with ⟨rfl, rfl⟩ | hq
    · rcases hr with ⟨rfl, -⟩ | hr
      · rfl
      · exact nomatch (hnobody r).symm.trans hr
    · rcases hr with ⟨rfl, rfl⟩ | hr
      · exact nomatch (hnobody q).symm.trans hq
      · exact h.one q r j hq hr
  · by_cases hjp : j = ip
    · rw [hjp, update_self]
    · rw [update_of_ne hjp]
      exact h.inside j hj
  · rw [hlocked]
    by_cases hqp : q = p
    · subst hqp
      rw [update_self] at hq
      cases hq
      refine ⟨.inl ⟨rfl, rfl⟩, ?_⟩
      rw [← Bool.not_eq_true]
      exact fun hvalid => nomatch hfree.symm.trans (h.inside ip hvalid)
    · rw [update_of_ne hqp] at hq
      exact ⟨.inr (h.loading q j hq).1, (h.loading q j hq).2⟩
  · by_cases hqp : q = p
    · rw [hqp, update_self]
      nofun
    · rw [update_of_ne hqp]
      exact h.itrunc q j
  · by_cases hqp : q = p
    · rw [hqp, update_self]
      nofun
    · rw [update_of_ne hqp]
      exact h.ifree q j key

theorem loaded (hcall : call p = .load ip) :
    Locks busy (update valid ip true) (update call p .idle) locked := by
  obtain ⟨hlocked, -⟩ := h.loading p ip hcall
  have hleft : Locks busy valid (update call p .idle) locked := h.setCall (.inl rfl)
  refine ⟨h.held, h.one, fun j hj => ?_, fun q j hq => ?_, hleft.itrunc, hleft.ifree⟩
  · by_cases hjp : j = ip
    · exact hjp ▸ (h.held ip).mpr ⟨p, hlocked⟩
    · rw [update_of_ne hjp] at hj
      exact h.inside j hj
  · obtain ⟨hq', hvalid⟩ := hleft.loading q j hq
    have hjp : j ≠ ip := by
      rintro rfl
      have hqp := h.one q p j hq' hlocked
      rw [hqp, update_self] at hq
      cases hq
    rw [update_of_ne hjp]
    exact ⟨hq', hvalid⟩

theorem release (hlocked : locked p ip = true) (hidle : call p = .idle) :
    Locks (update busy ip false) (update valid ip false) (fun q => (call q).wake ip)
      (update locked p (update (locked p) ip false)) := by
  have hafter : ∀ q j, update locked p (update (locked p) ip false) q j = true ↔ locked q j = true ∧ j ≠ ip ∨
      locked q j = true ∧ q ≠ p := by
    intro q j
    by_cases hq : q = p
    · subst hq
      rw [update_self]
      by_cases hj : j = ip
      · subst hj
        rw [update_self]
        exact ⟨nofun, fun hor => hor.elim (fun hand => absurd rfl hand.2) fun hand => absurd rfl hand.2⟩
      · rw [update_of_ne hj]
        exact ⟨fun hl => .inl ⟨hl, hj⟩, fun hor => hor.elim And.left And.left⟩
    · rw [update_of_ne hq]
      exact ⟨fun hl => .inr ⟨hl, hq⟩, fun hor => hor.elim And.left And.left⟩
  have hstill : ∀ q j, update locked p (update (locked p) ip false) q j = true → locked q j = true :=
    fun q j hq => ((hafter q j).mp hq).elim And.left And.left
  refine ⟨fun j => ?_, fun q r j hq hr => h.one q r j (hstill q j hq) (hstill r j hr), fun j hj => ?_, fun q j hq => ?_,
    fun q j => wake_ne (h.itrunc q j) nofun nofun, fun q j key => wake_ne (h.ifree q j key) nofun nofun⟩
  · by_cases hj : j = ip
    · subst hj
      rw [update_self]
      refine ⟨nofun, fun ⟨q, hq⟩ => ?_⟩
      rcases (hafter q j).mp hq with ⟨-, hne⟩ | ⟨hq', hne⟩
      · exact absurd rfl hne
      · exact absurd (h.one q p j hq' hlocked) hne
    · rw [update_of_ne hj, h.held]
      exact ⟨fun ⟨q, hq⟩ => ⟨q, (hafter q j).mpr (.inl ⟨hq, hj⟩)⟩, fun ⟨q, hq⟩ => ⟨q, hstill q j hq⟩⟩
  · obtain ⟨hjp, hj⟩ := update_eq hj nofun
    rw [update_of_ne hjp]
    exact h.inside j hj
  · have hload := wake_eq_load hq
    obtain ⟨hq', hvalid⟩ := h.loading q j hload
    have hqp : q ≠ p := by
      rintro rfl
      exact nomatch hidle.symm.trans hload
    refine ⟨(hafter q j).mpr (.inr ⟨hq', hqp⟩), ?_⟩
    by_cases hjp : j = ip
    · rw [hjp, update_self]
    · rw [update_of_ne hjp]
      exact hvalid

end

end Locks

end RainOS.Icache
