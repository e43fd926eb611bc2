import RainOS.Console.Lines
import RainOS.Lib.Ledger

/-!
# Calls of consoleread

What the calls under way and the calls that returned have taken from the buffer. A call stores what it takes, up to a
newline; ^D ends it, and is itself taken only by a call that has nothing else.
-/

namespace RainOS.Console

open Function List

/-- A call under way: what it has taken is what it has stored, no ^D or newline. -/
structure Reading (taken : List (Nat × List UInt8)) (c : Read) : Prop where
  dst : loggedBy c.id taken = c.dst
  plain : ctrl 'D' ∉ c.dst
  line : newline ∉ c.dst
  length : c.dst.length + c.n = c.target
  wants : 0 < c.n

/-- A call that returned: it stored what it took, or it took one ^D and stored nothing. -/
structure Returned (taken : List (Nat × List UInt8)) (c : Read) : Prop where
  dst : loggedBy c.id taken = if c.dst = [] then [ctrl 'D'] else c.dst
  plain : ctrl 'D' ∉ c.dst
  line : newline ∉ c.dst.dropLast
  length : c.dst.length ≤ c.target

theorem Reading.congr {taken taken' : List (Nat × List UInt8)} {c : Read} (h : Reading taken c)
    (hlog : loggedBy c.id taken' = loggedBy c.id taken) : Reading taken' c :=
  ⟨hlog.trans h.dst, h.plain, h.line, h.length, h.wants⟩

theorem Returned.congr {taken taken' : List (Nat × List UInt8)} {c : Read} (h : Returned taken c)
    (hlog : loggedBy c.id taken' = loggedBy c.id taken) : Returned taken' c :=
  ⟨hlog.trans h.dst, h.plain, h.line, h.length⟩

section

variable {taken : List (Nat × List UInt8)} {c : Read} (h : Reading taken c) {a : Stretch} (ha : a.Fits c.target c.n)
include h ha

theorem Reading.proceed (hsleeps : a.sleeps = true) :
    Reading (taken ++ [(c.id, a.taken)]) { c with n := c.n - a.bytes.length, dst := c.dst ++ a.bytes } := by
  have heof : a.eof = false := by
    rw [← Bool.not_eq_true]
    exact fun heof => nomatch hsleeps.symm.trans (ha.eof heof).2.2
  have hlength := h.length
  obtain ⟨hline, hlt, -⟩ := ha.sleeps hsleeps
  refine ⟨?_, ?_, ?_, ?_, ?_⟩
  · rw [loggedBy_append, if_pos rfl, h.dst, Stretch.taken, heof, if_neg nofun, append_nil]
  · exact fun hmem => (mem_append.mp hmem).elim h.plain ha.plain
  · exact fun hmem => (mem_append.mp hmem).elim h.line hline
  · dsimp only
    rw [length_append]
    omega
  · dsimp only
    omega

theorem Reading.finish (hsleeps : a.sleeps = false) :
    Returned (taken ++ [(c.id, a.taken)]) { c with n := c.n - a.bytes.length, dst := c.dst ++ a.bytes } := by
  have hlength := h.length
  have hle := ha.length
  refine ⟨?_, ?_, ?_, ?_⟩
  · rw [loggedBy_append, if_pos rfl, h.dst, Stretch.taken]
    cases heof : a.eof with
    | false =>
      have hne : c.dst ++ a.bytes ≠ [] := by
        intro hnil
        obtain ⟨hdst, hbytes⟩ := append_eq_nil_iff.mp hnil
        have hlt := ha.saved hsleeps heof h.wants hbytes
        rw [hdst, length_nil] at hlength
        omega
      rw [if_neg nofun, if_neg hne, append_nil]
    | true =>
      obtain ⟨hfull, hbytes, -⟩ := ha.eof heof
      have hdst : c.dst = [] := length_eq_zero_iff.mp (by omega)
      rw [hbytes, hdst]
      rfl
  · exact fun hmem => (mem_append.mp hmem).elim h.plain ha.plain
  · cases hbytes : a.bytes with
    | nil =>
      rw [append_nil]
      exact fun hmem => h.line (mem_of_mem_dropLast hmem)
    | cons b bytes =>
      have hline := ha.line
      rw [hbytes] at hline
      rw [dropLast_append_of_ne_nil (cons_ne_nil b bytes)]
      exact fun hmem => (mem_append.mp hmem).elim h.line hline
  · rw [length_append]
    dsimp only
    omega

end

variable {P : Type}

/-- The calls that are under way and those that returned, by their numbers. -/
structure Ledger (calling : P → Option Read) (calls : Nat) (taken : List (Nat × List UInt8)) (returns : List Read) :
    Prop where
  fresh : ∀ x ∈ taken, x.1 < calls
  active : ∀ p c, calling p = some c → c.id < calls ∧ Reading taken c
  own : ∀ p q c c', calling p = some c → calling q = some c' → c.id = c'.id → p = q
  ended : ∀ c ∈ returns, c.id < calls ∧ Returned taken c ∧ ∀ p c', calling p = some c' → c'.id ≠ c.id
  nodup : (returns.map Read.id).Nodup
  known : ∀ x ∈ taken, (∃ c ∈ returns, c.id = x.1) ∨ ∃ p c, calling p = some c ∧ c.id = x.1

namespace Ledger

variable {calling : P → Option Read} {calls id calls' n : Nat} {taken taken' : List (Nat × List UInt8)}
  {returns : List Read} {p : P} {c c' : Read}

theorem apart (h : Ledger calling calls taken returns) (hp : calling p = some c) :
    (∀ q, q ≠ p → ∀ d, calling q = some d → d.id ≠ c.id) ∧ ∀ d ∈ returns, d.id ≠ c.id :=
  ⟨fun q hq d hd hid => hq (h.own q p d c hd hp hid), fun d hd => ((h.ended d hd).2.2 p c hp).symm⟩

theorem loggedBy_other (hid : id ≠ c.id) (bytes : List UInt8) :
    loggedBy id (taken ++ [(c.id, bytes)]) = loggedBy id taken := by
  rw [loggedBy_append, if_neg hid.symm, append_nil]

theorem fresh_append (h : Ledger calling calls taken returns) (hp : calling p = some c) (bytes : List UInt8) :
    ∀ x ∈ taken ++ [(c.id, bytes)], x.1 < calls := by
  intro x hx
  rw [mem_append, mem_singleton] at hx
  rcases hx with hx | rfl
  · exact h.fresh x hx
  · exact (h.active p c hp).1

variable [DecidableEq P]

section

variable (h : Ledger calling calls taken returns) {bytes : List UInt8}
include h

theorem set (hle : calls ≤ calls') (hlt : c.id < calls') (hreading : Reading taken' c)
    (hlog : ∀ id, id ≠ c.id → loggedBy id taken' = loggedBy id taken)
    (hothers : ∀ q, q ≠ p → ∀ d, calling q = some d → d.id ≠ c.id) (hreturns : ∀ d ∈ returns, d.id ≠ c.id)
    (hself : ∀ d, calling p = some d → d.id = c.id) (hfresh : ∀ x ∈ taken', x.1 < calls')
    (hknown : ∀ x ∈ taken', x.1 = c.id ∨ x ∈ taken) : Ledger (update calling p (some c)) calls' taken' returns where
  fresh := hfresh
  active q d hq := by
    by_cases hqp : q = p
    · subst hqp
      rw [update_self] at hq
      cases hq
      exact ⟨hlt, hreading⟩
    · rw [update_of_ne hqp] at hq
      obtain ⟨hd, hreading'⟩ := h.active q d hq
      exact ⟨hd.trans_le hle, hreading'.congr (hlog _ (hothers q hqp d hq))⟩
  own q q' d d' hq hq' hid := by
    by_cases hqp : q = p
    · subst hqp
      by_contra hne
      rw [update_self] at hq
      rw [update_of_ne (Ne.symm hne)] at hq'
      cases hq
      exact hothers q' (Ne.symm hne) d' hq' hid.symm
    · rw [update_of_ne hqp] at hq
      by_cases hqp' : q' = p
      · subst hqp'
        rw [update_self] at hq'
        cases hq'
        exact absurd hid (hothers q hqp d hq)
      · rw [update_of_ne hqp'] at hq'
        exact h.own q q' d d' hq hq' hid
  ended d hd := by
    obtain ⟨hd', hreturned, hover⟩ := h.ended d hd
    refine ⟨hd'.trans_le hle, hreturned.congr (hlog _ (hreturns d hd)), fun q d' hq => ?_⟩
    by_cases hqp : q = p
    · subst hqp
      rw [update_self] at hq
      cases hq
      exact (hreturns d hd).symm
    · rw [update_of_ne hqp] at hq
      exact hover q d' hq
  nodup := h.nodup
  known x hx := by
    have hhere : ∀ id, id = c.id → ∃ q d, update calling p (some c) q = some d ∧ d.id = id := by
      rintro _ rfl
      exact ⟨p, c, update_self .., rfl⟩
    rcases hknown x hx with hid | hx
    · exact .inr (hhere x.1 hid)
    · rcases h.known x hx with hret | ⟨q, d, hq, hid⟩
      · exact .inl hret
      · by_cases hqp : q = p
        · subst hqp
          exact .inr (hhere x.1 (hid.symm.trans (hself d hq)))
        · exact .inr ⟨q, d, by rwa [update_of_ne hqp], hid⟩

theorem enter (hp : calling p = none) (hn : 0 < n) :
    Ledger (update calling p (some ⟨calls, n, n, []⟩)) (calls + 1) taken returns := by
  refine h.set (Nat.le_succ calls) (Nat.lt_succ_self calls) ⟨loggedBy_eq_nil h.fresh, not_mem_nil, not_mem_nil,
    Nat.zero_add n, hn⟩ (fun _ _ => rfl) (fun q _ d hd => (h.active q d hd).1.ne) (fun d hd => (h.ended d hd).1.ne) ?_
    (fun x hx => (h.fresh x hx).trans (Nat.lt_succ_self calls)) fun _ hx => .inr hx
  rw [hp]
  nofun

theorem proceed (hp : calling p = some c) (hid : c'.id = c.id) (hreading : Reading (taken ++ [(c.id, bytes)]) c') :
    Ledger (update calling p (some c')) calls (taken ++ [(c.id, bytes)]) returns := by
  obtain ⟨hothers, hreturns⟩ := h.apart hp
  have hself : ∀ d, calling p = some d → d.id = c.id := by
    intro d hd
    rw [Option.some.inj (hd.symm.trans hp)]
  rw [← hid] at hothers hreturns hself
  refine h.set le_rfl (hid ▸ (h.active p c hp).1) hreading (fun id hne => loggedBy_other (hid ▸ hne) bytes) hothers hreturns
    hself (h.fresh_append hp bytes) fun x hx => ?_
  rw [mem_append, mem_singleton] at hx
  rcases hx with hx | rfl
  · exact .inr hx
  · exact .inl hid.symm

theorem finish (hp : calling p = some c) (hid : c'.id = c.id) (hreturned : Returned (taken ++ [(c.id, bytes)]) c') :
    Ledger (update calling p none) calls (taken ++ [(c.id, bytes)]) (returns ++ [c']) := by
  obtain ⟨hothers, hreturns⟩ := h.apart hp
  have hleft : ∀ q d, update calling p none q = some d → q ≠ p ∧ calling q = some d := fun q d hq => update_eq hq nofun
  refine ⟨h.fresh_append hp bytes, fun q d hq => ?_, fun q q' d d' hq hq' hdd => ?_, fun d hd => ?_, ?_, fun x hx => ?_⟩
  · obtain ⟨hqp, hq⟩ := hleft q d hq
    obtain ⟨hlt, hreading⟩ := h.active q d hq
    exact ⟨hlt, hreading.congr (loggedBy_other (hothers q hqp d hq) bytes)⟩
  · exact h.own q q' d d' (hleft q d hq).2 (hleft q' d' hq').2 hdd
  · rw [mem_append, mem_singleton] at hd
    rcases hd with hd | rfl
    · obtain ⟨hlt, hret, hover⟩ := h.ended d hd
      exact ⟨hlt, hret.congr (loggedBy_other (hreturns d hd) bytes), fun q d' hq => hover q d' (hleft q d' hq).2⟩
    · refine ⟨hid ▸ (h.active p c hp).1, hreturned, fun q d' hq => ?_⟩
      rw [hid]
      exact hothers q (hleft q d' hq).1 d' (hleft q d' hq).2
  · rw [map_append, nodup_append]
    refine ⟨h.nodup, nodup_singleton _, ?_⟩
    rintro _ hd _ hc rfl
    obtain ⟨d, hd, hdid⟩ := mem_map.mp hd
    rw [map_singleton, mem_singleton] at hc
    exact hreturns d hd (hdid.trans (hc.trans hid))
  · have hhere : ∀ id, id = c.id → ∃ d ∈ returns ++ [c'], d.id = id := by
      rintro _ rfl
      exact ⟨c', mem_append_right _ (mem_singleton_self c'), hid⟩
    rw [mem_append, mem_singleton] at hx
    rcases hx with hx | rfl
    · rcases h.known x hx with ⟨d, hd, hdid⟩ | ⟨q, d, hq, hdid⟩
      · exact .inl ⟨d, mem_append_left _ hd, hdid⟩
      · by_cases hqp : q = p
        · subst hqp
          rw [Option.some.inj (hq.symm.trans hp)] at hdid
          exact .inl (hhere x.1 hdid.symm)
        · exact .inr ⟨q, d, by rwa [update_of_ne hqp], hdid⟩
    · exact .inl (hhere c.id rfl)

end

end Ledger

end RainOS.Console
