import Mathlib.Data.List.Range
import Mathlib.Data.UInt
import RainOS.Lib.Store
import RainOS.Param

/-!
# The MP configuration table

mp.c: the search for the MP floating pointer structure, the checks of `mpconfig`, and the loop of `mpinit` over the
entries of the table. `cpus[i]` is the slot `i` whether or not the array has it, and `written` lists the slots that were
written. `p` and `e` are counted from the table's start. The loop takes fuel, and `none` says that it was not enough.
-/

namespace RainOS.Mp

open List Option

def maxcpu : Nat := 8

inductive Message
  /-- `mpinit: ncpu=%d apicid=%d`. -/
  | mismatch (ncpu apicid : Nat)
  /-- `mpinit: unknown config type %x`. -/
  | unknown (type : Nat)
  deriving DecidableEq

structure State where
  ids : Nat → Nat
  written : List Nat
  bcpu : Nat
  ismp : Bool
  ncpu : Nat
  ioapicid : Nat
  lapic : Nat
  imcr : Bool
  console : List Message

def State.boot : State := ⟨fun _ => 0, [], 0, false, 0, 0, 0, false, []⟩

section Table

variable (m : Mem)

def sum (addr : Nat) : Nat → Nat
  | 0 => 0
  | len + 1 => (sum addr len + (m (addr + len)).toNat) % 256

def mpsearchFrom : Nat → Nat → Option Nat
  | 0, _ => none
  | n + 1, p =>
    -- "_MP_"
    if m.word 4 p = 0x5f504d5f ∧ sum m p 16 = 0 then some p else mpsearchFrom n (p + 16)

def mpsearch1 (a len : Nat) : Option Nat := mpsearchFrom m ((len + 15) / 16) (p2v a)

def mpsearch : Option Nat :=
  let bda := p2v 0x400
  let ebda := m.word 2 (bda + 0x0e) * 16
  let found :=
    if ebda ≠ 0 then mpsearch1 m ebda 1024
    else mpsearch1 m ((m.word 2 (bda + 0x13) * 1024 + (2 ^ 32 - 1024)) % 2 ^ 32) 1024
  found.or (mpsearch1 m 0xf0000 0x10000)

def physaddr (mp : Nat) : Nat := m.word 4 (mp + 4)

def imcrp (mp : Nat) : Nat := m.word 1 (mp + 12)

def confLength (conf : Nat) : Nat := m.word 2 (conf + 4)

def version (conf : Nat) : Nat := m.word 1 (conf + 6)

def lapicaddr (conf : Nat) : Nat := m.word 4 (conf + 36)

def mpconfig : Option (Nat × Nat) := do
  let mp ← mpsearch m
  if physaddr m mp = 0 then none
  else
    let conf := p2v (physaddr m mp)
    -- "PCMP"
    if m.word 4 conf ≠ 0x504d4350 then none
    else if version m conf ≠ 1 ∧ version m conf ≠ 4 then none
    else if sum m conf (confLength m conf) ≠ 0 then none
    else some (mp, conf)

variable (conf : Nat)

def entryType (p : Nat) : Nat := m.word 1 (conf + p)

def apicid (p : Nat) : Nat := m.word 1 (conf + p + 1)

def isBoot (p : Nat) : Bool := (m.word 1 (conf + p + 3)).testBit 1

def procEntry (p : Nat) (s : State) : State :=
  let s := if s.ncpu ≠ apicid m conf p then
    { s with console := s.console ++ [.mismatch s.ncpu (apicid m conf p)], ismp := false } else s
  { s with
    bcpu := if isBoot m conf p then s.ncpu else s.bcpu
    ids := store s.ids s.ncpu (s.ncpu % 256)
    written := s.written ++ [s.ncpu]
    ncpu := s.ncpu + 1 }

def entry (p : Nat) (s : State) : Nat × State :=
  match entryType m conf p with
  | 0 => (p + 20, procEntry m conf p s)
  | 2 => (p + 8, { s with ioapicid := apicid m conf p })
  | 1 | 3 | 4 => (p + 8, s)
  | type => (p, { s with console := s.console ++ [.unknown type], ismp := false })

def entries : Nat → Nat → State → Option State
  | 0, _, _ => none
  | n + 1, p, s =>
    if p < confLength m conf then entries n (entry m conf p s).1 (entry m conf p s).2 else some s

def finish (mp : Nat) (s : State) : State :=
  if s.ismp then { s with imcr := imcrp m mp ≠ 0 } else { s with ncpu := 1, lapic := 0, ioapicid := 0 }

def mpinit (n : Nat) (s : State) : Option State :=
  let s := { s with bcpu := 0 }
  match mpconfig m with
  | none => some s
  | some (mp, conf) =>
    (entries m conf n 44 { s with ismp := true, lapic := lapicaddr m conf }).map (finish m mp)

end Table

/-! ### Entries

`Walk p ps`: there are known entries up to `p`, and `ps` are the places of the processor entries among them. -/

variable {m : Mem} {conf p q mp n : Nat} {ps : List Nat} {s s' : State}

inductive Walk (m : Mem) (conf : Nat) : Nat → List Nat → Prop
  | start : Walk m conf 44 []
  | proc {p : Nat} {ps : List Nat} : Walk m conf p ps → p < confLength m conf → entryType m conf p = 0 →
      Walk m conf (p + 20) (ps ++ [p])
  | other {p : Nat} {ps : List Nat} : Walk m conf p ps → p < confLength m conf → entryType m conf p ∈ [1, 2, 3, 4] →
      Walk m conf (p + 8) ps

/-- No entry of the table has a type that `mpinit` does not know. -/
def Known (m : Mem) (conf : Nat) : Prop :=
  ∀ p ps, Walk m conf p ps → p < confLength m conf → entryType m conf p < 5

theorem entry_proc (h : entryType m conf p = 0) (s : State) : entry m conf p s = (p + 20, procEntry m conf p s) := by
  simp [entry, h]

theorem entry_other (h : entryType m conf p ∈ [1, 2, 3, 4]) (s : State) :
    ∃ id, entry m conf p s = (p + 8, { s with ioapicid := id }) := by
  simp only [mem_cons, not_mem_nil, or_false] at h
  rcases h with h | h | h | h
  · exact ⟨s.ioapicid, by simp [entry, h]⟩
  · exact ⟨apicid m conf p, by simp [entry, h]⟩
  · exact ⟨s.ioapicid, by simp [entry, h]⟩
  · exact ⟨s.ioapicid, by simp [entry, h]⟩

theorem type_cases (m : Mem) (conf p : Nat) :
    entryType m conf p = 0 ∨ entryType m conf p ∈ [1, 2, 3, 4] ∨ 5 ≤ entryType m conf p := by
  simp only [mem_cons, not_mem_nil, or_false]
  omega

theorem entries_unknown (hp : p < confLength m conf) (h : 5 ≤ entryType m conf p) (n : Nat) (s : State) :
    entries m conf n p s = none := by
  have hstay : ∀ s, (entry m conf p s).1 = p := by
    intro s
    unfold entry
    split
    all_goals omega
  induction n generalizing s with
  | zero => rfl
  | succ n ih => rw [entries, if_pos hp, hstay, ih]

theorem Walk.entries (h : Walk m conf p ps) (hend : entries m conf n 44 s = some s') :
    ∃ n₁ s₁, Mp.entries m conf n₁ p s₁ = some s' := by
  induction h with
  | start => exact ⟨n, s, hend⟩
  | proc _ hp htype ih =>
    obtain ⟨n₁, s₁, h₁⟩ := ih
    cases n₁ with
    | zero => cases h₁
    | succ n₁ =>
      rw [Mp.entries, if_pos hp, entry_proc htype] at h₁
      exact ⟨n₁, _, h₁⟩
  | other _ hp htype ih =>
    obtain ⟨n₁, s₁, h₁⟩ := ih
    cases n₁ with
    | zero => cases h₁
    | succ n₁ =>
      obtain ⟨id, hentry⟩ := entry_other htype s₁
      rw [Mp.entries, if_pos hp, hentry] at h₁
      exact ⟨n₁, _, h₁⟩

theorem Known.ends (hk : Known m conf) (h : Walk m conf p ps) (s : State) : ∃ n s', entries m conf n p s = some s' := by
  induction hleft : confLength m conf - p using Nat.strong_induction_on generalizing p ps s with
  | _ left ih =>
    by_cases hp : p < confLength m conf
    · rcases type_cases m conf p with htype | htype | htype
      · obtain ⟨n, s', hend⟩ := ih _ (by omega) (h.proc hp htype) (procEntry m conf p s) rfl
        exact ⟨n + 1, s', by rw [entries, if_pos hp, entry_proc htype, hend]⟩
      · obtain ⟨id, hentry⟩ := entry_other htype s
        obtain ⟨n, s', hend⟩ := ih _ (by omega) (h.other hp htype) { s with ioapicid := id } rfl
        exact ⟨n + 1, s', by rw [entries, if_pos hp, hentry, hend]⟩
      · have hlt := hk p ps h hp
        omega
    · exact ⟨1, s, by rw [entries, if_neg hp]⟩

/-- The loop ends exactly if all entries are of known types. -/
theorem mpinit_ends_iff (hconf : mpconfig m = some (mp, conf)) (s : State) :
    (∃ n s', mpinit m n s = some s') ↔ Known m conf := by
  simp only [mpinit, hconf, map_eq_some_iff]
  constructor
  · rintro ⟨n, -, s', hend, -⟩ p ps hwalk hp
    by_contra! htype
    obtain ⟨n₁, s₁, h₁⟩ := hwalk.entries hend
    rw [entries_unknown hp htype] at h₁
    cases h₁
  · intro hk
    obtain ⟨n, s', hend⟩ := hk.ends .start _
    exact ⟨n, _, s', hend, rfl⟩

/-! ### The processors -/

/-- The number among the processors of the last one with the bootstrap flag, or 0. -/
def bootIndex (m : Mem) (conf : Nat) (ps : List Nat) : Nat :=
  ps.zipIdx.foldl (fun b p => if isBoot m conf p.1 then p.2 else b) 0

def Ordered (m : Mem) (conf : Nat) (ps : List Nat) : Prop := ps.map (apicid m conf) = List.range ps.length

structure Found (m : Mem) (conf : Nat) (ps : List Nat) (s : State) : Prop where
  ncpu : s.ncpu = ps.length
  written : s.written = List.range ps.length
  ids : ∀ i < ps.length, s.ids i = i % 256
  bcpu : s.bcpu = bootIndex m conf ps
  ismp : s.ismp = true ↔ Ordered m conf ps

theorem ordered_append : Ordered m conf (ps ++ [p]) ↔ Ordered m conf ps ∧ ps.length = apicid m conf p := by
  simp [Ordered, range_succ, eq_comm]

theorem bootIndex_append (m : Mem) (conf : Nat) (ps : List Nat) (p : Nat) :
    bootIndex m conf (ps ++ [p]) = if isBoot m conf p then ps.length else bootIndex m conf ps := by
  simp [bootIndex, zipIdx_append]

theorem bootIndex_lt (h : 1 ≤ ps.length) : bootIndex m conf ps < ps.length := by
  induction ps using reverseRecOn with
  | nil => cases h
  | append_singleton ps p ih =>
    rw [bootIndex_append, length_append, length_singleton]
    split
    · exact Nat.lt_succ_self _
    · cases ps with
      | nil => exact Nat.one_pos
      | cons q ps => exact Nat.lt_succ_of_lt (ih (Nat.succ_pos _))

theorem Found.proc (h : Found m conf ps s) : Found m conf (ps ++ [p]) (procEntry m conf p s) := by
  have hlen : (ps ++ [p]).length = ps.length + 1 := length_append
  refine ⟨?_, ?_, fun i hi => ?_, ?_, ?_⟩
  · unfold procEntry
    split <;> simp [h.ncpu]
  · unfold procEntry
    split <;> simp [h.ncpu, h.written, range_succ]
  · have hids : (procEntry m conf p s).ids i = if i = s.ncpu then s.ncpu % 256 else s.ids i := by
      unfold procEntry
      split <;> rfl
    rw [hids]
    split
    · rename_i heq
      rw [heq]
    · rename_i hne
      rw [h.ncpu] at hne
      exact h.ids i (by omega)
  · unfold procEntry
    split <;> simp [bootIndex_append, h.ncpu, h.bcpu]
  · rw [ordered_append, ← h.ismp, ← h.ncpu]
    unfold procEntry
    split <;> simp_all

theorem entries_found (hwalk : Walk m conf p ps) (h : Found m conf ps s) (hend : entries m conf n p s = some s') :
    ∃ q qs, Walk m conf q qs ∧ confLength m conf ≤ q ∧ Found m conf qs s' := by
  induction n generalizing p ps s with
  | zero => cases hend
  | succ n ih =>
    rw [entries] at hend
    split at hend
    · rename_i hp
      rcases type_cases m conf p with htype | htype | htype
      · rw [entry_proc htype] at hend
        exact ih (hwalk.proc hp htype) h.proc hend
      · obtain ⟨id, hentry⟩ := entry_other htype s
        rw [hentry] at hend
        have hfound : Found m conf ps { s with ioapicid := id } := ⟨h.ncpu, h.written, h.ids, h.bcpu, h.ismp⟩
        exact ih (hwalk.other hp htype) hfound hend
      · have hspin : entries m conf (n + 1) p s = none := entries_unknown hp htype _ _
        rw [entries, if_pos hp, hend] at hspin
        cases hspin
    · rename_i hp
      cases hend
      exact ⟨p, ps, hwalk, Nat.le_of_not_lt hp, h⟩

/-- What should hold after `mpinit` on a table with these processor entries. -/
structure Within (ps : List Nat) (s : State) : Prop where
  written : ∀ i ∈ s.written, i < maxcpu
  ncpu : ps ≠ [] → 1 ≤ s.ncpu ∧ s.ncpu ≤ maxcpu
  ids : ∀ i < s.ncpu, s.ids i = i
  bcpu : s.bcpu < s.ncpu

/-- One to eight processors, of which the first is the bootstrap processor or the identifiers are in order. -/
def Fits (m : Mem) (conf : Nat) (ps : List Nat) : Prop :=
  1 ≤ ps.length ∧ ps.length ≤ maxcpu ∧ (Ordered m conf ps ∨ bootIndex m conf ps = 0)

theorem mem_range_lt_iff (n k : Nat) : (∀ i ∈ range n, i < k) ↔ n ≤ k := by
  constructor
  · intro hall
    by_contra! hlt
    exact lt_irrefl k (hall k (mem_range.mpr hlt))
  · intro hle i hi
    exact Nat.lt_of_lt_of_le (mem_range.mp hi) hle

theorem Found.within_iff (h : Found m conf ps s) (mp : Nat) : Within ps (finish m mp s) ↔ Fits m conf ps := by
  have hlen := mem_range_lt_iff ps.length maxcpu
  by_cases hismp : s.ismp = true
  · have hfinish : finish m mp s = { s with imcr := imcrp m mp ≠ 0 } := if_pos hismp
    rw [hfinish]
    constructor
    · rintro ⟨hwritten, -, -, hbcpu⟩
      rw [h.written, hlen] at hwritten
      rw [h.ncpu] at hbcpu
      exact ⟨by omega, hwritten, .inl (h.ismp.mp hismp)⟩
    · rintro ⟨hone, hle, -⟩
      refine ⟨?_, fun _ => ?_, fun i hi => ?_, ?_⟩
      · rw [h.written, hlen]
        exact hle
      · rw [h.ncpu]
        exact ⟨hone, hle⟩
      · rw [h.ncpu] at hi
        exact (h.ids i hi).trans (Nat.mod_eq_of_lt (by unfold maxcpu at hle; omega))
      · rw [h.bcpu, h.ncpu]
        exact bootIndex_lt hone
  · have hfinish : finish m mp s = { s with ncpu := 1, lapic := 0, ioapicid := 0 } := if_neg hismp
    have hone : 1 ≤ ps.length := by
      by_contra! hzero
      rw [length_eq_zero_iff.mp (Nat.lt_one_iff.mp hzero)] at h
      exact hismp (h.ismp.mpr rfl)
    rw [hfinish]
    constructor
    · rintro ⟨hwritten, -, -, hbcpu⟩
      rw [h.written, hlen] at hwritten
      rw [h.bcpu] at hbcpu
      exact ⟨hone, hwritten, .inr (Nat.lt_one_iff.mp hbcpu)⟩
    · rintro ⟨-, hle, hboot⟩
      refine ⟨?_, fun _ => ⟨le_refl 1, Nat.le_add_left 1 7⟩, fun i hi => ?_, ?_⟩
      · rw [h.written, hlen]
        exact hle
      · rw [Nat.lt_one_iff.mp hi]
        exact h.ids 0 hone
      · rw [h.bcpu, hboot.resolve_left (mt h.ismp.mpr hismp)]
        exact Nat.one_pos

/-- `mpinit` stays inside the array, and leaves it as it should, exactly for the tables that fit. -/
theorem mpinit_within_iff (hconf : mpconfig m = some (mp, conf)) (hend : mpinit m n .boot = some s') :
    ∃ p ps, Walk m conf p ps ∧ confLength m conf ≤ p ∧ (Within ps s' ↔ Fits m conf ps) := by
  simp only [mpinit, hconf, map_eq_some_iff] at hend
  obtain ⟨s, hend, rfl⟩ := hend
  obtain ⟨p, ps, hwalk, hp, h⟩ := entries_found .start ⟨rfl, rfl, nofun, rfl, iff_of_true rfl rfl⟩ hend
  exact ⟨p, ps, hwalk, hp, h.within_iff mp⟩

/-! ### Tables -/

/-- A memory with the floating pointer structure in the BIOS, and behind it a table with these entries. -/
def withTable (table : List UInt8) : Mem := fun a =>
  let length := UInt8.ofNat (44 + table.length)
  if a < p2v 0xf0000 then 0
  else ([0x5f, 0x4d, 0x50, 0x5f, 0x10, 0x00, 0x0f, 0x00, 1, 4, 0x81, 0, 0, 0, 0, 0,
    0x50, 0x43, 0x4d, 0x50, length, 0, 4, 0xcc - length - table.sum] ++ List.replicate 36 0 ++ table).getD
    (a - p2v 0xf0000) 0

def processors (k : Nat) : Mem := withTable ((List.range k).flatMap fun i => 0 :: UInt8.ofNat i :: List.replicate 18 0)

theorem mpinit_ends_iff_processors : Known (processors 2) (p2v 0xf0010) := by
  have hconf : mpconfig (processors 2) = some (p2v 0xf0000, p2v 0xf0010) := by decide +kernel
  have hend : (mpinit (processors 2) 3 .boot).isSome := by decide +kernel
  exact (mpinit_ends_iff hconf .boot).mp ⟨3, isSome_iff_exists.mp hend⟩

/-- From a table with an entry of type 5 `mpinit` never returns. -/
theorem mpinit_spins : mpconfig (withTable [5]) = some (p2v 0xf0000, p2v 0xf0010) ∧
    ∀ n, mpinit (withTable [5]) n .boot = none := by
  have hconf : mpconfig (withTable [5]) = some (p2v 0xf0000, p2v 0xf0010) := by decide +kernel
  refine ⟨hconf, fun n => ?_⟩
  have hspin : ∀ s, entries (withTable [5]) (p2v 0xf0010) n 44 s = none :=
    entries_unknown (by decide +kernel) (by decide +kernel) n
  simp only [mpinit, hconf, hspin, map_none]

theorem mpinit_within_iff_processors : ∃ s p ps, mpinit (processors 2) 3 .boot = some s ∧
    Walk (processors 2) (p2v 0xf0010) p ps ∧ (Within ps s ↔ Fits (processors 2) (p2v 0xf0010) ps) := by
  have hconf : mpconfig (processors 2) = some (p2v 0xf0000, p2v 0xf0010) := by decide +kernel
  have hend : (mpinit (processors 2) 3 .boot).isSome := by decide +kernel
  obtain ⟨s, hs⟩ := isSome_iff_exists.mp hend
  obtain ⟨p, ps, hwalk, -, hiff⟩ := mpinit_within_iff hconf hs
  exact ⟨s, p, ps, hs, hwalk, hiff⟩

/-- With nine processors `mpinit` writes behind the end of `cpus`. -/
theorem mpinit_overruns : mpconfig (processors 9) = some (p2v 0xf0000, p2v 0xf0010) ∧
    (mpinit (processors 9) 10 .boot).map (·.written) = some (List.range 9) := by
  decide +kernel

end RainOS.Mp
