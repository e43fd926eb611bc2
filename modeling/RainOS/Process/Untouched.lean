import RainOS.Process.Runs
import RainOS.Vm.Contents

/-!
# Processes that take no step

Whatever the other processes do, by calls or by writes to their memory, a process that can run and does not keeps its entry
in the process table, but for its parent, and every byte of its memory.
-/

namespace RainOS.Process

open Kalloc Vm

variable {s s' t : Machine} {l : List Nat} {own : Nat → Option Owner} {q : Slot} {data : Nat} {initcode : List UInt8}

structure Untouched (q : Slot) (s s' : Machine) : Prop where
  proc : ∃ parent, s'.procs q = { s.procs q with parent := parent }
  bytes : ∀ va < kernbase, byteAt s'.mem.word (s.procs q).pgdir va = byteAt s.mem.word (s.procs q).pgdir va

theorem Untouched.trans (h : Untouched q s s') (h' : Untouched q s' t) : Untouched q s t := by
  obtain ⟨parent, hproc⟩ := h.proc
  obtain ⟨parent', hproc'⟩ := h'.proc
  refine ⟨⟨parent', by rw [hproc', hproc]⟩, ?_⟩
  intro va hva
  have hbyte := h'.bytes va hva
  rw [hproc] at hbyte
  exact hbyte.trans (h.bytes va hva)

theorem Kept.untouched (hkept : Kept s own q s') (h : Inv s l own) (hq : Live s q) : Untouched q s s' := by
  have hd := (h.shape q hq).live
  refine ⟨hkept.proc, ?_⟩
  intro va hva
  have hpage : va / pgsize < userPages := (Nat.div_lt_iff_lt_mul (by decide)).mpr hva
  have hsame : ∀ o r, own r = some o → o.space r = some (s.procs q).pgdir → ∀ a, pgrounddown a = r →
      s'.mem.word a = s.mem.word a := by
    intro o r ho hspace a ha
    apply hkept.word
    rw [ha, spaceOf_of_own ho, hspace]
  -- The directory and its tables are the process's pages, so the byte is still in the same frame, which is one as well.
  have hentry := h.owned.pteAt_congr hd (div_lt hpage) (hsame _ _ hd rfl) fun t ht => hsame _ t ht rfl
  apply byteAt_congr (Nat.lt_trans hva (by decide)) (frameAt_eq_of_eq hentry)
  intro r hr
  exact hsame _ r (h.owned.own_frame hd hpage hr) rfl

/-- The runs on from `s` in which process `q` takes no step. -/
def without (data : Nat) (initcode : List UInt8) (s : Machine) (q : Slot) : System Machine Action :=
  { (system data initcode).restrict fun t a => Meets t a ∧ a.slot ≠ q with Init := (· = s) }

end RainOS.Process
