import RainOS.Ide.Shared

/-!
# Interrupts with nothing queued

`ideintr` once more, with its lock and with every pointer it goes through: a null pointer and a release of a lock that is
not held are told apart. It finds its queue empty when the interrupt is the exokernel's, and also when the exokernel's queue
has been reset in the meantime or the interrupt is spurious. Then it works only while an exokernel process runs that has
something queued.
-/

namespace RainOS.Ide

inductive Misuse
  | nullBuf
  | nullNode
  | nullProc
  | release
  deriving DecidableEq

def deref {α : Type} (misuse : Misuse) : Option α → Except Misuse α
  | some a => .ok a
  | none => .error misuse

def release (held : Bool) : Except Misuse Unit := if held then .ok () else .error .release

variable {P : Type} [DecidableEq P]

/-- `ex_ideintr` starts with `idequeue->location`. -/
def exIdeintrChecked (s : State P) (p : P) : Except Misuse (State P) :=
  if s.queue.idequeue = 0 then .error .nullNode else .ok (exInterrupt s p)

def ideintrChecked (s : State P) (proc : Option P) : Except Misuse (State P) := do
  let b := s.idequeue.head?
  let mut held := true
  if b.isNone then
    release held
    held := false
    let p ← deref .nullProc proc
    if s.exo p then
      return ← exIdeintrChecked s p
  let b ← deref .nullBuf b
  let s := kernelInterrupt s b s.idequeue.tail
  release held
  return s

section Outcomes

variable {s : State P} {p : P}

theorem ideintrChecked_kernel {b : Nat} {rest : List Nat} (h : s.idequeue = b :: rest) (proc : Option P) :
    ideintrChecked s proc = .ok (kernelInterrupt s b rest) := by
  simp only [ideintrChecked, h]
  rfl

theorem ideintrChecked_idle (h : s.idequeue = []) : ideintrChecked s none = .error .nullProc := by
  simp only [ideintrChecked, h]
  rfl

theorem ideintrChecked_monolithic (h : s.idequeue = []) (hp : s.exo p = false) :
    ideintrChecked s (some p) = .error .nullBuf := by
  simp only [ideintrChecked, h]
  change (if s.exo p = true then exIdeintrChecked s p else Except.error Misuse.nullBuf) = _
  rw [hp]
  rfl

theorem ideintrChecked_exo (h : s.idequeue = []) (hp : s.exo p = true) :
    ideintrChecked s (some p) = exIdeintrChecked s p := by
  simp only [ideintrChecked, h]
  change (if s.exo p = true then exIdeintrChecked s p else Except.error Misuse.nullBuf) = _
  rw [hp]
  rfl

end Outcomes

theorem ideintrChecked_ok {s s' : State P} {proc : Option P} (hqueue : s.idequeue = [])
    (h : ideintrChecked s proc = .ok s') :
    ∃ p, proc = some p ∧ s.exo p = true ∧ s.queue.idequeue ≠ 0 ∧ s' = exInterrupt s p := by
  cases proc with
  | none => exact nomatch (ideintrChecked_idle hqueue).symm.trans h
  | some p =>
    cases hexo : s.exo p with
    | false => exact nomatch (ideintrChecked_monolithic hqueue hexo).symm.trans h
    | true =>
      rw [ideintrChecked_exo hqueue hexo, exIdeintrChecked] at h
      split at h
      · cases h
      · rename_i hnode
        exact ⟨p, rfl, hexo, hnode, (Except.ok.inj h).symm⟩

theorem ideintr_of_checked {s s' : State P} {proc : Option P} (h : ideintrChecked s proc = .ok s') :
    ideintr s proc = .ok s' := by
  cases hqueue : s.idequeue with
  | nil =>
    obtain ⟨p, rfl, hexo, -, rfl⟩ := ideintrChecked_ok hqueue h
    simp only [ideintr, hqueue, hexo, if_true]
  | cons b rest =>
    rw [ideintrChecked_kernel hqueue] at h
    cases h
    simp only [ideintr, hqueue]

/-- The handler uses its pointers and its lock rightly, and leaves everything as it is when both queues are empty, exactly
if the kernel's queue is not empty, or the exokernel's is not and a process of the exokernel is running. -/
theorem ideintr_sound_iff (s : State P) (proc : Option P) :
    (∃ s', ideintrChecked s proc = .ok s' ∧ (s.idequeue = [] → s.queue.idequeue = 0 → s' = s)) ↔
      s.idequeue ≠ [] ∨ (s.queue.idequeue ≠ 0 ∧ ∃ p, proc = some p ∧ s.exo p = true) := by
  cases hqueue : s.idequeue with
  | cons b rest => exact ⟨fun _ => .inl nofun, fun _ => ⟨_, ideintrChecked_kernel hqueue proc, nofun⟩⟩
  | nil =>
    constructor
    · rintro ⟨s', hok, -⟩
      obtain ⟨p, rfl, hexo, hnode, -⟩ := ideintrChecked_ok hqueue hok
      exact .inr ⟨hnode, p, rfl, hexo⟩
    · rintro (hne | ⟨hnode, p, rfl, hexo⟩)
      · exact absurd rfl hne
      · refine ⟨exInterrupt s p, ?_, fun _ hnull => absurd hnull hnode⟩
        rw [ideintrChecked_exo hqueue hexo, exIdeintrChecked, if_neg hnode]

/-- An exokernel process starts a read and then resets its queue. The disk's interrupt finds both queues empty: in that
process it goes through a null node, in another through a null buffer, and on an idle processor through a null process. -/
theorem interrupt_after_reset :
    ∃ s : State (Fin 2), (system (fun _ _ => 0) fun _ _ => 0).Reachable s ∧ s.ctl.irqs = 1 ∧
      s.idequeue = [] ∧ s.queue.idequeue = 0 ∧ ideintrChecked s (some 0) = .error .nullNode ∧
      ideintrChecked s (some 1) = .error .nullBuf ∧ ideintrChecked s none = .error .nullProc := by
  obtain ⟨s, hs, htest⟩ := System.exists_reachable_of_follow (fun _ _ => True) (step (P := Fin 2))
    (ideinit (fun _ _ => 0) fun _ _ => 0)
    [.exRegister 0, .exAddbuffer 0 7 1 4096, .exReadSector 0, .exResetTransferCount]
    (fun s => decide (s.ctl.irqs = 1 ∧ s.idequeue.length = 0 ∧ s.queue.idequeue = 0 ∧ s.exo 0 = true ∧ s.exo 1 = false))
    (by decide +kernel)
  obtain ⟨hirqs, hlength, hnode, hexo, hmono⟩ := decide_eq_true_eq.mp htest
  have hqueue := List.length_eq_zero_iff.mp hlength
  refine ⟨s, hs.of_restrict, hirqs, hqueue, hnode, ?_, ideintrChecked_monolithic hqueue hmono, ideintrChecked_idle hqueue⟩
  rw [ideintrChecked_exo hqueue hexo, exIdeintrChecked, if_pos hnode]

end RainOS.Ide
