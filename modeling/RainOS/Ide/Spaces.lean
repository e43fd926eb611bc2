import RainOS.Ide.Shared

/-!
# Whose memory the exokernel's queue lies in

`idequeue` and `last` of `ex_ide.c` are addresses in the space of the process that queued the buffer. A run is followed
together with the process each of them is from: an address found in a node is from the space the node is in. Every time a
step goes through one of these addresses, the space it is from can be compared with the one that is loaded.

They agree as long as, while the queue is not empty, only the process its head is from queues buffers, starts reads or is
running when the exokernel's interrupt is taken.
-/

namespace RainOS.Ide

open Function List

/-- The processes that the addresses `idequeue` and `last` are from. -/
structure Owners (P : Type) where
  idequeue : Option P
  last : Option P

/-- The use of an address: the process it is from, and the one whose page directory is loaded. -/
structure Deref (P : Type) where
  owner : Option P
  loaded : P
  deriving DecidableEq

variable {P : Type} {p : P} {s : State P} {o : Owners P} {owner : Option P}

/-- `ProcessBuffer` reads the sector and the device of the head. -/
def derefProcess (idequeue : Nat) (owner : Option P) (p : P) : List (Deref P) :=
  if idequeue = 0 then [] else [⟨owner, p⟩]

/-- `ex_ideintr` reads `location` and `next` of the head, stores a sector at `location`, and calls `ProcessBuffer` for
the next node. -/
def derefIdeintr (q : Queue) (m : Mem) (owner : Option P) (p : P) : List (Deref P) :=
  if q.idequeue = 0 then []
  else [⟨owner, p⟩, ⟨owner, p⟩, ⟨owner, p⟩] ++ derefProcess (Mem.word m 4 (q.idequeue + 12)) owner p

def derefs (s : State P) (o : Owners P) : Action P → List (Deref P)
  | .exAddbuffer p _ _ _ => ⟨some p, p⟩ :: if s.queue.idequeue = 0 then [] else [⟨o.last, p⟩]
  | .exReadSector p => derefProcess s.queue.idequeue o.idequeue p
  | .ideintr (some p) => if s.idequeue = [] ∧ s.exo p = true then derefIdeintr s.queue (s.mem p) o.idequeue p else []
  | _ => []

def note (s : State P) (o : Owners P) : Action P → Owners P
  | .exAddbuffer p _ _ _ => if s.queue.idequeue = 0 then ⟨some p, some p⟩ else { o with last := some p }
  | .exResetTransferCount => ⟨none, none⟩
  | _ => o

/-- While something is queued, the process its head is from is the one that queues, reads or is interrupted. -/
def AtHome (s : State P) (o : Owners P) : Action P → Prop
  | .exAddbuffer p _ _ _ | .exReadSector p => s.queue.idequeue ≠ 0 → o.idequeue = some p
  | .ideintr (some p) => s.idequeue = [] → s.exo p = true → s.queue.idequeue ≠ 0 → o.idequeue = some p
  | _ => True

theorem note_agrees {a : Action P} (h : o.last = o.idequeue) (hhome : AtHome s o a) :
    (note s o a).last = (note s o a).idequeue := by
  cases a with
  | exAddbuffer p sector device location =>
    rw [note]
    split
    · rfl
    · rename_i hne
      exact (hhome hne).symm
  | exResetTransferCount => rfl
  | iderw b buf => exact h
  | exRegister p => exact h
  | exReadSector p => exact h
  | complete => exact h
  | ideintr proc => exact h

theorem derefProcess_home {idequeue : Nat} :
    (∀ d ∈ derefProcess idequeue owner p, d.owner = some d.loaded) ↔ (idequeue ≠ 0 → owner = some p) := by
  rw [derefProcess]
  split
  · rename_i hzero
    exact ⟨fun _ hne => absurd hzero hne, fun _ => nofun⟩
  · rename_i hne
    rw [forall_mem_singleton]
    exact ⟨fun howner _ => howner, fun howner => howner hne⟩

theorem derefIdeintr_home {q : Queue} {m : Mem} :
    (∀ d ∈ derefIdeintr q m owner p, d.owner = some d.loaded) ↔ (q.idequeue ≠ 0 → owner = some p) := by
  rw [derefIdeintr]
  split
  · rename_i hzero
    exact ⟨fun _ hne => absurd hzero hne, fun _ => nofun⟩
  · rename_i hne
    rw [forall_mem_append, derefProcess_home]
    simp only [forall_mem_cons]
    exact ⟨fun howner _ => howner.1.1, fun howner => ⟨⟨howner hne, howner hne, howner hne, nofun⟩, fun _ => howner hne⟩⟩

theorem derefs_home_iff (h : o.last = o.idequeue) (a : Action P) :
    (∀ d ∈ derefs s o a, d.owner = some d.loaded) ↔ AtHome s o a := by
  cases a with
  | exAddbuffer p sector device location =>
    rw [derefs, forall_mem_cons, h]
    exact (and_iff_right rfl).trans derefProcess_home
  | exReadSector p => exact derefProcess_home
  | ideintr proc =>
    cases proc with
    | none => exact ⟨fun _ => trivial, fun _ => nofun⟩
    | some p =>
      rw [derefs, AtHome]
      split
      · rename_i hcond
        rw [derefIdeintr_home]
        exact ⟨fun howner _ _ => howner, fun howner => howner hcond.1 hcond.2⟩
      · rename_i hcond
        exact ⟨fun _ hqueue hexo => absurd ⟨hqueue, hexo⟩ hcond, fun _ => nofun⟩
  | iderw b buf => exact ⟨fun _ => trivial, fun _ => nofun⟩
  | exRegister p => exact ⟨fun _ => trivial, fun _ => nofun⟩
  | exResetTransferCount => exact ⟨fun _ => trivial, fun _ => nofun⟩
  | complete => exact ⟨fun _ => trivial, fun _ => nofun⟩

variable [DecidableEq P] {q : P} {t t' : State P × Owners P}

instance (s : State P) (o : Owners P) : (a : Action P) → Decidable (AtHome s o a)
  | .exAddbuffer p _ _ _ | .exReadSector p => inferInstanceAs (Decidable (s.queue.idequeue ≠ 0 → o.idequeue = some p))
  | .ideintr (some p) =>
    inferInstanceAs (Decidable (s.idequeue = [] → s.exo p = true → s.queue.idequeue ≠ 0 → o.idequeue = some p))
  | .ideintr none | .iderw .. | .exRegister _ | .exResetTransferCount | .complete => isTrue trivial

def stepNoted (t : State P × Owners P) (a : Action P) : Option (Except Halt (State P × Owners P)) :=
  match step t.1 a with
  | none => none
  | some (.ok s) => some (.ok (s, note t.1 t.2 a))
  | some (.error e) => some (.error e)

def systemNoted (disk : Nat → Block) (mem : P → Mem) : System (State P × Owners P) (Action P) :=
  System.ofStep (ideinit disk mem, ⟨none, none⟩) stepNoted

theorem stepNoted_ok {a : Action P} (h : stepNoted t a = some (.ok t')) :
    step t.1 a = some (.ok t'.1) ∧ t'.2 = note t.1 t.2 a := by
  rw [stepNoted] at h
  split at h
  · cases h
  · rename_i s hs
    cases h
    exact ⟨hs, rfl⟩
  · cases h

theorem owners_agree {disk : Nat → Block} {mem : P → Mem} (h : ((systemNoted disk mem).restrict fun t a => AtHome t.1 t.2 a).Reachable t) : t.2.last = t.2.idequeue := by
  refine System.Reachable.invariant (I := fun t => t.2.last = t.2.idequeue) ?_ ?_ h
  · rintro _ rfl
    rfl
  · intro t a t' ht hstep
    rw [(stepNoted_ok hstep.2).2]
    exact note_agrees ht hstep.1

theorem ideintr_mem {s s' : State P} (hstep : step s (.ideintr (some p)) = some (.ok s')) (hq : q ≠ p) :
    s'.mem q = s.mem q := by
  rw [step] at hstep
  split at hstep
  · cases hstep
  · rw [Option.some.injEq] at hstep
    unfold ideintr at hstep
    split at hstep
    · cases hstep
      rfl
    · cases hstep
    · rename_i p' _ hp
      cases hp
      split at hstep
      · cases hstep
        exact update_of_ne hq ..
      · cases hstep

end RainOS.Ide
