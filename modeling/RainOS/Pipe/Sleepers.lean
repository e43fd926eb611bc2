import RainOS.Pipe.Stream

/-!
# Who sleeps at a pipe

A reader sleeps while the pipe is empty and has a writer, and a writer while it is full and has a reader. Every stretch
that ends such a state wakes the sleepers, except one: a `pipewrite` that fills the pipe and then finds that its process
was killed returns without a `wakeup`. So a reader sleeps on a full pipe if that was the stretch that came after it fell
asleep.
-/

namespace RainOS.Pipes

open Function List

variable {P : Type} {p : Pipe} {s s' : State P} {q : P} {c d : Chan}

/-! ### Loops that change little -/

theorem fill_frame (p : Pipe) (addr : Mem) (todo i : Nat) : (p.fill addr todo i).1.nread = p.nread ∧
    (p.fill addr todo i).1.readopen = p.readopen ∧ (p.fill addr todo i).1.writeopen = p.writeopen := by
  induction todo generalizing p i with
  | zero => exact ⟨rfl, rfl, rfl⟩
  | succ todo ih =>
    rw [Pipe.fill]
    split
    · exact ⟨rfl, rfl, rfl⟩
    · exact ih _ _

theorem fill_of_full (h : p.nwrite = p.nread + pipeSize) (addr : Mem) (todo i : Nat) : p.fill addr todo i = (p, i) := by
  cases todo with
  | zero => rfl
  | succ todo => rw [Pipe.fill, if_pos h]

theorem drain_frame (p : Pipe) (n : Nat) :
    (p.drain n).1.readopen = p.readopen ∧ (p.drain n).1.writeopen = p.writeopen := by
  induction n generalizing p with
  | zero => exact ⟨rfl, rfl⟩
  | succ n ih =>
    rw [Pipe.drain]
    split
    · exact ⟨rfl, rfl⟩
    · exact ih _

/-! ### Sleepers -/

def State.asleep (s : State P) (p : P) : Option Chan := (s.proc p).asleep

structure QuietParts (pipe : Pipe) (asleep : P → Option Chan) : Prop where
  readers : ∀ p, asleep p = some .nread → pipe.nread = pipe.nwrite ∧ pipe.writeopen = true
  writers : ∀ p, asleep p = some .nwrite → pipe.nwrite = pipe.nread + pipeSize ∧ pipe.readopen = true

abbrev Quiet (s : State P) : Prop := QuietParts s.pipe s.asleep

/-- A call is made through an end that stays open, and a process sleeps in the call it is in. -/
structure OrderlyParts (pipe : Pipe) (calling : P → Call) (asleep : P → Option Chan) : Prop where
  ends : ∀ p writable, (calling p).uses writable = true → pipe.isOpen writable = true
  reader : ∀ p, asleep p = some .nread → (calling p).uses false = true
  writer : ∀ p, asleep p = some .nwrite → (calling p).uses true = true

abbrev Orderly (s : State P) : Prop := OrderlyParts s.pipe s.calling s.asleep

/-- A killed process does not go on with a `pipewrite` of more than `PIPESIZE` bytes while a reader sleeps. -/
def Unhurried (s : State P) : Action P → Prop
  | .run p => ∀ id addr n i, (s.proc p).call = .write id addr n i → (s.proc p).killed = true → 512 < n - i →
      ∀ q, (s.proc q).asleep ≠ some .nread
  | _ => True

def woken (c : Chan) (asleep : P → Option Chan) (q : P) : Option Chan := if asleep q = some c then none else asleep q

theorem asleep_wakeup (s : State P) (c : Chan) : (wakeup s c).asleep = woken c s.asleep := by
  funext q
  change ((s.proc q).wake c).asleep = _
  rw [Proc.wake, woken, State.asleep]
  split
  · rfl
  · rfl

theorem woken_eq_some {asleep : P → Option Chan} (h : woken c asleep q = some d) :
    d ≠ c ∧ asleep q = some d := by
  rw [woken] at h
  split at h
  · cases h
  · rename_i hne
    refine ⟨?_, h⟩
    rintro rfl
    exact hne h

theorem woken_of_none {asleep : P → Option Chan} (h : asleep q = none) : woken c asleep q = none := by
  rw [woken, h]
  split <;> rfl

theorem woken_or (c : Chan) (asleep : P → Option Chan) (x : P) :
    woken c asleep x = none ∨ woken c asleep x = asleep x := by
  rw [woken]
  split
  · exact .inl rfl
  · exact .inr rfl

theorem OrderlyParts.woken {pipe : Pipe} {calling : P → Call} {asleep : P → Option Chan}
    (h : OrderlyParts pipe calling asleep) (c : Chan) : OrderlyParts pipe calling (Pipes.woken c asleep) :=
  ⟨h.ends, fun x hx => h.reader x (woken_eq_some hx).2, fun x hx => h.writer x (woken_eq_some hx).2⟩

theorem Orderly.pipeclose (h : Orderly s) {writable : Bool} (hfree : ∀ p, (s.calling p).uses writable = false) :
    Orderly (pipeclose s writable) := by
  rw [Pipes.pipeclose]
  split
  · rename_i hwritable
    rw [Orderly, calling_wakeup, asleep_wakeup]
    refine OrderlyParts.woken ⟨fun p b hp => ?_, h.reader, h.writer⟩ _
    cases b with
    | false => exact h.ends p false hp
    | true =>
      have hnone := hfree p
      rw [hwritable] at hnone
      exact absurd (hnone.symm.trans hp) Bool.false_ne_true
  · rename_i hwritable
    rw [Bool.not_eq_true] at hwritable
    rw [Orderly, calling_wakeup, asleep_wakeup]
    refine OrderlyParts.woken ⟨fun p b hp => ?_, h.reader, h.writer⟩ _
    cases b with
    | false =>
      have hnone := hfree p
      rw [hwritable] at hnone
      exact absurd (hnone.symm.trans hp) Bool.false_ne_true
    | true => exact h.ends p true hp

variable [DecidableEq P] {id i : Nat} {n : Int} {addr : Mem} {a : Action P}

theorem asleep_setProc (s : State P) (p : P) (f : Proc → Proc) :
    (s.setProc p f).asleep = update s.asleep p (f (s.proc p)).asleep :=
  comp_update Proc.asleep s.proc p _

theorem asleep_same (s : State P) (p : P) (f : Proc → Proc) (h : (f (s.proc p)).asleep = s.asleep p) :
    (s.setProc p f).asleep = s.asleep := by
  rw [asleep_setProc, h]
  exact update_eq_self p s.asleep

theorem pipewrite_cases (s : State P) (q : P) (id : Nat) (addr : Mem) (n : Int) (i : Nat) :
    (pipewrite s q id addr n i).pipe = (s.pipe.fill addr (n - i).toNat i).1 ∧
    (n ≤ (s.pipe.fill addr (n - i).toNat i).2 ∧
        (pipewrite s q id addr n i).calling = update s.calling q .none ∧
        (pipewrite s q id addr n i).asleep = woken .nread s.asleep ∨
      (s.pipe.fill addr (n - i).toNat i).2 < n ∧ (s.pipe.readopen = false ∨ (s.proc q).killed = true) ∧
        (pipewrite s q id addr n i).calling = update s.calling q .none ∧ (pipewrite s q id addr n i).asleep = s.asleep ∨
      (s.pipe.fill addr (n - i).toNat i).2 < n ∧ s.pipe.readopen = true ∧ (s.proc q).killed = false ∧
        (pipewrite s q id addr n i).calling =
          update s.calling q (.write id addr n (s.pipe.fill addr (n - i).toNat i).2) ∧
        (pipewrite s q id addr n i).asleep = update (woken .nread s.asleep) q (some .nwrite)) := by
  have hopen := (fill_frame s.pipe addr (n - i).toNat i).2.1
  rw [pipewrite]
  dsimp only
  rw [hopen]
  split
  · rename_i hn
    refine ⟨rfl, .inl ⟨hn, ?_, ?_⟩⟩
    · rw [leave, calling_setProc]
      change update (wakeup _ _).calling q _ = _
      rw [calling_wakeup]
      rfl
    · rw [leave, asleep_same _ _ _ rfl]
      change (wakeup _ _).asleep = _
      rw [asleep_wakeup]
      rfl
  · rename_i hn
    rw [not_le] at hn
    split
    · rename_i hstop
      refine ⟨rfl, .inr (.inl ⟨hn, hstop, ?_, ?_⟩)⟩
      · rw [leave, calling_setProc]
        rfl
      · rw [leave, asleep_same _ _ _ rfl]
        rfl
    · rename_i hstop
      rw [not_or, Bool.not_eq_false, Bool.not_eq_true] at hstop
      refine ⟨rfl, .inr (.inr ⟨hn, hstop.1, hstop.2, ?_, ?_⟩)⟩
      · rw [calling_setProc, calling_wakeup]
        rfl
      · rw [asleep_setProc, asleep_wakeup]
        rfl

theorem piperead_cases (s : State P) (q : P) (n : Int) :
    (s.pipe.nread = s.pipe.nwrite ∧ s.pipe.writeopen = true) ∧ (piperead s q n).pipe = s.pipe ∧
        (piperead s q n).calling = update s.calling q .none ∧ (piperead s q n).asleep = s.asleep ∨
      (s.pipe.nread = s.pipe.nwrite ∧ s.pipe.writeopen = true) ∧ (piperead s q n).pipe = s.pipe ∧
        (piperead s q n).calling = s.calling ∧ (piperead s q n).asleep = update s.asleep q (some .nread) ∨
      ¬(s.pipe.nread = s.pipe.nwrite ∧ s.pipe.writeopen = true) ∧ (piperead s q n).pipe = (s.pipe.drain n.toNat).1 ∧
        (piperead s q n).calling = update s.calling q .none ∧ (piperead s q n).asleep = woken .nwrite s.asleep := by
  rw [piperead]
  split
  · rename_i hwait
    split
    · refine .inl ⟨hwait, rfl, ?_, ?_⟩
      · rw [leave, calling_setProc]
      · rw [leave, asleep_same _ _ _ rfl]
    · refine .inr (.inl ⟨hwait, rfl, ?_, ?_⟩)
      · rw [calling_same _ _ _ rfl]
      · rw [asleep_setProc]
  · rename_i hready
    refine .inr (.inr ⟨hready, rfl, ?_, ?_⟩)
    · rw [leave, calling_setProc, calling_wakeup]
      rfl
    · rw [leave, asleep_same _ _ _ rfl, asleep_wakeup]
      rfl

/-! ### Calls are orderly -/

namespace OrderlyParts

variable {pipe pipe' : Pipe} {calling : P → Call} {asleep asleep' : P → Option Chan}

theorem change (h : OrderlyParts pipe calling asleep) {call : Call}
    (hpipe : ∀ writable, pipe'.isOpen writable = pipe.isOpen writable)
    (hcall : ∀ writable, call.uses writable = true → pipe.isOpen writable = true)
    (hother : ∀ x ≠ q, asleep' x = none ∨ asleep' x = asleep x)
    (hreader : asleep' q = some .nread → call.uses false = true)
    (hwriter : asleep' q = some .nwrite → call.uses true = true) :
    OrderlyParts pipe' (update calling q call) asleep' := by
  have hold : ∀ x ≠ q, ∀ c, asleep' x = some c → asleep x = some c := by
    intro x hx c hc
    rcases hother x hx with hnone | hsame
    · rw [hnone] at hc
      cases hc
    · rwa [← hsame]
  refine ⟨fun x writable hx => ?_, fun x hx => ?_, fun x hx => ?_⟩
  · rw [hpipe]
    by_cases hxq : x = q
    · rw [hxq, update_self] at hx
      exact hcall writable hx
    · rw [update_of_ne hxq] at hx
      exact h.ends x writable hx
  · by_cases hxq : x = q
    · rw [hxq, update_self]
      exact hreader (hxq ▸ hx)
    · rw [update_of_ne hxq]
      exact h.reader x (hold x hxq _ hx)
  · by_cases hxq : x = q
    · rw [hxq, update_self]
      exact hwriter (hxq ▸ hx)
    · rw [update_of_ne hxq]
      exact h.writer x (hold x hxq _ hx)

end OrderlyParts

theorem isOpen_fill (p : Pipe) (addr : Mem) (todo i : Nat) (writable : Bool) :
    (p.fill addr todo i).1.isOpen writable = p.isOpen writable := by
  obtain ⟨-, hread, hwrite⟩ := fill_frame p addr todo i
  rw [Pipe.isOpen, Pipe.isOpen, hread, hwrite]

theorem isOpen_drain (p : Pipe) (n : Nat) (writable : Bool) : (p.drain n).1.isOpen writable = p.isOpen writable := by
  obtain ⟨hread, hwrite⟩ := drain_frame p n
  rw [Pipe.isOpen, Pipe.isOpen, hread, hwrite]

theorem Orderly.pipewrite (h : Orderly s) (hcall : s.calling q = .write id addr n i) (hawake : s.asleep q = none) : Orderly (pipewrite s q id addr n i) := by
  obtain ⟨hpipe, hcases⟩ := pipewrite_cases s q id addr n i
  have hopen : ∀ writable, (Pipes.pipewrite s q id addr n i).pipe.isOpen writable = s.pipe.isOpen writable := fun writable => by
    rw [hpipe, isOpen_fill]
  rcases hcases with ⟨-, hcalling, hasleep⟩ | ⟨-, -, hcalling, hasleep⟩ | ⟨-, -, -, hcalling, hasleep⟩
  · rw [Orderly, hcalling, hasleep]
    refine h.change hopen nofun (fun x _ => woken_or ..) ?_ ?_ <;> rw [woken_of_none hawake] <;> exact nofun
  · rw [Orderly, hcalling, hasleep]
    refine h.change hopen nofun (fun x _ => .inr rfl) ?_ ?_ <;> rw [hawake] <;> exact nofun
  · rw [Orderly, hcalling, hasleep]
    refine h.change hopen (fun writable huses => ?_) (fun x hx => ?_) ?_ ?_
    · exact h.ends q writable (by rw [hcall]; exact huses)
    · rw [update_of_ne hx]
      exact woken_or ..
    · rw [update_self]
      exact nofun
    · exact fun _ => rfl

theorem Orderly.piperead (h : Orderly s) (hcall : s.calling q = .read n) (hawake : s.asleep q = none) :
    Orderly (piperead s q n) := by
  rcases piperead_cases s q n with
    ⟨-, hpipe, hcalling, hasleep⟩ | ⟨-, hpipe, hcalling, hasleep⟩ | ⟨-, hpipe, hcalling, hasleep⟩
  · rw [Orderly, hpipe, hcalling, hasleep]
    refine h.change (fun _ => rfl) nofun (fun x _ => .inr rfl) ?_ ?_ <;> rw [hawake] <;> exact nofun
  · rw [Orderly, hpipe, hcalling, hasleep]
    have hsame : OrderlyParts s.pipe (update s.calling q (s.calling q)) (update s.asleep q (some .nread)) :=
      h.change (fun _ => rfl) (fun writable => h.ends q writable) (fun x hx => .inr (update_of_ne hx ..))
        (fun _ => by rw [hcall]; rfl) (by rw [update_self]; exact nofun)
    rwa [update_eq_self] at hsame
  · rw [Orderly, hpipe, hcalling, hasleep]
    refine h.change (isOpen_drain _ _) nofun (fun x _ => woken_or ..) ?_ ?_ <;> rw [woken_of_none hawake] <;> exact nofun

theorem Orderly.step (h : Orderly s) (hok : Disciplined s a) (hstep : step s a = some (.ok s')) :
    Orderly s' := by
  cases a with
  | write p addr n =>
    rw [Pipes.step] at hstep
    split at hstep
    · rename_i hcall
      split at hstep
      · rename_i hopen
        cases hstep
        rw [Orderly, calling_setProc, asleep_same _ _ _ rfl]
        refine h.change (fun _ => rfl) (fun writable huses => ?_) (fun _ _ => .inr rfl) (fun hasleep => ?_) fun _ => rfl
        · cases writable with
          | false => cases huses
          | true => exact hopen
        · have huses := h.reader p hasleep
          rw [State.calling, hcall] at huses
          cases huses
      · cases hstep
    · cases hstep
  | read p n =>
    rw [Pipes.step] at hstep
    split at hstep
    · rename_i hcall
      split at hstep
      · rename_i hopen
        cases hstep
        rw [Orderly, calling_setProc, asleep_same _ _ _ rfl]
        refine h.change (fun _ => rfl) (fun writable huses => ?_) (fun _ _ => .inr rfl) (fun _ => rfl) fun hasleep => ?_
        · cases writable with
          | false => exact hopen
          | true => cases huses
        · have huses := h.writer p hasleep
          rw [State.calling, hcall] at huses
          cases huses
      · cases hstep
    · cases hstep
  | run p =>
    rw [Pipes.step] at hstep
    split at hstep
    · rename_i hawake
      split at hstep
      · cases hstep
      · rename_i hcall
        cases hstep
        exact h.pipewrite hcall hawake
      · rename_i hcall
        cases hstep
        exact h.piperead hcall hawake
    · cases hstep
  | pipeclose writable =>
    rw [Pipes.step] at hstep
    split at hstep
    · cases hstep
      exact h.pipeclose hok
    · cases hstep
  | kill p =>
    cases hstep
    rw [kill, Orderly, calling_same _ _ _ rfl, asleep_setProc]
    have hsame : OrderlyParts s.pipe (update s.calling p (s.calling p)) (update s.asleep p none) :=
      h.change (fun _ => rfl) (fun writable => h.ends p writable) (fun x hx => .inr (update_of_ne hx ..))
        (by rw [update_self]; intro h; cases h) (by rw [update_self]; intro h; cases h)
    rwa [update_eq_self] at hsame

theorem orderly_of_reachable {data : Nat → UInt8} (h : (system P data).Reachable s) : Orderly s := by
  refine h.invariant (fun t ht => ?_) fun t a t' ht hstep => ht.step hstep.1 hstep.2
  rw [ht]
  exact ⟨fun _ _ h => (nomatch h), fun _ h => (nomatch h), fun _ h => (nomatch h)⟩

/-! ### Who sleeps has a reason -/

/-- A reader that sleeps sees to it that the pipe is empty, a writer that it is full. -/
theorem quiet_pipewrite (hinv : Inv s) (hord : Orderly s) (hquiet : Quiet s) :
    Quiet (pipewrite s q id addr n i) ↔
      ((s.proc q).killed = true → 512 < n - i → ∀ x, s.asleep x ≠ some .nread) := by
  obtain ⟨hpipe, hcases⟩ := pipewrite_cases s q id addr n i
  obtain ⟨hlow, hhigh, htracks, hstop⟩ := hinv.tracks.fill addr (n - i).toNat i
  obtain ⟨hnread, hreadopen, hwriteopen⟩ := fill_frame s.pipe addr (n - i).toNat i
  -- a writer that sleeps is not disturbed: the pipe is full, and nothing is stored
  have hwriters : ∀ x, s.asleep x = some .nwrite →
      (pipewrite s q id addr n i).pipe.nwrite = (pipewrite s q id addr n i).pipe.nread + pipeSize ∧
        (pipewrite s q id addr n i).pipe.readopen = true := by
    intro x hx
    obtain ⟨hfull, hopen⟩ := hquiet.writers x hx
    rw [hpipe, fill_of_full hfull]
    exact ⟨hfull, hopen⟩
  -- while a reader sleeps, the pipe has room for `PIPESIZE` bytes
  have hreaders : ∀ x, s.asleep x = some .nread → (s.pipe.fill addr (n - i).toNat i).2 < n → 512 < n - i ∧
      (s.pipe.fill addr (n - i).toNat i).1.nread ≠ (s.pipe.fill addr (n - i).toNat i).1.nwrite := by
    intro x hx hlt
    have hempty := hinv.tracks.empty_iff.mp (hquiet.readers x hx).1
    have hfull := htracks.full_iff.mp (hstop (by omega))
    rw [length_append, length_map, length_range] at hfull
    refine ⟨by omega, fun heq => ?_⟩
    rw [htracks.empty_iff, length_append, length_map, length_range] at heq
    omega
  rcases hcases with ⟨hn, -, hasleep⟩ | ⟨hn, hkilled, -, hasleep⟩ | ⟨hn, hopen, hkilled, -, hasleep⟩
  · rw [Quiet, hasleep]
    refine iff_of_true ⟨fun x hx => absurd rfl (woken_eq_some hx).1, fun x hx => hwriters x (woken_eq_some hx).2⟩ ?_
    intro _ hlt x hx
    have hempty := hinv.tracks.empty_iff.mp (hquiet.readers x hx).1
    have hroom := htracks.room
    rw [length_append, length_map, length_range] at hroom
    omega
  · rw [Quiet, hasleep, hpipe]
    constructor
    · intro hafter _ _ x hx
      exact (hreaders x hx hn).2 (hafter.readers x hx).1
    · intro hnone
      refine ⟨fun x hx => ?_, fun x hx => hpipe ▸ hwriters x hx⟩
      rcases hkilled with hclosed | hkilled
      · have hopen : s.pipe.readopen = true := hord.ends x false (hord.reader x hx)
        exact nomatch hclosed.symm.trans hopen
      · exact absurd hx (hnone hkilled (hreaders x hx hn).1 x)
  · rw [Quiet, hasleep, hpipe]
    refine iff_of_true ⟨fun x hx => ?_, fun x hx => ?_⟩ fun hk => nomatch hkilled.symm.trans hk
    · exact absurd rfl (woken_eq_some (update_eq hx nofun).2).1
    · rw [hreadopen]
      exact ⟨hstop (by omega), hopen⟩

theorem quiet_piperead (hquiet : Quiet s) (n : Int) : Quiet (piperead s q n) := by
  rcases piperead_cases s q n with ⟨-, hpipe, -, hasleep⟩ | ⟨hempty, hpipe, -, hasleep⟩ | ⟨hready, hpipe, -, hasleep⟩
  · rw [Quiet, hpipe, hasleep]
    exact hquiet
  · rw [Quiet, hpipe, hasleep]
    refine ⟨fun _ _ => hempty, fun x hx => ?_⟩
    exact hquiet.writers x (update_eq hx nofun).2
  · rw [Quiet, hasleep]
    exact ⟨fun x hx => absurd (hquiet.readers x (woken_eq_some hx).2) hready, fun x hx => absurd rfl (woken_eq_some hx).1⟩

/-- A step keeps all sleepers at rest exactly if it is no hurried `pipewrite`. -/
theorem quiet_step_iff (hinv : Inv s) (hord : Orderly s) (hquiet : Quiet s) (hstep : step s a = some (.ok s')) : Quiet s' ↔ Unhurried s a := by
  cases a with
  | write p addr n =>
    refine iff_of_true ?_ trivial
    rw [step] at hstep
    split at hstep
    · split at hstep
      · cases hstep
        rw [Quiet, asleep_same _ _ _ rfl]
        exact hquiet
      · cases hstep
    · cases hstep
  | read p n =>
    refine iff_of_true ?_ trivial
    rw [step] at hstep
    split at hstep
    · split at hstep
      · cases hstep
        rw [Quiet, asleep_same _ _ _ rfl]
        exact hquiet
      · cases hstep
    · cases hstep
  | run p =>
    rw [step] at hstep
    split at hstep
    · split at hstep
      · cases hstep
      · rename_i id addr n i hcall
        cases hstep
        rw [quiet_pipewrite hinv hord hquiet]
        constructor
        · intro hnone id' addr' n' i' hcall'
          rw [hcall] at hcall'
          cases hcall'
          exact hnone
        · intro hnone
          exact hnone id addr n i hcall
      · rename_i hcall
        cases hstep
        refine iff_of_true (quiet_piperead hquiet _) fun id addr n i hcall' => ?_
        rw [hcall] at hcall'
        cases hcall'
    · cases hstep
  | pipeclose writable =>
    refine iff_of_true ?_ trivial
    rw [step] at hstep
    split at hstep
    · cases hstep
      rw [pipeclose]
      split
      · rw [Quiet, asleep_wakeup]
        exact ⟨fun x hx => absurd rfl (woken_eq_some hx).1, fun x hx => hquiet.writers x (woken_eq_some hx).2⟩
      · rw [Quiet, asleep_wakeup]
        exact ⟨fun x hx => hquiet.readers x (woken_eq_some hx).2, fun x hx => absurd rfl (woken_eq_some hx).1⟩
    · cases hstep
  | kill p =>
    refine iff_of_true ?_ trivial
    cases hstep
    have hold : ∀ x c, update s.asleep p none x = some c → s.asleep x = some c := fun x c hx => (update_eq hx (by simp)).2
    rw [kill, Quiet, asleep_setProc]
    exact ⟨fun x hx => hquiet.readers x (hold x _ hx), fun x hx => hquiet.writers x (hold x _ hx)⟩

/-- As long as no killed process goes on with a large `pipewrite` while a reader sleeps, no one sleeps without a reason,
and the first such step leaves a reader asleep at a pipe with bytes in it. -/
theorem no_sleeper_at_ready_pipe (data : Nat → UInt8) :
    (∀ s, ((system P data).restrict Unhurried).Reachable s → Quiet s) ∧
    ∀ s a s', (system P data).Reachable s → Quiet s → (system P data).Step s a s' → (Quiet s' ↔ Unhurried s a) := by
  have hstep : ∀ s a s', (system P data).Reachable s → Quiet s → (system P data).Step s a s' →
      (Quiet s' ↔ Unhurried s a) := fun s a s' hs hquiet hstep =>
    quiet_step_iff (inv_of_reachable hs) (orderly_of_reachable hs) hquiet hstep.2
  refine ⟨fun s hs => ?_, hstep⟩
  induction hs with
  | init hs =>
    rw [hs]
    exact ⟨fun _ h => (nomatch h), fun _ h => (nomatch h)⟩
  | step hs hnext ih => exact (hstep _ _ _ hs.of_restrict ih hnext.2).mpr hnext.1

theorem no_sleeper_at_ready_pipe_run : ∃ s, ((system (Fin 2) fun _ => 0).restrict Unhurried).Reachable s ∧
    s.asleep 0 = some .nread ∧ s.pipe.nread = s.pipe.nwrite ∧ s.pipe.writeopen = true := by
  obtain ⟨s, hs, htest⟩ := System.exists_reachable_of_follow
    (fun s a => Disciplined s a ∧ ∀ q, (s.proc q).killed = false) step (pipealloc (Fin 2) fun _ => 0) [.read 0 1, .run 0]
    (fun s => s.asleep 0 = some .nread) (by decide +kernel)
  have hreach : ((system (Fin 2) fun _ => 0).restrict Unhurried).Reachable s := by
    refine System.Reachable.mono ?_ ?_ hs
    · exact fun t ht => ht
    · rintro t a t' ⟨⟨hok, hnone⟩, hstep⟩
      refine ⟨?_, hok, hstep⟩
      cases a with
      | run p => exact fun _ _ _ _ _ hkilled => nomatch (hnone p).symm.trans hkilled
      | _ => trivial
  have hasleep : s.asleep 0 = some .nread := of_decide_eq_true htest
  exact ⟨s, hreach, hasleep, ((no_sleeper_at_ready_pipe _).1 s hreach).readers 0 hasleep⟩

/-- A reader sleeps, a writer is killed before it gets the lock, and fills the pipe. -/
def killedWriter (p q : P) : List (Action P) := [.read p 1, .run p, .write q (fun _ => 7) 600, .kill q, .run q]

theorem reader_asleep_at_full_pipe : ∃ s, (system (Fin 2) fun _ => 0).Reachable s ∧ s.asleep 0 = some .nread ∧
    s.pipe.nread = 0 ∧ s.pipe.nwrite = 512 ∧ s.pipe.writeopen = true := by
  obtain ⟨s, hs, htest⟩ := System.exists_reachable_of_follow Disciplined step (pipealloc (Fin 2) fun _ => 0)
    (killedWriter 0 1)
    (fun s => s.asleep 0 = some .nread ∧ s.pipe.nread = 0 ∧ s.pipe.nwrite = 512 ∧ s.pipe.writeopen = true)
    (by decide +kernel)
  exact ⟨s, hs, of_decide_eq_true htest⟩

end RainOS.Pipes
