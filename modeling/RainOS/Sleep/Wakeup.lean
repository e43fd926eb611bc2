import RainOS.Sleep.Code

/-!
# No wakeup is lost

Between the test of the condition and the moment it is SLEEPING a process holds `lk`, then both locks, then
`ptable.lock`: while it holds `lk` the condition stays false, and while it holds `ptable.lock` no one finishes a
`wakeup`. So if the condition is true and a process is on its way to sleep or asleep, someone owes a wakeup.
-/

namespace RainOS.Sleep

open Function Option
open Sched (ProcState)

variable {n i a : Nat} {C : Type} {lk : Lock} {chan : Nat}

@[simp] def Pc.holds (lk : Lock) : Pc n → Lock → Prop
  | .out, _ | .sleepLock, _ | .yieldAcquire, _ | .killAcquire _, _ => False
  | .crit, l | .slept, l | .sleepAcquire _, l => l = lk
  | .sleepRelease _, l => l = lk ∨ l = .ptable
  | .wakeAcquire _ held, l => held ∧ l = lk
  | .wakeLoop _ held _, l | .wakeRelease held, l => l = .ptable ∨ held ∧ l = lk
  | .sleepChan _, l | .sleepState, l | .sleepSched, l | .sleepTidy, l | .sleepUnlock, l | .yieldState, l
  | .yieldSched, l | .yieldRelease, l | .killSet _, l | .killRelease, l => l = .ptable

/-- Some lines are only reached when `lk` is not `ptable.lock`. -/
def Pc.Fits (lk : Lock) : Pc n → Prop
  | .sleepAcquire _ | .sleepRelease _ | .sleepUnlock | .sleepLock => lk ≠ .ptable
  | .wakeAcquire _ held | .wakeRelease held => held → lk ≠ .ptable
  | _ => True

@[simp] def Pc.state : Pc n → ProcState
  | .sleepSched => .sleeping
  | .yieldSched => .runnable
  | _ => .running

/-- The lines where a process waits to be switched to. -/
@[simp] def Pc.Resting (pc : Pc n) : Prop := pc = .sleepTidy ∨ pc = .yieldRelease

def Cpu.holds (lk : Lock) (pc : Fin n → Pc n) : Cpu n → Lock → Prop
  | .idle, _ => False
  | .scan _, l => l = .ptable
  | .runs p, l => (pc p).holds lk l

structure Seated (lk : Lock) (s : State n C) : Prop where
  holder : ∀ l c, s.holder l = some c ↔ (s.cpu c).holds lk s.pc l
  unique : ∀ c c' p, s.cpu c = .runs p → s.cpu c' = .runs p → c = c'
  fits : ∀ p, (s.pc p).Fits lk
  seated : ∀ c p, s.cpu c = .runs p → s.state p = (s.pc p).state
  resting : ∀ p, (∀ c, s.cpu c ≠ .runs p) → (s.pc p).Resting ∧ s.state p ≠ .running

variable {s s' : State n C} {c c' : C} {p q : Fin n}

theorem Seated.own (h : Seated lk s) (hc : s.cpu c = .runs p) (l : Lock) :
    s.holder l = some c ↔ (s.pc p).holds lk l := by
  rw [h.holder, hc]
  rfl

theorem Seated.on_holder (h : Seated lk s) {l : Lock} (hc : s.holder l = some c) (hq : (s.pc q).holds lk l)
    (hrest : ¬(s.pc q).Resting) : s.cpu c = .runs q := by
  obtain ⟨c', hc'⟩ : ∃ c', s.cpu c' = .runs q := by
    by_contra hnone
    push Not at hnone
    exact hrest (h.resting q hnone).1
  have hholder : s.holder l = some c' := by
    rw [h.holder, hc']
    exact hq
  rw [hc] at hholder
  rw [some.inj hholder]
  exact hc'

theorem Seated.off (h : Seated lk s) (hc : s.holder .ptable = some c) (hq : s.cpu c ≠ .runs q)
    (hstate : s.state q ≠ .running) (c' : C) : s.cpu c' ≠ .runs q := by
  intro hc'
  have hpc := h.seated c' q hc'
  have hholds : (s.pc q).holds lk .ptable ∧ ¬(s.pc q).Resting := by
    unfold Pc.state at hpc
    split at hpc
    · rename_i heq
      rw [heq]
      exact ⟨rfl, by simp⟩
    · rename_i heq
      rw [heq]
      exact ⟨rfl, by simp⟩
    · exact absurd hpc hstate
  exact hq (h.on_holder hc hholds.1 hholds.2)

variable [DecidableEq C]

theorem Seated.change (h : Seated lk s) (X : Fin n → Prop) (honly : ∀ c' q, s.cpu c' = .runs q → X q → c' = c)
    (hleft : ∀ q, s.cpu c = .runs q → X q) (hcpu : ∀ c', c' ≠ c → s'.cpu c' = s.cpu c')
    (hpc : ∀ q, ¬X q → s'.pc q = s.pc q)
    (hstate : ∀ q, ¬X q → s'.state q = s.state q ∨ (∀ c', s.cpu c' ≠ .runs q) ∧ s'.state q ≠ .running)
    (hfits : ∀ q, X q → (s'.pc q).Fits lk)
    (hruns : ∀ q, s'.cpu c = .runs q → X q ∧ s'.state q = (s'.pc q).state)
    (hrest : ∀ q, X q → s'.cpu c ≠ .runs q → (s'.pc q).Resting ∧ s'.state q ≠ .running)
    (hmine : ∀ l, s'.holder l = some c ↔ (s'.cpu c).holds lk s'.pc l)
    (hother : ∀ l c', c' ≠ c → (s'.holder l = some c' ↔ s.holder l = some c')) : Seated lk s' := by
  have hout : ∀ c' q, c' ≠ c → s'.cpu c' = .runs q → s.cpu c' = .runs q ∧ ¬X q := fun c' q hne hq => by
    rw [hcpu c' hne] at hq
    exact ⟨hq, fun hX => hne (honly c' q hq hX)⟩
  refine ⟨fun l c' => ?_, fun c₁ c₂ q h₁ h₂ => ?_, fun q => ?_, fun c' q hq => ?_, fun q hq => ?_⟩
  · by_cases hne : c' = c
    · rw [hne]
      exact hmine l
    · rw [hother l c' hne, h.holder, ← hcpu c' hne]
      cases hcpu' : s'.cpu c' with
      | idle => rfl
      | scan i => rfl
      | runs q => rw [Cpu.holds, Cpu.holds, hpc q (hout c' q hne hcpu').2]
  · by_cases hne₁ : c₁ = c
    · by_contra hne
      have hne₂ : c₂ ≠ c := fun heq => hne (hne₁.trans heq.symm)
      exact (hout c₂ q hne₂ h₂).2 (hruns q (hne₁ ▸ h₁)).1
    · obtain ⟨hq, hX⟩ := hout c₁ q hne₁ h₁
      have hne₂ : c₂ ≠ c := by
        rintro rfl
        exact hX (hruns q h₂).1
      exact h.unique c₁ c₂ q hq (hout c₂ q hne₂ h₂).1
  · by_cases hX : X q
    · exact hfits q hX
    · rw [hpc q hX]
      exact h.fits q
  · by_cases hne : c' = c
    · exact (hruns q (hne ▸ hq)).2
    · obtain ⟨hq, hX⟩ := hout c' q hne hq
      rw [hpc q hX, ← h.seated c' q hq]
      exact (hstate q hX).resolve_right fun hoff => hoff.1 c' hq
  · by_cases hX : X q
    · exact hrest q hX (hq c)
    · have hold : ∀ c', s.cpu c' ≠ .runs q := fun c' hc' => by
        by_cases hne : c' = c
        · exact hX (hleft q (hne ▸ hc'))
        · exact hq c' ((hcpu c' hne).trans hc')
      rw [hpc q hX]
      refine ⟨(h.resting q hold).1, ?_⟩
      obtain heq | ⟨-, hne⟩ := hstate q hX
      · rw [heq]
        exact (h.resting q hold).2
      · exact hne

theorem Seated.move (h : Seated lk s) (hc : s.cpu c = .runs p) {pc : Pc n} (hcpu : s'.cpu = s.cpu)
    (hpc : s'.pc = update s.pc p pc) (hfits : pc.Fits lk) (hself : s'.state p = pc.state)
    (hstate : ∀ q, q ≠ p → s'.state q = s.state q ∨ (∀ c', s.cpu c' ≠ .runs q) ∧ s'.state q ≠ .running)
    (hmine : ∀ l, s'.holder l = some c ↔ pc.holds lk l)
    (hother : ∀ l c', c' ≠ c → (s'.holder l = some c' ↔ s.holder l = some c')) : Seated lk s' := by
  have hpcp : s'.pc p = pc := by rw [hpc, update_self]
  have hc' : s'.cpu c = .runs p := by rw [hcpu, hc]
  refine h.change (c := c) (· = p) (fun c' q hq heq => h.unique c' c p (heq ▸ hq) hc)
    (fun q hq => (Cpu.runs.inj (hc.symm.trans hq)).symm) (fun _ _ => by rw [hcpu])
    (fun q hq => by rw [hpc, update_of_ne hq]) hstate ?_ (fun q hq => ?_) ?_ (fun l => ?_) hother
  · rintro q rfl
    rw [hpcp]
    exact hfits
  · obtain rfl := Cpu.runs.inj (hc'.symm.trans hq)
    exact ⟨rfl, by rw [hself, hpcp]⟩
  · rintro q rfl hne
    exact absurd hc' hne
  · rw [hmine, hc', Cpu.holds, hpcp]

/-! ### Sleepers -/

def Sleeps (s : State n C) (a : Nat) (q : Fin n) : Prop := s.state q = .sleeping ∧ s.chan q = some a

/-- The process has found the condition false and still holds `lk`. -/
@[simp] def Pc.Tested (chan : Nat) (pc : Pc n) : Prop := pc = .sleepAcquire chan ∨ pc = .sleepRelease chan

/-- The process has let go of `lk` and will sleep on the channel. -/
@[simp] def Pc.Nods (chan : Nat) (pc : Pc n) (own : Option Nat) : Prop := pc = .sleepChan chan ∨ pc = .sleepState ∧ own = some chan

structure Wakes (chan : Nat) (s : State n C) : Prop where
  tested : ∀ q, (s.pc q).Tested chan → s.cond = false
  waits : ∀ q, (s.pc q).Nods chan (s.chan q) ∨ Sleeps s chan q → s.cond = true → ∃ r, s.owes r = true
  swept : ∀ q a held i, s.pc q = .wakeLoop a held i → ∀ r, r.val < i → ¬Sleeps s a r

omit [DecidableEq C] in
theorem Wakes.move (h : Wakes chan s) {pc : Pc n} (hpc : s'.pc = update s.pc p pc) (hcond : s'.cond = s.cond)
    (howes : s'.owes = s.owes) (hchan : ∀ q, q ≠ p → s'.chan q = s.chan q) (htested : pc.Tested chan → s.cond = false)
    (hwaits : pc.Nods chan (s'.chan p) → s.cond = false ∨ (s.pc p).Nods chan (s.chan p))
    (hsleeps : ∀ a q, Sleeps s' a q → Sleeps s a q)
    (hloop : ∀ a held i, pc = .wakeLoop a held i → ∀ r, r.val < i → ¬Sleeps s' a r) : Wakes chan s' := by
  have hpcp : s'.pc p = pc := by rw [hpc, update_self]
  have hpcq : ∀ q, q ≠ p → s'.pc q = s.pc q := fun q hq => by rw [hpc, update_of_ne hq]
  refine ⟨fun q hq => ?_, fun q hq hc => ?_, fun q a held i hq r hr => ?_⟩
  · rw [hcond]
    by_cases hqp : q = p
    · rw [hqp, hpcp] at hq
      exact htested hq
    · rw [hpcq q hqp] at hq
      exact h.tested q hq
  · rw [hcond] at hc
    rw [howes]
    obtain hq | hq := hq
    · by_cases hqp : q = p
      · rw [hqp, hpcp] at hq
        obtain hfalse | hold := hwaits hq
        · exact nomatch hfalse.symm.trans hc
        · exact h.waits p (.inl hold) hc
      · rw [hpcq q hqp, hchan q hqp] at hq
        exact h.waits q (.inl hq) hc
    · exact h.waits q (.inr (hsleeps chan q hq)) hc
  · by_cases hqp : q = p
    · rw [hqp, hpcp] at hq
      exact hloop a held i hq r hr
    · rw [hpcq q hqp] at hq
      exact fun hs => h.swept q a held i hq r hr (hsleeps a r hs)

structure Inv (lk : Lock) (chan : Nat) (s : State n C) : Prop where
  seated : Seated lk s
  wakes : Wakes chan s

def Keeps (lk : Lock) (chan : Nat) (r : Except Halt (State n C)) : Prop := ∃ s', r = .ok s' ∧ Inv lk chan s'

variable {l l' : Lock} {pc : Pc n} {r : Except Halt (State n C)}

omit [DecidableEq C] in
theorem holder_update {holder : Lock → Option C} {x : Option C} (hx : x ≠ some c')
    (hl : holder l ≠ some c') : update holder l x l' = some c' ↔ holder l' = some c' := by
  rw [update_apply]
  split
  · rename_i heq
    rw [heq]
    exact iff_of_false hx hl
  · rfl

theorem acquire_ok (hr : acquire s c l = some r) (hnot : s.holder l ≠ some c) : ∃ s', r = .ok s' ∧
    s' = { s with holder := s'.holder } ∧ (∀ l', s'.holder l' = some c ↔ l' = l ∨ s.holder l' = some c) ∧
      ∀ l' c', c' ≠ c → (s'.holder l' = some c' ↔ s.holder l' = some c') := by
  unfold Sleep.acquire at hr
  split at hr
  · rename_i hnone
    obtain rfl := some.inj hr
    refine ⟨_, rfl, rfl, fun l' => ?_, fun l' c' hc' => ?_⟩
    · simp only [update_apply]
      split <;> simp [*]
    · exact holder_update (fun h => hc' (some.inj h).symm) (by rw [hnone]; exact nofun)
  · rename_i c' hholder
    split at hr
    · rename_i heq
      exact absurd (heq ▸ hholder) hnot
    · cases hr

theorem release_ok (hr : release s c l = some r) (hheld : s.holder l = some c) : ∃ s', r = .ok s' ∧
    s' = { s with holder := s'.holder } ∧ (∀ l', s'.holder l' = some c ↔ l' ≠ l ∧ s.holder l' = some c) ∧
      ∀ l' c', c' ≠ c → (s'.holder l' = some c' ↔ s.holder l' = some c') := by
  unfold Sleep.release at hr
  rw [if_pos hheld] at hr
  obtain rfl := some.inj hr
  refine ⟨_, rfl, rfl, fun l' => ?_, fun l' c' hc' => ?_⟩
  · simp only [update_apply]
    split <;> simp [*]
  · exact holder_update nofun fun h => hc' (some.inj (h.symm.trans hheld))

structure Goes (chan : Nat) (s : State n C) (p : Fin n) (pc : Pc n) : Prop where
  tested : pc.Tested chan → s.cond = false
  nods : pc.Nods chan (s.chan p) → s.cond = false
  loop : ∀ a held i, pc = .wakeLoop a held i → i = 0

/-- The lines that are neither on the way to sleep nor in the loop of `wakeup1`. -/
def Pc.plain : Pc n → Bool
  | .sleepAcquire _ | .sleepRelease _ | .sleepChan _ | .sleepState | .wakeLoop .. => false
  | _ => true

omit [DecidableEq C] in
theorem Goes.plain (h : pc.plain = true) : Goes chan s p pc := by
  refine ⟨?_, ?_, ?_⟩
  · rintro (rfl | rfl) <;> cases h
  · rintro (rfl | ⟨rfl, -⟩) <;> cases h
  · rintro a held i rfl
    cases h

omit [DecidableEq C] in
theorem Goes.start (a : Nat) (held : Bool) : Goes chan s p (.wakeLoop a held 0) := by
  refine ⟨by simp, by simp, ?_⟩
  rintro a held i ⟨⟩
  rfl

theorem Inv.move (h : Inv lk chan s) (hc : s.cpu c = .runs p) (hs' : s' = { s.setPc p pc with holder := s'.holder })
    (hmine : ∀ l, s'.holder l = some c ↔ pc.holds lk l)
    (hother : ∀ l c', c' ≠ c → (s'.holder l = some c' ↔ s.holder l = some c')) (hfits : pc.Fits lk)
    (hstate : (s.pc p).state = pc.state) (hgoes : Goes chan s p pc) : Inv lk chan s' := by
  rw [hs']
  refine ⟨h.seated.move hc rfl rfl hfits ?_ (fun q _ => .inl rfl) hmine hother, ?_⟩
  · exact (h.seated.seated c p hc).trans hstate
  · refine h.wakes.move rfl rfl rfl (fun _ _ => rfl) hgoes.tested (fun hn => .inl (hgoes.nods hn)) (fun _ _ hs => hs) ?_
    intro a held i hpc r hri
    rw [hgoes.loop a held i hpc] at hri
    exact absurd hri (Nat.not_lt_zero _)

variable {pc₀ : Pc n}

section

variable (h : Inv lk chan s) (hc : s.cpu c = .runs p) (hpc : s.pc p = pc₀)
include h hc hpc

theorem Inv.acquire (hr : acquire (s.setPc p pc) c l = some r) (hnot : ¬pc₀.holds lk l)
    (hholds : ∀ l', pc.holds lk l' ↔ l' = l ∨ pc₀.holds lk l') (hfits : pc.Fits lk) (hstate : pc₀.state = pc.state)
    (hgoes : Goes chan s p pc) : Keeps lk chan r := by
  subst hpc
  have hown := h.seated.own hc
  obtain ⟨s', rfl, hs', hmine, hother⟩ := acquire_ok hr (mt (hown l).mp hnot)
  refine ⟨s', rfl, h.move hc hs' (fun l' => ?_) hother hfits hstate hgoes⟩
  rw [hholds, ← hown]
  exact hmine l'

theorem Inv.release (hr : release (s.setPc p pc) c l = some r) (hheld : pc₀.holds lk l)
    (hholds : ∀ l', pc.holds lk l' ↔ l' ≠ l ∧ pc₀.holds lk l') (hfits : pc.Fits lk) (hstate : pc₀.state = pc.state)
    (hgoes : Goes chan s p pc) : Keeps lk chan r := by
  subst hpc
  have hown := h.seated.own hc
  obtain ⟨s', rfl, hs', hmine, hother⟩ := release_ok hr ((hown l).mpr hheld)
  refine ⟨s', rfl, h.move hc hs' (fun l' => ?_) hother hfits hstate hgoes⟩
  rw [hholds, ← hown]
  exact hmine l'

theorem Inv.setPc (hr : some (.ok (s.setPc p pc)) = some r) (hholds : ∀ l, pc.holds lk l ↔ pc₀.holds lk l) (hfits : pc.Fits lk)
    (hstate : pc₀.state = pc.state) (hgoes : Goes chan s p pc) : Keeps lk chan r := by
  subst hpc
  obtain rfl := some.inj hr
  refine ⟨_, rfl, h.move hc rfl (fun l => ?_) (fun _ _ _ => .rfl) hfits hstate hgoes⟩
  rw [hholds, ← h.seated.own hc]
  rfl

end

theorem Inv.line (h : Inv lk chan s) (hc : s.cpu c = .runs p) (hcpu : s'.cpu = s.cpu) (hholder : s'.holder = s.holder)
    (hpc : s'.pc = update s.pc p pc) (hholds : ∀ l', pc.holds lk l' ↔ (s.pc p).holds lk l') (hfits : pc.Fits lk)
    (hself : s'.state p = pc.state)
    (hstate : ∀ q, q ≠ p → s'.state q = s.state q ∨ (∀ c', s.cpu c' ≠ .runs q) ∧ s'.state q ≠ .running)
    (hwakes : Wakes chan s') : Inv lk chan s' := by
  refine ⟨h.seated.move hc hcpu hpc hfits hself hstate (fun l' => ?_) fun l' c' _ => ?_, hwakes⟩
  · rw [hholder, hholds, h.seated.own hc]
  · rw [hholder]

/-! ### The scheduler -/

theorem Seated.turn (h : Seated lk s) {cpu : Cpu n} (hc : ∀ p, s.cpu c ≠ .runs p) (hcpu : s'.cpu = update s.cpu c cpu)
    (hnew : ∀ p, cpu ≠ .runs p) (hpc : s'.pc = s.pc) (hstate : s'.state = s.state)
    (hmine : ∀ l, s'.holder l = some c ↔ cpu.holds lk s.pc l)
    (hother : ∀ l c', c' ≠ c → (s'.holder l = some c' ↔ s.holder l = some c')) : Seated lk s' := by
  have hself : s'.cpu c = cpu := by rw [hcpu, update_self]
  refine h.change (c := c) (fun _ => False) (fun _ _ _ hX => hX.elim) hc
    (fun c' hc' => by rw [hcpu, update_of_ne hc']) (fun _ _ => by rw [hpc]) (fun _ _ => .inl (by rw [hstate]))
    (fun _ hX => hX.elim) (fun q hq => absurd (hself.symm.trans hq) (hnew q)) (fun _ hX => hX.elim) (fun l => ?_) hother
  rw [hmine, hself, hpc]

theorem Seated.run (h : Seated lk s) (hc : s.cpu c = .scan i) (hp : s.state p = .runnable) :
    Seated lk ((s.setState p .running).setCpu c (.runs p)) := by
  have hptable : s.holder .ptable = some c := by
    rw [h.holder, hc]
    rfl
  have hoff : ∀ c', s.cpu c' ≠ .runs p := h.off hptable (by rw [hc]; exact nofun) (by rw [hp]; exact nofun)
  have hrest := (h.resting p hoff).1
  have hself : update s.cpu c (.runs p) c = .runs p := update_self c _ s.cpu
  have hrunning : update s.state p .running p = (s.pc p).state := by
    rw [update_self]
    obtain hpc | hpc := hrest
    · rw [hpc]
      rfl
    · rw [hpc]
      rfl
  refine h.change (c := c) (· = p) (fun c' q hq heq => absurd (heq ▸ hq) (hoff c')) (fun q hq => nomatch hc.symm.trans hq)
    (fun c' hc' => update_of_ne hc' _ s.cpu) (fun _ _ => rfl)
    (fun q hq => .inl (update_of_ne hq _ s.state)) (fun q _ => h.fits q) (fun q hq => ?_)
    (fun q hq hne => absurd (hq ▸ hself) hne) (fun l => ?_) fun _ _ _ => .rfl
  · obtain rfl := Cpu.runs.inj (hself.symm.trans hq)
    exact ⟨rfl, hrunning⟩
  · change s.holder l = some c ↔ Cpu.holds lk s.pc (update s.cpu c (.runs p) c) l
    rw [hself, h.holder, hc, Cpu.holds, Cpu.holds]
    obtain hpc | hpc := hrest
    · rw [hpc]
      rfl
    · rw [hpc]
      rfl

theorem Seated.sched (h : Seated lk s) (hc : s.cpu c = .runs p) (hpc : pc.Resting)
    (hholds : ∀ l, (s.pc p).holds lk l ↔ l = .ptable) (hstate : (s.pc p).state ≠ .running) :
    Seated lk ((s.setPc p pc).setCpu c (.scan i)) := by
  have hself : update s.cpu c (.scan i) c = .scan i := update_self c _ s.cpu
  have hpcp : update s.pc p pc p = pc := update_self p _ s.pc
  refine h.change (c := c) (· = p) (fun c' q hq heq => h.unique c' c p (heq ▸ hq) hc)
    (fun q hq => (Cpu.runs.inj (hc.symm.trans hq)).symm) (fun c' hc' => update_of_ne hc' _ s.cpu)
    (fun q hq => update_of_ne hq _ s.pc) (fun _ _ => .inl rfl) ?_ (fun q hq => nomatch hself.symm.trans hq) ?_
    (fun l => ?_) fun _ _ _ => .rfl
  · rintro q rfl
    change (update s.pc q pc q).Fits lk
    rw [hpcp]
    obtain rfl | rfl := hpc
    · trivial
    · trivial
  · rintro q rfl -
    change (update s.pc q pc q).Resting ∧ s.state q ≠ .running
    rw [hpcp, h.seated c q hc]
    exact ⟨hpc, hstate⟩
  · change s.holder l = some c ↔ Cpu.holds lk (update s.pc p pc) (update s.cpu c (.scan i) c) l
    rw [hself, h.own hc, hholds]
    rfl

omit [DecidableEq C] in
theorem Wakes.calm (h : Wakes chan s) (hpc : s'.pc = s.pc) (hcond : s'.cond = s.cond) (howes : s'.owes = s.owes)
    (hchan : s'.chan = s.chan) (hsleeps : ∀ a q, Sleeps s' a q → Sleeps s a q) : Wakes chan s' := by
  refine ⟨fun q hq => ?_, fun q hq hc => ?_, fun q a held i hq r hr hs => ?_⟩
  · rw [hpc] at hq
    rw [hcond]
    exact h.tested q hq
  · rw [hpc, hchan] at hq
    rw [hcond] at hc
    rw [howes]
    exact h.waits q (hq.imp_right (hsleeps chan q)) hc
  · rw [hpc] at hq
    exact h.swept q a held i hq r hr (hsleeps a r hs)

theorem Inv.scheduler (h : Inv lk chan s) (hr : scheduler s c = some r) : Keeps lk chan r := by
  unfold Sleep.scheduler at hr
  split at hr
  · rename_i hidle
    have hnone : ∀ l, s.holder l ≠ some c := fun l hl => by
      rw [h.seated.holder, hidle] at hl
      exact hl
    obtain ⟨s', rfl, hs', hmine, hother⟩ := acquire_ok hr (hnone .ptable)
    rw [hs']
    refine ⟨_, rfl, ?_, h.wakes.calm rfl rfl rfl rfl fun _ _ hs => hs⟩
    refine h.seated.turn (by rw [hidle]; exact nofun) rfl nofun rfl rfl (fun l => ?_) hother
    exact (hmine l).trans (or_iff_left (hnone l))
  · rename_i i hscan
    have hnot : ∀ p, s.cpu c ≠ .runs p := by
      rw [hscan]
      exact nofun
    have hholder : ∀ l, s.holder l = some c ↔ l = .ptable := fun l => by
      rw [h.seated.holder, hscan]
      rfl
    split at hr
    · rename_i hi
      split at hr
      · rename_i hp
        obtain rfl := some.inj hr
        refine ⟨_, rfl, h.seated.run hscan hp, h.wakes.calm rfl rfl rfl rfl fun a q hs => ⟨?_, hs.2⟩⟩
        have hstate : update s.state ⟨i, hi⟩ .running q = .sleeping := hs.1
        rw [update_apply] at hstate
        split at hstate
        · cases hstate
        · exact hstate
      · obtain rfl := some.inj hr
        refine ⟨_, rfl, ?_, h.wakes.calm rfl rfl rfl rfl fun _ _ hs => hs⟩
        exact h.seated.turn hnot rfl nofun rfl rfl hholder fun _ _ _ => .rfl
    · obtain ⟨s', rfl, hs', hmine, hother⟩ := release_ok hr ((hholder .ptable).mpr rfl)
      rw [hs']
      refine ⟨_, rfl, ?_, h.wakes.calm rfl rfl rfl rfl fun _ _ hs => hs⟩
      refine h.seated.turn hnot rfl nofun rfl rfl (fun l => (hmine l).trans ?_) hother
      exact iff_of_false (fun hl => hl.1 ((hholder l).mp hl.2)) not_false
  · cases hr

/-! ### Processes -/

section

variable (h : Inv lk chan s) (hc : s.cpu c = .runs p)
include h hc

omit [DecidableEq C] in
theorem Inv.setCond (hp : s.pc p = .crit) {cond : Bool} {owes : Fin n → Bool}
    (howes : cond = true → (s.cond = true ∧ ∀ q, s.owes q = true → owes q = true) ∨ owes p = true) :
    Inv lk chan { s with cond := cond, owes := owes } := by
  refine ⟨⟨h.seated.holder, h.seated.unique, h.seated.fits, h.seated.seated, h.seated.resting⟩, ?_, ?_, h.wakes.swept⟩
  · intro q hq
    have hlk : s.holder lk = some c := by
      rw [h.seated.own hc, hp]
      rfl
    have hholds : (s.pc q).holds lk lk ∧ ¬(s.pc q).Resting := by
      obtain hq | hq := hq
      · rw [hq]
        exact ⟨rfl, by simp⟩
      · rw [hq]
        exact ⟨.inl rfl, by simp⟩
    have hqp := h.seated.on_holder hlk hholds.1 hholds.2
    rw [hc] at hqp
    cases hqp
    rw [Pc.Tested, hp] at hq
    simp at hq
  · intro q hq hcond
    obtain ⟨hold, hkept⟩ | hnew := howes hcond
    · obtain ⟨r, hr⟩ := h.wakes.waits q hq hold
      exact ⟨r, hkept r hr⟩
    · exact ⟨p, hnew⟩

theorem Inv.choose {choice : Choice n} (hr : choose lk chan s c p (s.pc p) choice = some r) : Keeps lk chan r := by
  generalize hpc : s.pc p = pc at hr
  unfold Sleep.choose at hr
  split at hr
  · exact h.acquire hc hpc hr (by simp) (by simp) trivial rfl (.plain rfl)
  · exact h.setPc hc hpc hr (by simp) nofun rfl (.plain rfl)
  · exact h.setPc hc hpc hr (by simp) trivial rfl (.plain rfl)
  · exact h.setPc hc hpc hr (by simp) trivial rfl (.plain rfl)
  · exact h.release hc hpc hr (by simp) (by simp) trivial rfl (.plain rfl)
  · obtain rfl := some.inj hr
    refine ⟨_, rfl, h.setCond hc hpc fun _ => ?_⟩
    by_cases hcond : s.cond = true
    · refine .inl ⟨hcond, fun q hq => ?_⟩
      rw [update_apply]
      split
      · rename_i heq
        rw [← heq, hq]
        rfl
      · exact hq
    · right
      rw [update_self]
      simp [hcond]
  · obtain rfl := some.inj hr
    exact ⟨_, rfl, h.setCond hc hpc nofun⟩
  · rename_i a
    split at hr
    · cases hr
    · rename_i hfalse
      have hcond : a = chan → s.cond = false := fun ha => by
        rw [Bool.eq_false_iff]
        exact fun htrue => hfalse ⟨ha, htrue⟩
      by_cases hlk : lk = .ptable
      · rw [if_pos hlk] at hr
        refine h.setPc hc hpc hr (by simp [hlk]) trivial rfl ⟨by simp, ?_, nofun⟩
        rintro (heq | ⟨heq, -⟩)
        · cases heq
          exact hcond rfl
        · cases heq
      · rw [if_neg hlk] at hr
        refine h.setPc hc hpc hr (by simp) hlk rfl ⟨?_, by simp, nofun⟩
        rintro (heq | heq)
        · cases heq
          exact hcond rfl
        · cases heq
  · by_cases hlk : lk = .ptable
    · rw [if_pos hlk] at hr
      exact h.setPc hc hpc hr (by simp [hlk]) trivial rfl (.start _ _)
    · rw [if_neg hlk] at hr
      exact h.setPc hc hpc hr (by simp) (fun _ => hlk) rfl (.plain rfl)
  · cases hr

theorem Inv.rouse (hptable : (s.pc p).holds lk .ptable)
    (hholds : ∀ l', pc.holds lk l' ↔ (s.pc p).holds lk l') (hfits : pc.Fits lk) (hrun : (s.pc p).state = .running)
    (hstate : pc.state = .running) (hq : s.state q = .sleeping) (hwakes : Wakes chan ((s.setPc p pc).setState q .runnable)) :
    Inv lk chan ((s.setPc p pc).setState q .runnable) := by
  have hself : s.state p = .running := (h.seated.seated c p hc).trans hrun
  have hne : q ≠ p := by
    rintro rfl
    exact nomatch hself.symm.trans hq
  have hoff := h.seated.off ((h.seated.own hc _).mpr hptable) (q := q)
    (by rw [hc]; exact fun heq => hne (Cpu.runs.inj heq).symm) (by rw [hq]; exact nofun)
  refine h.line hc rfl rfl rfl hholds hfits ?_ (fun r _ => ?_) hwakes
  · rw [hstate, ← hself]
    exact update_of_ne hne.symm _ _
  · change update s.state q .runnable r = s.state r ∨ _ ∧ update s.state q .runnable r ≠ .running
    by_cases hr : r = q
    · rw [hr, update_self]
      exact .inr ⟨hoff, nofun⟩
    · rw [update_of_ne hr]
      exact .inl rfl

end

omit [DecidableEq C] in
theorem sleeps_setState {r : Fin n} (h : Sleeps ((s.setPc p pc).setState q .runnable) a r) :
    r ≠ q ∧ Sleeps s a r := by
  obtain ⟨hstate, hchan⟩ := h
  have hstate : update s.state q .runnable r = .sleeping := hstate
  rw [update_apply] at hstate
  split at hstate
  · cases hstate
  · rename_i hne
    exact ⟨hne, hstate, hchan⟩

theorem Inv.sleepState (h : Inv lk chan s) (hc : s.cpu c = .runs p) (hpc : s.pc p = .sleepState) :
    Inv lk chan ((s.setPc p .sleepSched).setState p .sleeping) := by
  have hsleeps : ∀ a q, Sleeps ((s.setPc p .sleepSched).setState p .sleeping) a q →
      Sleeps s a q ∨ q = p ∧ s.chan p = some a := fun a q ⟨hstate, hchan⟩ => by
    by_cases hq : q = p
    · rw [hq] at hchan
      exact .inr ⟨hq, hchan⟩
    · exact .inl ⟨(update_of_ne hq _ s.state).symm.trans hstate, hchan⟩
  have hpcq : ∀ q, q ≠ p → ((s.setPc p .sleepSched).setState p .sleeping).pc q = s.pc q := fun q hq =>
    update_of_ne hq _ s.pc
  have hpcp : ((s.setPc p .sleepSched).setState p .sleeping).pc p = .sleepSched := update_self p _ s.pc
  refine h.line hc rfl rfl rfl (fun l => by rw [hpc]; rfl) trivial (update_self p _ s.state)
    (fun q hq => .inl (update_of_ne hq _ s.state)) ⟨fun q hq => ?_, fun q hq hcond => ?_, ?_⟩
  · have hqp : q ≠ p := by
      rintro rfl
      rw [hpcp] at hq
      simp at hq
    exact h.wakes.tested q (by rwa [hpcq q hqp] at hq)
  · obtain hq | hq := hq
    · have hqp : q ≠ p := by
        rintro rfl
        rw [hpcp] at hq
        simp at hq
      exact h.wakes.waits q (.inl (by rwa [hpcq q hqp] at hq)) hcond
    · obtain hq | ⟨-, hchan⟩ := hsleeps chan q hq
      · exact h.wakes.waits q (.inr hq) hcond
      · exact h.wakes.waits p (.inl (.inr ⟨hpc, hchan⟩)) hcond
  · -- No one is inside `wakeup1`: this process has the lock.
    intro q a held i hq
    have hqp : q ≠ p := by
      rintro rfl
      rw [hpcp] at hq
      cases hq
    rw [hpcq q hqp] at hq
    have hptable : s.holder .ptable = some c := by
      rw [h.seated.own hc, hpc]
      rfl
    have hruns := h.seated.on_holder hptable (q := q) (by rw [hq]; exact .inl rfl) (by rw [hq]; simp)
    rw [hc] at hruns
    exact absurd (Cpu.runs.inj hruns).symm hqp

section

variable (h : Inv lk chan s) (hc : s.cpu c = .runs p)
include h hc

omit [DecidableEq C] in
theorem Inv.wakeEnd {held : Bool} (hpc : s.pc p = .wakeLoop a held i) (hi : n ≤ i) {owes : Fin n → Bool} (howes : a ≠ chan → owes = s.owes) :
    Inv lk chan { s with owes := owes } := by
  refine ⟨⟨h.seated.holder, h.seated.unique, h.seated.fits, h.seated.seated, h.seated.resting⟩, h.wakes.tested, ?_,
    h.wakes.swept⟩
  intro q hq hcond
  by_cases ha : a = chan
  · obtain hq | hq := hq
    · have hptable : s.holder .ptable = some c := by
        rw [h.seated.own hc, hpc]
        exact .inl rfl
      have hholds : (s.pc q).holds lk .ptable ∧ ¬(s.pc q).Resting := by
        obtain hq | ⟨hq, -⟩ := hq
        · rw [hq]
          exact ⟨rfl, by simp⟩
        · rw [hq]
          exact ⟨rfl, by simp⟩
      have hruns := h.seated.on_holder hptable hholds.1 hholds.2
      rw [hc] at hruns
      cases hruns
      rw [Pc.Nods, hpc] at hq
      simp at hq
    · rw [← ha] at hq
      exact absurd hq (h.wakes.swept p a held i hpc q (q.isLt.trans_le hi))
  · dsimp only
    rw [howes ha]
    exact h.wakes.waits q hq hcond

theorem Inv.sched (hpc : pc.Resting)
    (hholds : ∀ l, (s.pc p).holds lk l ↔ l = .ptable) (hstate : (s.pc p).state ≠ .running)
    (hr : sched (s.setPc p pc) c p = some r) : Keeps lk chan r := by
  have hown := h.seated.own hc
  have hptable : ¬(s.setPc p pc).holder .ptable ≠ some c := not_not_intro ((hown .ptable).mpr ((hholds _).mpr rfl))
  have hother : ¬(s.setPc p pc).holder .other = some c := fun hl => nomatch (hholds _).mp ((hown .other).mp hl)
  have hrun : ¬(s.setPc p pc).state p = .running := fun hs => hstate ((h.seated.seated c p hc).symm.trans hs)
  unfold Sleep.sched at hr
  rw [if_neg hptable, if_neg hother, if_neg hrun] at hr
  obtain rfl := some.inj hr
  refine ⟨_, rfl, h.seated.sched hc hpc hholds hstate, ?_⟩
  refine h.wakes.move rfl rfl rfl (fun _ _ => rfl) ?_ ?_ (fun _ _ hs => hs) ?_
  · obtain rfl | rfl := hpc
    · simp
    · simp
  · obtain rfl | rfl := hpc
    · simp
    · simp
  · obtain rfl | rfl := hpc
    · exact nofun
    · exact nofun

theorem Inv.advance (hr : advance lk chan s c p (s.pc p) = some r) :
    Keeps lk chan r := by
  have hfits := h.seated.fits p
  have hseated := h.seated.seated c p hc
  generalize hpc : s.pc p = pc at hr
  rw [hpc] at hfits hseated
  unfold Sleep.advance at hr
  split at hr
  · cases hr
  · cases hr
  · rename_i a
    have hlk : lk ≠ .ptable := hfits
    refine h.acquire hc hpc hr hlk.symm (by simp [or_comm]) hlk rfl ⟨?_, by simp, nofun⟩
    rintro (heq | heq)
    · cases heq
    · cases heq
      exact h.wakes.tested p (.inl hpc)
  · rename_i a
    have hlk : lk ≠ .ptable := hfits
    refine h.release hc hpc hr (.inl rfl) (fun l => ?_) trivial rfl ⟨by simp, ?_, nofun⟩
    · constructor
      · rintro rfl
        exact ⟨hlk.symm, .inr rfl⟩
      · rintro ⟨hne, heq | heq⟩
        · exact absurd heq hne
        · exact heq
    · rintro (heq | ⟨heq, -⟩)
      · cases heq
        exact h.wakes.tested p (.inr hpc)
      · cases heq
  · rename_i a
    obtain rfl := some.inj hr
    refine ⟨_, rfl, h.line hc rfl rfl rfl (by simp [hpc]) trivial hseated (fun _ _ => .inl rfl) ?_⟩
    refine h.wakes.move rfl rfl rfl (fun q hq => update_of_ne hq _ s.chan) (by simp) ?_ ?_ nofun
    · rintro (heq | ⟨-, hchan⟩)
      · cases heq
      · have hchan : update s.chan p (some a) p = some chan := hchan
        rw [update_self] at hchan
        rw [hpc, some.inj hchan]
        exact .inr (.inl rfl)
    · rintro b q ⟨hstate, hchan⟩
      have hqp : q ≠ p := by
        rintro rfl
        exact nomatch hseated.symm.trans hstate
      exact ⟨hstate, (update_of_ne hqp _ s.chan).symm.trans hchan⟩
  · obtain rfl := some.inj hr
    exact ⟨_, rfl, h.sleepState hc hpc⟩
  · exact h.sched hc (.inl rfl) (by simp [hpc]) (by simp [hpc]) hr
  · obtain rfl := some.inj hr
    have hwakes : ∀ pc : Pc n, ¬pc.Tested chan → ¬pc.Nods chan none → (∀ a held i, pc ≠ .wakeLoop a held i) →
        Wakes chan ((s.setPc p pc).setChan p none) := fun pc ht hn hl => by
      have hself : ((s.setPc p pc).setChan p none).chan p = none := update_self p _ s.chan
      refine h.wakes.move rfl rfl rfl (fun q hq => update_of_ne hq _ s.chan) (fun h => absurd h ht)
        (fun h => absurd (hself ▸ h) hn) ?_ fun a held i heq => absurd heq (hl a held i)
      rintro b q ⟨hstate, hchan⟩
      have hqp : q ≠ p := by
        rintro rfl
        exact nomatch hself.symm.trans hchan
      exact ⟨hstate, (update_of_ne hqp _ s.chan).symm.trans hchan⟩
    by_cases hlk : lk = .ptable
    · rw [if_pos hlk]
      refine ⟨_, rfl, h.line hc rfl rfl rfl (by simp [hpc, hlk]) trivial hseated (fun _ _ => .inl rfl) ?_⟩
      exact hwakes .slept (by simp) (by simp) nofun
    · rw [if_neg hlk]
      refine ⟨_, rfl, h.line hc rfl rfl rfl (by simp [hpc]) hlk hseated (fun _ _ => .inl rfl) ?_⟩
      exact hwakes .sleepUnlock (by simp) (by simp) nofun
  · exact h.release hc hpc hr rfl (by simp) hfits rfl (.plain rfl)
  · exact h.acquire hc hpc hr (by simp) (by simp) trivial rfl (.plain rfl)
  · exact h.setPc hc hpc hr (by simp) trivial rfl (.plain rfl)
  · rename_i a held
    have hlk : held → lk ≠ .ptable := hfits
    exact h.acquire hc hpc hr (fun hheld => hlk hheld.1 hheld.2.symm) (by simp) trivial rfl (.start a held)
  · rename_i a held i
    have hptable : (s.pc p).holds lk .ptable := by
      rw [hpc]
      exact .inl rfl
    split at hr
    · rename_i hi
      obtain rfl := some.inj hr
      have hloop : ∀ {s₂ : State n C}, (∀ b q, Sleeps s₂ b q → Sleeps s b q) → ¬Sleeps s₂ a ⟨i, hi⟩ →
          ∀ b held' j, (.wakeLoop a held (i + 1) : Pc n) = .wakeLoop b held' j → ∀ q, q.val < j → ¬Sleeps s₂ b q := by
        intro s₂ hsub hlast b held' j heq q hq hs
        cases heq
        obtain hlt | heq := Nat.lt_succ_iff_lt_or_eq.mp hq
        · exact h.wakes.swept p a held i hpc q hlt (hsub a q hs)
        · have hqi : q = ⟨i, hi⟩ := Fin.ext heq
          exact hlast (hqi ▸ hs)
      unfold wakeSlot
      split
      · rename_i hs
        have hs : Sleeps s a ⟨i, hi⟩ := hs
        refine ⟨_, rfl, h.rouse hc hptable (by simp [hpc]) trivial (by simp [hpc]) rfl hs.1 ?_⟩
        refine h.wakes.move rfl rfl rfl (fun _ _ => rfl) (by simp) (by simp)
          (fun b q hq => (sleeps_setState hq).2) ?_
        exact hloop (fun b q hq => (sleeps_setState hq).2) fun hq => (sleeps_setState hq).1 rfl
      · rename_i hs
        refine ⟨_, rfl, h.line hc rfl rfl rfl (by simp [hpc]) trivial hseated (fun _ _ => .inl rfl) ?_⟩
        exact h.wakes.move rfl rfl rfl (fun _ _ => rfl) (by simp) (by simp) (fun _ _ hs => hs)
          (hloop (fun _ _ hs => hs) hs)
    · rename_i hi
      dsimp only at hr
      have hend : Inv lk chan (if a = chan then { s with owes := update s.owes p false } else s) := by
        split
        · rename_i ha
          exact h.wakeEnd hc hpc (Nat.not_lt.mp hi) fun hne => absurd ha hne
        · exact h
      have hsame : (if a = chan then { s with owes := update s.owes p false } else s).cpu c = .runs p ∧
          (if a = chan then { s with owes := update s.owes p false } else s).pc p = .wakeLoop a held i := by
        split
        · exact ⟨hc, hpc⟩
        · exact ⟨hc, hpc⟩
      by_cases hcrit : lk = .ptable ∧ held
      · rw [if_pos hcrit] at hr
        exact hend.setPc hsame.1 hsame.2 hr (by simp [hcrit]) trivial rfl (.plain rfl)
      · rw [if_neg hcrit] at hr
        exact hend.setPc hsame.1 hsame.2 hr (by simp) (fun hheld hlk => hcrit ⟨hlk, hheld⟩) rfl (.plain rfl)
  · rename_i held
    cases held with
    | true =>
      have hlk : lk ≠ .ptable := hfits rfl
      refine h.release hc hpc hr (.inl rfl) (fun l => ?_) trivial rfl (.plain rfl)
      constructor
      · rintro rfl
        exact ⟨hlk, .inr ⟨rfl, rfl⟩⟩
      · rintro ⟨hne, heq | ⟨-, heq⟩⟩
        · exact absurd heq hne
        · exact heq
    | false => exact h.release hc hpc hr (.inl rfl) (by simp) trivial rfl (.plain rfl)
  · exact h.acquire hc hpc hr (by simp) (by simp) trivial rfl (.plain rfl)
  · obtain rfl := some.inj hr
    refine ⟨_, rfl, h.line hc rfl rfl rfl (by simp [hpc]) trivial (update_self p _ s.state)
      (fun q hq => .inl (update_of_ne hq _ s.state)) ?_⟩
    exact h.wakes.move rfl rfl rfl (fun _ _ => rfl) (by simp) (by simp)
      (fun _ _ hs => (sleeps_setState hs).2) nofun
  · exact h.sched hc (.inr rfl) (by simp [hpc]) (by simp [hpc]) hr
  · exact h.release hc hpc hr rfl (by simp) trivial rfl (.plain rfl)
  · exact h.acquire hc hpc hr (by simp) (by simp) trivial rfl (.plain rfl)
  · rename_i q
    dsimp only at hr
    split at hr
    · rename_i hs
      obtain rfl := some.inj hr
      refine ⟨_, rfl, h.rouse hc (by rw [hpc]; rfl) (by simp [hpc]) trivial (by simp [hpc]) rfl hs ?_⟩
      exact h.wakes.move rfl rfl rfl (fun _ _ => rfl) (by simp) (by simp)
        (fun _ _ hs => (sleeps_setState hs).2) nofun
    · exact h.setPc hc hpc hr (by simp) trivial rfl (.plain rfl)
  · exact h.release hc hpc hr rfl (by simp) trivial rfl (.plain rfl)

end

/-! ### Every run -/

theorem Inv.step (h : Inv lk chan s) {a : C × Option (Choice n)} (hr : step lk chan s a = some r) : Keeps lk chan r := by
  obtain ⟨c, choice⟩ := a
  simp only [Sleep.step] at hr
  split at hr
  · rename_i hc
    exact h.choose hc hr
  · rename_i hc
    exact h.advance hc hr
  · exact h.scheduler hr
  · cases hr

theorem inv_of_reachable (h : (system lk chan n C).Reachable s) : Inv lk chan s := by
  refine h.invariant (fun s hs => ?_) fun s a s' hs hstep => ?_
  · obtain ⟨hp, hl, hc⟩ := hs
    have hpc : ∀ p, s.pc p = .yieldRelease := fun p => (hp p).2.1
    have hstate : ∀ p, s.state p ≠ .running ∧ s.state p ≠ .sleeping := fun p => by
      obtain hs | hs := (hp p).2.2
      · simp [hs]
      · simp [hs]
    refine ⟨⟨fun l c => ?_, fun c c' p h => ?_, fun p => ?_, fun c p h => ?_, fun p _ => ?_⟩, fun p h => ?_, fun p h => ?_,
      fun p a held i h => ?_⟩
    · rw [hl, hc]
      exact iff_of_false nofun not_false
    · exact nomatch (hc c).symm.trans h
    · rw [hpc]
      trivial
    · exact nomatch (hc c).symm.trans h
    · exact ⟨.inr (hpc p), (hstate p).1⟩
    · rw [hpc] at h
      simp at h
    · rw [hpc] at h
      obtain h | h := h
      · simp at h
      · exact absurd h.1 (hstate p).2
    · exact nomatch (hpc p).symm.trans h
  · obtain ⟨s₂, heq, hinv⟩ := hs.step hstep
    cases heq
    exact hinv

/-- No one sleeps on the channel while the condition is true and no one is on the way to a wakeup, and who returns
from `sleep` has the lock. -/
theorem no_wakeup_lost (h : (system lk chan n C).Reachable s) :
    ((∀ p, s.owes p = false) → s.cond = true → ∀ p, ¬(s.state p = .sleeping ∧ s.chan p = some chan)) ∧
    (∀ p, s.pc p = .slept → ∃ c, s.cpu c = .runs p ∧ s.holder lk = some c) ∧
    ∀ a m, step lk chan s a ≠ some (.error m) := by
  have hinv := inv_of_reachable h
  refine ⟨fun howes hcond p hp => ?_, fun p hp => ?_, fun a m hstep => ?_⟩
  · obtain ⟨q, hq⟩ := hinv.wakes.waits p (.inr hp) hcond
    exact nomatch (howes q).symm.trans hq
  · obtain ⟨c, hc⟩ : ∃ c, s.cpu c = .runs p := by
      by_contra hnone
      push Not at hnone
      have hrest := (hinv.seated.resting p hnone).1
      rw [hp] at hrest
      simp at hrest
    refine ⟨c, hc, ?_⟩
    rw [hinv.seated.own hc, hp]
    rfl
  · obtain ⟨s', heq, -⟩ := hinv.step hstep
    cases heq

/-- Two processes on one processor: the first sleeps, the second makes the condition true and wakes it. -/
def sleepThenWake : List (Bool × Option (Choice 2)) :=
  [(true, none), (true, none), (true, none), (true, some .acquire), (true, some (.sleep 0)), (true, none), (true, none),
    (true, none), (true, none), (true, none), (true, none), (true, none), (true, some .acquire), (true, some .produce),
    (true, some .release), (true, some (.wakeup 0)), (true, none), (true, none), (true, none), (true, none), (true, none)]

def twoReady : State 2 Bool where
  cond := false
  owes := fun _ => false
  pc := fun _ => .yieldRelease
  state := fun _ => .runnable
  chan := fun _ => none
  holder := fun _ => none
  cpu := fun _ => .idle

theorem no_wakeup_lost_run : ∃ s, (system .other 0 2 Bool).Reachable s ∧ s.cond = true ∧ s.chan 0 = some 0 ∧
    s.state 0 ≠ .sleeping := by
  obtain ⟨s, hs, htest⟩ := System.exists_reachable_of_follow (fun _ _ => True) (step .other 0) twoReady sleepThenWake
    (fun s => s.cond = true ∧ (∀ p, s.owes p = false) ∧ s.chan 0 = some 0) (by decide +kernel)
  obtain ⟨hcond, howes, hchan⟩ := of_decide_eq_true htest
  have hinit : ∀ s, (System.ofStep twoReady (step .other 0)).Init s → (system .other 0 2 Bool).Init s := by
    rintro s rfl
    exact ⟨fun _ => ⟨rfl, rfl, .inl rfl⟩, fun _ => rfl, fun _ => rfl⟩
  have hreach := hs.of_restrict.mono hinit fun _ _ _ hstep => hstep
  exact ⟨s, hreach, hcond, hchan, fun hs => (no_wakeup_lost hreach).1 howes hcond 0 ⟨hs, hchan⟩⟩

end RainOS.Sleep
