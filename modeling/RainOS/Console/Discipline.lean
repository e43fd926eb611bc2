import RainOS.Console.Calls

/-!
# The line discipline

Over every run of `consoleintr` and of calls of `consoleread`: the indices stay in order, what is committed stays, the calls
take the committed bytes in order, and a process sleeps only when there is nothing to read.
-/

namespace RainOS.Console

open Function List

variable {P : Type}

def State.calling (s : State P) (p : P) : Option Read := (s.proc p).call

structure Inv (s : State P) : Prop where
  tracks : ∃ draft, Tracks s.input s.committed draft (logged s.taken).length
  taken : logged s.taken <+: s.committed
  ledger : Ledger s.calling s.calls s.taken s.returns
  sleepers : ∀ p, (s.proc p).asleep = true → (logged s.taken).length = s.committed.length
  alive : ∀ p, (s.proc p).killed = false

variable {s s' : State P}

theorem Inv.consoleintrChar (h : Inv s) (c : UInt8) :
    Inv (consoleintrChar s c) ∧ s.committed <+: (consoleintrChar s c).committed := by
  obtain ⟨draft, htracks⟩ := h.tracks
  rw [Console.consoleintrChar]
  split
  · exact ⟨h, prefix_rfl⟩
  split
  · exact ⟨⟨htracks.killLine _, h.taken, h.ledger, h.sleepers, h.alive⟩, prefix_rfl⟩
  split
  · split
    · rename_i hne
      exact ⟨⟨htracks.backspace hne, h.taken, h.ledger, h.sleepers, h.alive⟩, prefix_rfl⟩
    · exact ⟨h, prefix_rfl⟩
  split
  · rename_i hroom
    have hpush := htracks.push (htracks.room_iff.mp hroom.2) (if c = carriageReturn then newline else c)
    have hdraft := hpush.bytes_draft
    dsimp only at hdraft ⊢
    generalize (if c = carriageReturn then newline else c) = x at hpush hdraft ⊢
    split
    · rw [hdraft]
      exact ⟨⟨⟨[], hpush.commit⟩, h.taken.trans (prefix_append ..), h.ledger, nofun, h.alive⟩, prefix_append ..⟩
    · exact ⟨⟨⟨_, hpush⟩, h.taken, h.ledger, h.sleepers, h.alive⟩, prefix_rfl⟩
  · exact ⟨h, prefix_rfl⟩

theorem Inv.consoleintr (h : Inv s) (chars : List UInt8) :
    Inv (consoleintr s chars) ∧ s.committed <+: (consoleintr s chars).committed := by
  induction chars generalizing s with
  | nil => exact ⟨h, prefix_rfl⟩
  | cons c chars ih =>
    obtain ⟨hfirst, hprefix⟩ := h.consoleintrChar c
    obtain ⟨hrest, hprefix'⟩ := ih hfirst
    exact ⟨hrest, hprefix.trans hprefix'⟩

theorem Inv.drain (h : Inv s) (c : Read) :
    (∃ draft, Tracks (s.input.drain c.target c.n).input s.committed draft
      (logged (s.taken ++ [(c.id, (s.input.drain c.target c.n).taken)])).length) ∧
    logged (s.taken ++ [(c.id, (s.input.drain c.target c.n).taken)]) <+: s.committed := by
  obtain ⟨draft, htracks⟩ := h.tracks
  obtain ⟨hafter, hdrop⟩ := htracks.drain c.target c.n
  rw [logged_append, length_append]
  refine ⟨⟨draft, hafter⟩, ?_⟩
  obtain ⟨rest, hrest⟩ := h.taken
  rw [← hrest, drop_left] at hdrop
  rw [← hrest, hdrop, ← append_assoc]
  exact prefix_append ..

theorem Inv.drain_sleepers (h : Inv s) {q : P} (hasleep : (s.proc q).asleep = true) (c : Read) :
    (logged (s.taken ++ [(c.id, (s.input.drain c.target c.n).taken)])).length = s.committed.length := by
  have hall := h.sleepers q hasleep
  have hle := (h.drain c).2.length_le
  rw [logged_append, length_append] at hle ⊢
  omega

variable [DecidableEq P] {p : P} {c : Read}

theorem calling_setProc (s : State P) (p : P) (f : Proc → Proc) :
    (s.setProc p f).calling = update s.calling p (f (s.proc p)).call :=
  comp_update Proc.call s.proc p _

theorem alive_setProc {f : Proc → Proc} (h : ∀ q, (s.proc q).killed = false) (hf : (f (s.proc p)).killed = false) (q : P) :
    ((s.setProc p f).proc q).killed = false :=
  (forall_update_iff s.proc fun _ x => x.killed = false).mpr ⟨hf, fun q _ => h q⟩ q

theorem Inv.consoleread (h : Inv s) (hcall : s.calling p = some c) : Inv (consoleread s p c) := by
  obtain ⟨hlt, hreading⟩ := h.ledger.active p c hcall
  have hn : c.n ≤ c.target := by
    have hlength := hreading.length
    omega
  have hfits := drain_fits s.input hn
  obtain ⟨htracks, htaken⟩ := h.drain c
  have hsleepers : ∀ q, (s.proc q).asleep = true → _ := fun q hq => h.drain_sleepers hq c
  rw [Console.consoleread]
  generalize s.input.drain c.target c.n = a at hfits htracks htaken hsleepers ⊢
  dsimp only
  split
  · rename_i hsleeps
    rw [if_neg (by rw [h.alive p]; nofun)]
    refine ⟨htracks, htaken, ?_, fun q hq => ?_, alive_setProc h.alive (h.alive p)⟩
    · rw [calling_setProc]
      exact h.ledger.proceed hcall (by rfl) (hreading.proceed hfits hsleeps)
    · obtain ⟨draft, htracks⟩ := htracks
      exact htracks.empty_iff.mp (hfits.sleeps hsleeps).2.2
  · rename_i hsleeps
    refine ⟨htracks, htaken, ?_, fun q hq => ?_, alive_setProc h.alive (h.alive p)⟩
    · rw [calling_setProc]
      exact h.ledger.finish hcall (by rfl) (hreading.finish hfits (Bool.not_eq_true _ ▸ hsleeps))
    · change (update s.proc p _ q).asleep = true at hq
      by_cases hqp : q = p
      · rw [hqp, update_self] at hq
        exact hsleepers p hq
      · rw [update_of_ne hqp] at hq
        exact hsleepers q hq

theorem Inv.step (h : Inv s) {a : Action P} (hok : Patient s a) (hstep : step s a = some (.ok s')) :
    Inv s' ∧ s.committed <+: s'.committed := by
  cases a with
  | consoleintr chars =>
    cases hstep
    exact h.consoleintr chars
  | read p n =>
    rw [Console.step] at hstep
    split at hstep
    · rename_i hnone
      cases hstep
      refine ⟨⟨h.tracks, h.taken, ?_, fun q hq => ?_, alive_setProc h.alive (h.alive p)⟩, prefix_rfl⟩
      · rw [calling_setProc]
        exact h.ledger.enter hnone hok
      · change (update s.proc p _ q).asleep = true at hq
        by_cases hqp : q = p
        · rw [hqp, update_self] at hq
          exact h.sleepers p hq
        · rw [update_of_ne hqp] at hq
          exact h.sleepers q hq
    · cases hstep
  | run p =>
    rw [Console.step] at hstep
    split at hstep
    · cases hstep
    · rename_i c hcall
      split at hstep
      · cases hstep
      · cases hstep
        refine ⟨h.consoleread hcall, ?_⟩
        rw [Console.consoleread]
        dsimp only
        split
        · split <;> exact prefix_rfl
        · exact prefix_rfl
  | kill p => exact absurd hok id

omit [DecidableEq P] in
theorem inv_consoleinit : Inv (consoleinit P) where
  tracks := ⟨[], rfl, rfl, rfl, le_rfl, Nat.zero_le _, .nil⟩
  taken := prefix_rfl
  ledger := ⟨nofun, nofun, nofun, nofun, nodup_nil, nofun⟩
  sleepers := nofun
  alive _ := rfl

theorem inv_of_reachable (h : (system P).Reachable s) : Inv s := by
  refine System.Reachable.invariant ?_ ?_ h
  · rintro _ rfl
    exact inv_consoleinit
  · intro t a t' ht hstep
    exact (ht.step hstep.1 hstep.2).1

theorem order_of_tracks {i : Input} {committed draft : List UInt8} {r : Nat} (h : Tracks i committed draft r) :
    (i.w - i.r).toNat ≤ (i.e - i.r).toNat ∧ (i.e - i.r).toNat ≤ 128 := by
  have hroom := h.room
  have hbehind := h.behind
  have hle := Tracks.length_le committed draft
  rw [h.sub_toNat, h.write, h.read, toNat_ofNat_sub hbehind (by omega)]
  omega

/-- The indices are in order modulo 2^32. What has been taken and what lies between the read and the write index are the
committed bytes, and a step only adds to those. A call that returned has taken the bytes it stored, or, if it stored
nothing, one ^D; it stored no ^D and nothing after a newline. A call under way has taken the bytes it stored so far, and no
newline. No other call took anything, and a process sleeps only if there is nothing to read. -/
theorem line_discipline (h : (system P).Reachable s) :
    ((s.input.w - s.input.r).toNat ≤ (s.input.e - s.input.r).toNat ∧ (s.input.e - s.input.r).toNat ≤ 128) ∧
    s.committed = logged s.taken ++ s.input.bytes s.input.r s.input.w ∧
    (∀ a s', (system P).Step s a s' → s.committed <+: s'.committed) ∧
    (∀ c ∈ s.returns, loggedBy c.id s.taken = (if c.dst = [] then [ctrl 'D'] else c.dst) ∧
      ctrl 'D' ∉ c.dst ∧ newline ∉ c.dst.dropLast ∧ c.dst.length ≤ c.target) ∧
    (∀ p c, (s.proc p).call = some c → loggedBy c.id s.taken = c.dst ∧ ctrl 'D' ∉ c.dst ∧ newline ∉ c.dst) ∧
    (s.returns.map Read.id).Nodup ∧
    (∀ x ∈ s.taken, (∃ c ∈ s.returns, c.id = x.1) ∨ ∃ p c, (s.proc p).call = some c ∧ c.id = x.1) ∧
    ∀ p, (s.proc p).asleep = true → s.input.r = s.input.w := by
  have hinv := inv_of_reachable h
  obtain ⟨draft, htracks⟩ := hinv.tracks
  refine ⟨order_of_tracks htracks, ?_, fun a s' hstep => (hinv.step hstep.1 hstep.2).2, fun c hc => ?_, fun p c hc => ?_,
    hinv.ledger.nodup, hinv.ledger.known, fun p hp => htracks.empty_iff.mpr (hinv.sleepers p hp)⟩
  · obtain ⟨rest, hrest⟩ := hinv.taken
    rw [htracks.bytes_unread, ← hrest, drop_left]
  · obtain ⟨-, hreturned, -⟩ := hinv.ledger.ended c hc
    exact ⟨hreturned.dst, hreturned.plain, hreturned.line, hreturned.length⟩
  · obtain ⟨-, hreading⟩ := hinv.ledger.active p c hc
    exact ⟨hreading.dst, hreading.plain, hreading.line⟩

/-- Two readers; `ab`, backspace and `c` are typed, then ^D twice: the first reader gets two bytes, and each of the next
two calls gets nothing. -/
theorem line_discipline_run : ∃ s : State (Fin 2), (system (Fin 2)).Reachable s ∧
    s.returns.map Read.dst = [[97, 99], [], []] ∧ s.committed = [97, 99, 4, 4] ∧
    s.committed = logged s.taken ++ s.input.bytes s.input.r s.input.w := by
  obtain ⟨s, hs, htest⟩ := System.exists_reachable_of_follow Patient step (consoleinit (Fin 2))
    [.read 0 5, .run 0, .read 1 3, .run 1, .consoleintr [97, 98, 8, 99, 4, 4], .run 0, .run 1, .read 0 1, .run 0]
    (fun s => s.returns.map Read.dst == [[97, 99], [], []] && s.committed == [97, 99, 4, 4]) (by decide +kernel)
  rw [Bool.and_eq_true, beq_iff_eq, beq_iff_eq] at htest
  exact ⟨s, hs, htest.1, htest.2, (line_discipline hs).2.1⟩

end RainOS.Console
