import RainOS.Lib.Ledger
import RainOS.Pipe.Code

/-!
# A pipe is a stream

What the stretches of `piperead` gave, one after the other, is what the stretches of `pipewrite` stored, up to the bytes
that lie in the pipe. The counters of the pipe are the lengths of the two, cut off at 32 bits, and never more than
`PIPESIZE` apart. The stretches of one call store its bytes in order.
-/

namespace RainOS.Pipes

open Function List

variable {P : Type} {p : Pipe} {stream : List UInt8} {r id i : Nat}

/-! ### The buffer -/

/-- The pipe has stored the stream, and the first `r` bytes of it have been read. -/
structure Tracks (p : Pipe) (stream : List UInt8) (r : Nat) : Prop where
  nread : p.nread = .ofNat r
  nwrite : p.nwrite = .ofNat stream.length
  behind : r ≤ stream.length
  room : stream.length ≤ r + 512
  data : Lies 512 p.data r stream

namespace Tracks

theorem empty_iff (h : Tracks p stream r) : p.nread = p.nwrite ↔ r = stream.length := by
  have hroom := h.room
  rw [h.nread, h.nwrite, ofNat_eq_iff h.behind (by omega)]

theorem full_iff (h : Tracks p stream r) : p.nwrite = p.nread + pipeSize ↔ stream.length = r + 512 := by
  have hbehind := h.behind
  have hsum : (UInt32.ofNat r) + pipeSize = UInt32.ofNat (r + 512) := (UInt32.ofNat_add r 512).symm
  rw [h.nread, h.nwrite, hsum, ofNat_eq_iff h.room (by omega)]

theorem index (i : Nat) : (UInt32.ofNat i % pipeSize).toNat = i % 512 := toNat_ofNat_mod (by decide) i

theorem push (h : Tracks p stream r) (hroom : stream.length < r + 512) (x : UInt8) :
    Tracks { p with data := store p.data (p.nwrite % pipeSize).toNat x, nwrite := p.nwrite + 1 } (stream ++ [x]) r := by
  have hlength : (stream ++ [x]).length = stream.length + 1 := length_append
  refine ⟨h.nread, ?_, ?_, ?_, ?_⟩
  · rw [hlength, h.nwrite]
    exact (UInt32.ofNat_add stream.length 1).symm
  · have hbehind := h.behind
    omega
  · omega
  · rw [h.nwrite, index]
    exact h.data.push hroom x

theorem pop (h : Tracks p stream r) (hne : r < stream.length) :
    Tracks { p with nread := p.nread + 1 } stream (r + 1) ∧
      stream.drop r = p.data (p.nread % pipeSize).toNat :: stream.drop (r + 1) := by
  have hroom := h.room
  refine ⟨⟨?_, h.nwrite, hne, by omega, h.data.advance (Nat.le_succ r)⟩, ?_⟩
  · rw [h.nread]
    exact (UInt32.ofNat_add r 1).symm
  · rw [drop_eq_getElem_cons hne, h.nread, index, h.data r _ le_rfl (getElem?_eq_getElem hne)]

theorem fill (h : Tracks p stream r) (addr : Mem) (todo i : Nat) :
    i ≤ (p.fill addr todo i).2 ∧ (p.fill addr todo i).2 ≤ i + todo ∧
    Tracks (p.fill addr todo i).1 (stream ++ (range ((p.fill addr todo i).2 - i)).map fun j => addr (i + j)) r ∧
    ((p.fill addr todo i).2 < i + todo → (p.fill addr todo i).1.nwrite = (p.fill addr todo i).1.nread + pipeSize) := by
  induction todo generalizing p stream i with
  | zero =>
    rw [Pipe.fill, Nat.sub_self]
    refine ⟨le_rfl, le_rfl, ?_, fun hlt => absurd hlt (Nat.lt_irrefl i)⟩
    rw [range_zero, map_nil, append_nil]
    exact h
  | succ todo ih =>
    rw [Pipe.fill]
    split
    · rename_i hfull
      refine ⟨le_rfl, Nat.le_add_right .., ?_, fun _ => hfull⟩
      rw [Nat.sub_self, range_zero, map_nil, append_nil]
      exact h
    · rename_i hfull
      rw [h.full_iff] at hfull
      have hroom := h.room
      obtain ⟨hle, hge, htracks, hstop⟩ := ih (h.push (by omega) (addr i)) (i + 1)
      refine ⟨by omega, by omega, ?_, fun hlt => hstop (by omega)⟩
      generalize hj : (Pipe.fill addr todo { p with
        data := store p.data (p.nwrite % pipeSize).toNat (addr i), nwrite := p.nwrite + 1 } (i + 1)).2 = j at hle htracks ⊢
      have hrange : (range (j - i)).map (fun k => addr (i + k)) =
          addr i :: (range (j - (i + 1))).map fun k => addr (i + 1 + k) := by
        rw [show j - i = j - (i + 1) + 1 by omega, range_succ_eq_map, map_cons, map_map]
        refine congrArg₂ cons rfl (map_congr_left fun k _ => ?_)
        rw [comp_apply, Nat.succ_eq_add_one, show i + (k + 1) = i + 1 + k by omega]
      rw [hrange, append_cons]
      exact htracks

theorem drain (h : Tracks p stream r) (n : Nat) :
    Tracks (p.drain n).1 stream (r + (p.drain n).2.length) ∧
    stream.drop r = (p.drain n).2 ++ stream.drop (r + (p.drain n).2.length) ∧
    (p.drain n).2.length = min n (stream.length - r) := by
  induction n generalizing p r with
  | zero => exact ⟨h, rfl, by rw [Pipe.drain, Nat.zero_min]; rfl⟩
  | succ n ih =>
    rw [Pipe.drain]
    split
    · rename_i hempty
      rw [h.empty_iff] at hempty
      refine ⟨h, rfl, ?_⟩
      rw [length_nil, hempty, Nat.sub_self, Nat.min_zero]
    · rename_i hempty
      rw [h.empty_iff] at hempty
      have hbehind := h.behind
      obtain ⟨hpop, hdrop⟩ := h.pop (by omega)
      obtain ⟨htracks, hrest, hlength⟩ := ih hpop
      generalize Pipe.drain n { p with nread := p.nread + 1 } = after at htracks hrest hlength ⊢
      have hsum : r + (after.2.length + 1) = r + 1 + after.2.length := by omega
      dsimp only
      rw [length_cons, hsum, hdrop, hrest, cons_append]
      refine ⟨htracks, rfl, ?_⟩
      omega

end Tracks

/-! ### Stretches and calls -/

def stored (writes : List (Nat × List UInt8)) : List UInt8 := writes.flatMap Prod.snd

def storedBy (id : Nat) (writes : List (Nat × List UInt8)) : List UInt8 := stored (writes.filter (·.1 = id))

def State.calling (s : State P) (p : P) : Call := (s.proc p).call

theorem stored_append (writes : List (Nat × List UInt8)) (id : Nat) (bytes : List UInt8) :
    stored (writes ++ [(id, bytes)]) = stored writes ++ bytes :=
  logged_append writes id bytes

theorem storedBy_append (writes : List (Nat × List UInt8)) (id id' : Nat) (bytes : List UInt8) :
    storedBy id' (writes ++ [(id, bytes)]) = storedBy id' writes ++ if id = id' then bytes else [] :=
  loggedBy_append writes id id' bytes

theorem storedBy_eq_nil {writes : List (Nat × List UInt8)} (h : ∀ w ∈ writes, w.1 < id) :
    storedBy id writes = [] :=
  loggedBy_eq_nil h

/-- The call `id` has stored the first `i` bytes at `addr`, and those are not too many. -/
structure Progress (writes : List (Nat × List UInt8)) (calls id : Nat) (addr : Mem) (n : Int) (i : Nat) : Prop where
  lt : id < calls
  bytes : storedBy id writes = (List.range i).map addr
  le : (i : Int) ≤ n ∨ i = 0

/-- A call that has returned a number stored as many bytes. -/
structure Returned (writes : List (Nat × List UInt8)) (calls : Nat) (ret : Return) : Prop where
  lt : ret.id < calls
  bytes : 0 ≤ ret.result → ret.result = ret.n ∧ storedBy ret.id writes = (List.range ret.n.toNat).map ret.addr

structure InvParts (pipe : Pipe) (calling : P → Call) (calls : Nat) (writes : List (Nat × List UInt8))
    (reads : List (List UInt8)) (returns : List Return) : Prop where
  tracks : Tracks pipe (stored writes) reads.flatten.length
  taken : reads.flatten <+: stored writes
  fresh : ∀ w ∈ writes, w.1 < calls
  progress : ∀ p id addr n i, calling p = .write id addr n i → Progress writes calls id addr n i
  own : ∀ p q id addr addr' n n' i i', calling p = .write id addr n i → calling q = .write id addr' n' i' → p = q
  returned : ∀ ret ∈ returns, Returned writes calls ret
  ended : ∀ ret ∈ returns, ∀ p id addr n i, calling p = .write id addr n i → id ≠ ret.id

abbrev Inv (s : State P) : Prop := InvParts s.pipe s.calling s.calls s.writes s.reads s.returns

theorem inv_pipealloc (data : Nat → UInt8) : Inv (pipealloc P data) where
  tracks := ⟨rfl, rfl, le_rfl, Nat.zero_le _, .nil⟩
  taken := prefix_rfl
  fresh _ hw := nomatch hw
  progress _ _ _ _ _ h := nomatch h
  own _ _ _ _ _ _ _ _ _ h := nomatch h
  returned _ hret := nomatch hret
  ended _ hret := nomatch hret

theorem Proc.call_wake (c : Chan) (q : Proc) : (q.wake c).call = q.call := by
  rw [Proc.wake]
  split <;> rfl

theorem calling_wakeup (s : State P) (c : Chan) : (wakeup s c).calling = s.calling :=
  funext fun q => (s.proc q).call_wake c

section Calling

variable [DecidableEq P] (s : State P)

theorem calling_setProc (p : P) (f : Proc → Proc) :
    (s.setProc p f).calling = update s.calling p (f (s.proc p)).call :=
  comp_update Proc.call s.proc p _

theorem calling_same (p : P) (f : Proc → Proc) (h : (f (s.proc p)).call = s.calling p) :
    (s.setProc p f).calling = s.calling := by
  rw [calling_setProc, h]
  exact update_eq_self p s.calling

end Calling

namespace InvParts

variable {pipe : Pipe} {calling : P → Call} {calls : Nat} {writes : List (Nat × List UInt8)}
  {reads : List (List UInt8)} {returns : List Return} {q : P}

theorem read (h : InvParts pipe calling calls writes reads returns) (n : Nat) :
    InvParts (pipe.drain n).1 calling calls writes (reads ++ [(pipe.drain n).2]) returns := by
  obtain ⟨htracks, hdrop, -⟩ := h.tracks.drain n
  have hflatten : (reads ++ [(pipe.drain n).2]).flatten = reads.flatten ++ (pipe.drain n).2 := by
    rw [flatten_append, flatten_singleton]
  refine ⟨?_, ?_, h.fresh, h.progress, h.own, h.returned, h.ended⟩
  · rw [hflatten, length_append]
    exact htracks
  · obtain ⟨rest, hrest⟩ := h.taken
    rw [← hrest, drop_left] at hdrop
    rw [hflatten, ← hrest, hdrop, ← append_assoc]
    exact prefix_append ..

variable [DecidableEq P]

section

variable (h : InvParts pipe calling calls writes reads returns) {n result : Int} {addr : Mem}
include h

theorem leave {call : Call}
    (hcall : ∀ id addr n i, call ≠ .write id addr n i) : InvParts pipe (update calling q call) calls writes reads returns := by
  have hother : ∀ x id addr n i, update calling q call x = .write id addr n i → calling x = .write id addr n i := by
    intro x id addr n i hx
    exact (update_eq hx (hcall id addr n i)).2
  exact ⟨h.tracks, h.taken, h.fresh, fun x id addr n i hx => h.progress x id addr n i (hother _ _ _ _ _ hx),
    fun x y id addr addr' n n' i i' hx hy => h.own x y id addr addr' n n' i i' (hother _ _ _ _ _ hx) (hother _ _ _ _ _ hy),
    h.returned, fun ret hret x id addr n i hx => h.ended ret hret x id addr n i (hother _ _ _ _ _ hx)⟩

theorem enter (addr : Mem) (n : Int) :
    InvParts pipe (update calling q (.write calls addr n 0)) (calls + 1) writes reads returns := by
  have hold : ∀ x id addr' n' i, update calling q (.write calls addr n 0) x = .write id addr' n' i → x ≠ q →
      calling x = .write id addr' n' i := by
    intro x id addr' n' i hx hxq
    rwa [update_of_ne hxq] at hx
  have hnew : ∀ id addr' n' i, update calling q (.write calls addr n 0) q = .write id addr' n' i →
      id = calls ∧ addr' = addr ∧ n' = n ∧ i = 0 := by
    intro id addr' n' i hx
    rw [update_self] at hx
    cases hx
    exact ⟨rfl, rfl, rfl, rfl⟩
  refine ⟨h.tracks, h.taken, fun w hw => (h.fresh w hw).trans (Nat.lt_succ_self calls), ?_, ?_, ?_, ?_⟩
  · intro x id addr' n' i hx
    by_cases hxq : x = q
    · obtain ⟨rfl, rfl, rfl, rfl⟩ := hnew _ _ _ _ (hxq ▸ hx)
      exact ⟨Nat.lt_succ_self _, storedBy_eq_nil h.fresh, .inr rfl⟩
    · obtain ⟨hlt, hbytes, hle⟩ := h.progress x id addr' n' i (hold _ _ _ _ _ hx hxq)
      exact ⟨hlt.trans (Nat.lt_succ_self calls), hbytes, hle⟩
  · intro x y id a a' m m' i i' hx hy
    by_cases hxq : x = q <;> by_cases hyq : y = q
    · rw [hxq, hyq]
    · obtain ⟨rfl, -, -, -⟩ := hnew _ _ _ _ (hxq ▸ hx)
      exact absurd (h.progress y _ _ _ _ (hold _ _ _ _ _ hy hyq)).lt (Nat.lt_irrefl _)
    · obtain ⟨rfl, -, -, -⟩ := hnew _ _ _ _ (hyq ▸ hy)
      exact absurd (h.progress x _ _ _ _ (hold _ _ _ _ _ hx hxq)).lt (Nat.lt_irrefl _)
    · exact h.own x y id a a' m m' i i' (hold _ _ _ _ _ hx hxq) (hold _ _ _ _ _ hy hyq)
  · intro ret hret
    exact ⟨(h.returned ret hret).lt.trans (Nat.lt_succ_self calls), (h.returned ret hret).bytes⟩
  · intro ret hret x id a m i hx
    by_cases hxq : x = q
    · obtain ⟨rfl, -, -, -⟩ := hnew _ _ _ _ (hxq ▸ hx)
      exact (h.returned ret hret).lt.ne'
    · exact h.ended ret hret x id a m i (hold _ _ _ _ _ hx hxq)

theorem store (hcall : calling q = .write id addr n i) :
    InvParts (pipe.fill addr (n - i).toNat i).1
      (update calling q (.write id addr n (pipe.fill addr (n - i).toNat i).2)) calls
      (writes ++ [(id, (range ((pipe.fill addr (n - i).toNat i).2 - i)).map fun j => addr (i + j))]) reads
      returns := by
  obtain ⟨hlow, hhigh, htracks, -⟩ := h.tracks.fill addr (n - i).toNat i
  generalize pipe.fill addr (n - i).toNat i = after at hlow hhigh htracks ⊢
  obtain ⟨hlt, hbytes, hle⟩ := h.progress q id addr n i hcall
  have hsplit : (range i).map addr ++ (range (after.2 - i)).map (fun j => addr (i + j)) =
      (range after.2).map addr := by
    rw [← Nat.add_sub_cancel' hlow, range_add, map_append, map_map, Nat.add_sub_cancel_left]
    rfl
  have hold : ∀ x id' addr' n' i', update calling q (.write id addr n after.2) x = .write id' addr' n' i' → x ≠ q →
      calling x = .write id' addr' n' i' ∧ id ≠ id' := by
    intro x id' addr' n' i' hx hxq
    rw [update_of_ne hxq] at hx
    refine ⟨hx, ?_⟩
    rintro rfl
    exact hxq (h.own x q _ _ _ _ _ _ _ hx hcall)
  have hnew : ∀ id' addr' n' i', update calling q (.write id addr n after.2) q = .write id' addr' n' i' →
      id' = id ∧ addr' = addr ∧ n' = n ∧ i' = after.2 := by
    intro id' addr' n' i' hx
    rw [update_self] at hx
    cases hx
    exact ⟨rfl, rfl, rfl, rfl⟩
  refine ⟨?_, ?_, ?_, ?_, ?_, ?_, ?_⟩
  · rw [stored_append]
    exact htracks
  · rw [stored_append]
    exact h.taken.trans (prefix_append ..)
  · intro w hw
    rw [mem_append, mem_singleton] at hw
    rcases hw with hw | rfl
    · exact h.fresh w hw
    · exact hlt
  · intro x id' addr' n' i' hx
    by_cases hxq : x = q
    · obtain ⟨rfl, rfl, rfl, rfl⟩ := hnew _ _ _ _ (hxq ▸ hx)
      refine ⟨hlt, ?_, by omega⟩
      rw [storedBy_append, if_pos rfl, hbytes, hsplit]
    · obtain ⟨hx, hne⟩ := hold _ _ _ _ _ hx hxq
      obtain ⟨hlt', hbytes', hle'⟩ := h.progress x id' addr' n' i' hx
      refine ⟨hlt', ?_, hle'⟩
      rw [storedBy_append, if_neg hne, append_nil, hbytes']
  · intro x y id' a a' k k' j j' hx hy
    by_cases hxq : x = q <;> by_cases hyq : y = q
    · rw [hxq, hyq]
    · obtain ⟨rfl, -, -, -⟩ := hnew _ _ _ _ (hxq ▸ hx)
      exact absurd rfl (hold _ _ _ _ _ hy hyq).2
    · obtain ⟨rfl, -, -, -⟩ := hnew _ _ _ _ (hyq ▸ hy)
      exact absurd rfl (hold _ _ _ _ _ hx hxq).2
    · exact h.own x y id' a a' k k' j j' (hold _ _ _ _ _ hx hxq).1 (hold _ _ _ _ _ hy hyq).1
  · intro ret hret
    obtain ⟨hlt', hbytes'⟩ := h.returned ret hret
    refine ⟨hlt', fun hresult => ⟨(hbytes' hresult).1, ?_⟩⟩
    rw [storedBy_append, if_neg (h.ended ret hret q id addr n i hcall), append_nil]
    exact (hbytes' hresult).2
  · intro ret hret x id' a k j hx
    by_cases hxq : x = q
    · obtain ⟨rfl, -, -, -⟩ := hnew _ _ _ _ (hxq ▸ hx)
      exact h.ended ret hret q _ _ _ _ hcall
    · exact h.ended ret hret x id' a k j (hold _ _ _ _ _ hx hxq).1

theorem finish (hcall : calling q = .write id addr n i) (hresult : 0 ≤ result → result = n ∧ n ≤ i) :
    InvParts pipe (update calling q .none) calls writes reads (returns ++ [⟨id, addr, n, result⟩]) := by
  obtain ⟨hlt, hbytes, hle⟩ := h.progress q id addr n i hcall
  have hleft : InvParts pipe (update calling q .none) calls writes reads returns := h.leave nofun
  refine ⟨hleft.tracks, hleft.taken, hleft.fresh, hleft.progress, hleft.own, ?_, ?_⟩
  · intro ret hret
    rw [mem_append, mem_singleton] at hret
    rcases hret with hret | rfl
    · exact h.returned ret hret
    · refine ⟨hlt, fun hpos => ?_⟩
      obtain ⟨rfl, hn⟩ := hresult hpos
      refine ⟨rfl, ?_⟩
      rw [hbytes]
      have hi : i = result.toNat := by
        dsimp only at hpos
        omega
      rw [hi]
  · intro ret hret x id' a k j hx
    rw [mem_append, mem_singleton] at hret
    rcases hret with hret | rfl
    · exact hleft.ended ret hret x id' a k j hx
    · rintro rfl
      obtain ⟨hxq, hx⟩ := update_eq hx nofun
      exact hxq (h.own x q _ _ _ _ _ _ _ hx hcall)

end

end InvParts

/-! ### Runs -/

variable [DecidableEq P] {s s' : State P} {q : P} {n : Int}

theorem Inv.pipewrite (h : Inv s) {addr : Mem} (hcall : s.calling q = .write id addr n i) : Inv (pipewrite s q id addr n i) := by
  have hstored := InvParts.store h hcall
  have hinside : update s.calling q (Call.write id addr n (s.pipe.fill addr (n - i).toNat i).2) q = .write id addr n _ :=
    update_self ..
  rw [Pipes.pipewrite]
  dsimp only
  split
  · rename_i hn
    have hdone := hstored.finish hinside fun _ => ⟨rfl, hn⟩
    rw [update_idem] at hdone
    rw [Inv, leave, calling_setProc]
    change InvParts _ (update (wakeup _ _).calling q _) _ _ _ _
    rw [calling_wakeup]
    exact hdone
  · split
    · have hdone := hstored.finish hinside fun hpos : (0 : Int) ≤ -1 => absurd hpos (by decide)
      rw [update_idem] at hdone
      rw [Inv, leave, calling_setProc]
      exact hdone
    · rw [Inv, calling_setProc, calling_wakeup]
      exact hstored

theorem Inv.piperead (h : Inv s) (n : Int) : Inv (piperead s q n) := by
  rw [Pipes.piperead]
  split
  · split
    · rw [Inv, leave, calling_setProc]
      exact h.leave nofun
    · rw [Inv, calling_same _ _ _ rfl]
      exact h
  · dsimp only
    rw [Inv, leave, calling_setProc, calling_wakeup]
    exact (h.read n.toNat).leave nofun

theorem Inv.step (h : Inv s) {a : Action P} (hstep : step s a = some (.ok s')) : Inv s' := by
  cases a with
  | write p addr n =>
    rw [Pipes.step] at hstep
    split at hstep
    · split at hstep
      · cases hstep
        rw [Inv, calling_setProc]
        exact h.enter addr n
      · cases hstep
    · cases hstep
  | read p n =>
    rw [Pipes.step] at hstep
    split at hstep
    · split at hstep
      · cases hstep
        rw [Inv, calling_setProc]
        exact h.leave nofun
      · cases hstep
    · cases hstep
  | run p =>
    rw [Pipes.step] at hstep
    split at hstep
    · split at hstep
      · cases hstep
      · rename_i hcall
        cases hstep
        exact h.pipewrite hcall
      · cases hstep
        exact h.piperead _
    · cases hstep
  | pipeclose writable =>
    rw [Pipes.step] at hstep
    split at hstep
    · cases hstep
      rw [pipeclose]
      split
      all_goals
        rw [Inv, calling_wakeup]
        exact ⟨⟨h.tracks.nread, h.tracks.nwrite, h.tracks.behind, h.tracks.room, h.tracks.data⟩, h.taken, h.fresh,
          h.progress, h.own, h.returned, h.ended⟩
    · cases hstep
  | kill q =>
    cases hstep
    rw [kill, Inv, calling_same _ _ _ rfl]
    exact h

theorem inv_of_reachable {data : Nat → UInt8} (h : (system P data).Reachable s) : Inv s := by
  refine h.of_restrict.invariant (fun t ht => ?_) fun t a t' ht hstep => ht.step hstep
  rw [ht]
  exact inv_pipealloc data

theorem empty_of_read_none (h : Inv s) (hn : 0 < n) (hread : (piperead s q n).reads = s.reads ++ [[]]) :
    (piperead s q n).pipe.nread = (piperead s q n).pipe.nwrite ∧ (piperead s q n).pipe.writeopen = false := by
  rw [piperead] at hread ⊢
  have hnone : s.reads ≠ s.reads ++ [[]] := fun heq => by
    have hlength := congrArg length heq
    rw [length_append, length_singleton] at hlength
    omega
  split at hread
  · split at hread <;> exact absurd hread hnone
  · rename_i hready
    have hempty : (s.pipe.drain n.toNat).2 = [] := singleton_inj.mp (append_cancel_left hread)
    obtain ⟨-, -, hlength⟩ := h.tracks.drain n.toNat
    have hbehind := h.tracks.behind
    rw [hempty, length_nil] at hlength
    have hend : s.pipe.nread = s.pipe.nwrite := h.tracks.empty_iff.mpr (by omega)
    rw [if_neg hready]
    obtain ⟨k, hk⟩ : ∃ k, n.toNat = k + 1 := ⟨n.toNat - 1, by omega⟩
    have hsame : (s.pipe.drain n.toNat).1 = s.pipe := by
      rw [hk, Pipe.drain, if_pos hend]
    change (s.pipe.drain n.toNat).1.nread = (s.pipe.drain n.toNat).1.nwrite ∧ (s.pipe.drain n.toNat).1.writeopen = false
    rw [hsame]
    exact ⟨hend, by simpa [hend] using hready⟩

/-- What was read is what was stored, up to the bytes that lie in the pipe; a `pipewrite` that returns a number has
stored as many bytes, in order; and `piperead` gives nothing only at the end. -/
theorem pipe_is_fifo {data : Nat → UInt8} (h : (system P data).Reachable s) :
    (∃ buffered, stored s.writes = s.reads.flatten ++ buffered ∧
      buffered.length = (s.pipe.nwrite - s.pipe.nread).toNat ∧ buffered.length ≤ pipeSize.toNat) ∧
    (∀ ret ∈ s.returns, 0 ≤ ret.result →
      ret.result = ret.n ∧ storedBy ret.id s.writes = (List.range ret.n.toNat).map ret.addr) ∧
    ∀ p n s', 0 < n → (s.proc p).call = .read n → step s (.run p) = some (.ok s') → s'.reads = s.reads ++ [[]] →
      s'.pipe.nread = s'.pipe.nwrite ∧ s'.pipe.writeopen = false := by
  have hinv := inv_of_reachable h
  refine ⟨?_, fun ret hret => (hinv.returned ret hret).bytes, fun p n s' hn hcall hstep hreads => ?_⟩
  · obtain ⟨buffered, hbuffered⟩ := hinv.taken
    have hlength := congrArg length hbuffered
    have hroom := hinv.tracks.room
    rw [length_append] at hlength
    refine ⟨buffered, hbuffered.symm, ?_, ?_⟩
    · rw [hinv.tracks.nread, hinv.tracks.nwrite, toNat_ofNat_sub hinv.tracks.behind (by omega)]
      omega
    · change buffered.length ≤ 512
      omega
  · rw [step] at hstep
    split at hstep
    · rw [hcall] at hstep
      cases hstep
      exact empty_of_read_none hinv hn hreads
    · cases hstep

/-- A writer stores three bytes, and a reader that asked for two gets them. -/
def writeThenRead (p q : P) : List (Action P) :=
  [.read p 2, .run p, .write q (fun i => .ofNat (i + 7)) 3, .run q, .run p]

theorem pipe_is_fifo_run : ∃ s, (system (Fin 2) fun _ => 0).Reachable s ∧ s.reads = [[7, 8]] ∧
    ∃ buffered, stored s.writes = [7, 8] ++ buffered ∧ buffered.length = (s.pipe.nwrite - s.pipe.nread).toNat := by
  obtain ⟨s, hs, htest⟩ := System.exists_reachable_of_follow Disciplined step (pipealloc (Fin 2) fun _ => 0)
    (writeThenRead 0 1)
    (fun s => s.reads = [[7, 8]]) (by decide +kernel)
  have hreads : s.reads = [[7, 8]] := of_decide_eq_true htest
  obtain ⟨⟨buffered, hstored, hlength, -⟩, -⟩ := pipe_is_fifo hs
  rw [hreads] at hstored
  exact ⟨s, hs, hreads, buffered, hstored, hlength⟩

end RainOS.Pipes
