import Mathlib.Data.Fintype.Basic
import RainOS.Icache.Invariant

/-!
# One entry for an inode, one process in it

What every run of the inode cache keeps, from what each of its calls does to the references and the locks.
-/

namespace RainOS.Icache

open Function List Option

variable {n : Nat} {P : Type}

namespace State

def key (s : State n P) : Fin n → Key := Inode.key ∘ s.inode

def ref (s : State n P) : Fin n → Nat := Inode.ref ∘ s.inode

def busy (s : State n P) : Fin n → Bool := Inode.busy ∘ s.inode

def valid (s : State n P) : Fin n → Bool := Inode.valid ∘ s.inode

end State

structure Inv (s : State n P) : Prop where
  refs : Refs s.key s.ref s.refs
  locks : Locks s.busy s.valid s.call s.locked
  used : ∀ p ip, s.Uses p ip → 0 < s.ref ip

variable {s s' : State n P} {p q : P} {ip j : Fin n} {k : Key} {c : Inode}

/-- A step keeps the invariant, and an entry with references its inode. -/
structure Next (s s' : State n P) : Prop where
  inv : Inv s'
  key : ∀ i, 0 < s.ref i → s'.key i = s.key i

theorem Next.of_update (hinode : s'.inode = update s.inode ip c) (hkey : 0 < s.ref ip → c.key = s.key ip)
    (hrefs : Refs (update s.key ip c.key) (update s.ref ip c.ref) s'.refs)
    (hlocks : Locks (update s.busy ip c.busy) (update s.valid ip c.valid) s'.call s'.locked)
    (hused : ∀ q j, s'.Uses q j → 0 < update s.ref ip c.ref j) : Next s s' := by
  have hfield : ∀ {α : Type} (g : Inode → α), g ∘ s'.inode = update (g ∘ s.inode) ip (g c) := by
    intro α g
    rw [hinode, comp_update]
  refine ⟨⟨?_, ?_, fun q j hq => ?_⟩, fun i hi => ?_⟩
  · rw [State.key, State.ref, hfield, hfield]
    exact hrefs
  · rw [State.busy, State.valid, hfield, hfield]
    exact hlocks
  · rw [State.ref, hfield]
    exact hused q j hq
  · rw [State.key, hfield]
    by_cases hip : i = ip
    · subst hip
      rw [update_self]
      exact hkey hi
    · exact update_of_ne hip ..

theorem iinit_inv (disk : Key → Fs.Dinode) : Inv (iinit n P disk) where
  refs := ⟨fun _ => rfl, nofun, fun _ _ hi => absurd hi (Nat.lt_irrefl 0)⟩
  locks := ⟨fun _ => ⟨nofun, nofun⟩, nofun, nofun, nofun, nofun, nofun⟩
  used _ _ h := by simp [State.Uses, iinit] at h

theorem Inv.setRef (h : Inv s) {ref : Nat} {refs : List (Fin n × Key)} (hrefs : Refs s.key (update s.ref ip ref) refs)
    (hused : (∃ q, s.Uses q ip) → 0 < ref) :
    Next s { s.setInode ip fun c => { c with ref := ref } with refs := refs } := by
  refine Next.of_update (by rfl) (fun _ => by rfl) ?_ ?_ fun q j hq => ?_
  · change Refs (update s.key ip (s.key ip)) _ _
    rwa [update_eq_self]
  · change Locks (update s.busy ip (s.busy ip)) (update s.valid ip (s.valid ip)) _ _
    rw [update_eq_self, update_eq_self]
    exact h.locks
  · by_cases hj : j = ip
    · subst hj
      rw [update_self]
      exact hused ⟨q, hq⟩
    · rw [update_of_ne hj]
      exact h.used q j hq

theorem Inv.idup (h : Inv s) (hpos : 0 < s.ref ip) (hkey : s.key ip = k) : Next s (Icache.idup s ip k) :=
  h.setRef (h.refs.add hpos hkey) fun _ => Nat.succ_pos _

theorem Inv.recycle (h : Inv s) (hzero : s.ref ip = 0) (hnone : ∀ i, 0 < s.ref i → s.key i ≠ k) :
    Next s { s.setInode ip fun c => { c with key := k, ref := 1, busy := false, valid := false } with
      refs := (ip, k) :: s.refs } := by
  have hunused : ∀ q, ¬ s.Uses q ip := fun q hq => absurd (h.used q ip hq) (by rw [hzero]; exact Nat.lt_irrefl 0)
  have hunkeyed : 0 < s.ref ip → k = s.key ip := fun hpos => absurd hzero hpos.ne'
  refine Next.of_update (by rfl) hunkeyed (h.refs.recycle hzero hnone) (h.locks.reset hunused) fun q j hq => ?_
  have hj : j ≠ ip := by
    rintro rfl
    exact hunused q hq
  rw [update_of_ne hj]
  exact h.used q j hq

/-- `iget` adds a reference to the entry of the inode, or takes one that has none when no entry is the inode's. -/
theorem iget_cases (h : iget s k = .ok s') :
    (∃ ip, 0 < s.ref ip ∧ s.key ip = k ∧ s' = idup s ip k) ∨
    ∃ ip, s.ref ip = 0 ∧ (∀ i, 0 < s.ref i → s.key i ≠ k) ∧
      s' = { s.setInode ip fun c => { c with key := k, ref := 1, busy := false, valid := false } with
        refs := (ip, k) :: s.refs } := by
  rw [iget] at h
  split at h
  · rename_i ip hfind
    have hfound := find?_some hfind
    rw [decide_eq_true_eq] at hfound
    exact .inl ⟨ip, hfound.1, hfound.2, (Except.ok.inj h).symm⟩
  · rename_i hfind
    split at h
    · rename_i ip hempty
      have hzero := find?_some hempty
      rw [decide_eq_true_eq] at hzero
      refine .inr ⟨ip, hzero, fun i hi hkey => ?_, (Except.ok.inj h).symm⟩
      exact find?_eq_none.mp hfind i (mem_finRange i) (decide_eq_true ⟨hi, hkey⟩)
    · cases h

theorem Inv.iget (h : Inv s) (hstep : iget s k = .ok s') : Next s s' := by
  rcases iget_cases hstep with ⟨ip, hpos, hkey, rfl⟩ | ⟨ip, hzero, hnone, rfl⟩
  · exact h.idup hpos hkey
  · exact h.recycle hzero hnone

theorem Inv.relock (h : Inv s) (hinode : s'.inode = update s.inode ip c) (hkey : c.key = (s.inode ip).key)
    (href : c.ref = (s.inode ip).ref) (hrefs : s'.refs = s.refs)
    (hlocks : Locks (update s.busy ip c.busy) (update s.valid ip c.valid) s'.call s'.locked)
    (huses : ∀ q j, s'.Uses q j → s.Uses q j) : Next s s' := by
  have hkey' : update s.key ip c.key = s.key := hkey ▸ update_eq_self ip s.key
  have href' : update s.ref ip c.ref = s.ref := href ▸ update_eq_self ip s.ref
  refine Next.of_update hinode (fun _ => hkey) ?_ hlocks fun q j hq => ?_
  · rw [hkey', href', hrefs]
    exact h.refs
  · rw [href']
    exact h.used q j (huses q j hq)

theorem uses_wakeup (h : (wakeup s ip).Uses q j) : s.Uses q j := by
  rcases h with h | h
  · exact .inl h
  · refine .inr ?_
    change (s.call q).wake ip = _ ∨ (s.call q).wake ip = _ ∨ (s.call q).wake ip = _ at h
    cases hcall : s.call q with
    | asleep i =>
      rw [hcall, Call.wake] at h
      split at h
      · simp only [Call.ilock.injEq, reduceCtorEq, or_false] at h
        exact .inr (.inl (h ▸ rfl))
      · simpa using h
    | _ =>
      rw [hcall] at h
      exact h

variable [DecidableEq P]

theorem Inv.iput_eq (h : Inv s) (hdisc : Disciplined s (.iput p ip k)) :
    iput s p ip k = .ok { s.setInode ip fun c => { c with ref := c.ref - 1 } with refs := s.refs.erase (ip, k) } := by
  refine if_neg fun ⟨hone, hvalid, _⟩ => ?_
  obtain ⟨q, hq⟩ := (h.locks.held ip).mp (h.locks.inside ip hvalid)
  have htwo := hdisc.2 ⟨q, .inl hq⟩
  rw [← h.refs.count] at htwo
  exact absurd (hone ▸ htwo : 2 ≤ 1) (by decide)

theorem Inv.iput (h : Inv s) (hdisc : Disciplined s (.iput p ip k)) (hstep : iput s p ip k = .ok s') : Next s s' := by
  rw [h.iput_eq hdisc] at hstep
  cases hstep
  refine h.setRef (h.refs.drop hdisc.1) fun hused => ?_
  have htwo := hdisc.2 hused
  rw [← h.refs.count] at htwo
  exact Nat.sub_pos_of_lt htwo

theorem uses_setCall {c : Call n} (h : (s.setCall p c).Uses q j) :
    s.Uses q j ∨ q = p ∧ (c = .ilock j ∨ c = .asleep j ∨ c = .load j) := by
  rcases h with h | h
  · exact .inl (.inl h)
  · by_cases hq : q = p
    · subst hq
      refine .inr ⟨rfl, ?_⟩
      simpa only [State.setCall, update_self] using h
    · refine .inl (.inr ?_)
      simpa only [State.setCall, update_of_ne hq] using h

theorem Inv.setCall (h : Inv s) {c : Call n} (hc : c = .idle ∨ ∃ j, (c = .ilock j ∨ c = .asleep j) ∧ 0 < s.ref j) :
    Next s (s.setCall p c) := by
  refine ⟨⟨h.refs, h.locks.setCall (hc.imp_right fun ⟨j, hj, _⟩ => ⟨j, hj⟩), fun q j hq => ?_⟩, fun _ _ => rfl⟩
  change 0 < s.ref j
  rcases uses_setCall hq with hq | ⟨-, hj⟩
  · exact h.used q j hq
  · rcases hc with rfl | ⟨i, rfl | rfl, hpos⟩
    · simp at hj
    · simp only [Call.ilock.injEq, reduceCtorEq, or_false] at hj
      exact hj ▸ hpos
    · simp only [Call.asleep.injEq, reduceCtorEq, or_false, false_or] at hj
      exact hj ▸ hpos

theorem uses_setLocked {b : Bool} (h : (s.setLocked p ip b).Uses q j) :
    s.Uses q j ∨ b = true ∧ q = p ∧ j = ip := by
  rcases h with h | h
  · by_cases hq : q = p
    · subst hq
      by_cases hj : j = ip
      · subst hj
        refine .inr ⟨?_, rfl, rfl⟩
        simpa only [State.setLocked, update_self] using h
      · refine .inl (.inl ?_)
        simpa only [State.setLocked, update_self, update_of_ne hj] using h
    · refine .inl (.inl ?_)
      simpa only [State.setLocked, update_of_ne hq] using h
  · exact .inl (.inr h)

theorem Inv.ilockSection (h : Inv s) (hcall : s.call p = .ilock ip) : Next s (ilockSection s p ip) := by
  have huses : s.Uses p ip := .inr (.inl hcall)
  rw [Icache.ilockSection]
  split
  · exact h.setCall (.inr ⟨ip, .inr rfl, h.used p ip huses⟩)
  · rename_i hfree
    refine h.relock (by rfl) (by rfl) (by rfl) rfl ?_ fun q j hq => ?_
    · change Locks (update s.busy ip true) (update s.valid ip (s.valid ip)) _ _
      rw [update_eq_self]
      exact h.locks.acquire (Bool.eq_false_of_not_eq_true hfree)
    · rcases uses_setLocked hq with hq | ⟨-, rfl, rfl⟩
      · rcases uses_setCall hq with hq | ⟨rfl, hj⟩
        · exact hq
        · simp only [reduceCtorEq, Call.load.injEq, false_or] at hj
          exact hj ▸ huses
      · exact huses

theorem Inv.load (h : Inv s) (hcall : s.call p = .load ip) (hstep : load s p ip = .ok s') :
    Next s s' ∧ s'.call p = .idle ∧ s'.locked p ip = true ∧ (s'.inode ip).toDinode = s'.disk (s'.inode ip).key := by
  obtain ⟨hlocked, hvalid⟩ := h.locks.loading p ip hcall
  change (s.inode ip).valid = false at hvalid
  rw [Icache.load, if_neg (ne_true_of_eq_false hvalid)] at hstep
  dsimp only at hstep
  split at hstep
  · cases hstep
  · cases hstep
    refine ⟨h.relock (by rfl) (by rfl) (by rfl) rfl ?_ fun q j hq => ?_, update_self .., hlocked, ?_⟩
    · change Locks (update s.busy ip (s.busy ip)) (update s.valid ip true) _ _
      rw [update_eq_self]
      exact h.locks.loaded hcall
    · rcases uses_setCall hq with hq | ⟨-, hj⟩
      · exact hq
      · simp at hj
    · change (update s.inode ip _ ip).toDinode = s.disk (update s.inode ip _ ip).key
      rw [update_self]

theorem Inv.iunlock (h : Inv s) (hlocked : s.locked p ip = true) (hidle : s.call p = .idle)
    (hstep : iunlock s p ip = .ok s') : Next s s' := by
  rw [Icache.iunlock] at hstep
  split at hstep
  · cases hstep
  · cases hstep
    refine h.relock (by rfl) (by rfl) (by rfl) rfl (h.locks.release hlocked hidle) fun q j hq => ?_
    rcases uses_setLocked (uses_wakeup hq) with hq | ⟨hfalse, -⟩
    · exact hq
    · cases hfalse

theorem Inv.step (h : Inv s) {a : Action n P} (hdisc : Disciplined s a) (hstep : step s a = some (.ok s')) :
    Next s s' := by
  cases a with
  | iget p key =>
    obtain ⟨-, hstep⟩ := ite_none_right_eq_some.mp hstep
    exact h.iget (some.inj hstep)
  | idup p ip key =>
    obtain ⟨-, hstep⟩ := ite_none_right_eq_some.mp hstep
    cases hstep
    exact h.idup (h.refs.ref_pos hdisc) (h.refs.keys _ hdisc)
  | ilock p ip =>
    obtain ⟨-, hstep⟩ := ite_none_right_eq_some.mp hstep
    rw [ilock] at hstep
    split at hstep
    · cases hstep
    · cases hstep
      obtain ⟨x, hx, rfl⟩ := hdisc
      exact h.setCall (.inr ⟨x.1, .inl rfl, h.refs.ref_pos hx⟩)
  | run p =>
    rw [Icache.step] at hstep
    split at hstep
    · cases hstep
    · cases hstep
    · rename_i ip hcall
      cases hstep
      exact h.ilockSection hcall
    · rename_i ip hcall
      exact (h.load hcall (some.inj hstep)).1
    · rename_i ip hcall
      exact absurd hcall (h.locks.itrunc p ip)
    · rename_i ip key hcall
      exact absurd hcall (h.locks.ifree p ip key)
  | iunlock p ip =>
    obtain ⟨hidle, hstep⟩ := ite_none_right_eq_some.mp hstep
    exact h.iunlock hdisc hidle (some.inj hstep)
  | iput p ip key =>
    obtain ⟨-, hstep⟩ := ite_none_right_eq_some.mp hstep
    exact h.iput hdisc (some.inj hstep)
  | modify p ip d =>
    obtain ⟨-, hstep⟩ := ite_none_right_eq_some.mp hstep
    cases hstep
    refine h.relock (by rfl) (by rfl) (by rfl) rfl ?_ fun _ _ => id
    change Locks (update s.busy ip (s.busy ip)) (update s.valid ip (s.valid ip)) _ _
    rw [update_eq_self, update_eq_self]
    exact h.locks
  | iupdate p ip =>
    obtain ⟨-, hstep⟩ := ite_none_right_eq_some.mp hstep
    cases hstep
    exact ⟨⟨h.refs, h.locks, h.used⟩, fun _ _ => rfl⟩

theorem inv_of_reachable {disk : Key → Fs.Dinode} (h : (system n P disk).Reachable s) : Inv s := by
  refine h.invariant (fun _ hs => hs ▸ iinit_inv disk) fun _ _ _ hinv hstep => ?_
  exact (hinv.step hstep.1 hstep.2).inv

theorem inode_cache {disk : Key → Fs.Dinode} (h : (system n P disk).Reachable s) :
    (∀ i j, 0 < (s.inode i).ref → 0 < (s.inode j).ref → (s.inode i).key = (s.inode j).key → i = j) ∧
    (∀ i, (s.inode i).ref = s.refs.countP (·.1 = i)) ∧
    (∀ i p q, s.locked p i = true → s.locked q i = true → p = q) ∧
    (∀ a s', (system n P disk).Step s a s' → ∀ i, 0 < (s.inode i).ref → (s'.inode i).key = (s.inode i).key) ∧
    ∀ p i s', s.call p = .load i → (system n P disk).Step s (.run p) s' →
      s'.call p = .idle ∧ s'.locked p i = true ∧ (s'.inode i).toDinode = s'.disk (s'.inode i).key := by
  have hinv := inv_of_reachable h
  refine ⟨hinv.refs.unique, hinv.refs.count, fun i p q => hinv.locks.one p q i,
    fun _ _ hstep => (hinv.step hstep.1 hstep.2).key, fun p i s' hcall ⟨_, hstep⟩ => ?_⟩
  have hrun : step s (.run p) = some (load s p i) := by rw [step, hcall]
  exact (hinv.load hcall (some.inj (hrun.symm.trans hstep))).2

instance [Fintype P] (s : State n P) : ∀ a, Decidable (Disciplined s a)
  | .iget .. | .run _ => inferInstanceAs (Decidable True)
  | .idup _ ip key => inferInstanceAs (Decidable ((ip, key) ∈ s.refs))
  | .ilock _ ip => inferInstanceAs (Decidable (∃ x ∈ s.refs, x.1 = ip))
  | .iunlock p ip | .modify p ip _ | .iupdate p ip => inferInstanceAs (Decidable (s.locked p ip = true))
  | .iput _ ip _ => inferInstanceAs (Decidable (_ ∧ ((∃ q, s.Uses q ip) → 2 ≤ s.refs.countP (·.1 = ip))))

/-- Two processes open one inode. The second waits for the lock until the first has changed the inode and put it back, and
then is about to read it from disk. -/
theorem inode_cache_run : ∃ s : State 2 (Fin 2), (system 2 (Fin 2) fun _ => Fs.Dinode.fresh 2).Reachable s ∧
    s.call 1 = .load 0 ∧ (s.disk ⟨1, 7⟩).size = 5 ∧ (s.inode 0).ref = s.refs.countP (·.1 = 0) ∧ (s.inode 0).ref = 1 := by
  obtain ⟨s, hs, htest⟩ := System.exists_reachable_of_follow Disciplined step
    (iinit 2 (Fin 2) fun _ => Fs.Dinode.fresh 2)
    [.iget 0 ⟨1, 7⟩, .iget 1 ⟨1, 7⟩, .ilock 0 0, .run 0, .ilock 1 0, .run 1, .run 0,
      .modify 0 0 { Fs.Dinode.fresh 2 with size := 5 }, .iupdate 0 0, .iunlock 0 0, .iput 0 0 ⟨1, 7⟩, .run 1]
    (fun s => s.call 1 == .load 0 && (s.disk ⟨1, 7⟩).size == 5 && (s.inode 0).ref == 1) (by decide +kernel)
  simp only [Bool.and_eq_true, beq_iff_eq] at htest
  exact ⟨s, hs, htest.1.1, htest.1.2, (inode_cache hs).2.1 0, htest.2⟩

end RainOS.Icache
