import RainOS.Process.Exec

/-!
# The other calls

What `fork`, `sbrk`, `wait` and the boot do to memory and to the process table.
-/

namespace RainOS.Process

open Kalloc Vm Function List

variable {s s' : Machine} {m m' : Memory} {l l' : List Nat} {own own' : Nat → Option Owner}
 {n d q sz data : Nat} {p np : Slot}

theorem setProc_run (p : Slot) (f : Proc → Proc) (s : Machine) :
    setProc p f s = .ok () { s with procs := update s.procs p (f (s.procs p)) } := rfl

theorem owned_kalloc (h : Owned m (q :: l) own) :
    Owned { m with freelist := m.word q } l (update own q (some .client)) := by
  have howned := h.take.retag (p := q) (o := some .client) h.head_page (by rw [update_self]; trivial)
    (by rw [update_self]; exact nofun) trivial nofun
  rwa [update_idem] at howned

theorem owned_kfree (h : Owned m l own) (hq : own q = some .client) :
    kfree q m = .ok () (putFree m q) ∧ Owned (putFree m q) (q :: l) (update own q (some .free)) := by
  have hpage := h.page q _ hq
  have howned := (h.retag (p := q) (o := none) hpage (by rw [hq]; trivial) (by rw [hq]; exact nofun) trivial
    nofun).give (update_self ..) hpage
  rw [update_idem] at howned
  exact ⟨kfree_run hpage.1, howned⟩

theorem frame_kfree (hq : q % pgsize = 0) (m : Memory) (own : Nat → Option Owner) (o : Option Owner) :
    Frame (· = q) m own (putFree m q) (update own q o) :=
  ⟨rfl, fun _ hp => update_of_ne hp _ _, fun _ ha => putFree_of_ne hq ha⟩

inductive AllocprocEnds (l : List Nat) (s : Machine) : Option Slot → Machine → Prop
  | full (hno : ∀ p, (s.procs p).state ≠ .unused) : AllocprocEnds l s none s
  | failed (np : Slot) (s' : Machine) (hunused : (s.procs np).state = .unused) (hl : l = [])
      (hmem : s'.mem = s.mem) (hothers : ∀ p, p ≠ np → s'.procs p = s.procs p)
      (hstate : (s'.procs np).state = .unused) (hloads : s'.loads = s.loads) : AllocprocEnds l s none s'
  | made (np : Slot) (kstack : Nat) (l' : List Nat) (s' : Machine) (hunused : (s.procs np).state = .unused)
      (hfirst : ∀ p < np, (s.procs p).state ≠ .unused) (hl : l = kstack :: l') (hmem : s'.mem = { s.mem with freelist := s.mem.word kstack })
      (hothers : ∀ p, p ≠ np → s'.procs p = s.procs p) (hstack : (s'.procs np).kstack = kstack)
      (hloads : s'.loads = s.loads) : AllocprocEnds l s (some np) s'

theorem allocproc_spec (h : Owned s.mem l own) :
    Ends allocproc s (AllocprocEnds l s) fun _ _ => False := by
  unfold allocproc
  refine .after_ok (get_run s) ?_
  cases hfind : (finRange nproc).find? fun p => decide ((s.procs p).state = .unused) with
  | none =>
    refine .pure (.full fun p hp => ?_)
    have hall := find?_eq_none.mp hfind p (mem_finRange p)
    exact hall (decide_eq_true hp)
  | some np =>
    have hfound := find?_some hfind
    have hunused : (s.procs np).state = .unused := of_decide_eq_true hfound
    have hfirst : ∀ p < np, (s.procs p).state ≠ .unused := by
      obtain ⟨-, i, hi, hget, hbefore⟩ := find?_eq_some_iff_getElem.mp hfind
      intro p hp
      rw [getElem_finRange] at hget
      have hlt : p.val < i := by
        rw [← hget] at hp
        exact hp
      have hno := hbefore p.val hlt
      rw [getElem_finRange] at hno
      simpa using hno
    refine .after_ok rfl ?_
    cases l with
    | nil =>
      refine .after_ok (lift_run h.free.kalloc_nil) (.after_ok (setProc_run ..) ?_)
      rw [if_pos rfl]
      refine .after_ok (setProc_run ..) (.pure (.failed np _ hunused rfl rfl (fun p hp => ?_) ?_ rfl))
      · simp only [update_of_ne hp]
      · simp only [update_self]
    | cons q l =>
      refine .after_ok (lift_run h.free.kalloc_cons.1) (.after_ok (setProc_run ..) ?_)
      rw [if_neg (h.free.chain.ne_null mem_cons_self)]
      refine .pure (.made np q l _ hunused hfirst rfl rfl (fun p hp => ?_) ?_ rfl)
      · simp only [update_of_ne hp]
      · simp only [update_self]

def forkRequest (sz free : Nat) : Option Request := (Request.page :: copyRequests sz)[free]?

inductive ForkEnds (p : Slot) (l : List Nat) (own : Nat → Option Owner) (s : Machine) : Int → Machine → Prop
  | full (hno : ∀ q, (s.procs q).state ≠ .unused) : ForkEnds p l own s (-1) s
  | failed (np : Slot) (s' : Machine) (l' : List Nat) (own' : Nat → Option Owner)
      (hunused : (s.procs np).state = .unused) (hothers : ∀ q, q ≠ np → s'.procs q = s.procs q)
      (hstate : (s'.procs np).state = .unused) (hloads : s'.loads = s.loads)
      (hfailed : Failed (forkRequest (s.procs p).sz l.length = some .table) l own s.mem s'.mem l' own') :
      ForkEnds p l own s (-1) s'
  | made (np : Slot) (pid : Nat) (s' : Machine) (l' : List Nat) (own' : Nat → Option Owner)
      (hunused : (s.procs np).state = .unused) (hothers : ∀ q, q ≠ np → s'.procs q = s.procs q)
      (hloads : s'.loads = s.loads) (howned : Owned s'.mem l' own') (hframe : Frame (· ∈ l) s.mem own s'.mem own')
      (hpgdir : (s'.procs np).pgdir ∈ l) (hkstack : (s'.procs np).kstack ∈ l)
      (hclient : own' (s'.procs np).kstack = some .client)
      (hshape : Shaped s'.mem own' (s'.procs np).pgdir (s'.procs np).sz)
      (hflags : (s'.procs np).sz = (s.procs p).sz ∧ ∀ k < npages (s.procs p).sz,
        pteFlags (pteAt s'.mem.word (s'.procs np).pgdir k) = pteFlags (pteAt s.mem.word (s.procs p).pgdir k)) :
      ForkEnds p l own s pid s'

theorem failed_kstack {leaks : Prop} (hbefore : Owned m (q :: l) own)
    (h : Failed leaks l (update own q (some .client)) { m with freelist := m.word q } m' l' own') :
    kfree q m' = .ok () (putFree m' q) ∧
      Failed leaks (q :: l) own m (putFree m' q) (q :: l') (update own' q (some .free)) := by
  have hq : q ∉ l := (nodup_cons.mp hbefore.free.chain.nodup).1
  have hfree : own q = some .free := (hbefore.isFree q).mpr mem_cons_self
  have hclient : own' q = some .client := by rw [h.frame.own q hq, update_self]
  obtain ⟨hrun, howned⟩ := owned_kfree h.owned hclient
  have hstart : Frame (· ∈ q :: l) m own { m with freelist := m.word q } (update own q (some .client)) :=
    ⟨rfl, fun p hp => update_of_ne (ne_of_not_mem_cons hp) _ _, fun _ _ => rfl⟩
  have hend := frame_kfree (h.owned.page q _ hclient).aligned m' own' (some .free)
  refine ⟨hrun, howned, ?_, fun hl => ?_, fun hl => ?_⟩
  · exact (hstart.trans (h.frame.mono fun _ hp => mem_cons_of_mem _ hp)).trans
      (hend.mono fun p hp => hp ▸ mem_cons_self)
  · rw [h.same hl, update_idem, ← hfree, update_eq_self]
  · obtain ⟨⟨r, hr, hnone⟩, hall⟩ := h.lost hl
    have hrq : r ≠ q := fun heq => hq (heq ▸ hr)
    refine ⟨⟨r, mem_cons_of_mem _ hr, by rw [update_of_ne hrq, hnone]⟩, fun p => ?_⟩
    by_cases hp : p = q
    · rw [hp, update_self, hfree]
      exact .inl rfl
    · have hcases := hall p
      rw [update_of_ne hp] at hcases ⊢
      exact hcases.imp_right fun hlost => ⟨mem_cons_of_mem _ hlost.1, hlost.2⟩

theorem fork_spec (hlinked : Linked data) (h : Owned s.mem l own) (hend : kernbase < s.mem.kernelEnd)
    (hlive : (s.procs p).state ≠ .unused) (hshape : Shaped s.mem own (s.procs p).pgdir (s.procs p).sz) :
    Ends (fork data p) s (ForkEnds p l own s) fun _ _ => False := by
  unfold fork
  refine (allocproc_spec h).bind fun r s₁ hr => ?_
  cases hr with
  | full hno => exact .pure (.full hno)
  | failed np _ hunused hl hmem hothers hstate hloads =>
    subst hl
    refine .pure (.failed np s₁ [] own hunused hothers hstate hloads ⟨by rwa [hmem], ?_, fun _ => rfl, nofun⟩)
    rw [hmem]
    exact .refl _ _ _
  | made np kstack l₁ _ hunused hfirst hl hmem hothers hstack hloads =>
    subst hl
    have hpnp : p ≠ np := fun heq => hlive (heq ▸ hunused)
    have howned : Owned s₁.mem l₁ (update own kstack (some .client)) := by
      rw [hmem]
      exact owned_kalloc h
    have hkstack : kstack ∉ l₁ := (nodup_cons.mp h.free.chain.nodup).1
    have hne : (s.procs p).pgdir ≠ kstack := h.head_ne hshape.live nofun
    have hparent : update own kstack (some .client) (s.procs p).pgdir = some .directory := by
      rw [update_of_ne hne, hshape.live]
    have hsz : (s.procs p).sz < 2 ^ 32 := Nat.lt_trans hshape.small (by decide)
    have hcopy := copyuvm_spec hlinked howned hparent (by rw [hmem]; exact hend) hsz
    refine .after_ok (get_run s₁) ?_
    rw [hothers p hpnp, hstack]
    refine .bind (lift_spec (E := fun _ _ => False) (hcopy.stop fun _ _ he => ?_)) fun d s₂ hr => ?_
    · obtain ⟨k, hk, hbad⟩ := he
      have hmax := npages_le (Nat.le_of_lt hshape.small)
      rw [hmem] at hbad
      obtain hbad | hbad := hbad
      · exact hbad (hshape.present k hk)
      · omega
    · obtain ⟨m₂, rfl, hends⟩ := hr
      refine .after_ok (setProc_run ..) ?_
      cases hends with
      | failed _ l₂ own₂ hfailed =>
        rw [hmem] at hfailed
        obtain ⟨hkfree, hfailed'⟩ := failed_kstack h hfailed
        rw [if_pos rfl]
        refine .after_ok (lift_run hkfree) (.after_ok (setProc_run ..) (.pure (.failed np _ _ _ hunused (fun q hq => ?_) ?_ hloads
          hfailed')))
        · simp only [update_of_ne hq, hothers q hq]
        · simp only [update_self]
      | made _ _ l₂ own₂ hne₂ hheld himage hflags =>
        rw [hmem] at hflags hheld
        rw [if_neg hne₂]
        refine .after_ok (setProc_run ..) (.pure (.made np _ _ l₂ own₂ hunused (fun q hq => ?_) hloads
          hheld.owned ?_ ?_ ?_ ?_ ?_ ?_))
        · simp only [update_of_ne hq, hothers q hq]
        · have hstart : Frame (· ∈ kstack :: l₁) s.mem own { s.mem with freelist := s.mem.word kstack }
              (update own kstack (some .client)) :=
            ⟨rfl, fun q hq => update_of_ne (ne_of_not_mem_cons hq) _ _, fun _ _ => rfl⟩
          exact hstart.trans (hheld.frame.mono fun _ hq => mem_cons_of_mem _ hq)
        · simp only [update_self]
          exact mem_cons_of_mem _ hheld.new
        · simp only [update_self, hstack]
          exact mem_cons_self
        · simp only [update_self, hstack]
          rw [hheld.frame.own kstack hkstack, update_self]
        · simp only [update_self]
          exact (himage hshape.small).shaped
        · simp only [update_self]
          exact ⟨trivial, hflags⟩

def sbrkSize (sz : Nat) (n : Int) : Nat := ((sz + n) % 2 ^ 32).toNat

inductive GrowprocEnds (p : Slot) (n : Int) (l : List Nat) (own : Nat → Option Owner) (s : Machine) :
    Int → Machine → Prop
  | grown (s' : Machine) (hpos : 0 < n) (r : Nat) (m' : Memory)
      (hgrow : GrowEnds (s.procs p).pgdir (s.procs p).sz (sbrkSize (s.procs p).sz n) s.mem l own r m')
      (hs' : s' = if r = 0 then { s with mem := m' }
        else { s with mem := m', procs := update s.procs p { s.procs p with sz := r } }) :
      GrowprocEnds p n l own s (if r = 0 then -1 else 0) s'
  | shrunk (s' : Machine) (hneg : n < 0) (r : Nat) (m' : Memory) (l' : List Nat) (own' : Nat → Option Owner)
      (hr : r = min (s.procs p).sz (sbrkSize (s.procs p).sz n)) (howned : Owned m' l' own')
      (hframe : Frame (fun q => spaceOf own q = some (s.procs p).pgdir) s.mem own m' own')
      (hshape : Shaped m' own' (s.procs p).pgdir r)
      (hs' : s' = if r = 0 then { s with mem := m' }
        else { s with mem := m', procs := update s.procs p { s.procs p with sz := r } }) :
      GrowprocEnds p n l own s (if r = 0 then -1 else 0) s'
  | same (hzero : n = 0) : GrowprocEnds p n l own s 0 s

def resized (s : Machine) (p : Slot) (r : Nat) (m' : Memory) : Machine :=
  if r = 0 then { s with mem := m' } else { s with mem := m', procs := update s.procs p { s.procs p with sz := r } }

theorem growproc_ends {n : Int} {R : Nat → Memory → Prop} {Q : Int → Machine → Prop} (hn : n ≠ 0)
    (hx : Ends (if n > 0 then allocuvm (s.procs p).pgdir (s.procs p).sz (sbrkSize (s.procs p).sz n)
      else deallocuvm (s.procs p).pgdir (s.procs p).sz (sbrkSize (s.procs p).sz n)) s.mem R fun _ _ => False)
    (hQ : ∀ r m', R r m' → Q (if r = 0 then -1 else 0) (resized s p r m')) :
    Ends (growproc p n) s Q fun _ _ => False := by
  have hlift := lift_spec hx
  have hfinish : ∀ r s₁, (∃ m', s₁ = { s with mem := m' } ∧ R r m') →
      Ends (if n ≠ 0 ∧ r = 0 then return -1 else do
        setProc p fun q => { q with sz := r }
        return 0 : X Int) s₁ Q fun _ _ => False := by
    rintro r s₁ ⟨m', rfl, hr⟩
    have hq := hQ r m' hr
    rw [resized] at hq
    by_cases hzero : r = 0
    · rw [if_pos ⟨hn, hzero⟩]
      rw [if_pos hzero, if_pos hzero] at hq
      exact .pure hq
    · rw [if_neg fun hf => hzero hf.2]
      rw [if_neg hzero, if_neg hzero] at hq
      exact .after_ok (setProc_run ..) (.pure hq)
  unfold growproc
  refine .after_ok (get_run s) ?_
  dsimp only
  by_cases hpos : n > 0
  · rw [if_pos hpos] at hlift ⊢
    exact .bind hlift hfinish
  · rw [if_neg hpos] at hlift ⊢
    rw [if_pos (by omega)]
    exact .bind hlift hfinish

theorem growproc_spec (n : Int) (h : Owned s.mem l own) (hend : kernbase < s.mem.kernelEnd)
    (hshape : Shaped s.mem own (s.procs p).pgdir (s.procs p).sz) :
    Ends (growproc p n) s (GrowprocEnds p n l own s) fun _ _ => False := by
  obtain hneg | rfl | hpos := lt_trichotomy n 0
  · refine growproc_ends hneg.ne (.congr (by rw [if_neg (by omega)]) (deallocuvm_shaped _ h hshape hend)) ?_
    rintro r m₁ ⟨heq, l₁, own₁, howned, hframe, hshape₁⟩
    rw [← heq] at hshape₁
    exact .shrunk _ hneg r m₁ l₁ own₁ heq howned hframe hshape₁ rfl
  · unfold growproc
    refine .after_ok (get_run s) ?_
    dsimp only
    rw [if_neg (by decide), if_neg (by decide)]
    refine .after_ok rfl ?_
    rw [if_neg fun hf => hf.1 rfl]
    refine .after_ok (setProc_run ..) (.pure ?_)
    have hsame : { s with procs := update s.procs p { s.procs p with sz := (s.procs p).sz } } = s := by
      rw [show ({ s.procs p with sz := (s.procs p).sz } : Proc) = s.procs p from rfl, update_eq_self]
    rw [hsame]
    exact .same rfl
  · exact growproc_ends hpos.ne' (.congr (by rw [if_pos hpos]) (allocuvm_shaped _ h hshape hend)) fun r m₁ hgrow =>
      .grown _ hpos r m₁ hgrow rfl

end RainOS.Process
