import RainOS.Kalloc.Grants
import RainOS.Vm.Image

/-!
# Page ownership in every run

Calls of the functions of `vm.c` on any number of page directories, among calls of `kalloc` and `kfree`
by the kernel's other users, from the boot's free list on. A call may fail at any `kalloc`. A page is on
the free list, or is a directory, or the table of one directory entry, or the frame of one page of one
address space, or belongs to a user of `kalloc`, and never two of these.
-/

namespace RainOS.Vm

open Kalloc Function List

structure State where
  mem : Memory
  dirs : List Nat
  clients : List Nat

inductive Action
  | setupkvm
  | allocuvm (pgdir oldsz newsz : Nat)
  | deallocuvm (pgdir oldsz newsz : Nat)
  | copyuvm (pgdir sz : Nat)
  | freevm (pgdir : Nat)
  | kalloc
  | kfree (v : Nat)
  | store (a v : Nat)

def finish {α : Type} (r : EStateM.Result Halt Memory α) (f : α → Memory → State) : Except Halt State :=
  match r with
  | .ok x m => .ok (f x m)
  | .error e _ => .error e

def step (data : Nat) (s : State) : Action → Except Halt State
  | .setupkvm => finish (setupkvm data s.mem) fun pgdir m => ⟨m, give s.dirs pgdir, s.clients⟩
  | .allocuvm pgdir oldsz newsz => finish (allocuvm pgdir oldsz newsz s.mem) fun _ m => ⟨m, s.dirs, s.clients⟩
  | .deallocuvm pgdir oldsz newsz =>
    finish (deallocuvm pgdir oldsz newsz s.mem) fun _ m => ⟨m, s.dirs, s.clients⟩
  | .copyuvm pgdir sz => finish (copyuvm data pgdir sz s.mem) fun d m => ⟨m, give s.dirs d, s.clients⟩
  | .freevm pgdir => finish (freevm pgdir s.mem) fun _ m => ⟨m, s.dirs.erase pgdir, s.clients⟩
  | .kalloc => finish (kalloc s.mem) fun page m => ⟨m, s.dirs, give s.clients page⟩
  | .kfree v => finish (kfree v s.mem) fun _ m => ⟨m, s.dirs, s.clients.erase v⟩
  | .store a v => finish (setWord a v s.mem) fun _ m => ⟨m, s.dirs, s.clients⟩

def Holds (s : State) (p : Nat) : Owner → Prop
  | .free => findFree s.mem p = some true
  | .directory => p ∈ s.dirs
  | .table d i => d ∈ s.dirs ∧ i < npdentries ∧ tableAt s.mem.word d i = some p
  | .user d n => d ∈ s.dirs ∧ n < userPages ∧ frameAt s.mem.word d n = some p
  | .client => p ∈ s.clients

/-- The directories are live, sizes are words, `deallocuvm` is given a size of at most `KERNBASE`, `kfree`
a page that its caller has, and a process or a user of `kalloc` writes only to its own pages. -/
def Allowed (s : State) : Action → Prop
  | .setupkvm | .kalloc => True
  | .allocuvm pgdir _ _ | .freevm pgdir => pgdir ∈ s.dirs
  | .deallocuvm pgdir oldsz _ => pgdir ∈ s.dirs ∧ oldsz ≤ kernbase
  | .copyuvm pgdir sz => pgdir ∈ s.dirs ∧ sz < 2 ^ 32
  | .kfree v => v ∈ s.clients
  | .store a _ => Holds s (pgrounddown a) .client ∨ ∃ d n, Holds s (pgrounddown a) (.user d n)

def system (data : Nat) : System State Action where
  Init s := ∃ m, KernelEnd m.kernelEnd ∧ m.freelist = 0 ∧ kinit m = .ok () s.mem ∧ s.dirs = [] ∧ s.clients = []
  Step s a s' := Allowed s a ∧ step data s a = .ok s'

variable {m m' : Memory} {l l' pages freed : List Nat} {own own' own'' : Nat → Option Owner}
  {p q d n lo hi data count oldsz newsz pgdir sz v a : Nat} {s s' : State} {α : Type} {f : α → Memory → State}

/-! ### Directories and clients -/

/-- The same pages are directories and the same pages belong to users of `kalloc`. -/
def SameRoles (own own' : Nat → Option Owner) : Prop :=
  ∀ p, (own' p = some .directory ↔ own p = some .directory) ∧ (own' p = some .client ↔ own p = some .client)

theorem SameRoles.trans (h : SameRoles own own') (h' : SameRoles own' own'') : SameRoles own own'' := fun p =>
  ⟨(h' p).1.trans (h p).1, (h' p).2.trans (h p).2⟩

theorem SameRoles.of_changes (h : ∀ p, own' p = own p ∨
    (own p ≠ some .directory ∧ own p ≠ some .client) ∧ own' p ≠ some .directory ∧ own' p ≠ some .client) :
    SameRoles own own' := by
  intro p
  obtain heq | ⟨⟨hdir, hclient⟩, hdir', hclient'⟩ := h p
  · rw [heq]
    exact ⟨Iff.rfl, Iff.rfl⟩
  · exact ⟨iff_of_false hdir' hdir, iff_of_false hclient' hclient⟩

theorem ne_client_of_space (h : spaceOf own p = some d) : own p ≠ some .client := by
  intro hp
  rw [spaceOf_of_own hp] at h
  cases h

theorem eq_of_space (h : spaceOf own p = some d) (hp : own p = some .directory) : p = d := by
  rw [spaceOf_of_own hp] at h
  exact Option.some.inj h

theorem Grew.sameRoles (h : Grew d pages m own m' own') (hfree : ∀ p ∈ pages, own p = some .free)
    (hd : own d = some .directory) : SameRoles own own' := by
  refine .of_changes fun p => ?_
  by_cases hp : p ∈ pages
  · refine .inr ⟨?_, fun hdir => ?_, ne_client_of_space (h.mine p hp)⟩
    · rw [hfree p hp]
      exact ⟨nofun, nofun⟩
    · have hfreed := hfree p hp
      rw [eq_of_space (h.mine p hp) hdir, hd] at hfreed
      cases hfreed
  · exact .inl (h.other p hp)

theorem Filled.sameRoles {F : Nat → Nat} (h : Filled F d n count pages m l own m' l' own')
    (hbefore : Owned m l own) (hd : own d = some .directory) : SameRoles own own' :=
  h.grew.sameRoles (fun _ hp => hbefore.free_of_split h.split hp) hd

theorem Took.sameRoles (h : Took q m l own m' l') : SameRoles own (update own q none) := by
  refine .of_changes fun p => ?_
  by_cases hp : p = q
  · have hq : own q = some .free := by
      rw [h.before.isFree, h.split]
      exact mem_cons_self
    rw [hp, update_self, hq]
    exact .inr ⟨⟨nofun, nofun⟩, nofun, nofun⟩
  · exact .inl (update_of_ne hp _ _)

theorem Dropped.sameRoles (h : Dropped d lo hi freed m l own m' l' own') : SameRoles own own' := by
  refine .of_changes fun p => ?_
  by_cases hp : p ∈ freed
  · obtain ⟨n, -, -, huser⟩ := h.user p hp
    rw [h.mine p hp, huser]
    exact .inr ⟨⟨nofun, nofun⟩, nofun, nofun⟩
  · exact .inl (h.other p hp)

theorem Leaked.sameRoles (h : Leaked l own own') (hbefore : Owned m l own) : SameRoles own own' := by
  refine .of_changes fun p => (h.2 p).imp_right fun ⟨hp, hnone⟩ => ?_
  rw [(hbefore.isFree p).mpr hp, hnone]
  exact ⟨⟨nofun, nofun⟩, nofun, nofun⟩

/-! ### The invariant -/

structure Inv (s : State) (l : List Nat) (own : Nat → Option Owner) : Prop where
  owned : Owned s.mem l own
  above : kernbase < s.mem.kernelEnd
  dirs : ∀ p, own p = some .directory ↔ p ∈ s.dirs
  clients : ∀ p, own p = some .client ↔ p ∈ s.clients
  dirs_nodup : s.dirs.Nodup
  clients_nodup : s.clients.Nodup

theorem Inv.own_eq (h : Inv s l own) {o : Owner} (hp : Holds s p o) : own p = some o := by
  cases o with
  | free =>
    change findFree s.mem p = some true at hp
    rw [h.owned.free.findFree_eq, Option.some.injEq, decide_eq_true_iff] at hp
    exact (h.owned.isFree p).mpr hp
  | directory => exact (h.dirs p).mpr hp
  | table d i => exact (h.owned.isTable p d i).mpr ⟨(h.dirs d).mpr hp.1, hp.2⟩
  | user d n => exact (h.owned.isUser p d n).mpr ⟨(h.dirs d).mpr hp.1, hp.2⟩
  | client => exact (h.clients p).mpr hp

theorem Inv.of_sameRoles (h : Inv s l own) (howned : Owned m' l' own') (hend : m'.kernelEnd = s.mem.kernelEnd)
    (hroles : SameRoles own own') : Inv ⟨m', s.dirs, s.clients⟩ l' own' :=
  ⟨howned, by rw [hend]; exact h.above, fun p => (hroles p).1.trans (h.dirs p),
    fun p => (hroles p).2.trans (h.clients p), h.dirs_nodup, h.clients_nodup⟩

theorem finish_ok {r : EStateM.Result Halt Memory α} (h : finish r f = .ok s') : ∃ x m, r = .ok x m ∧ f x m = s' := by
  cases r with
  | ok x m => exact ⟨x, m, rfl, Except.ok.inj h⟩
  | error e m => cases h

theorem finish_spec {x : M α} {Q : α → Memory → Prop} {E : Halt → Memory → Prop}
    (hspec : Ends x m Q E) (hrun : finish (x m) f = .ok s') : ∃ r m', Q r m' ∧ f r m' = s' := by
  obtain ⟨r, m', hr, heq⟩ := finish_ok hrun
  exact ⟨r, m', hspec.of_ok hr, heq⟩

theorem Inv.newDir (h : Inv s l own) (hne : d ≠ 0) (hheld : Held s.mem l own d none m' l' own') :
    Inv ⟨m', give s.dirs d, s.clients⟩ l' own' := by
  have hgive : give s.dirs d = d :: s.dirs := if_neg hne
  have hnew : ∀ p ∈ l, own' p ≠ some .client ∧ (own' p = some .directory → p = d) := by
    intro p hp
    obtain hin | hspace := hheld.back p hp nofun
    · rw [(hheld.owned.isFree p).mpr hin]
      exact ⟨nofun, nofun⟩
    · exact ⟨ne_client_of_space hspace, eq_of_space hspace⟩
  refine ⟨hheld.owned, hheld.above', fun p => ?_, fun p => ?_, ?_, h.clients_nodup⟩
  · change _ ↔ p ∈ give s.dirs d
    rw [hgive, mem_cons, ← h.dirs p]
    by_cases hp : p ∈ l
    · refine ⟨fun hdir => .inl ((hnew p hp).2 hdir), ?_⟩
      rintro (rfl | hdir)
      · exact hheld.live
      · rw [(h.owned.isFree p).mpr hp] at hdir
        cases hdir
    · rw [hheld.frame.own p hp]
      exact (or_iff_right fun heq : p = d => hp (heq ▸ hheld.new)).symm
  · rw [← h.clients p]
    by_cases hp : p ∈ l
    · rw [(h.owned.isFree p).mpr hp]
      exact iff_of_false (hnew p hp).1 nofun
    · rw [hheld.frame.own p hp]
  · change (give s.dirs d).Nodup
    rw [hgive]
    refine nodup_cons.mpr ⟨fun hd => ?_, h.dirs_nodup⟩
    rw [← h.dirs d, (h.owned.isFree d).mpr hheld.new] at hd
    cases hd

theorem Inv.released (h : Inv s l own) (hd : own d = some .directory) (howned : Owned m' l' (release own d))
    (hend : m'.kernelEnd = s.mem.kernelEnd) : Inv ⟨m', s.dirs.erase d, s.clients⟩ l' (release own d) := by
  refine ⟨howned, by rw [hend]; exact h.above, fun p => ?_, fun p => ?_, h.dirs_nodup.erase d, h.clients_nodup⟩
  · rw [h.dirs_nodup.mem_erase_iff, ← h.dirs p]
    unfold release
    by_cases hp : spaceOf own p = some d
    · rw [if_pos hp]
      exact iff_of_false nofun fun ⟨hne, hdir⟩ => hne (eq_of_space hp hdir)
    · rw [if_neg hp, iff_and_self]
      rintro hdir rfl
      exact hp (spaceOf_of_own hd)
  · rw [← h.clients p]
    unfold release
    by_cases hp : spaceOf own p = some d
    · rw [if_pos hp]
      exact iff_of_false nofun (ne_client_of_space hp)
    · rw [if_neg hp]

/-! ### One step -/

section

variable (h : Inv s l own)
include h

theorem Inv.setupkvm (hlinked : Linked data) (hstep : step data s .setupkvm = .ok s') :
    ∃ l' own', Inv s' l' own' := by
  obtain ⟨d, m', hends, rfl⟩ := finish_spec (setupkvm_spec hlinked h.owned) hstep
  cases hends with
  | full _ => exact ⟨l, own, h⟩
  | lost d₀ _ own' hin hfew howned hgrew hlive =>
    have hleaked := hgrew.leaked_setup h.owned hin
    exact ⟨[], _, h.of_sameRoles (howned.forget d₀) hgrew.kernelEnd (hleaked.sameRoles h.owned)⟩
  | made _ pages l' _ own' hne hsplit hin hlen howned hgrew hlive hfresh =>
    exact ⟨l', own', h.newDir hne (building_start h.owned h.above hsplit hin howned hgrew hlive hfresh).toHeld⟩

theorem Inv.allocuvm (hd : d ∈ s.dirs) (hstep : step data s (.allocuvm d oldsz newsz) = .ok s') : ∃ l' own', Inv s' l' own' := by
  have hdir := (h.dirs d).mpr hd
  obtain ⟨r, m', hends, rfl⟩ := finish_spec (allocuvm_spec oldsz newsz h.owned hdir h.above) hstep
  cases hends with
  | refused _ => exact ⟨l, own, h⟩
  | kept _ _ => exact ⟨l, own, h⟩
  | grown pages l' _ own' _ _ hfilled _ =>
    exact ⟨l', own', h.of_sameRoles hfilled.owned hfilled.grew.kernelEnd (hfilled.sameRoles h.owned hdir)⟩
  | short k q pages m₁ _ own₁ _ _ _ hfilled _ htook _ _ =>
    exact ⟨[], _, h.of_sameRoles htook.owned (htook.kernelEnd.trans hfilled.grew.kernelEnd)
      ((hfilled.sameRoles h.owned hdir).trans htook.sameRoles)⟩
  | failed k m₁ _ own₁ _ _ _ hfilled _ hdrop =>
    obtain ⟨freed, l', own', hdropped, -⟩ := hdrop
    exact ⟨l', own', h.of_sameRoles hdropped.owned (hdropped.kernelEnd.trans hfilled.grew.kernelEnd)
      ((hfilled.sameRoles h.owned hdir).trans hdropped.sameRoles)⟩
  | leaked k q pages m₁ m₂ _ own₁ _ _ _ hfilled _ htook _ _ hdrop =>
    obtain ⟨freed, l', own', hdropped, -⟩ := hdrop
    have hend := hdropped.kernelEnd.trans (htook.kernelEnd.trans hfilled.grew.kernelEnd)
    exact ⟨l', own', h.of_sameRoles hdropped.owned hend
      (((hfilled.sameRoles h.owned hdir).trans htook.sameRoles).trans hdropped.sameRoles)⟩

theorem Inv.deallocuvm (hd : d ∈ s.dirs) (holdsz : oldsz ≤ kernbase)
    (hstep : step data s (.deallocuvm d oldsz newsz) = .ok s') : ∃ l' own', Inv s' l' own' := by
  have hspec := deallocuvm_spec newsz holdsz h.owned ((h.dirs d).mpr hd) h.above
  obtain ⟨r, m', ⟨-, freed, l', own', hdropped, -⟩, rfl⟩ := finish_spec hspec hstep
  exact ⟨l', own', h.of_sameRoles hdropped.owned hdropped.kernelEnd hdropped.sameRoles⟩

theorem Inv.copyuvm (hlinked : Linked data) (hd : pgdir ∈ s.dirs)
    (hsz : sz < 2 ^ 32) (hstep : step data s (.copyuvm pgdir sz) = .ok s') : ∃ l' own', Inv s' l' own' := by
  have hspec := copyuvm_spec hlinked h.owned ((h.dirs pgdir).mpr hd) h.above hsz
  obtain ⟨r, m', hends, rfl⟩ := finish_spec hspec hstep
  cases hends with
  | failed _ l' own' hfailed =>
    refine ⟨l', own', h.of_sameRoles hfailed.owned hfailed.frame.kernelEnd ?_⟩
    by_cases hleaks : (copyRequests sz)[l.length]? = some .table
    · exact (hfailed.lost hleaks).sameRoles h.owned
    · rw [hfailed.same hleaks]
      exact fun _ => ⟨Iff.rfl, Iff.rfl⟩
  | made _ _ l' own' hne hheld _ _ => exact ⟨l', own', h.newDir hne hheld⟩

theorem Inv.freevm (hd : d ∈ s.dirs) (hstep : step data s (.freevm d) = .ok s') :
    ∃ l' own', Inv s' l' own' := by
  have hdir := (h.dirs d).mpr hd
  obtain ⟨r, m', ⟨⟨l', howned⟩, hend, -, -⟩, rfl⟩ := finish_spec (freevm_spec h.owned hdir h.above) hstep
  exact ⟨l', _, h.released hdir howned hend⟩

theorem Inv.kalloc (hstep : step data s .kalloc = .ok s') : ∃ l' own', Inv s' l' own' := by
  obtain ⟨page, m', hrun, rfl⟩ := finish_ok hstep
  cases l with
  | nil =>
    rw [h.owned.free.kalloc_nil] at hrun
    cases hrun
    exact ⟨[], own, h⟩
  | cons q l =>
    rw [h.owned.free.kalloc_cons.1] at hrun
    cases hrun
    have hne : page ≠ 0 := h.owned.free.chain.ne_null mem_cons_self
    have hq : own page = some .free := (h.owned.isFree page).mpr mem_cons_self
    have hnew : page ∉ s.clients := fun hin => by
      rw [← h.clients page, hq] at hin
      cases hin
    have hgive : give s.clients page = page :: s.clients := if_neg hne
    have howned := h.owned.take.retag (p := page) (o := some .client) h.owned.head_page (by rw [update_self]; trivial)
      (by rw [update_self]; exact nofun) trivial nofun
    rw [update_idem] at howned
    refine ⟨l, _, howned, h.above, fun p => ?_, fun p => ?_, h.dirs_nodup, ?_⟩
    · rw [← h.dirs p]
      by_cases hp : p = page
      · rw [hp, update_self, hq]
        exact iff_of_false nofun nofun
      · rw [update_of_ne hp]
    · change _ ↔ p ∈ give s.clients page
      rw [hgive, mem_cons, ← h.clients p]
      by_cases hp : p = page
      · rw [hp, update_self]
        exact iff_of_true rfl (.inl rfl)
      · rw [update_of_ne hp, or_iff_right hp]
    · change (give s.clients page).Nodup
      rw [hgive]
      exact nodup_cons.mpr ⟨hnew, h.clients_nodup⟩

theorem Inv.kfree (hv : v ∈ s.clients) (hstep : step data s (.kfree v) = .ok s') :
    ∃ l' own', Inv s' l' own' := by
  have hclient := (h.clients v).mpr hv
  have hpage := h.owned.page v _ hclient
  obtain ⟨_, m', hrun, rfl⟩ := finish_ok hstep
  rw [kfree_run hpage.1] at hrun
  cases hrun
  have howned := (h.owned.retag (p := v) (o := none) hpage (by rw [hclient]; trivial)
    (by rw [hclient]; exact nofun) trivial nofun).give (update_self ..) hpage
  rw [update_idem] at howned
  refine ⟨v :: l, _, howned, h.above, fun p => ?_, fun p => ?_, h.dirs_nodup, h.clients_nodup.erase v⟩
  · rw [← h.dirs p]
    by_cases hp : p = v
    · rw [hp, update_self, hclient]
      exact iff_of_false nofun nofun
    · rw [update_of_ne hp]
  · rw [h.clients_nodup.mem_erase_iff, ← h.clients p]
    by_cases hp : p = v
    · rw [hp, update_self]
      exact iff_of_false nofun fun hf => hf.1 rfl
    · rw [update_of_ne hp, and_iff_right hp]

theorem Inv.store (hallowed : Allowed s (.store a v))
    (hstep : step data s (.store a v) = .ok s') : ∃ l' own', Inv s' l' own' := by
  obtain rfl : (⟨{ s.mem with word := update s.mem.word a v }, s.dirs, s.clients⟩ : State) = s' :=
    Except.ok.inj hstep
  refine ⟨l, own, h.of_sameRoles (h.owned.scribble _ fun b o ho hstruct => ?_) rfl fun _ => ⟨Iff.rfl, Iff.rfl⟩⟩
  apply update_of_ne
  rintro rfl
  obtain hclient | ⟨d, n, huser⟩ := hallowed
  · rw [h.own_eq hclient] at ho
    cases ho
    exact hstruct
  · rw [h.own_eq huser] at ho
    cases ho
    exact hstruct

theorem Inv.step (hlinked : Linked data) {a : Action} (hstep : (system data).Step s a s') :
    ∃ l' own', Inv s' l' own' := by
  obtain ⟨hallowed, hstep⟩ := hstep
  cases a with
  | setupkvm => exact h.setupkvm hlinked hstep
  | allocuvm pgdir oldsz newsz => exact h.allocuvm hallowed hstep
  | deallocuvm pgdir oldsz newsz => exact h.deallocuvm hallowed.1 hallowed.2 hstep
  | copyuvm pgdir sz => exact h.copyuvm hlinked hallowed.1 hallowed.2 hstep
  | freevm pgdir => exact h.freevm hallowed hstep
  | kalloc => exact h.kalloc hstep
  | kfree v => exact h.kfree hallowed hstep
  | store a v => exact h.store hallowed hstep

end

/-! ### Every run -/

theorem inv_init (h : (system data).Init s) : ∃ l own, Inv s l own := by
  obtain ⟨m, hend, hnil, hrun, hdirs, hclients⟩ := h
  obtain ⟨hfree, hsame, -⟩ := (kinit_spec hend hnil).of_ok hrun
  have habove : kernbase < s.mem.kernelEnd := by
    rw [hsame]
    exact Nat.lt_of_lt_of_le (Nat.lt_add_of_pos_right (by decide)) hend.1
  refine ⟨_, _, .boot hfree, habove, fun p => ?_, fun p => ?_, ?_, ?_⟩
  · rw [hdirs]
    refine iff_of_false (fun hp => ?_) not_mem_nil
    split at hp <;> cases hp
  · rw [hclients]
    refine iff_of_false (fun hp => ?_) not_mem_nil
    split at hp <;> cases hp
  · rw [hdirs]
    exact nodup_nil
  · rw [hclients]
    exact nodup_nil

theorem inv_of_reachable (hlinked : Linked data) (h : (system data).Reachable s) : ∃ l own, Inv s l own := by
  apply h.invariant
  · exact fun s hs => inv_init hs
  · intro s a s' ⟨l, own, hinv⟩ hstep
    exact hinv.step hlinked hstep

/-- In every run a page has at most one owner, which is a page the allocator manages; the free list has no
page twice. -/
theorem page_has_one_owner (hlinked : Linked data) (h : (system data).Reachable s) :
    (∀ p o o', Holds s p o → Holds s p o' → o = o') ∧ (∀ p o, Holds s p o → Accepts s.mem.kernelEnd p) ∧
      (∃ l, FreeList s.mem l ∧ l.Nodup) ∧ s.dirs.Nodup ∧ s.clients.Nodup := by
  obtain ⟨l, own, hinv⟩ := inv_of_reachable hlinked h
  refine ⟨fun p o o' ho ho' => ?_, fun p o ho => (hinv.owned.page p o (hinv.own_eq ho)).1,
    ⟨l, hinv.owned.free, hinv.owned.free.chain.nodup⟩, hinv.dirs_nodup, hinv.clients_nodup⟩
  exact Option.some.inj ((hinv.own_eq ho).symm.trans (hinv.own_eq ho'))

theorem setupkvm_boot (hlinked : Linked data) (h : FreeList m (bootPages n)) :
    ∃ d m', setupkvm data m = .ok d m' ∧ d ≠ 0 := by
  have hmany := bootPages_many n
  obtain ⟨d, m', hrun, hends⟩ := (setupkvm_spec hlinked (Owned.boot h)).exists_ok
  refine ⟨d, m', hrun, ?_⟩
  cases hends with
  | full hl =>
    rw [hl] at hmany
    cases hmany
  | lost _ _ _ _ hfew _ _ _ => exact absurd hfew (Nat.not_le_of_lt hmany)
  | made _ _ _ _ _ hne _ _ _ _ _ _ _ => exact hne

theorem page_has_one_owner_setupkvm :
    Linked 0x80109000 ∧ ∃ s d, (system 0x80109000).Reachable s ∧ Holds s d .directory ∧
      ∀ o, Holds s d o → o = .directory := by
  have hlinked : Linked 0x80109000 := by decide
  have hend : KernelEnd 0x80114000 := by decide
  obtain ⟨m, hboot, hfree, -⟩ := kinit_ok hend
  obtain ⟨d, m', hrun, hne⟩ := setupkvm_boot hlinked hfree
  have hstart : (system 0x80109000).Reachable ⟨m, [], []⟩ := .init ⟨_, hend, rfl, hboot, rfl, rfl⟩
  have hreach : (system 0x80109000).Reachable ⟨m', give [] d, []⟩ := by
    refine hstart.step (a := .setupkvm) ⟨trivial, ?_⟩
    change finish (setupkvm 0x80109000 m) _ = _
    rw [hrun]
    rfl
  have hholds : Holds ⟨m', give [] d, []⟩ d .directory := by
    change d ∈ give [] d
    rw [give, if_neg hne]
    exact mem_cons_self
  exact ⟨hlinked, _, d, hreach, hholds, fun o ho => (page_has_one_owner hlinked hreach).1 d o _ ho hholds⟩

/-! ### Calls that return -/

/-- The pages that `allocuvm` adds are not there yet, and those that `copyuvm` copies are there. -/
def InOrder (s : State) : Action → Prop
  | .allocuvm d oldsz newsz => ∀ k < userPages, npages oldsz ≤ k → k < npages newsz → ¬Present (pteAt s.mem.word d k)
  | .copyuvm d sz => ∀ k < npages sz, Present (pteAt s.mem.word d k) ∧ k < userPages
  | _ => True

theorem finish_returns {x : M α} {Q : α → Memory → Prop} (h : Ends x m Q fun _ _ => False) :
    ∃ s', finish (x m) f = .ok s' := by
  obtain ⟨r, m', hrun, -⟩ := h.exists_ok
  rw [hrun]
  exact ⟨f r m', rfl⟩

end RainOS.Vm
