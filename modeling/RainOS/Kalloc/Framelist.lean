import RainOS.Kalloc.Grants
import RainOS.Vm.Kernel

/-!
# The frame ledger

The list of granted frames as it lies in memory: `initframes`, and `allocadd` slot by slot. A slot that no entry of
`kmap` maps faults, and the kernel's `trap` panics. Nothing takes an entry out of the list, and nothing checks that the
next slot is mapped. So the ledger is right as long as no granted frame is freed or granted again, and there is room for
2047 grants.
-/

namespace RainOS.Kalloc.Framelist

open Vm Function List

structure Slot where
  pid : Int
  frame : Nat
  next : Nat

/-- Where the variable `start` is in the kernel. -/
structure Image where
  start : Nat
  inside : kernlink ≤ start ∧ start + 16 ≤ p2v (4 * 1024 * 1024)

structure Kernel where
  mem : Memory
  slot : Nat → Slot

instance (n : Nat) : Decidable (KernelPage n) := inferInstanceAs (Decidable (_ ∧ _ ∨ _ ∧ _))

def Mapped (a : Nat) : Prop := KernelPage (a / pgsize) ∧ KernelPage ((a + 15) / pgsize)

instance (a : Nat) : Decidable (Mapped a) := inferInstanceAs (Decidable (_ ∧ _))

def writeSlot (a : Nat) (f : Slot → Slot) : EStateM Halt Kernel Unit := do
  if ¬Mapped a then throw (.panic "trap")
  modify fun k => { k with slot := update k.slot a (f (k.slot a)) }

def lastSlot : Nat → Nat → EStateM Halt Kernel Nat
  | 0, _ => throw .spin
  | n + 1, f => do
    if ¬Mapped f then throw (.panic "trap")
    let next := ((← get).slot f).next
    if next = 0 then return f
    lastSlot n next

section Code

variable (im : Image)

def initframes : EStateM Halt Kernel Unit := do
  writeSlot im.start ({ · with next := p2v phystop })
  writeSlot (p2v phystop) ({ · with next := 0 })
  writeSlot im.start ({ · with frame := 0, pid := -1 })

/-- Add the page to the allocated frames list, in the next free slot. -/
def addEntry (pid : Int) (frame : Nat) : EStateM Halt Kernel Unit := do
  let f ← lastSlot (2 ^ 32) im.start
  writeSlot f ({ · with pid := pid, frame := frame })
  let newSlot := f + 16
  writeSlot newSlot ({ · with next := 0 })
  writeSlot f ({ · with next := newSlot })

def allocadd (low : Nat) (pid : Int) (frame : Nat) : EStateM Halt Kernel Nat := do
  let m := (← get).mem
  if frame = 0 then return 0
  if m.freelist = 0 then return 0
  match findFree m frame with
  | none => throw .spin
  | some false => return 0
  | some true =>
    let next := m.word frame
    modify ({ · with mem := { m with word := update m.word frame (if next = 0 then low else m.word next) } })
    addEntry im pid frame
    return 1

end Code

/-! ### The slots -/

/-- The entries from the slot at `a` on, up to the empty slot. -/
def Laid (slot : Nat → Slot) : Nat → List (Int × Nat) → Prop
  | a, [] => (slot a).next = 0
  | a, e :: l => slot a = ⟨e.1, e.2, a + 16⟩ ∧ Laid slot (a + 16) l

def slotAt (i : Nat) : Nat := p2v phystop + 16 * i

structure Holds (im : Image) (slot : Nat → Slot) (l : List (Int × Nat)) : Prop where
  start : (slot im.start).next = slotAt 0
  laid : Laid slot (slotAt 0) l
  room : l.length < ledgerSlots

variable {im : Image} {k k' : Kernel} {slot slot' : Nat → Slot} {l l' : List (Int × Nat)} {e : Int × Nat}
  {a i n low frame : Nat} {pid : Int}

theorem Laid.unique (h : Laid slot a l) (h' : Laid slot a l') : l = l' := by
  induction l generalizing a l' with
  | nil =>
    cases l' with
    | nil => rfl
    | cons e l' =>
      rw [Laid, h'.1] at h
      cases h
  | cons e l ih =>
    cases l' with
    | nil =>
      rw [Laid, h.1] at h'
      cases h'
    | cons e' l' =>
      have hslot := h.1.symm.trans h'.1
      rw [ih h.2 h'.2, Prod.ext (congrArg Slot.pid hslot) (congrArg Slot.frame hslot)]

theorem Laid.append (h : Laid slot a l) (hsame : ∀ b < a + 16 * l.length, a ≤ b → slot' b = slot b)
    (hlast : slot' (a + 16 * l.length) = ⟨e.1, e.2, a + 16 * l.length + 16⟩)
    (hnext : (slot' (a + 16 * l.length + 16)).next = 0) : Laid slot' a (l ++ [e]) := by
  induction l generalizing a with
  | nil => exact ⟨hlast, hnext⟩
  | cons e' l ih =>
    have hlength : a + 16 * (e' :: l).length = a + 16 + 16 * l.length := by rw [length_cons]; omega
    rw [hlength] at hsame hlast hnext
    refine ⟨(hsame a (by omega) le_rfl).trans h.1, ih h.2 ?_ hlast hnext⟩
    intro b hb hab
    exact hsame b hb (by omega)

theorem slotAt_succ (i : Nat) : slotAt i + 16 = slotAt (i + 1) := by
  unfold slotAt
  omega

theorem mapped_slotAt (hi : i ≤ ledgerSlots) : Mapped (slotAt i) ↔ i < ledgerSlots := by
  simp only [Mapped, KernelPage, slotAt, ledgerSlots, p2v, pgsize, kernbase, phystop] at *
  omega

theorem Image.mapped (im : Image) : Mapped im.start := by
  have hinside := im.inside
  simp only [Mapped, KernelPage, kernlink, p2v, pgsize, kernbase, extmem] at *
  omega

theorem start_lt_slotAt (im : Image) (i : Nat) : im.start < slotAt i := by
  have hinside := im.inside
  simp only [slotAt, p2v, kernbase, phystop] at *
  omega

/-! ### One call -/

theorem writeSlot_run (f : Slot → Slot) (h : Mapped a) :
    writeSlot a f k = .ok () { k with slot := update k.slot a (f (k.slot a)) } := by
  simp [writeSlot, h]

theorem writeSlot_trap (f : Slot → Slot) (h : ¬Mapped a) :
    writeSlot a f k = .error (.panic "trap") k := by
  simp [writeSlot, h]

theorem lastSlot_succ (h : Mapped a) (n : Nat) :
    lastSlot (n + 1) a k = if (k.slot a).next = 0 then .ok a k else lastSlot n (k.slot a).next k := by
  simp only [lastSlot, h]
  by_cases hnext : (k.slot a).next = 0 <;> simp [hnext]

theorem lastSlot_laid (h : Laid k.slot (slotAt i) l) (hroom : i + l.length < ledgerSlots) (hn : l.length < n) :
    lastSlot n (slotAt i) k = .ok (slotAt (i + l.length)) k := by
  induction n generalizing i l with
  | zero => cases hn
  | succ n ih =>
    rw [lastSlot_succ ((mapped_slotAt (by omega)).mpr (by omega))]
    cases l with
    | nil => exact if_pos h
    | cons e l =>
      rw [length_cons] at hroom hn ⊢
      have hsum : i + (l.length + 1) = i + 1 + l.length := by omega
      rw [h.1, if_neg (Nat.succ_ne_zero _), slotAt_succ, hsum]
      exact ih (slotAt_succ i ▸ h.2) (by omega) (by omega)

theorem lastSlot_start (h : Holds im k.slot l) : lastSlot (2 ^ 32) im.start k = .ok (slotAt l.length) k := by
  have hroom := h.room
  have hfuel : 2 ^ 32 = 2 ^ 32 - 1 + 1 := rfl
  have hne : slotAt 0 ≠ 0 := by decide
  rw [hfuel, lastSlot_succ im.mapped, h.start, if_neg hne, ← Nat.zero_add l.length]
  apply lastSlot_laid h.laid
  · omega
  · unfold ledgerSlots pgsize at hroom
    omega

theorem addEntry_spec (h : Holds im k.slot l) : Ends (addEntry im pid frame) k
    (fun _ k' => l.length + 1 < ledgerSlots ∧ Holds im k'.slot (l ++ [(pid, frame)]) ∧ k'.mem = k.mem)
    fun e k' => e = .panic "trap" ∧ ¬l.length + 1 < ledgerSlots ∧ k'.mem = k.mem := by
  have hmapped := (mapped_slotAt (Nat.le_of_lt h.room)).mpr h.room
  have hnext := mapped_slotAt h.room
  unfold addEntry
  apply Ends.after_ok (lastSlot_start h)
  apply Ends.after_ok (writeSlot_run _ hmapped)
  have hlt : slotAt l.length < slotAt (l.length + 1) := slotAt_succ l.length ▸ Nat.lt_add_of_pos_right (by decide)
  rw [slotAt_succ]
  by_cases hfits : l.length + 1 < ledgerSlots
  · apply Ends.after_ok (writeSlot_run _ (hnext.mpr hfits))
    apply Ends.of_run_ok (writeSlot_run _ hmapped)
    refine ⟨hfits, ⟨?_, ?_, by simpa using hfits⟩, rfl⟩
    · simp [(start_lt_slotAt im _).ne, h.start]
    · have hat : slotAt 0 + 16 * l.length = slotAt l.length := rfl
      apply h.laid.append <;> rw [hat]
      · intro b hb _
        simp [hb.ne, (hb.trans hlt).ne]
      · simp [hlt.ne, slotAt_succ]
      · simp [hlt.ne', slotAt_succ]
  · exact .after_error (writeSlot_trap _ (mt hnext.mp hfits)) ⟨rfl, hfits, rfl⟩

theorem freelist_ne_zero {m : Memory} {found : Option Bool} (h : findFree m frame = found) (hfound : found ≠ some false) :
    m.freelist ≠ 0 := by
  intro hzero
  apply hfound
  rw [← h, findFree, hzero]
  rfl

theorem find_cases (m : Memory) (frame : Nat) : (frame = 0 ∨ findFree m frame = some false) ∨
    frame ≠ 0 ∧ (findFree m frame = none ∨ findFree m frame = some true) := by
  by_cases hframe : frame = 0
  · exact .inl (.inl hframe)
  · rcases findFree m frame with _ | _ | _ <;> simp [hframe]

theorem allocadd_not_found (h : frame = 0 ∨ findFree k.mem frame = some false) :
    allocadd im low pid frame k = .ok 0 k := by
  by_cases hframe : frame = 0
  · simp [allocadd, hframe]
  · by_cases hlist : k.mem.freelist = 0
    · simp [allocadd, hframe, hlist]
    · simp [allocadd, hframe, hlist, h.resolve_left hframe]

theorem allocadd_spin (hframe : frame ≠ 0) (h : findFree k.mem frame = none) :
    allocadd im low pid frame k = .error .spin k := by
  have hlist : k.mem.freelist ≠ 0 := freelist_ne_zero h nofun
  simp [allocadd, hframe, hlist, h]

theorem allocadd_found (h : Holds im k.slot l) (hframe : frame ≠ 0) (hfound : findFree k.mem frame = some true)
    (low : Nat) (pid : Int) : Ends (allocadd im low pid frame) k
      (fun found k' => found = 1 ∧ l.length + 1 < ledgerSlots ∧ Holds im k'.slot (l ++ [(pid, frame)]) ∧
        k'.mem = { k.mem with word := (granted k.mem low pid frame).word })
      fun e k' => e = .panic "trap" ∧ ¬l.length + 1 < ledgerSlots ∧
        k'.mem = { k.mem with word := (granted k.mem low pid frame).word } := by
  have hlist : k.mem.freelist ≠ 0 := freelist_ne_zero hfound nofun
  unfold allocadd
  apply Ends.after_ok (get_run _)
  rw [if_neg hframe, if_neg hlist]
  simp only [hfound]
  apply Ends.after_ok (modify_run ..)
  apply Ends.bind (addEntry_spec (k := ⟨{ k.mem with word := (granted k.mem low pid frame).word }, k.slot⟩) h)
  intro _ k' hk
  exact .pure ⟨rfl, hk⟩

/-- The kernel, the process that each frame is granted to, and how many grants there were. -/
structure State where
  kernel : Kernel
  grant : Nat → Option Int
  count : Nat

variable (im) in
def step (s : State) : Action → Except Halt State
  | .kalloc =>
    match kalloc s.kernel.mem with
    | .ok _ m => .ok { s with kernel := { s.kernel with mem := m } }
    | .error e _ => .error e
  | .kfree v =>
    match kfree v s.kernel.mem with
    | .ok _ m => .ok { s with kernel := { s.kernel with mem := m }, grant := update s.grant v none }
    | .error e _ => .error e
  | .allocadd low pid frame =>
    match allocadd im low pid frame s.kernel with
    | .ok found k =>
      .ok (if found = 1 then ⟨k, update s.grant frame (some pid), s.count + 1⟩ else { s with kernel := k })
    | .error e _ => .error e

variable (im) in
def system : System State Action where
  Init s := ∃ m k, KernelEnd m.kernelEnd ∧ m.freelist = 0 ∧ kinit m = .ok () k.mem ∧
    initframes im k = .ok () s.kernel ∧ s.grant = (fun _ => none) ∧ s.count = 0
  Step s a s' := step im s a = .ok s'

def Matches (l : List (Int × Nat)) (grant : Nat → Option Int) : Prop :=
  ∀ frame, l.filter (·.2 = frame) = ((grant frame).map (·, frame)).toList

variable (im) in
def Exact (s : State) : Prop := ∃ l, Holds im s.kernel.slot l ∧ Matches l s.grant

def Keeps (s : State) : Action → Prop
  | .kalloc => True
  | .kfree v => s.grant v = none
  | .allocadd _ _ frame => frame = 0 ∨ findFree s.kernel.mem frame ≠ some true ∨ s.grant frame = none

variable {s s' : State} {grant : Nat → Option Int}

theorem Matches.free_iff (h : Matches l grant) (v : Nat) : Matches l (update grant v none) ↔ grant v = none := by
  constructor
  · intro h'
    have hv := h' v
    rw [h v, update_self] at hv
    cases hgrant : grant v with
    | none => rfl
    | some pid => simp [hgrant] at hv
  · intro hv
    rwa [← hv, update_eq_self]

theorem Matches.append_iff (h : Matches l grant) (pid : Int) (frame : Nat) :
    Matches (l ++ [(pid, frame)]) (update grant frame (some pid)) ↔ grant frame = none := by
  have hfilter : ∀ f, (l ++ [(pid, frame)]).filter (·.2 = f) =
      ((grant f).map (·, f)).toList ++ if frame = f then [(pid, frame)] else [] := by
    intro f
    rw [filter_append, h f]
    by_cases hf : frame = f <;> simp [hf]
  constructor
  · intro h'
    have hf := h' frame
    rw [hfilter, update_self] at hf
    cases hgrant : grant frame with
    | none => rfl
    | some pid => simp [hgrant] at hf
  · intro hnone f
    rw [hfilter]
    by_cases hf : f = frame
    · subst hf
      simp [hnone]
    · simp [hf, Ne.symm hf]

theorem Holds.step (h : Holds im s.kernel.slot l) (hcount : l.length = s.count) {a : Action}
    (hstep : (system im).Step s a s') : ∃ l', Holds im s'.kernel.slot l' ∧ l'.length = s'.count ∧
      (Matches l s.grant → (Matches l' s'.grant ↔ Keeps s a)) := by
  change Framelist.step im s a = .ok s' at hstep
  cases a with
  | kalloc =>
    simp only [Framelist.step] at hstep
    split at hstep
    · cases hstep
      exact ⟨l, h, hcount, fun hmatches => iff_of_true hmatches trivial⟩
    · cases hstep
  | kfree v =>
    simp only [Framelist.step] at hstep
    split at hstep
    · cases hstep
      exact ⟨l, h, hcount, fun hmatches => hmatches.free_iff v⟩
    · cases hstep
  | allocadd low pid frame =>
    simp only [Framelist.step] at hstep
    split at hstep
    · rename_i found k hrun
      cases hstep
      obtain hnone | ⟨hframe, hspin | hfound⟩ := find_cases s.kernel.mem frame
      · have hkeeps : Keeps s (.allocadd low pid frame) := hnone.imp_right fun hf => .inl (by simp [hf])
        rw [allocadd_not_found hnone] at hrun
        cases hrun
        rw [if_neg nofun]
        exact ⟨l, h, hcount, fun hmatches => iff_of_true hmatches hkeeps⟩
      · rw [allocadd_spin hframe hspin] at hrun
        cases hrun
      · obtain ⟨rfl, -, hk, -⟩ := (allocadd_found h hframe hfound low pid).of_ok hrun
        rw [if_pos rfl]
        refine ⟨_, hk, by simp [hcount], fun hmatches => ?_⟩
        rw [hmatches.append_iff]
        simp [Keeps, hframe, hfound]
    · cases hstep

theorem initframes_spec (im : Image) (k : Kernel) :
    Ends (initframes im) k (fun _ k' => k'.mem = k.mem ∧ Holds im k'.slot []) fun _ _ => False := by
  have hbase : slotAt 0 = p2v phystop := rfl
  have hne : im.start ≠ p2v phystop := (start_lt_slotAt im 0).ne
  have hmapped : Mapped (slotAt 0) := by decide
  unfold initframes
  apply Ends.after_ok (writeSlot_run _ im.mapped)
  apply Ends.after_ok (writeSlot_run _ hmapped)
  apply Ends.of_run_ok (writeSlot_run _ im.mapped)
  refine ⟨rfl, ?_, ?_, by decide⟩
  · simp [hne, hbase]
  · simp [Laid, hne.symm, hbase]

theorem holds_init (h : (system im).Init s) : Holds im s.kernel.slot [] ∧ s.grant = (fun _ => none) ∧ s.count = 0 := by
  obtain ⟨m, k, -, -, -, hrun, hgrant, hcount⟩ := h
  exact ⟨((initframes_spec im k).of_ok hrun).2, hgrant, hcount⟩

theorem holds_of_reachable (h : (system im).Reachable s) : ∃ l, Holds im s.kernel.slot l ∧ l.length = s.count := by
  apply h.invariant
  · intro s hs
    obtain ⟨hk, -, hcount⟩ := holds_init hs
    exact ⟨[], hk, hcount.symm⟩
  · intro s a s' ⟨l, hk, hcount⟩ hstep
    obtain ⟨l', hk', hcount', -⟩ := hk.step hcount hstep
    exact ⟨l', hk', hcount'⟩

theorem matches_of_reachable (h : ((system im).restrict Keeps).Reachable s) :
    ∃ l, Holds im s.kernel.slot l ∧ l.length = s.count ∧ Matches l s.grant := by
  apply h.invariant
  · intro s hs
    obtain ⟨hk, hgrant, hcount⟩ := holds_init hs
    exact ⟨[], hk, hcount.symm, fun frame => by simp [hgrant]⟩
  · intro s a s' ⟨l, hk, hcount, hmatches⟩ ⟨hkeeps, hstep⟩
    obtain ⟨l', hk', hcount', hiff⟩ := hk.step hcount hstep
    exact ⟨l', hk', hcount', (hiff hmatches).mpr hkeeps⟩

/-- In a run that frees no granted frame and grants none again the ledger is exact, and after the next call it is exact
if and only if that call does neither. -/
theorem ledger_exact_iff (h : ((system im).restrict Keeps).Reachable s) :
    Exact im s ∧ ∀ a s', (system im).Step s a s' → (Exact im s' ↔ Keeps s a) := by
  obtain ⟨l, hk, hcount, hmatches⟩ := matches_of_reachable h
  refine ⟨⟨l, hk, hmatches⟩, fun a s' hstep => ?_⟩
  obtain ⟨l', hk', -, hiff⟩ := hk.step hcount hstep
  rw [← hiff hmatches]
  constructor
  · intro ⟨l₂, hk₂, hmatches₂⟩
    rwa [hk'.laid.unique hk₂.laid]
  · exact fun hmatches' => ⟨l', hk', hmatches'⟩

variable (im) in
/-- What a call of `allocadd` should do: it stays in the mapped slots, and when they are full it fails and changes
nothing. -/
def Safe (s : State) (low : Nat) (pid : Int) (frame : Nat) : Prop :=
  (∀ k', allocadd im low pid frame s.kernel ≠ .error (.panic "trap") k') ∧
    (ledgerSlots ≤ s.count + 1 → allocadd im low pid frame s.kernel = .ok 0 s.kernel)

/-- After 2047 grants only a call that finds no frame is safe. -/
theorem ledger_mapped_iff (h : (system im).Reachable s) (low : Nat) (pid : Int) (frame : Nat) :
    Safe im s low pid frame ↔
      s.count + 1 < ledgerSlots ∨ frame = 0 ∨ findFree s.kernel.mem frame = some false := by
  obtain ⟨l, hk, hcount⟩ := holds_of_reachable h
  unfold Safe
  obtain hnone | ⟨hframe, hspin | hfound⟩ := find_cases s.kernel.mem frame
  · simp [allocadd_not_found hnone, hnone]
  · simp [allocadd_spin hframe hspin, hframe, hspin]
  · have hends := allocadd_found hk hframe hfound low pid
    rw [hcount] at hends
    simp only [hframe, hfound, Option.some.injEq, Bool.true_eq_false, or_false]
    constructor
    · intro ⟨_, hfull⟩
      by_contra hcontra
      obtain ⟨hone, -⟩ := hends.of_ok (hfull (Nat.not_lt.mp hcontra))
      cases hone
    · intro hroom
      exact ⟨fun k' hrun => (hends.of_error hrun).2.1 hroom, fun hfull => absurd hroom (Nat.not_lt.mpr hfull)⟩

/-! ### A run from the boot -/

def kernelImage : Image := ⟨0x80109000, by decide⟩

theorem granted_keeps {m : Memory} {pages : List Nat} (h : FreeList m (frame :: pages)) (pid : Int) :
    ∃ pages', FreeList (granted m 0 pid frame) (frame :: pages') := by
  cases pages with
  | nil =>
    obtain ⟨hhead, hne, hnext⟩ := h.chain
    refine ⟨[], ⟨hhead, hne, ?_⟩, h.pages⟩
    have hzero : m.word frame = 0 := hhead ▸ hnext
    simp [granted, Chain, hzero, hhead]
  | cons q pages => exact ⟨pages, granted_loses_next [] h⟩

theorem boot_ok : ∃ s pages, (system kernelImage).Init s ∧ FreeList s.kernel.mem (0x8DFFF000 :: pages) := by
  have hend : KernelEnd 0x80114000 := by decide
  obtain ⟨m, hrun, hfree, -⟩ := kinit_ok hend
  obtain ⟨pages, htop⟩ := bootPages_top 0x80114000
  obtain ⟨_, k, hinit, hmem, -⟩ := (initframes_spec kernelImage ⟨m, fun _ => ⟨0, 0, 0⟩⟩).exists_ok
  rw [htop] at hfree
  refine ⟨⟨k, fun _ => none, 0⟩, 0x8DFFE000 :: pages, ⟨unbuilt 0x80114000, _, hend, rfl, hrun, hinit, rfl, rfl⟩, ?_⟩
  rw [hmem]
  exact hfree

theorem grants_ok (hn : n < ledgerSlots) : ∃ s pages, (system kernelImage).Reachable s ∧ s.count = n ∧
    Holds kernelImage s.kernel.slot (replicate n (1, 0x8DFFF000)) ∧
    FreeList s.kernel.mem (0x8DFFF000 :: pages) := by
  induction n with
  | zero =>
    obtain ⟨s, pages, hinit, hfree⟩ := boot_ok
    obtain ⟨hk, -, hcount⟩ := holds_init hinit
    exact ⟨s, pages, .init hinit, hcount, hk, hfree⟩
  | succ n ih =>
    obtain ⟨s, pages, hreach, hcount, hk, hfree⟩ := ih (Nat.lt_of_succ_lt hn)
    have hfound : findFree s.kernel.mem 0x8DFFF000 = some true := by simp [hfree.findFree_eq]
    have hends := allocadd_found hk (by decide) hfound 0 1
    rw [length_replicate] at hends
    obtain ⟨found, k, hrun, rfl, -, hk', hmem⟩ := (hends.stop fun _ _ he => he.2.1 hn).exists_ok
    obtain ⟨pages', hfree'⟩ := granted_keeps hfree 1
    refine ⟨⟨k, update s.grant 0x8DFFF000 (some 1), s.count + 1⟩, pages', ?_, congrArg (· + 1) hcount, ?_, ?_⟩
    · apply hreach.step (a := .allocadd 0 1 0x8DFFF000)
      simp [system, step, hrun]
    · rwa [replicate_succ']
    · rw [hmem]
      exact ⟨hfree'.chain, hfree'.pages⟩

theorem ledger_exact_iff_boot : ∃ s, ((system kernelImage).restrict Keeps).Reachable s ∧ Exact kernelImage s := by
  obtain ⟨s, -, hinit, -⟩ := boot_ok
  exact ⟨s, .init hinit, (ledger_exact_iff (.init hinit)).1⟩

/-- A frame that was granted and freed still has its entry. -/
theorem ledger_keeps_freed : ∃ s, (system kernelImage).Reachable s ∧ s.grant 0x8DFFF000 = none ∧
    Holds kernelImage s.kernel.slot [(1, 0x8DFFF000)] := by
  obtain ⟨s, pages, hreach, -, hk, hfree⟩ := grants_ok (n := 1) (by decide)
  have haccept := (hfree.pages 0x8DFFF000 (mem_cons_self ..)).1
  refine ⟨⟨⟨putFree s.kernel.mem 0x8DFFF000, s.kernel.slot⟩, update s.grant 0x8DFFF000 none, s.count⟩, ?_,
    by simp, hk⟩
  apply hreach.step (a := .kfree 0x8DFFF000)
  simp [system, step, kfree_run haccept]

theorem ledger_mapped_iff_boot : ∃ s, (system kernelImage).Reachable s ∧ Safe kernelImage s 0 1 0x8DFFF000 := by
  obtain ⟨s, -, hinit, -⟩ := boot_ok
  have hcount := (holds_init hinit).2.2
  exact ⟨s, .init hinit, (ledger_mapped_iff (.init hinit) 0 1 0x8DFFF000).mpr (.inl (by rw [hcount]; decide))⟩

/-- The grant after 2047 others stores into a slot that is not mapped. -/
theorem ledger_traps : ∃ s k, (system kernelImage).Reachable s ∧ s.count = 2047 ∧
    allocadd kernelImage 0 1 0x8DFFF000 s.kernel = .error (.panic "trap") k := by
  obtain ⟨s, pages, hreach, hcount, hk, hfree⟩ := grants_ok (n := 2047) (by decide)
  have hfound : findFree s.kernel.mem 0x8DFFF000 = some true := by simp [hfree.findFree_eq]
  have hends := allocadd_found hk (by decide) hfound 0 1
  rw [length_replicate] at hends
  cases hrun : allocadd kernelImage 0 1 0x8DFFF000 s.kernel with
  | ok found k => exact absurd (hends.of_ok hrun).2.1 (by decide)
  | error e k =>
    obtain ⟨rfl, -⟩ := hends.of_error hrun
    exact ⟨s, k, hreach, hcount, hrun⟩

end RainOS.Kalloc.Framelist
