import RainOS.Process.Code
import RainOS.Vm.Image

/-!
# Loading a program

The loop over the program headers. `segments` are the steps it makes, as far as the file and the number of
free pages decide them. A segment lies inside if `loaduvm` stores nothing outside the pages that `allocuvm`
has mapped and misses no table; then loading changes the new image's own pages only. A segment that does
not lie inside makes the kernel panic or store where it should not.
-/

namespace RainOS.Process

open Kalloc Vm Function List

/-! ### Segments -/

/-- What `exec` grows the image to, with how many pages free, and what it loads there. -/
structure Segment where
  sz : Nat
  newsz : Nat
  free : Nat
  vaddr : Nat
  off : Nat
  filesz : Nat
  deriving DecidableEq

/-- The size and the number of free pages after `allocuvm`, if `exec` goes on. -/
def grow (free sz newsz : Nat) : Option (Nat × Nat) :=
  if newsz ≥ kernbase then none
  else if newsz < sz then some (sz, free)
  else if (growRequests sz newsz).length ≤ free ∧ newsz ≠ 0 then
    some (newsz, free - (growRequests sz newsz).length)
  else none

def loadReads (ip : File) (off filesz : Nat) : Nat → Nat → Bool
  | 0, _ => true
  | count + 1, i =>
    match readi ip ((off + i) % 2 ^ 32) (roundSize filesz i) with
    | none => false
    | some bytes => decide (bytes.length = roundSize filesz i) && loadReads ip off filesz count (i + pgsize)

def stackSegment (sz free : Nat) : Segment := ⟨pgroundup sz, (pgroundup sz + 2 * pgsize) % 2 ^ 32, free, 0, 0, 0⟩

def segments (ip : File) : Nat → Nat → Nat → Nat → List Segment
  | 0, _, sz, free => [stackSegment sz free]
  | n + 1, off, sz, free =>
    match readi ip off proghdrSize with
    | none => []
    | some bytes =>
      if bytes.length ≠ proghdrSize then []
      else
        let ph := Proghdr.read bytes
        let next := (off + proghdrSize) % 2 ^ 32
        if ph.type ≠ elfProgLoad then segments ip n next sz free
        else if ph.memsz < ph.filesz then []
        else
          let newsz := (ph.vaddr + ph.memsz) % 2 ^ 32
          ⟨sz, newsz, free, ph.vaddr, ph.off, ph.filesz⟩ ::
            match grow free sz newsz with
            | none => []
            | some (sz, free) =>
              if loadReads ip ph.off ph.filesz (npages ph.filesz) 0 then segments ip n next sz free else []

namespace Segment

def request (g : Segment) : Option Request :=
  if g.newsz < kernbase then (growRequests g.sz g.newsz)[g.free]? else none

/-- `allocuvm` runs out of memory at the table of the last page, and does not notice. -/
def Short (g : Segment) : Prop := g.request = some .table ∧ (growRequests g.sz g.newsz).length = g.free + 1

end Segment

/-- Every round of `loaduvm` finds a table, and stores only below the size. -/
def LoadInside (ip : File) (sz addr off filesz : Nat) : Nat → Nat → Prop
  | 0, _ => True
  | count + 1, i =>
    let page := (addr + i) % 2 ^ 32 / pgsize
    imageHas sz (page / nptentries) ∧
      match readi ip ((off + i) % 2 ^ 32) (roundSize filesz i) with
      | none => True
      | some bytes => (bytes ≠ [] → page < npages sz) ∧
          (bytes.length = roundSize filesz i → LoadInside ip sz addr off filesz count (i + pgsize))

/-- `loaduvm` is called for whole pages that `allocuvm` has mapped. -/
def Segment.Inside (ip : File) (g : Segment) : Prop :=
  match grow g.free g.sz g.newsz with
  | none => True
  | some (sz, _) => g.vaddr % pgsize = 0 ∧ LoadInside ip sz g.vaddr g.off g.filesz (npages g.filesz) 0

/-- A failing call leaks a page if it runs out of memory at a table. -/
def Leaks (segs : List Segment) : Prop := ∃ g ∈ segs, g.request = some .table

/-- A store to a user page that is mapped to one of the pages `l`. -/
structure Load.Good (l : List Nat) (x : Load) : Prop where
  user : x.va < kernbase
  present : Present x.pte
  accessible : x.pte / pteU % 2 = 1
  page : p2v (pteAddr x.pte) ∈ l

/-! ### Code that changes memory only -/

variable {α β : Type} {s s' s'' : Machine} {x : Vm.M α}

theorem lift_run {a : α} {m : Memory} (h : x s.mem = .ok a m) : lift x s = .ok a { s with mem := m } := by
  simp only [lift, h]

theorem lift_spec {Q : α → Memory → Prop} {E : Halt → Memory → Prop} (h : Ends x s.mem Q E) :
    Ends (lift x) s (fun a s' => ∃ m', s' = { s with mem := m' } ∧ Q a m') fun e s' => E e s'.mem := by
  cases hx : x s.mem with
  | ok a m =>
    exact .of_run_ok (lift_run hx) ⟨m, rfl, h.of_ok hx⟩
  | error e m =>
    have hrun : lift x s = .error e { s with mem := m } := by simp only [lift, hx]
    exact .of_run_error hrun (h.of_error hx)

variable {m₀ m m' : Memory} {l₀ l l' : List Nat} {own₀ own own' : Nat → Option Owner} {lost r : Option Nat}
  {q d i n a sz cur addr off filesz count va newsz free : Nat} {ip : File} {inside ok : Prop} {g : Segment}
  {bytes : List UInt8} {segs : List Segment}

/-- The machine after some loads, with everything but the memory as it was. -/
def Loaded (l₀ : List Nat) (s s' : Machine) : Prop :=
  ∃ m loads, s' = { s with mem := m, loads := s.loads ++ loads } ∧ ∀ x ∈ loads, x.Good l₀

theorem Loaded.refl (l₀ : List Nat) (s : Machine) : Loaded l₀ s s :=
  ⟨s.mem, [], by rw [append_nil], fun _ hx => (nomatch hx)⟩

theorem Loaded.trans (h : Loaded l₀ s s') (h' : Loaded l₀ s' s'') : Loaded l₀ s s'' := by
  obtain ⟨m, loads, rfl, hgood⟩ := h
  obtain ⟨m', loads', rfl, hgood'⟩ := h'
  refine ⟨m', loads ++ loads', by rw [append_assoc], fun x hx => ?_⟩
  exact (mem_append.mp hx).elim (hgood x) (hgood' x)

theorem loaded_mem (l₀ : List Nat) (s : Machine) (m : Memory) : Loaded l₀ s { s with mem := m } :=
  ⟨m, [], by rw [append_nil], fun _ hx => (nomatch hx)⟩

/-! ### The history of stores -/

def Logs (x : X α) : Prop := ∀ s, Ends x s (fun _ s' => s.loads <+: s'.loads) fun _ _ => True

theorem logs_pure (a : α) : Logs (pure a) := fun _ => .pure (prefix_refl _)

theorem logs_throw (e : Halt) : Logs (throw e : X α) := fun _ => .throw trivial

theorem logs_lift (x : Vm.M α) : Logs (lift x) := by
  intro s
  refine (lift_spec (x := x) Ends.always).mono (fun a s' hs' => ?_) fun _ _ _ => trivial
  obtain ⟨m', rfl, -⟩ := hs'
  exact prefix_refl _

theorem Logs.bind {x : X α} {f : α → X β} (hx : Logs x) (hf : ∀ a, Logs (f a)) : Logs (x >>= f) := fun s =>
  (hx s).bind fun a s' hs' => (hf a s').mono (fun _ _ hs'' => hs'.trans hs'') fun _ _ _ => trivial

theorem logs_get : Logs get := fun _ => .get (prefix_refl _)

theorem Loaded.logs (h : Loaded l₀ s s') : s.loads <+: s'.loads := by
  obtain ⟨m, loads, rfl, -⟩ := h
  exact prefix_append _ _

def Strayed (l₀ : List Nat) (s s' : Machine) : Prop :=
  ∃ loads, s'.loads = s.loads ++ loads ∧ ∃ x ∈ loads, ¬x.Good l₀

theorem Strayed.later (h : Strayed l₀ s s') (hlogs : s'.loads <+: s''.loads) : Strayed l₀ s s'' := by
  obtain ⟨loads, hloads, x, hx, hbad⟩ := h
  obtain ⟨more, hmore⟩ := hlogs
  refine ⟨loads ++ more, ?_, x, mem_append_left _ hx, hbad⟩
  rw [← hmore, hloads, append_assoc]

theorem Strayed.earlier (h : Strayed l₀ s' s'') (hlogs : s.loads <+: s'.loads) : Strayed l₀ s s'' := by
  obtain ⟨loads, hloads, x, hx, hbad⟩ := h
  obtain ⟨more, hmore⟩ := hlogs
  refine ⟨more ++ loads, ?_, x, mem_append_right _ hx, hbad⟩
  rw [hloads, ← hmore, append_assoc]

theorem Strayed.not_good (h : Strayed l₀ s s') {loads : List Load} (hloads : s'.loads = s.loads ++ loads) :
    ¬∀ x ∈ loads, x.Good l₀ := by
  obtain ⟨loads', hloads', x, hx, hbad⟩ := h
  rw [hloads, append_cancel_left_eq] at hloads'
  exact fun hgood => hbad (hgood x (hloads' ▸ hx))

/-- Code whose segments lie inside ends well. Any other, if it ends at all, has made a load that is not good. -/
def Outcome (l₀ : List Nat) (s s' : Machine) (inside good : Prop) : Prop := inside ∧ good ∨ ¬inside ∧ Strayed l₀ s s'

theorem Outcome.good (h : Outcome l₀ s s' inside ok) (hin : inside) : ok :=
  (h.resolve_right fun hout => hout.1 hin).2

theorem Outcome.strayed (h : Outcome l₀ s s' inside ok) (hout : ¬inside) : Strayed l₀ s s' :=
  (h.resolve_left fun hin => hout hin.1).2

theorem Strayed.rest {Q : α → Machine → Prop} {x : X α} (h : Strayed l₀ s s') (hout : ¬inside)
    (hx : Logs x) : Ends x s' (fun a s'' => Outcome l₀ s s'' inside (Q a s'')) fun _ _ => ¬inside :=
  (hx s').mono (fun _ _ hlogs => .inr ⟨hout, h.later hlogs⟩) fun _ _ _ => hout

/-! ### loaduvm -/

/-- How far the reads of `loaduvm` have come; a file is too short for a load that wraps around. -/
structure Progress (ip : File) (off filesz count i : Nat) : Prop where
  low : ∀ c, count = c + 1 → i + c * pgsize < filesz
  high : filesz ≤ i + count * pgsize
  read : i = 0 ∨ i ≤ (off + i) % 2 ^ 32 ∧ (off + i) % 2 ^ 32 ≤ ip.bytes.length ∨ filesz ≤ 2 ^ 20

theorem progress_start (ip : File) (off filesz : Nat) : Progress ip off filesz (npages filesz) 0 := by
  refine ⟨fun c hc => ?_, ?_, .inl rfl⟩
  · simp only [npages, pgsize] at hc ⊢
    omega
  · simp only [npages, pgsize]
    omega

theorem readi_some (h : readi ip off n = some bytes) :
    off ≤ ip.bytes.length ∧ bytes.length ≤ n ∧ (bytes.length = n → off + n ≤ ip.bytes.length) := by
  unfold readi at h
  split at h
  · cases h
  · rename_i hin
    cases h
    rw [length_take, length_drop]
    omega

theorem file_small (ip : File) : ip.bytes.length ≤ 71680 := ip.small

theorem Progress.next (h : Progress ip off filesz (count + 1) i)
    (hread : readi ip ((off + i) % 2 ^ 32) (roundSize filesz i) = some bytes)
    (hall : bytes.length = roundSize filesz i) : Progress ip off filesz count (i + pgsize) := by
  have hlow := h.low count rfl
  have hhigh := h.high
  have hsmall := file_small ip
  obtain ⟨-, -, hin⟩ := readi_some hread
  have hin := hin hall
  refine ⟨fun c hc => ?_, ?_, ?_⟩
  · simp only [pgsize] at hlow ⊢
    omega
  · simp only [pgsize] at hhigh ⊢
    omega
  · have hprev := h.read
    by_cases hlast : filesz - i < pgsize
    · rw [roundSize, if_pos hlast] at hin
      simp only [pgsize] at hlow hhigh hlast ⊢
      omega
    · rw [roundSize, if_neg hlast] at hin
      simp only [pgsize] at hlow hhigh hlast hin ⊢
      omega

theorem Progress.no_spin (h : Progress ip off filesz 0 i) : ¬filesz + pgsize > 2 ^ 32 := by
  have hhigh := h.high
  have hsmall := file_small ip
  have hprev := h.read
  simp only [pgsize] at hhigh ⊢
  omega

theorem Progress.round_pos (h : Progress ip off filesz (count + 1) i) : 0 < roundSize filesz i := by
  have hlow := h.low count rfl
  by_cases hlast : filesz - i < pgsize
  · rw [roundSize, if_pos hlast]
    omega
  · rw [roundSize, if_neg hlast]
    decide

theorem roundSize_le (filesz i : Nat) : roundSize filesz i ≤ pgsize := by
  unfold roundSize
  split <;> omega

theorem load_good (h : Building m₀ l₀ own₀ d sz m l own) (hk : va / pgsize < npages sz) :
    Load.Good l₀ ⟨va, pteAt m.word d (va / pgsize)⟩ := by
  have hmax := npages_le (Nat.le_of_lt h.image.small)
  have hpresent := h.image.inside _ hk
  have huser := (h.owned.accepts h.live (by omega) hpresent).1
  refine ⟨?_, hpresent, ?_, h.sub (.inr (spaceOf_of_own huser))⟩
  · change npages sz ≤ 524288 at hmax
    simp only [pgsize, kernbase] at hk ⊢
    omega
  · have hflags : pteFlags (pteAt m.word d (va / pgsize)) = 7 := h.flags _ hk
    simp only [pteFlags, pteU, pgsize] at hflags ⊢
    omega

theorem load_not_good (h : Building m₀ l₀ own₀ d sz m l own) (hk : ¬va / pgsize < npages sz) :
    ¬Load.Good l₀ ⟨va, pteAt m.word d (va / pgsize)⟩ := by
  intro hgood
  have huser := hgood.user
  have hpresent : Present (pteAt m.word d (va / pgsize)) := hgood.present
  have hpage : va / pgsize < userPages := by
    simp only [kernbase] at huser
    change va / 4096 < 524288
    omega
  rw [h.image.user_empty (Nat.le_of_not_lt hk) hpage] at hpresent
  exact absurd hpresent (by decide)

theorem logs_ite {c : Prop} [Decidable c] {x y : X α} (hx : Logs x) (hy : Logs y) : Logs (if c then x else y) :=
  fun s => .ite (fun _ => hx s) fun _ => hy s

theorem logs_loadLoop (count i : Nat) : Logs (loadLoop cur d addr ip off filesz count i) := by
  induction count generalizing i with
  | zero =>
    unfold loadLoop
    split
    · exact logs_throw _
    · exact logs_pure _
  | succ count ih =>
    unfold loadLoop
    refine (logs_lift _).bind fun pte => ?_
    dsimp only
    refine logs_ite (fun _ => .after_error rfl trivial) (logs_get.bind fun s => ?_)
    cases readi ip ((off + i) % 2 ^ 32) (roundSize filesz i) with
    | none => exact logs_pure _
    | some bytes =>
      have hrest : Logs (do
          lift (memmove cur (p2v (pteAddr (s.mem.word pte))) bytes)
          if bytes.length ≠ roundSize filesz i then return -1
          loadLoop cur d addr ip off filesz count (i + pgsize)) := by
        exact (logs_lift _).bind fun _ => logs_ite (logs_pure _) (ih _)
      dsimp only
      exact logs_ite (Logs.bind (fun _ => .modify (prefix_append _ _)) fun _ => hrest) hrest

theorem logs_loaduvm (cur d addr : Nat) (ip : File) (off filesz : Nat) : Logs (loaduvm cur d addr ip off filesz) := by
  unfold loaduvm
  exact logs_ite (fun _ => .after_error rfl trivial) (logs_loadLoop _ _)

theorem loadLoop_ends (h : Building m₀ l₀ own₀ d sz s.mem l own) (hprogress : Progress ip off filesz count i) :
    Ends (loadLoop cur d addr ip off filesz count i) s
      (fun r s' => Outcome l₀ s s' (LoadInside ip sz addr off filesz count i)
        ((r < 0 ↔ loadReads ip off filesz count i = false) ∧ Loaded l₀ s s' ∧ Building m₀ l₀ own₀ d sz s'.mem l own))
      fun _ _ => ¬LoadInside ip sz addr off filesz count i := by
  induction count generalizing i s with
  | zero =>
    unfold loadLoop
    rw [if_neg hprogress.no_spin]
    exact .pure (.inl ⟨trivial, by simp [loadReads], .refl l₀ s, h⟩)
  | succ count ih =>
    have hva : (addr + i) % 2 ^ 32 < 2 ^ 32 := Nat.mod_lt _ (by decide)
    unfold loadLoop
    by_cases hhas : imageHas sz ((addr + i) % 2 ^ 32 / pgsize / nptentries)
    · have hinside : LoadInside ip sz addr off filesz (count + 1) i ↔ _ := and_iff_right hhas
      have hreads : loadReads ip off filesz (count + 1) i =
          match readi ip ((off + i) % 2 ^ 32) (roundSize filesz i) with
          | none => false
          | some bytes => decide (bytes.length = roundSize filesz i) && loadReads ip off filesz count (i + pgsize) :=
        rfl
      rw [← h.image.hasTable_eq] at hhas
      obtain ⟨t, j, ht, hj, hpage, hrun, hword⟩ := walkpgdir_entry h.owned h.live hva (of_decide_eq_true hhas).2
      refine .after_ok (lift_run hrun) ?_
      rw [if_neg (h.owned.table_ne_zero ht _)]
      refine .after_ok (get_run s) ?_
      rw [hword, hreads]
      cases hread : readi ip ((off + i) % 2 ^ 32) (roundSize filesz i) with
      | none =>
        rw [hread] at hinside
        exact .pure (.inl ⟨hinside.mpr trivial, by simp, .refl l₀ s, h⟩)
      | some bytes =>
        rw [hread] at hinside
        dsimp only at hinside ⊢
        have hlen := Nat.le_trans (readi_some hread).2.1 (roundSize_le filesz i)
        by_cases hbytes : bytes = []
        · have hne : bytes.length ≠ roundSize filesz i := by
            rw [hbytes]
            exact Nat.ne_of_lt hprogress.round_pos
          have hin := hinside.mpr ⟨fun hne => absurd hbytes hne, fun heq => absurd heq hne⟩
          rw [if_neg (not_not.mpr hbytes)]
          refine .bind (lift_spec (Q := fun _ m => m = s.mem) (E := fun _ _ => False) ?_).returns ?_
          · unfold memmove
            rw [if_neg (not_not.mpr hbytes)]
            exact .pure rfl
          · rintro _ s₁ ⟨m₁, rfl, rfl⟩
            rw [if_pos hne]
            exact .pure (.inl ⟨hin, by simp [hne], .refl l₀ s, h⟩)
        rw [if_pos hbytes]
        by_cases hk : (addr + i) % 2 ^ 32 / pgsize < npages sz
        · have hgood := load_good h hk
          refine .after_ok rfl (.bind (lift_spec (s := { s with loads := s.loads ++ [_] })
            (h.memmove cur hk hlen)).returns ?_)
          rintro _ s₁ ⟨m₁, rfl, h₁⟩
          have hloaded : Loaded l₀ s { s with mem := m₁, loads := s.loads ++ [_] } :=
            ⟨m₁, _, rfl, fun x hx => by rw [mem_singleton.mp hx]; exact hgood⟩
          by_cases hall : bytes.length ≠ roundSize filesz i
          · rw [if_pos hall]
            exact .pure (.inl ⟨hinside.mpr ⟨fun _ => hk, fun heq => absurd heq hall⟩, by simp [hall], hloaded, h₁⟩)
          · have heq := not_not.mp hall
            rw [if_neg hall]
            refine (ih h₁ (hprogress.next hread heq)).mono (fun r s₂ hr => ?_)
              fun _ _ hout hin => hout ((hinside.mp hin).2 heq)
            obtain ⟨hin, hneg, hmore, hbuild⟩ | ⟨hout, hstrayed⟩ := hr
            · refine .inl ⟨hinside.mpr ⟨fun _ => hk, fun _ => hin⟩, ?_, hloaded.trans hmore, hbuild⟩
              rw [hneg]
              simp [heq]
            · exact .inr ⟨fun hin => hout ((hinside.mp hin).2 heq), hstrayed.earlier hloaded.logs⟩
        · have hstrayed : Strayed l₀ s { s with loads := s.loads ++ [_] } :=
            ⟨_, rfl, _, mem_singleton_self _, load_not_good h hk⟩
          refine .after_ok rfl (hstrayed.rest (fun hin => hk ((hinside.mp hin).1 hbytes)) ?_)
          refine (logs_lift _).bind fun _ => ?_
          split
          · exact logs_pure _
          · exact logs_loadLoop _ _
    · have hnone : tableAt s.mem.word d ((addr + i) % 2 ^ 32 / pgsize / nptentries) = none := by
        by_contra hsome
        refine hhas ?_
        rw [← h.image.hasTable_eq]
        have hlt : (addr + i) % 2 ^ 32 / 4096 / 1024 < 1024 := by omega
        exact decide_eq_true ⟨hlt, hsome⟩
      refine .after_ok (lift_run (walkpgdir_missing (by rw [pdx_eq hva, hnone]))) ?_
      rw [if_pos rfl]
      exact .after_error rfl fun hin => hhas hin.1

theorem loaduvm_ends (h : Building m₀ l₀ own₀ d sz s.mem l own) :
    Ends (loaduvm cur d addr ip off filesz) s
      (fun r s' => Outcome l₀ s s' (addr % pgsize = 0 ∧ LoadInside ip sz addr off filesz (npages filesz) 0)
        ((r < 0 ↔ loadReads ip off filesz (npages filesz) 0 = false) ∧ Loaded l₀ s s' ∧
          Building m₀ l₀ own₀ d sz s'.mem l own))
      fun _ _ => ¬(addr % pgsize = 0 ∧ LoadInside ip sz addr off filesz (npages filesz) 0) := by
  unfold loaduvm
  refine .ite (fun haddr => .after_error rfl fun hin => haddr hin.1) fun haddr => ?_
  simp only [and_iff_right (not_not.mp haddr)]
  exact loadLoop_ends h (progress_start ip off filesz)

/-! ### The program headers -/

/-- What a round of the loop does with its program header. -/
inductive Header
  | stop
  | skip
  | load (ph : Proghdr)

def header (ip : File) (off : Nat) : Header :=
  match readi ip off proghdrSize with
  | none => .stop
  | some bytes =>
    if bytes.length ≠ proghdrSize then .stop
    else if (Proghdr.read bytes).type ≠ elfProgLoad then .skip
    else if (Proghdr.read bytes).memsz < (Proghdr.read bytes).filesz then .stop
    else .load (Proghdr.read bytes)

theorem loadHeaders_succ (cur d : Nat) (ip : File) (n off sz : Nat) :
    loadHeaders cur d ip (n + 1) off sz =
      match header ip off with
      | .stop => pure none
      | .skip => loadHeaders cur d ip n ((off + proghdrSize) % 2 ^ 32) sz
      | .load ph => (do
          let sz ← lift (allocuvm d sz ((ph.vaddr + ph.memsz) % 2 ^ 32))
          if sz = 0 then return none
          if (← loaduvm cur d ph.vaddr ip ph.off ph.filesz) < 0 then return none
          loadHeaders cur d ip n ((off + proghdrSize) % 2 ^ 32) sz) := by
  rw [loadHeaders, header]
  cases readi ip off proghdrSize with
  | none => rfl
  | some bytes =>
    dsimp only
    split
    · rfl
    · split
      · rfl
      · split <;> rfl

theorem segments_succ (ip : File) (n off sz free : Nat) :
    segments ip (n + 1) off sz free =
      match header ip off with
      | .stop => []
      | .skip => segments ip n ((off + proghdrSize) % 2 ^ 32) sz free
      | .load ph => ⟨sz, (ph.vaddr + ph.memsz) % 2 ^ 32, free, ph.vaddr, ph.off, ph.filesz⟩ ::
          match grow free sz ((ph.vaddr + ph.memsz) % 2 ^ 32) with
          | none => []
          | some (sz, free) =>
            if loadReads ip ph.off ph.filesz (npages ph.filesz) 0 then
              segments ip n ((off + proghdrSize) % 2 ^ 32) sz free
            else [] := by
  rw [segments, header]
  cases readi ip off proghdrSize with
  | none => rfl
  | some bytes =>
    dsimp only
    split
    · rfl
    · split
      · rfl
      · split <;> rfl

theorem leaks_cons (g : Segment) (segs : List Segment) : Leaks (g :: segs) ↔ g.request = some .table ∨ Leaks segs := by
  simp only [Leaks, exists_mem_cons_iff]

theorem not_leaks_nil : ¬Leaks [] := fun ⟨_, hg, _⟩ => nomatch hg

/-- How the loop over the program headers ends, `segs` being its segments. -/
def HeadersEnd (m₀ : Memory) (l₀ : List Nat) (own₀ : Nat → Option Owner) (d : Nat) (segs : List Segment)
    (s : Machine) (r : Option Nat) (s' : Machine) : Prop :=
  Loaded l₀ s s' ∧
    match r with
    | some sz => ∃ l own, Building m₀ l₀ own₀ d sz s'.mem l own ∧ stackSegment sz l.length ∈ segs ∧
        (Leaks segs ↔ (stackSegment sz l.length).request = some .table)
    | none => ∃ lost l own, Held m₀ l₀ own₀ d lost s'.mem l own ∧ (Leaks segs ↔ lost ≠ none)

theorem HeadersEnd.bad (hloaded : Loaded l₀ s s') (hheld : Held m₀ l₀ own₀ d lost s'.mem l own) (hleaks : Leaks segs ↔ lost ≠ none) : HeadersEnd m₀ l₀ own₀ d segs s none s' :=
  ⟨hloaded, lost, l, own, hheld, hleaks⟩

theorem HeadersEnd.after (hloaded : Loaded l₀ s s') (h : HeadersEnd m₀ l₀ own₀ d segs s' r s'') (hg : g.request ≠ some .table) :
    HeadersEnd m₀ l₀ own₀ d (g :: segs) s r s'' := by
  refine ⟨hloaded.trans h.1, ?_⟩
  have hends := h.2
  cases r with
  | some sz =>
    obtain ⟨l, own, hbuild, hin, hleaks⟩ := hends
    refine ⟨l, own, hbuild, mem_cons_of_mem _ hin, ?_⟩
    rw [leaks_cons, or_iff_right hg, hleaks]
  | none =>
    obtain ⟨lost, l, own, hheld, hleaks⟩ := hends
    refine ⟨lost, l, own, hheld, ?_⟩
    rw [leaks_cons, or_iff_right hg, hleaks]

theorem growRequests_kept (h : newsz < sz) : growRequests sz newsz = [] := by
  have hmono := npages_mono (Nat.le_of_lt h)
  rw [growRequests, show npages newsz - npages sz = 0 by omega]
  rfl

/-- Where a segment's growth ends: with the size and the pages that `grow` computes, or in `bad`. -/
inductive SegmentEnd (m₀ : Memory) (l₀ : List Nat) (own₀ : Nat → Option Owner) (d : Nat) (g : Segment) :
    Nat → Memory → Prop
  | bad (lost : Option Nat) (m : Memory) (l : List Nat) (own : Nat → Option Owner)
      (hgrow : grow g.free g.sz g.newsz = none) (hheld : Held m₀ l₀ own₀ d lost m l own)
      (hleaks : g.request = some .table ↔ lost ≠ none) : SegmentEnd m₀ l₀ own₀ d g 0 m
  | good (sz : Nat) (m : Memory) (l : List Nat) (own : Nat → Option Owner) (hne : sz ≠ 0)
      (hgrow : grow g.free g.sz g.newsz = some (sz, l.length)) (hbuild : Building m₀ l₀ own₀ d sz m l own)
      (hreq : g.request ≠ some .table) : SegmentEnd m₀ l₀ own₀ d g sz m

theorem allocuvm_segment (h : Building m₀ l₀ own₀ d sz m l own) (hsz : g.sz = sz)
    (hfree : g.free = l.length) (hshort : ¬g.Short) :
    Ends (allocuvm d sz g.newsz) m (SegmentEnd m₀ l₀ own₀ d g) fun _ _ => False := by
  subst hsz
  refine (h.allocuvm g.newsz).post fun r m' hends => ?_
  cases hends with
  | refused hbig =>
    refine .bad none m l own (if_pos hbig) h.toHeld ?_
    rw [Segment.request, if_neg (Nat.not_lt_of_le hbig)]
    exact iff_of_false nofun fun hne => hne rfl
  | kept hsmall hlt =>
    refine .good _ m l own (Nat.ne_of_gt (Nat.lt_of_le_of_lt (Nat.zero_le _) hlt)) ?_ h ?_
    · rw [grow, if_neg (Nat.not_le_of_lt hsmall), if_pos hlt, hfree]
    · rw [Segment.request, if_pos hsmall, growRequests_kept hlt]
      exact nofun
  | grown _ l' own' hsmall hle hbuild hlen =>
    rw [← hfree] at hlen
    have hreq : g.request = none := by
      rw [Segment.request, if_pos hsmall, getElem?_eq_none (by omega)]
    by_cases hzero : g.newsz = 0
    · rw [hzero]
      refine .bad none m' l' own' ?_ hbuild.toHeld ?_
      · rw [grow, if_neg (Nat.not_le_of_lt hsmall), if_neg (Nat.not_lt_of_le hle), if_neg fun hf => hf.2 hzero]
      · rw [hreq]
        exact iff_of_false nofun fun hne => hne rfl
    · refine .good _ m' l' own' hzero ?_ hbuild (by rw [hreq]; exact nofun)
      rw [grow, if_neg (Nat.not_le_of_lt hsmall), if_neg (Nat.not_lt_of_le hle), if_pos ⟨by omega, hzero⟩, hlen,
        Nat.add_sub_cancel_left]
  | short _ hsmall hle hreq hlast =>
    rw [← hfree] at hreq hlast
    refine absurd ⟨?_, hlast⟩ hshort
    rw [Segment.request, if_pos hsmall, hreq]
  | failed lost _ l' own' hsmall hle hheld hreq =>
    rw [← hfree] at hreq
    have hlt : g.free < (growRequests g.sz g.newsz).length := by
      by_contra hge
      rw [getElem?_eq_none (Nat.le_of_not_lt hge)] at hreq
      cases hreq
    refine .bad lost m' l' own' ?_ hheld ?_
    · rw [grow, if_neg (Nat.not_le_of_lt hsmall), if_neg (Nat.not_lt_of_le hle), if_neg fun hf => by omega]
    · rw [Segment.request, if_pos hsmall, hreq]
      cases lost with
      | none => simp
      | some q => simp

theorem stackSegment_inside (sz : Nat) (h : g = stackSegment sz free) : g.Inside ip := by
  subst h
  unfold Segment.Inside
  split
  · trivial
  · rename_i sz' _ _
    have hzero : npages 0 = 0 := by decide
    change 0 % pgsize = 0 ∧ LoadInside ip sz' 0 0 0 (npages 0) 0
    rw [hzero]
    exact ⟨rfl, trivial⟩

theorem logs_loadHeaders (n off sz : Nat) : Logs (loadHeaders cur d ip n off sz) := by
  induction n generalizing off sz with
  | zero => exact logs_pure _
  | succ n ih =>
    rw [loadHeaders_succ]
    cases header ip off with
    | stop => exact logs_pure _
    | skip => exact ih _ _
    | load ph =>
      refine (logs_lift _).bind fun sz => logs_ite (logs_pure _) ?_
      exact Logs.bind (logs_loaduvm _ _ _ _ _ _) fun r => logs_ite (logs_pure _) (ih _ _)

theorem loadHeaders_ends (n : Nat) (h : Building m₀ l₀ own₀ d sz s.mem l own)
    (hshort : ∀ g ∈ segments ip n off sz l.length, ¬g.Short) :
    Ends (loadHeaders cur d ip n off sz) s
      (fun r s' => Outcome l₀ s s' (∀ g ∈ segments ip n off sz l.length, g.Inside ip)
        (HeadersEnd m₀ l₀ own₀ d (segments ip n off sz l.length) s r s'))
      fun _ _ => ¬∀ g ∈ segments ip n off sz l.length, g.Inside ip := by
  induction n generalizing off sz s l own with
  | zero =>
    refine .pure (.inl ⟨fun g hg => stackSegment_inside sz (mem_singleton.mp hg), .refl l₀ s, l, own, h,
      mem_singleton_self _, ?_⟩)
    rw [segments, leaks_cons, or_iff_left not_leaks_nil]
  | succ n ih =>
    have hstop : HeadersEnd m₀ l₀ own₀ d [] s none s :=
      .bad (.refl l₀ s) h.toHeld (iff_of_false not_leaks_nil fun hne => hne rfl)
    rw [segments_succ] at hshort ⊢
    rw [loadHeaders_succ]
    cases hheader : header ip off with
    | stop => exact .pure (.inl ⟨fun _ hg => (nomatch hg), hstop⟩)
    | skip =>
      rw [hheader] at hshort
      exact ih h hshort
    | load ph =>
      rw [hheader] at hshort
      dsimp only at hshort ⊢
      have halloc := allocuvm_segment h rfl rfl (hshort _ mem_cons_self)
      refine .bind (lift_spec halloc).returns fun r s₁ hr => ?_
      obtain ⟨m₁, rfl, hends⟩ := hr
      cases hends with
      | bad lost _ l' own' hgrow hheld hleaks =>
        dsimp only at hgrow
        rw [if_pos rfl, hgrow]
        refine .pure (.inl ⟨?_, .bad (loaded_mem l₀ s m₁) hheld ?_⟩)
        · rw [forall_mem_singleton, Segment.Inside, hgrow]
          trivial
        · rw [leaks_cons, or_iff_left not_leaks_nil, hleaks]
      | good _ _ l' own' hne hgrow hbuild hreq =>
        dsimp only at hgrow
        have hself : Segment.Inside ip ⟨sz, (ph.vaddr + ph.memsz) % 2 ^ 32, l.length, ph.vaddr, ph.off, ph.filesz⟩ ↔
            ph.vaddr % pgsize = 0 ∧ LoadInside ip r ph.vaddr ph.off ph.filesz (npages ph.filesz) 0 := by
          rw [Segment.Inside, hgrow]
        simp only [hgrow, forall_mem_cons, hself] at hshort ⊢
        rw [if_neg hne]
        refine ((loaduvm_ends (s := { s with mem := m₁ }) hbuild).stop fun _ _ hout hin => hout hin.1).bind fun r' s₂ hr' => ?_
        obtain ⟨hin, hneg, hloaded, hbuild'⟩ | ⟨hout, hstrayed⟩ := hr'
        · have hall := (loaded_mem l₀ s m₁).trans hloaded
          by_cases hr' : r' < 0
          · rw [if_pos hr', if_neg (by rw [hneg.mp hr']; exact Bool.false_ne_true)]
            refine .pure (.inl ⟨⟨hin, fun _ hg => (nomatch hg)⟩, .bad hall hbuild'.toHeld ?_⟩)
            rw [leaks_cons, or_iff_left not_leaks_nil]
            exact iff_of_false hreq fun hne => hne rfl
          · have hreads : loadReads ip ph.off ph.filesz (npages ph.filesz) 0 = true := by
              rw [← Bool.not_eq_false]
              exact mt hneg.mpr hr'
            rw [if_pos hreads] at hshort ⊢
            rw [if_neg hr']
            refine (ih hbuild' hshort.2).mono (fun _ s₃ hr => ?_) fun _ _ hout hin => hout hin.2
            obtain ⟨hrest, hends⟩ | ⟨hout, hstrayed⟩ := hr
            · exact .inl ⟨⟨hin, hrest⟩, hends.after hall hreq⟩
            · exact .inr ⟨fun hin => hout hin.2, hstrayed.earlier hall.logs⟩
        · have hstrayed : Strayed l₀ s s₂ := hstrayed
          refine hstrayed.rest (fun hin => hout hin.1) ?_
          split
          · exact logs_pure _
          · exact logs_loadHeaders _ _ _

end RainOS.Process
