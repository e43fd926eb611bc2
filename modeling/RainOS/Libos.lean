import RainOS.Lib.Chain
import RainOS.Param

/-!
# The allocator of the library OS

libos.h: `init`, `alloc`, `remove_chunk`, `dalloc` and `defrag` over the memory of the process. `ExGetVA` returns the end of the
process, and `ExAddPage` maps a page there. `mapped`, `pages` and `chunks` are the pages that were mapped, the places of
the page structures and those of the chunk headers; no code reads them. Reading through a null pointer is `Halt.wild`. A
walk of more steps than there are addresses has no end; the loops of `defrag` have fuel.

`alloc` takes `current_size`, which is a number of bytes, for the address of the chunk, and never puts the chunk into a
list. The first call already fails. `defrag` never goes on to the next chunk.
-/

namespace RainOS.Libos

def uintMod : Nat := 2 ^ 32

def csz : Nat := 8

def pageHeader : Nat := 20

section Fields

variable (m : Mem)

def setSize (c v : Nat) : Mem := m.setWord 4 c v

def size (c : Nat) : Nat := m.word 4 c

def next (c : Nat) : Nat := m.word 4 (c + 4)

def setNext (c v : Nat) : Mem := m.setWord 4 (c + 4) v

def setPages (p v : Nat) : Mem := m.setWord 4 p v

def currentSize (p : Nat) : Nat := m.word 4 (p + 4)

def setCurrentSize (p v : Nat) : Mem := m.setWord 4 (p + 4) v

def freelist (p : Nat) : Nat := m.word 4 (p + 8)

def setFreelist (p v : Nat) : Mem := m.setWord 4 (p + 8) v

def alloclist (p : Nat) : Nat := m.word 4 (p + 12)

def setAlloclist (p v : Nat) : Mem := m.setWord 4 (p + 12) v

def pageNext (p : Nat) : Nat := m.word 4 (p + 16)

def setPageNext (p v : Nat) : Mem := m.setWord 4 (p + 16) v

end Fields

structure State where
  mem : Mem
  pagelist : Nat
  va : Nat
  mapped : List Nat
  pages : List Nat
  chunks : List Nat

def addPage (s : State) : State := { s with va := s.va + pgsize, mapped := s.mapped ++ [s.va] }

def init (s : State) : State :=
  let va := s.va
  let s := addPage s
  let m := setCurrentSize (setPages s.mem va 1) va (pgsize - pageHeader)
  { s with mem := setPageNext (setAlloclist (setFreelist m va 0) va 0) va 0, pagelist := va, pages := [va] }

/-- The chunk at `it->current_size`, and the pointer that is returned. -/
def carve (it n : Nat) (s : State) : Nat × State :=
  let current := currentSize s.mem it
  let m := setSize s.mem current n
  let m := setNext m current (alloclist m it)
  let location := (currentSize m it + csz) % uintMod
  let m := setCurrentSize m it ((currentSize m it + 2 * uintMod - n - csz) % uintMod)
  (location, { s with mem := m, chunks := s.chunks ++ [current] })

/-- A new `struct page` for `num` pages at `temp`, before the pages of `it`. -/
def setUp (temp it num : Nat) (s : State) : State :=
  let m := setCurrentSize (setPages s.mem temp num) temp ((pgsize * num - pageHeader) % uintMod)
  { s with mem := setPageNext (setAlloclist m temp 0) temp it, pages := s.pages ++ [temp] }

def alloc (n : Nat) (s : State) : Nat × State :=
  let it := s.pagelist
  if (currentSize s.mem it + csz) % uintMod < n then
    -- here `location` is read before the chunk is written
    let location := (currentSize s.mem it + csz) % uintMod
    (location, (carve it n s).2)
  else if n < pgsize - pageHeader then
    let temp := s.va
    carve temp n (setUp temp it 1 (addPage s))
  else
    let num := if n % pgsize = 0 then n / pgsize else n / pgsize + 1
    let temp := s.va
    carve it n (setUp temp it num (addPage^[num] s))

/-- No list of chunks at different addresses is longer. -/
def steps : Nat := 2 ^ 32

def removeLoop (address : Nat) (m : Mem) : Nat → Nat → Nat → Except Halt (Nat × Mem)
  | 0, _, _ => .error .spin
  | n + 1, prev, list =>
    if list = 0 then .error .wild
    else if next m list = 0 then .ok (0, m)
    else if list = address then .ok (list, setNext m prev (next m list))
    else removeLoop address m n list (next m list)

def removeChunk (address list : Nat) (m : Mem) : Except Halt (Nat × Mem) := removeLoop address m steps list list

def dallocLoop (location : Nat) (m : Mem) : Nat → Nat → Except Halt Mem
  | 0, _ => .error .spin
  | n + 1, it =>
    if it = 0 then .ok m
    else do
      let (temp, m') ← removeChunk location (alloclist m it) m
      if temp ≠ 0 then return setFreelist (setNext m' temp (freelist m' it)) it temp
      else dallocLoop location m n (pageNext m it)

def header (address : Nat) : Nat := (address + uintMod - csz) % uintMod

def dalloc (address : Nat) (s : State) : Except Halt State := do
  let m ← dallocLoop (header address) s.mem (steps + 1) s.pagelist
  return { s with mem := m }

def defragPage (it temp : Nat) : Nat → Mem → Except Halt Mem
  | 0, _ => .error .spin
  | n + 1, m =>
    if temp = 0 then .ok m
    else if next m temp = 0 then .error .wild
    else if (next m temp + size m (next m temp)) % uintMod = temp then do
      let (current, m) ← removeChunk temp (freelist m it) m
      if current = 0 then throw .wild
      else
        let grown := (size m (next m temp) + size m current) % uintMod
        defragPage it temp n (setSize m (next m temp) grown)
    else defragPage it temp n m

def defragLoop (n : Nat) : Nat → Nat → Mem → Except Halt Mem
  | 0, _, _ => .error .spin
  | k + 1, it, m =>
    if it = 0 then .ok m
    else do
      let m ← defragPage it (freelist m it) n m
      defragLoop n k (pageNext m it) m

def defrag (n : Nat) (s : State) : Except Halt State := do
  let m ← defragLoop n n s.pagelist s.mem
  return { s with mem := m }

/-! ### What alloc returns -/

/-- A page and the chunks in its lists. -/
structure Page where
  addr : Nat
  alloc : List Nat
  free : List Nat

structure Lists (m : Mem) (pagelist : Nat) (ps : List Page) : Prop where
  pages : Chain (pageNext m) 0 pagelist (ps.map Page.addr)
  alloc : ∀ p ∈ ps, Chain (next m) 0 (alloclist m p.addr) p.alloc
  free : ∀ p ∈ ps, Chain (next m) 0 (freelist m p.addr) p.free

inductive Call
  | alloc (n : Nat)
  | dalloc (address : Nat)
  deriving DecidableEq

/-- `alloc` has returned `n` bytes at `address` that can be used, next to the allocations `live`. -/
structure Usable (s : State) (live : List (Nat × Nat)) (address n : Nat) : Prop where
  inside : ∀ i < n, ∃ v ∈ s.mapped, v ≤ address + i ∧ address + i < v + pgsize
  pages : ∀ i < n, ∀ v ∈ s.pages, ¬(v ≤ address + i ∧ address + i < v + pageHeader)
  chunks : ∀ i < n, ∀ c ∈ s.chunks, ¬(c ≤ address + i ∧ address + i < c + csz)
  others : ∀ i < n, ∀ x ∈ live, ¬(x.1 ≤ address + i ∧ address + i < x.1 + x.2)
  recorded : ∃ ps, Lists s.mem s.pagelist ps ∧ ∃ p ∈ ps, header address ∈ p.alloc

/-- Sizes are unsigned integers, and only live pointers are passed to `dalloc`. -/
def Legal : List Call → State → List (Nat × Nat) → Prop
  | [], _, _ => True
  | .alloc n :: calls, s, live => n < uintMod ∧ Legal calls (alloc n s).2 (((alloc n s).1, n) :: live)
  | .dalloc address :: calls, s, live => (∃ n, (address, n) ∈ live) ∧
      ∀ s', dalloc address s = .ok s' → Legal calls s' (live.filter (·.1 ≠ address))

/-- All memory that the calls return can be used. -/
def Sound : List Call → State → List (Nat × Nat) → Prop
  | [], _, _ => True
  | .alloc n :: calls, s, live =>
    Usable (alloc n s).2 live (alloc n s).1 n ∧ Sound calls (alloc n s).2 (((alloc n s).1, n) :: live)
  | .dalloc address :: calls, s, live =>
    ∃ s', dalloc address s = .ok s' ∧ Sound calls s' (live.filter (·.1 ≠ address))

variable {s : State} {it n x temp num : Nat}

theorem word_carve (hcurrent : x + 4 ≤ currentSize s.mem it ∨ currentSize s.mem it + 8 ≤ x)
    (hit : x + 4 ≤ it + 4 ∨ it + 8 ≤ x) : (carve it n s).2.mem.word 4 x = s.mem.word 4 x := by
  simp (disch := omega) only [carve, setCurrentSize, setNext, setSize, Mem.word_setWord_of_disjoint]

theorem word_setUp (h : x + 4 ≤ temp ∨ temp + 20 ≤ x) : (setUp temp it num s).mem.word 4 x = s.mem.word 4 x := by
  simp (disch := omega) only [setUp, setPageNext, setAlloclist, setCurrentSize, setPages, Mem.word_setWord_of_disjoint]

theorem addPage_iterate (num : Nat) (s : State) :
    (addPage^[num] s).mem = s.mem ∧ (addPage^[num] s).pagelist = s.pagelist := by
  induction num generalizing s with
  | zero => exact ⟨rfl, rfl⟩
  | succ num ih => exact ih (addPage s)

/-- What `alloc` leaves alone, when all of the first page is free. -/
theorem word_alloc (hcurrent : currentSize s.mem s.pagelist = 4076) (hva : s.pagelist + 8 ≤ s.va)
    (hlow : x + 4 ≤ 4076 ∨ 4084 ≤ x) (hpage : s.pagelist + 8 ≤ x) (hx : x + 4 ≤ s.va) :
    (alloc n s).2.pagelist = s.pagelist ∧ (alloc n s).2.mem.word 4 x = s.mem.word 4 x := by
  unfold alloc
  dsimp only
  split
  · rw [word_carve (by rwa [hcurrent]) (.inr hpage)]
    exact ⟨rfl, rfl⟩
  split
  · have hnew : currentSize (setUp s.va s.pagelist 1 (addPage s)).mem s.va = 4076 := by
      simp (disch := omega) only [setUp, setPageNext, setAlloclist, setCurrentSize, currentSize, Mem.word_setWord,
        Mem.word_setWord_of_disjoint]
      rfl
    rw [word_carve (by rwa [hnew]) (.inl (by omega)), word_setUp (.inl hx)]
    exact ⟨rfl, rfl⟩
  · generalize (if n % pgsize = 0 then n / pgsize else n / pgsize + 1) = num
    obtain ⟨hmem, hlist⟩ := addPage_iterate num s
    have hsame : currentSize (setUp s.va s.pagelist num (addPage^[num] s)).mem s.pagelist = 4076 := by
      rw [currentSize, word_setUp (.inl hva), hmem]
      exact hcurrent
    rw [word_carve (by rwa [hsame]) (.inr hpage), word_setUp (.inl hx), hmem]
    exact ⟨hlist, rfl⟩

theorem alloc_init (hva : pgsize ∣ s.va) (n : Nat) : (alloc n (init s)).2.pagelist = s.va ∧
    pageNext (alloc n (init s)).2.mem s.va = 0 ∧ alloclist (alloc n (init s)).2.mem s.va = 0 := by
  obtain ⟨k, hk⟩ := hva
  unfold pgsize at hk
  have hinit : currentSize (init s).mem s.va = 4076 ∧ (init s).mem.word 4 (s.va + 16) = 0 ∧
      (init s).mem.word 4 (s.va + 12) = 0 := by
    simp (disch := omega) [init, currentSize, setPageNext, setAlloclist, setFreelist, setCurrentSize, Mem.word_setWord,
      Mem.word_setWord_of_disjoint, pgsize, pageHeader]
  obtain ⟨hcurrent, hnext, hnull⟩ := hinit
  have hword : ∀ i, 8 ≤ i → i ≤ 16 → (alloc n (init s)).2.pagelist = s.va ∧
      (alloc n (init s)).2.mem.word 4 (s.va + i) = (init s).mem.word 4 (s.va + i) := by
    intro i hi hi'
    have hnew : (init s).va = s.va + 4096 := rfl
    exact word_alloc hcurrent (show s.va + 8 ≤ _ by omega) (by omega) (show s.va + 8 ≤ _ by omega) (by omega)
  obtain ⟨hlist, hnext'⟩ := hword 16 (by omega) (by omega)
  exact ⟨hlist, hnext'.trans hnext, (hword 12 (by omega) (by omega)).2.trans hnull⟩

/-- The first `alloc` records no chunk. -/
theorem alloc_not_recorded (hva : pgsize ∣ s.va) (n : Nat) (live : List (Nat × Nat)) :
    ¬Usable (alloc n (init s)).2 live (alloc n (init s)).1 n := by
  intro h
  obtain ⟨ps, hlists, p, hp, hmem⟩ := h.recorded
  obtain ⟨hpagelist, hnext, hnull⟩ := alloc_init hva n
  have hpages := hlists.pages
  rw [hpagelist] at hpages
  cases ps with
  | nil => cases hp
  | cons q ps =>
    obtain ⟨hq, -, hrest⟩ := hpages
    rw [hnext] at hrest
    rw [List.map_eq_nil_iff.mp (hrest.nil_iff.mpr rfl), List.mem_singleton] at hp
    have halloc := hlists.alloc q (List.mem_cons_self ..)
    rw [← hq, hnull] at halloc
    rw [hp, halloc.nil_iff.mpr rfl] at hmem
    cases hmem

/-- Only the calls of programs that allocate nothing are sound. -/
theorem alloc_sound_iff (hva : pgsize ∣ s.va) (calls : List Call) (hlegal : Legal calls (init s) []) :
    Sound calls (init s) [] ↔ ∀ n, .alloc n ∉ calls := by
  cases calls with
  | nil => exact iff_of_true trivial fun n => List.not_mem_nil
  | cons call calls =>
    cases call with
    | alloc n =>
      exact iff_of_false (fun h => alloc_not_recorded hva n [] h.1) fun h => h n (List.mem_cons_self ..)
    | dalloc address =>
      obtain ⟨⟨n, hlive⟩, -⟩ := hlegal
      cases hlive

def onePage : State := ⟨fun _ => 0, 0, 4096, [], [], []⟩

theorem alloc_sound_iff_onePage : ¬Sound [.alloc 100] (init onePage) [] := fun h =>
  (alloc_sound_iff (by decide) [.alloc 100] ⟨by decide, trivial⟩).mp h 100 (List.mem_cons_self ..)

/-- The 100 bytes are at 4084, below the library's pages, and in no list. -/
theorem alloc_wild : (alloc 100 (init onePage)).1 = 4084 ∧ (alloc 100 (init onePage)).2.mapped = [4096, 8192] ∧
    alloclist (alloc 100 (init onePage)).2.mem 4096 = 0 := by
  decide +kernel

/-! ### What defrag does -/

variable {m m' : Mem} {ps : List Page} {l : List Nat} {k : Nat}

def bytes (m : Mem) (l : List Nat) : Set Nat := {i | ∃ c ∈ l, c ≤ i ∧ i < c + size m c}

/-- `defrag` has returned: the free lists describe the same bytes, and no chunk is followed by one that ends where it
starts. -/
def Defragments (m : Mem) (pagelist : Nat) (ps : List Page) (r : Except Halt Mem) : Prop :=
  ∃ m' qs, r = .ok m' ∧ Lists m' pagelist qs ∧
    List.Forall₂ (fun p q => p.addr = q.addr ∧ bytes m p.free = bytes m' q.free) ps qs ∧
    ∀ q ∈ qs, ∀ x y, [x, y] <:+: q.free → (y + size m' y) % uintMod ≠ x

/-- In the inner loop `temp` stays the same. -/
theorem defragPage_ne_ok (h : temp ≠ 0) (n : Nat) (m : Mem) : defragPage it temp n m ≠ .ok m' := by
  induction n generalizing m with
  | zero => nofun
  | succ n ih =>
    rw [defragPage, if_neg h]
    split
    · nofun
    split
    · cases removeChunk temp (freelist m it) m with
      | error e => nofun
      | ok r =>
        dsimp only [bind, Except.bind]
        split
        · nofun
        · exact ih _
    · exact ih _

theorem defragLoop_ok (hpages : Chain (pageNext m) 0 it l) (h : defragLoop n k it m = .ok m') :
    ∀ p ∈ l, freelist m p = 0 := by
  induction l generalizing it k with
  | nil => nofun
  | cons p l ih =>
    obtain ⟨rfl, hne, hrest⟩ := hpages
    cases k with
    | zero => cases h
    | succ k =>
      rw [defragLoop, if_neg hne] at h
      by_cases hnull : freelist m it = 0
      · cases n with
        | zero => cases h
        | succ n =>
          rw [hnull, defragPage, if_pos rfl] at h
          exact List.forall_mem_cons.mpr ⟨hnull, ih hrest h⟩
      · cases hpage : defragPage it (freelist m it) n m with
        | error e =>
          rw [hpage] at h
          cases h
        | ok m₁ => exact absurd hpage (defragPage_ne_ok hnull n m)

theorem defragLoop_empty (hpages : Chain (pageNext m) 0 it l) (hfree : ∀ p ∈ l, freelist m p = 0) :
    defragLoop (n + 1) (l.length + 1) it m = .ok m := by
  induction l generalizing it with
  | nil => rw [List.length_nil, defragLoop, if_pos (show it = 0 from hpages)]
  | cons p l ih =>
    obtain ⟨rfl, hne, hrest⟩ := hpages
    obtain ⟨hnull, hfree⟩ := List.forall_mem_cons.mp hfree
    rw [List.length_cons, defragLoop, if_neg hne, hnull, defragPage, if_pos rfl]
    exact ih hrest hfree

/-- `defrag` returns exactly if there is no free chunk. -/
theorem defrag_ends_iff (h : Lists s.mem s.pagelist ps) :
    (∃ n, Defragments s.mem s.pagelist ps ((defrag n s).map State.mem)) ↔ ∀ p ∈ ps, p.free = [] := by
  constructor
  · rintro ⟨n, m', qs, hr, -⟩ p hp
    rw [(h.free p hp).nil_iff]
    cases hloop : defragLoop n n s.pagelist s.mem with
    | error e =>
      rw [defrag, hloop] at hr
      cases hr
    | ok m₁ => exact defragLoop_ok h.pages hloop p.addr (List.mem_map_of_mem hp)
  · intro hfree
    have hnull : ∀ x ∈ ps.map Page.addr, freelist s.mem x = 0 := by
      rw [List.forall_mem_map]
      exact fun p hp => (h.free p hp).nil_iff.mp (hfree p hp)
    refine ⟨(ps.map Page.addr).length + 1, s.mem, ps, ?_, h, List.forall₂_same.mpr fun p hp => ⟨rfl, rfl⟩, fun q hq x y hxy => ?_⟩
    · rw [defrag, defragLoop_empty h.pages hnull]
      rfl
    · rw [hfree q hq] at hxy
      simp at hxy

theorem defrag_ends_iff_init : ∃ n, Defragments (init onePage).mem 4096 [⟨4096, [], []⟩]
    ((defrag n (init onePage)).map State.mem) := by
  have h : Lists (init onePage).mem (init onePage).pagelist [⟨4096, [], []⟩] := by
    refine ⟨⟨rfl, by decide, (by decide +kernel : _ = 0)⟩, ?_, ?_⟩ <;> simp only [List.forall_mem_singleton, Chain] <;>
      decide +kernel
  exact (defrag_ends_iff h).mpr (by simp)

/-- A single free chunk of 92 bytes at 5000: its `next` is null. -/
theorem defrag_null : (defrag 2 { init onePage with
    mem := setSize (setFreelist (init onePage).mem 4096 5000) 5000 92 }).map (fun _ => ()) = .error .wild := by
  decide +kernel

end RainOS.Libos
